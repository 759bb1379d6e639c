import Mathlib.Data.List.Chain
import Mathlib.Logic.Function.Basic
import Mathlib.Tactic.Common

/-! Circular doubly linked lists with a head, as the kernel's list macros keep them.
The links of all list heads in memory are two functions on addresses; a ring is a head
with the nodes met on the way from the head back to it. -/
namespace LinkedRing

structure Links (α : Type*) where
  next : α → α
  prev : α → α

section
variable {α : Type*}

/-- `b` follows `a`, seen from both sides. -/
def Links.Linked (l : Links α) (a b : α) : Prop := l.next a = b ∧ l.prev b = a

/-- The nodes `xs` form, in this order, the ring of `head`. -/
structure IsRing (l : Links α) (head : α) (xs : List α) : Prop where
  chain : List.IsChain l.Linked (head :: (xs ++ [head]))
  nodup : (head :: xs).Nodup

variable [DecidableEq α]

/-- `list_add(new, head)`: the four stores of `__list_add(new, head, head->next)`. -/
def Links.listAdd (l : Links α) (new head : α) : Links α where
  next := Function.update (Function.update l.next new (l.next head)) head new
  prev := Function.update (Function.update l.prev (l.next head) new) new head

/-- `__list_del_entry(a)`: the neighbours are joined, the links of `a` itself stay. -/
def Links.listDelEntry (l : Links α) (a : α) : Links α where
  next := Function.update l.next (l.prev a) (l.next a)
  prev := Function.update l.prev (l.next a) (l.prev a)

/-- `list_for_each_entry` with a body that may change the state, cut off after `n`
rounds. The body and the read of the next link may fail. -/
def forEach {σ : Type*} (next : α → σ → Option α) (body : α → σ → Option σ) (head : α) :
    ℕ → α → σ → Option σ
  | 0, _, _ => none
  | n + 1, pos, s =>
    if pos = head then some s
    else (body pos s).bind fun t => (next pos t).bind fun q => forEach next body head n q t

/-- `list_for_each_entry` with a body that only tests the entry and returns it on a hit. -/
def findEntry (next : α → Option α) (hit : α → Option Bool) (head : α) :
    ℕ → α → Option (Option α)
  | 0, _ => none
  | n + 1, pos =>
    if pos = head then some none
    else (hit pos).bind fun b =>
      if b then some (some pos) else (next pos).bind fun q => findEntry next hit head n q
end

section
variable {α : Type*} {l l' : Links α} {head p : α} {xs pre post : List α}

/-- A chain only depends on the `next` fields of all nodes but its last and the `prev`
fields of all but its first. -/
theorem isChain_congr_links {ys : List α} (h : List.IsChain l.Linked ys)
    (hnext : ∀ x ∈ ys.dropLast, l'.next x = l.next x)
    (hprev : ∀ y ∈ ys.tail, l'.prev y = l.prev y) : List.IsChain l'.Linked ys := by
  rw [List.isChain_iff_forall_rel_of_append_cons_cons] at h ⊢
  intro x y as bs he
  have hxy := h he
  have hx : x ∈ ys.dropLast := by simp [he, List.dropLast_append_of_ne_nil]
  have hy : y ∈ ys.tail := by cases as <;> simp [he]
  exact ⟨(hnext x hx).trans hxy.1, (hprev y hy).trans hxy.2⟩

theorem IsRing.congr (h : IsRing l head xs)
    (hl : ∀ x ∈ head :: xs, l'.next x = l.next x ∧ l'.prev x = l.prev x) : IsRing l' head xs := by
  refine ⟨isChain_congr_links h.chain ?_ ?_, h.nodup⟩
  · intro x hx
    rw [← List.cons_append, List.dropLast_concat] at hx
    exact (hl x hx).1
  · intro y hy
    rw [List.tail_cons, List.mem_append, List.mem_singleton] at hy
    exact (hl y (List.mem_cons.mpr hy.symm)).2

theorem isRing_nil (hn : l.next head = head) (hp : l.prev head = head) : IsRing l head [] :=
  ⟨by simp [Links.Linked, hn, hp], by simp⟩

theorem isRing_nil_init : IsRing (⟨fun _ => head, fun _ => head⟩ : Links α) head [] :=
  isRing_nil rfl rfl

theorem IsRing.next_head (h : IsRing l head xs) : l.next head = xs.headD head := by
  obtain ⟨hc, -⟩ := h
  cases xs <;> simp [Links.Linked] at hc ⊢
  · exact hc.1
  · exact hc.1.1

/-- The two neighbours of a node, either of which may be the head, and the chains that
end and start with them. -/
theorem IsRing.neighbours (h : IsRing l head (pre ++ p :: post)) :
    ∃ as u v bs, head :: pre = as ++ [u] ∧ post ++ [head] = v :: bs ∧
      List.IsChain l.Linked (as ++ [u]) ∧ l.Linked u p ∧ l.Linked p v ∧
      List.IsChain l.Linked (v :: bs) := by
  obtain ⟨as, u, hu⟩ : ∃ as u, head :: pre = as ++ [u] :=
    ⟨_, _, (List.dropLast_append_getLast (List.cons_ne_nil head pre)).symm⟩
  obtain ⟨v, bs, hv⟩ := List.exists_cons_of_ne_nil (show post ++ [head] ≠ [] by simp)
  have hlist : head :: (pre ++ p :: post ++ [head]) = as ++ u :: p :: v :: bs := by
    rw [← hv, ← List.singleton_append (l := p :: (post ++ [head])), ← List.append_assoc, ← hu]
    simp
  have hc := h.chain
  rw [hlist, List.isChain_append_cons_cons, List.isChain_cons_cons] at hc
  obtain ⟨hleft, hup, hpv, hright⟩ := hc
  exact ⟨as, u, v, bs, hu, hv, hleft, hup, hpv, hright⟩

/-- The neighbours stand at no other place of the ring. -/
theorem IsRing.neighbours_once (h : IsRing l head (pre ++ p :: post)) {as bs : List α} {u v : α}
    (hu : head :: pre = as ++ [u]) (hv : post ++ [head] = v :: bs) :
    (u ∉ as ∧ u ∉ post) ∧ v ∉ bs ∧ v ∉ pre := by
  have hleft : (as ++ [u] ++ p :: post).Nodup := by
    rw [← hu, List.cons_append]
    exact h.nodup
  have hright : (pre ++ p :: (v :: bs)).Nodup := by
    rw [← hv, ← List.cons_append, ← List.append_assoc]
    exact (List.perm_append_singleton head _).nodup_iff.mpr h.nodup
  constructor
  · simp only [List.nodup_append, List.nodup_cons, List.mem_append, List.mem_cons] at hleft
    grind
  · simp only [List.nodup_append, List.nodup_cons, List.mem_cons] at hright
    grind

theorem IsRing.next_mid (h : IsRing l head (pre ++ p :: post)) : l.next p = post.headD head := by
  obtain ⟨as, u, v, bs, -, hv, -, -, hpv, -⟩ := h.neighbours
  rw [hpv.1]
  cases post <;> simp_all

theorem IsRing.ne_head (h : IsRing l head xs) (hp : p ∈ xs) : p ≠ head := by
  rintro rfl
  exact (List.nodup_cons.mp h.nodup).1 hp
end

section
variable {α : Type*} [DecidableEq α] {l : Links α} {head a p : α} {xs pre post : List α}

theorem IsRing.listAdd (h : IsRing l head xs) (ha : a ∉ head :: xs) :
    IsRing (l.listAdd a head) head (a :: xs) := by
  obtain ⟨hah, hax⟩ := not_or.mp (mt List.mem_cons.mpr ha)
  obtain ⟨hhx, hxs⟩ := List.nodup_cons.mp h.nodup
  refine ⟨?_, by simp [Ne.symm hah, hhx, hax, hxs]⟩
  -- `y` is the first node, or the head itself when the ring is empty
  obtain ⟨y, ys, hys⟩ := List.exists_cons_of_ne_nil (show xs ++ [head] ≠ [] by simp)
  have hmem : ∀ z ∈ y :: ys, z ≠ a := by
    rintro z hz rfl
    rw [← hys] at hz
    simp [hah, hax] at hz
  have hnodup : (y :: ys).Nodup := by
    rw [← hys]
    simp [List.nodup_append, hxs]
    rintro x hx rfl
    exact hhx hx
  have hc := h.chain
  rw [hys, List.isChain_cons_cons] at hc
  obtain ⟨⟨hfirst, hback⟩, hrest⟩ := hc
  rw [List.cons_append, hys, List.isChain_cons_cons, List.isChain_cons_cons]
  refine ⟨⟨by simp [Links.listAdd], by simp [Links.listAdd]⟩, ⟨?_, ?_⟩, ?_⟩
  · simp [Links.listAdd, hah, hfirst]
  · simp [Links.listAdd, hfirst, hmem y (by simp)]
  · refine isChain_congr_links hrest ?_ ?_
    · intro x hx
      rw [← hys, List.dropLast_concat] at hx
      have hxh : x ≠ head := fun he => hhx (he ▸ hx)
      have hxa : x ≠ a := fun he => hax (he ▸ hx)
      simp [Links.listAdd, hxh, hxa]
    · intro z hz
      have hzy : z ≠ y := by
        rintro rfl
        exact (List.nodup_cons.mp hnodup).1 hz
      simp [Links.listAdd, hfirst, hzy, hmem z (List.mem_cons_of_mem y hz)]

theorem IsRing.listDelEntry (h : IsRing l head (pre ++ p :: post)) :
    IsRing (l.listDelEntry p) head (pre ++ post) := by
  obtain ⟨as, u, v, bs, hu, hv, hleft, ⟨-, hpu⟩, ⟨hpv, -⟩, hright⟩ := h.neighbours
  constructor
  · have hlist : head :: (pre ++ post ++ [head]) = as ++ u :: v :: bs := by
      rw [← hv, ← List.singleton_append (l := post ++ [head]), ← List.append_assoc, ← hu]
      simp
    obtain ⟨⟨huas, hupost⟩, hvbs, hvpre⟩ := h.neighbours_once hu hv
    rw [hlist, List.isChain_append_cons_cons]
    refine ⟨isChain_congr_links hleft ?_ ?_, ?_, isChain_congr_links hright ?_ ?_⟩
    · intro x hx
      rw [List.dropLast_concat] at hx
      have hxu : x ≠ u := fun he => huas (he ▸ hx)
      simp [Links.listDelEntry, hpu, hxu]
    · intro y hy
      rw [← hu, List.tail_cons] at hy
      have hyv : y ≠ v := fun he => hvpre (he ▸ hy)
      simp [Links.listDelEntry, hpv, hyv]
    · exact ⟨by simp [Links.listDelEntry, hpu, hpv], by simp [Links.listDelEntry, hpu, hpv]⟩
    · intro x hx
      rw [← hv, List.dropLast_concat] at hx
      have hxu : x ≠ u := fun he => hupost (he ▸ hx)
      simp [Links.listDelEntry, hpu, hxu]
    · intro y hy
      have hyv : y ≠ v := fun he => hvbs (he ▸ hy)
      simp [Links.listDelEntry, hpv, hyv]
  · have hsub : (pre ++ post).Sublist (pre ++ p :: post) :=
      (List.sublist_cons_self p post).append_left pre
    exact h.nodup.sublist (hsub.cons_cons head)

/-- The links of a removed node stay as they were, so a traversal can go on from it. -/
theorem IsRing.listDelEntry_next (h : IsRing l head (pre ++ p :: post)) :
    (l.listDelEntry p).next p = post.headD head := by
  obtain ⟨as, u, v, bs, hu, -, -, ⟨-, hpu⟩, -, -⟩ := h.neighbours
  have hup : u ∈ head :: pre := by simp [hu]
  have hne : p ≠ u := by
    rintro rfl
    have hn := h.nodup
    rw [← List.cons_append] at hn
    exact (List.nodup_append.mp hn).2.2 p hup p (by simp) rfl
  rw [← h.next_mid]
  simp [Links.listDelEntry, hpu, hne]

/-- Loop rule: `I seen rest s` is what holds when the nodes of `seen` have been visited and
those of `rest` are still to be. Each round may change the links, but the node just visited
must still lead to the rest. -/
theorem forEach_rule {β σ : Type*} {next : α → σ → Option α} {body : α → σ → Option σ}
    {addr : β → α} {I : List β → List β → σ → Prop}
    (hround : ∀ seen e rest s, I seen (e :: rest) s → addr e ≠ head ∧
      ∃ t, body (addr e) s = some t ∧ next (addr e) t = some ((rest.map addr).headD head) ∧
        I (seen ++ [e]) rest t)
    {seen rest : List β} {s : σ} {n : ℕ} (hs : I seen rest s) (hn : rest.length < n) :
    ∃ t, forEach next body head n ((rest.map addr).headD head) s = some t ∧
      I (seen ++ rest) [] t := by
  induction rest generalizing seen s n with
  | nil =>
    obtain ⟨n, rfl⟩ := Nat.exists_eq_succ_of_ne_zero (Nat.ne_zero_of_lt hn)
    exact ⟨s, by simp [forEach], by simpa using hs⟩
  | cons e rest ih =>
    obtain ⟨n, rfl⟩ := Nat.exists_eq_succ_of_ne_zero (Nat.ne_zero_of_lt hn)
    obtain ⟨he, t, hbody, hnext, ht⟩ := hround seen e rest s hs
    obtain ⟨r, hr, hI⟩ := ih ht (by simpa using hn)
    rw [List.append_assoc, List.singleton_append] at hI
    refine ⟨r, ?_, hI⟩
    simpa [forEach, he, hbody, hnext] using hr

/-- Failure rule: every round goes on with `I` kept or fails, and `I` cannot hold when all
nodes have been visited. -/
theorem forEach_fails_rule {β σ : Type*} {next : α → σ → Option α} {body : α → σ → Option σ}
    {addr : β → α} {I : List β → σ → Prop}
    (hround : ∀ e rest s, I (e :: rest) s → addr e ≠ head ∧
      ((∃ t, body (addr e) s = some t ∧ next (addr e) t = some ((rest.map addr).headD head) ∧
        I rest t) ∨ (body (addr e) s).bind (next (addr e)) = none))
    (hend : ∀ s, ¬ I [] s) {rest : List β} {s : σ} (hs : I rest s) (n : ℕ) :
    forEach next body head n ((rest.map addr).headD head) s = none := by
  induction rest generalizing s n with
  | nil => exact absurd hs (hend s)
  | cons e rest ih =>
    cases n with
    | zero => rfl
    | succ n =>
      obtain ⟨he, ⟨t, hbody, hnext, ht⟩ | hfail⟩ := hround e rest s hs
      · simpa [forEach, he, hbody, hnext] using ih ht n
      · cases hbody : body (addr e) s with
        | none => simp [forEach, he, hbody]
        | some t =>
          rw [hbody, Option.bind_some] at hfail
          simp [forEach, he, hbody, hfail]

/-- A search visits the nodes in order and stops at the first hit. -/
theorem findEntry_eq_find? {next : α → Option α} {hit : α → Option Bool} {test : α → Bool}
    {n : ℕ} (hne : ∀ p ∈ xs, p ≠ head)
    (hnext : ∀ pre p post, xs = pre ++ p :: post → next p = some (post.headD head))
    (hhit : ∀ p ∈ xs, hit p = some (test p)) (hn : xs.length < n) :
    findEntry next hit head n (xs.headD head) = some (xs.find? test) := by
  induction xs generalizing n with
  | nil =>
    obtain ⟨n, rfl⟩ := Nat.exists_eq_succ_of_ne_zero (Nat.ne_zero_of_lt hn)
    simp [findEntry]
  | cons p ps ih =>
    obtain ⟨n, rfl⟩ := Nat.exists_eq_succ_of_ne_zero (Nat.ne_zero_of_lt hn)
    have hrest := ih (fun q hq => hne q (List.mem_cons_of_mem p hq))
      (fun pre q post he => hnext (p :: pre) q post (by simp [he]))
      (fun q hq => hhit q (List.mem_cons_of_mem p hq)) (Nat.lt_of_succ_lt_succ hn)
    have hp : p ≠ head := hne p (by simp)
    simp only [findEntry, List.headD_cons, hp, if_false, hhit p (by simp), Option.bind_some]
    cases ht : test p with
    | true => simp [ht]
    | false => simpa [ht, hnext [] p ps rfl] using hrest

end

end LinkedRing
