import Eudyptula.Lib.LinkedRing

/-! Rings that readers walk without a lock while nodes are added at the end and removed. A
removed node keeps its `next` link; it may be used for something else only when every reader
that was under way at its removal has left. -/
namespace LinkedRing

section
variable {α : Type*} {l : Links α} {head a p q x : α} {xs : List α}

def Links.flip (l : Links α) : Links α := ⟨l.prev, l.next⟩

theorem IsRing.flip (h : IsRing l head xs) : IsRing l.flip head xs.reverse := by
  constructor
  · have hlinks : l.flip.Linked = fun a b => l.Linked b a := by
      funext a b
      exact propext and_comm
    have hlist : head :: (xs.reverse ++ [head]) = (head :: (xs ++ [head])).reverse := by simp
    rw [hlinks, hlist, List.isChain_reverse]
    exact h.chain
  · exact ((List.reverse_perm xs).cons head).nodup_iff.mpr h.nodup

/-- `q` is met on the way from `p` to the head. -/
inductive Links.Leads (l : Links α) (head : α) : α → α → Prop
  | here {p : α} : p ≠ head → Leads l head p p
  | next {p q : α} : p ≠ head → Leads l head (l.next p) q → Leads l head p q

theorem Links.Leads.ne_head (h : l.Leads head p q) : p ≠ head := by
  cases h with
  | here hp | next hp _ => exact hp

theorem leads_of_chain (hc : List.IsChain l.Linked (p :: xs)) (hne : ∀ y ∈ p :: xs, y ≠ head)
    (hx : x ∈ p :: xs) : l.Leads head p x := by
  induction xs generalizing p with
  | nil =>
    obtain rfl := List.mem_singleton.mp hx
    exact .here (hne x hx)
  | cons y ys ih =>
    obtain ⟨⟨hpy, -⟩, hrest⟩ := List.isChain_cons_cons.mp hc
    have hp := hne p (by simp)
    rcases List.mem_cons.mp hx with rfl | hx
    · exact .here hp
    · refine .next hp ?_
      rw [hpy]
      exact ih hrest (fun z hz => hne z (List.mem_cons_of_mem p hz)) hx

/-- A reader that starts at the head meets every node. -/
theorem IsRing.leads (h : IsRing l head xs) (hx : x ∈ xs) : l.Leads head (l.next head) x := by
  cases xs with
  | nil => simp at hx
  | cons p ps =>
    have hc : List.IsChain l.Linked ((p :: ps) ++ [head]) := (List.isChain_cons_cons.mp h.chain).2
    rw [h.next_head, List.headD_cons]
    exact leads_of_chain hc.left_of_append (fun y hy => h.ne_head hy) hx

theorem IsRing.next_mem (h : IsRing l head xs) (hp : p ∈ head :: xs) :
    l.next p = head ∨ l.next p ∈ xs := by
  rcases List.mem_cons.mp hp with rfl | hp
  · rw [h.next_head]
    cases xs <;> simp
  · obtain ⟨pre, post, rfl⟩ := List.append_of_mem hp
    rw [h.next_mid]
    cases post <;> simp

/-- The node before a node leads to it. -/
theorem IsRing.next_prev (h : IsRing l head xs) (hp : p ∈ head :: xs) : l.next (l.prev p) = p := by
  have hp' : p ∈ xs ++ [head] := by simpa [or_comm] using hp
  obtain ⟨pre, post, hsplit⟩ := List.append_of_mem hp'
  obtain ⟨as, u, hu⟩ : ∃ as u, head :: pre = as ++ [u] :=
    ⟨_, _, (List.dropLast_append_getLast (List.cons_ne_nil head pre)).symm⟩
  have hc := h.chain
  rw [hsplit, ← List.cons_append, hu, List.append_assoc, List.singleton_append,
    List.isChain_append_cons_cons] at hc
  obtain ⟨-, ⟨hnext, hprev⟩, -⟩ := hc
  rw [hprev, hnext]

theorem IsRing.prev_head_mem (h : IsRing l head xs) : l.prev head ∈ head :: xs := by
  have hprev : l.prev head = xs.reverse.headD head := h.flip.next_head
  rw [hprev]
  cases hr : xs.reverse with
  | nil => simp
  | cons y ys =>
    have hy : y ∈ xs.reverse := by simp [hr]
    simpa using Or.inr hy

variable [DecidableEq α]

/-- `list_add_tail_rcu(new, head)`, with the stores in their order. -/
def Links.listAddTail (l : Links α) (new head : α) : Links α where
  next := Function.update (Function.update l.next new head) (l.prev head) new
  prev := Function.update (Function.update l.prev new (l.prev head)) head new

theorem IsRing.leads_listDelEntry (h : IsRing l head xs) (ha : a ∈ xs) (hxa : x ≠ a)
    (hleads : l.Leads head p x) : (l.listDelEntry a).Leads head p x := by
  induction hleads with
  | here hp => exact .here hp
  | @next p x hp _ ih =>
    by_cases hpa : p = l.prev a
    · -- the way over `a` now goes round it
      have hover := ih hxa
      rw [hpa, h.next_prev (List.mem_cons_of_mem head ha)] at hover
      cases hover with
      | here => exact absurd rfl hxa
      | next _ hrest =>
        obtain ⟨pre, post, rfl⟩ := List.append_of_mem ha
        rw [h.listDelEntry_next, ← h.next_mid] at hrest
        refine .next hp ?_
        rwa [show (l.listDelEntry a).next p = l.next a by simp [Links.listDelEntry, hpa]]
    · refine .next hp ?_
      rw [show (l.listDelEntry a).next p = l.next p by simp [Links.listDelEntry, hpa]]
      exact ih hxa

theorem IsRing.listAddTail (h : IsRing l head xs) (ha : a ∉ head :: xs) :
    IsRing (l.listAddTail a head) head (xs ++ [a]) := by
  have hne : l.prev head ≠ a := fun he => ha (he ▸ h.prev_head_mem)
  have hflip : l.listAddTail a head = (l.flip.listAdd a head).flip := by
    unfold Links.listAddTail Links.listAdd Links.flip
    rw [Function.update_comm hne]
  have hrev : a ∉ head :: xs.reverse := by simpa using ha
  rw [hflip]
  simpa using (h.flip.listAdd hrev).flip

end

/-- The links of a head together with its nodes. -/
structure Ring (α : Type*) (head : α) where
  links : Links α
  nodes : List α
  ring : IsRing links head nodes

namespace Ring
section
variable {α : Type*} {head a p : α}

def empty (head : α) : Ring α head := ⟨⟨fun _ => head, fun _ => head⟩, [], isRing_nil_init⟩

variable [DecidableEq α]

/-- `list_for_each_entry` up to the first hit. -/
def search (r : Ring α head) (hit : α → Bool) : Option α :=
  (findEntry (fun p => some (r.links.next p)) (fun p => some (hit p)) head (r.nodes.length + 1)
    (r.links.next head)).join

theorem search_eq_find? (r : Ring α head) (hit : α → Bool) :
    r.search hit = r.nodes.find? hit := by
  have hnext : ∀ pre p post, r.nodes = pre ++ p :: post →
      some (r.links.next p) = some (post.headD head) := by
    intro pre p post hsplit
    have hring := r.ring
    rw [hsplit] at hring
    rw [hring.next_mid]
  have hhit : ∀ p ∈ r.nodes, some (hit p) = some (hit p) := fun _ _ => rfl
  unfold search
  rw [r.ring.next_head, findEntry_eq_find? (fun p hp => r.ring.ne_head hp) hnext hhit
    (Nat.lt_succ_self _)]
  rfl

def addTail (r : Ring α head) (a : α) (ha : a ∉ head :: r.nodes) : Ring α head where
  links := r.links.listAddTail a head
  nodes := r.nodes ++ [a]
  ring := r.ring.listAddTail ha

def del (r : Ring α head) (a : α) (ha : a ∈ r.nodes) : Ring α head where
  links := r.links.listDelEntry a
  nodes := r.nodes.erase a
  ring := by
    obtain ⟨pre, post, hsplit⟩ := List.append_of_mem ha
    have hring := r.ring
    have hnodup := (List.nodup_cons.mp hring.nodup).2
    rw [hsplit] at hring hnodup ⊢
    have hpre : a ∉ pre := fun hmem => (List.nodup_append.mp hnodup).2.2 a hmem a (by simp) rfl
    rw [List.erase_append_right _ hpre, List.erase_cons_head]
    exact hring.listDelEntry

@[simp] theorem mem_addTail {r : Ring α head} (ha : a ∉ head :: r.nodes) {x : α} :
    x ∈ (r.addTail a ha).nodes ↔ x ∈ r.nodes ∨ x = a := by
  simp [addTail]

@[simp] theorem mem_del {r : Ring α head} (ha : a ∈ r.nodes) {x : α} :
    x ∈ (r.del a ha).nodes ↔ x ≠ a ∧ x ∈ r.nodes :=
  (List.nodup_cons.mp r.ring.nodup).2.mem_erase_iff

end
end Ring

/-- A reader: the node it looks at next, and what has happened to the ring since it entered. -/
structure Reader (α : Type*) where
  pos : α
  removed : List α
  added : List α

namespace Reader
section
variable {α : Type*} {head a : α}

/-- `list_for_each_entry_rcu` reads the first link. -/
def enter (r : Ring α head) : Reader α := ⟨r.links.next head, [], []⟩

def advance (r : Ring α head) (d : Reader α) : Reader α := { d with pos := r.links.next d.pos }

def sawAdded (a : α) (d : Reader α) : Reader α := { d with added := a :: d.added }

def sawRemoved (a : α) (d : Reader α) : Reader α := { d with removed := a :: d.removed }

/-- A node in the ring, or one that cannot have been reused. -/
def Kept (r : Ring α head) (d : Reader α) (x : α) : Prop := x ∈ r.nodes ∨ x ∈ d.removed

/-- The reader stays among the nodes it may use, and has those it looks for, `P`, before it
unless they came later than the reader. -/
structure OnTrack (r : Ring α head) (P : α → Prop) (d : Reader α) : Prop where
  pos : d.pos = head ∨ d.Kept r d.pos
  closed : ∀ x ∈ d.removed, r.links.next x = head ∨ d.Kept r (r.links.next x)
  ahead : ∀ x ∈ r.nodes, P x → x ∈ d.added ∨ r.links.Leads head d.pos x

variable {r : Ring α head} {P : α → Prop} {d : Reader α} {x : α}

theorem OnTrack.next (h : d.OnTrack r P) (hx : d.Kept r x) :
    r.links.next x = head ∨ d.Kept r (r.links.next x) := by
  rcases hx with hx | hx
  · exact (r.ring.next_mem (List.mem_cons_of_mem head hx)).imp_right Or.inl
  · exact h.closed x hx

theorem onTrack_enter (r : Ring α head) (P : α → Prop) : (enter r).OnTrack r P where
  pos := (r.ring.next_mem (List.mem_cons_self ..)).imp_right Or.inl
  closed := by simp [enter]
  ahead x hx _ := Or.inr (r.ring.leads hx)

theorem OnTrack.advance (h : d.OnTrack r P) (hpos : d.pos ≠ head) (hP : ¬ P d.pos) :
    (d.advance r).OnTrack r P where
  pos := h.next (h.pos.resolve_left hpos)
  closed := h.closed
  ahead x hx hPx := by
    refine (h.ahead x hx hPx).imp_right fun hleads => ?_
    cases hleads with
    | here => exact absurd hPx hP
    | next _ hrest => exact hrest

/-- A reader at the end has missed nothing but later nodes. -/
theorem OnTrack.at_end (h : d.OnTrack r P) (hpos : d.pos = head) (hx : x ∈ r.nodes) (hPx : P x) :
    x ∈ d.added :=
  (h.ahead x hx hPx).resolve_right fun hleads => hleads.ne_head hpos

variable [DecidableEq α]

theorem Kept.del (hx : d.Kept r x) (ha : a ∈ r.nodes) : (d.sawRemoved a).Kept (r.del a ha) x := by
  by_cases hxa : x = a
  · exact Or.inr (by simp [sawRemoved, hxa])
  · exact hx.imp (fun hmem => (Ring.mem_del ha).mpr ⟨hxa, hmem⟩) (List.mem_cons_of_mem a)

theorem OnTrack.del (h : d.OnTrack r P) (ha : a ∈ r.nodes) :
    (d.sawRemoved a).OnTrack (r.del a ha) P where
  pos := h.pos.imp_right fun hpos => hpos.del ha
  closed x hx := by
    have hold : d.Kept r x := by
      rcases List.mem_cons.mp hx with rfl | hx
      · exact Or.inl ha
      · exact Or.inr hx
    by_cases hxa : x = r.links.prev a
    · rw [show (r.del a ha).links.next x = r.links.next a by
        simp [Ring.del, Links.listDelEntry, hxa]]
      exact (h.next (Or.inl ha)).imp_right fun hnext => hnext.del ha
    · rw [show (r.del a ha).links.next x = r.links.next x by
        simp [Ring.del, Links.listDelEntry, hxa]]
      exact (h.next hold).imp_right fun hnext => hnext.del ha
  ahead x hx hPx := by
    obtain ⟨hxa, hmem⟩ := (Ring.mem_del ha).mp hx
    exact (h.ahead x hmem hPx).imp_right fun hleads => r.ring.leads_listDelEntry ha hxa hleads

theorem Kept.addTail (hx : d.Kept r x) (ha : a ∉ head :: r.nodes) :
    (d.sawAdded a).Kept (r.addTail a ha) x :=
  hx.imp_left fun hmem => (Ring.mem_addTail ha).mpr (Or.inl hmem)

theorem OnTrack.leads_addTail (h : d.OnTrack r P) (ha : a ∉ head :: r.nodes)
    (hfresh : a ∉ d.removed) {p : α} (hp : d.Kept r p) (hleads : r.links.Leads head p x) :
    (r.addTail a ha).links.Leads head p x := by
  induction hleads with
  | here hne => exact .here hne
  | @next p x hne hrest ih =>
    -- the last node led to the head, so it is not passed on the way to `x`
    have hlast : p ≠ r.links.prev head := by
      rintro rfl
      exact hrest.ne_head (r.ring.next_prev (List.mem_cons_self ..))
    have hpa : p ≠ a := by
      rintro rfl
      exact hp.elim (fun hmem => ha (List.mem_cons_of_mem head hmem)) hfresh
    have hnext : (r.addTail a ha).links.next p = r.links.next p := by
      simp [Ring.addTail, Links.listAddTail, hlast, hpa]
    refine .next hne ?_
    rw [hnext]
    exact ih ((h.next hp).resolve_left hrest.ne_head)

theorem OnTrack.addTail (h : d.OnTrack r P) (ha : a ∉ head :: r.nodes) (hfresh : a ∉ d.removed) :
    (d.sawAdded a).OnTrack (r.addTail a ha) P where
  pos := h.pos.imp_right fun hpos => hpos.addTail ha
  closed x hx := by
    have hxa : x ≠ a := fun he => hfresh (he ▸ hx)
    by_cases hlast : x = r.links.prev head
    · rw [show (r.addTail a ha).links.next x = a by
        simp [Ring.addTail, Links.listAddTail, hlast]]
      exact Or.inr (Or.inl (by simp))
    · rw [show (r.addTail a ha).links.next x = r.links.next x by
        simp [Ring.addTail, Links.listAddTail, hlast, hxa]]
      exact (h.closed x hx).imp_right fun hnext => hnext.addTail ha
  ahead x hx hPx := by
    rcases (Ring.mem_addTail ha).mp hx with hmem | rfl
    · rcases h.ahead x hmem hPx with hadded | hleads
      · exact Or.inl (List.mem_cons_of_mem a hadded)
      · have hpos := h.pos.resolve_left hleads.ne_head
        exact Or.inr (h.leads_addTail ha hfresh hpos hleads)
    · exact Or.inl (by simp [sawAdded])

end
end Reader
end LinkedRing
