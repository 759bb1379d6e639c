import Eudyptula.IdList.Store

/-! The traversals that delete, on a heap that takes a cell away when it is freed. The round
that frees a node ends with a read of that node's own next link. -/
namespace Eudyptula.IdList
open CMem LinkedRing

section
variable {h h' : Heap} {es : List Entry} {a : Addr}

theorem Represents.nodup_live (hr : Represents h es) : h.live.Nodup :=
  hr.live.nodup_iff.mpr (List.nodup_cons.mp hr.ring.nodup).2

theorem Represents.addr_ne (hr : Represents h es) {e : Entry} (he : e ∈ es) :
    e.addr ≠ myIdList :=
  hr.ring.ne_head (List.mem_map_of_mem he)

theorem Represents.readable (hr : Represents h es) {e : Entry} (he : e ∈ es) (m : FreedRead) :
    h.readable m e.addr = true := by
  have hlive : e.addr ∈ h.live := hr.mem_live.mpr ⟨e, he, rfl⟩
  simp [Heap.readable, hlive]

@[simp] theorem Heap.next_myIdList (m : FreedRead) (h : Heap) :
    h.next m myIdList = some (h.links.next myIdList) := by
  simp [Heap.next, Heap.readable]

/-- Unlinking and freeing a node makes the step to the next one fail. -/
theorem next_after_kfree (hnodup : h.live.Nodup) (ha : a ≠ myIdList)
    (hfree : (h.listDelEntry .faults a).bind (Heap.kfree a) = some h') :
    h'.next .faults a = none := by
  obtain ⟨t, hdel, hfree⟩ := Option.bind_eq_some_iff.mp hfree
  obtain ⟨-, ht⟩ := Option.ite_none_right_eq_some.mp hdel
  obtain ⟨-, hh'⟩ := Option.ite_none_right_eq_some.mp hfree
  rw [Option.some.injEq] at ht hh'
  have hlive : a ∉ h'.live := by
    rw [← hh', ← ht]
    exact hnodup.not_mem_erase
  simp [Heap.next, Heap.readable, ha, hlive]

theorem destroyBody_fails (hr : Represents h es) {e : Entry} (he : e ∈ es) :
    (destroyBody .faults e.val.id e.addr h).bind (Heap.next .faults e.addr) = none := by
  unfold destroyBody Heap.get
  rw [if_pos (hr.readable he .faults), Option.bind_some, if_pos (hr.id_eq he)]
  cases hfree : (h.listDelEntry .faults e.addr).bind (Heap.kfree e.addr) with
  | none => rfl
  | some h' => exact next_after_kfree hr.nodup_live (hr.addr_ne he) hfree

theorem getBody_fails (hr : Represents h es) {e : Entry} (he : e ∈ es) (g : Node) :
    (getBody .faults e.addr (g, h)).bind (fun s => Heap.next .faults e.addr s.2) = none := by
  unfold getBody Heap.get
  rw [if_pos (hr.readable he .faults), Option.bind_some]
  cases hfree : (h.listDelEntry .faults e.addr).bind (Heap.kfree e.addr) with
  | none => rfl
  | some h' => exact next_after_kfree hr.nodup_live (hr.addr_ne he) hfree

theorem Represents.next_faults {pre post : List Entry} {e : Entry}
    (hr : Represents h (pre ++ e :: post)) :
    h.next .faults e.addr = some ((post.map Entry.addr).headD myIdList) := by
  have hring := hr.ring
  rw [List.map_append, List.map_cons] at hring
  unfold Heap.next
  rw [if_pos (hr.readable (by simp) .faults), hring.next_mid]

/-- A visit of an entry with another id. -/
theorem destroyBody_other (hr : Represents h es) {e : Entry} (he : e ∈ es) {id : BitVec 32}
    (hne : e.val.id ≠ id) : destroyBody .faults id e.addr h = some h := by
  unfold destroyBody Heap.get
  rw [if_pos (hr.readable he .faults), Option.bind_some, if_neg (by rwa [hr.id_eq he])]

theorem identityDestroy_faults_other (hr : Represents h es) {id : BitVec 32}
    (hno : ∀ e ∈ es, e.val.id ≠ id) : identityDestroy .faults id h = some h := by
  let I : List Entry → List Entry → Heap → Prop := fun seen rest t => t = h ∧ es = seen ++ rest
  have hround : ∀ seen e rest t, I seen (e :: rest) t → e.addr ≠ myIdList ∧
      ∃ t', destroyBody .faults id e.addr t = some t' ∧
        t'.next .faults e.addr = some ((rest.map Entry.addr).headD myIdList) ∧
        I (seen ++ [e]) rest t' := by
    rintro seen e rest t ⟨rfl, hes⟩
    have he : e ∈ es := by simp [hes]
    refine ⟨hr.addr_ne he, t, destroyBody_other hr he (hno e he), ?_, rfl, by simp [hes]⟩
    exact (hes ▸ hr).next_faults
  have hstart : I [] es h := ⟨rfl, rfl⟩
  obtain ⟨t, hrun, rfl, -⟩ := forEach_rule hround hstart (Nat.lt_succ_self _)
  unfold identityDestroy
  rwa [Heap.next_myIdList, Option.bind_some, hr.ring.next_head, hr.length_live]

theorem identityDestroy_faults_hit (hr : Represents h es) {id : BitVec 32}
    (hhit : ∃ e ∈ es, e.val.id = id) : identityDestroy .faults id h = none := by
  -- up to the first hit nothing has been freed
  let I : List Entry → Heap → Prop := fun rest t =>
    t = h ∧ (∃ seen, es = seen ++ rest) ∧ ∃ e ∈ rest, e.val.id = id
  have hround : ∀ e rest t, I (e :: rest) t → e.addr ≠ myIdList ∧
      ((∃ t', destroyBody .faults id e.addr t = some t' ∧
        t'.next .faults e.addr = some ((rest.map Entry.addr).headD myIdList) ∧ I rest t') ∨
        (destroyBody .faults id e.addr t).bind (Heap.next .faults e.addr) = none) := by
    rintro e rest t ⟨rfl, ⟨seen, hes⟩, hrest⟩
    have he : e ∈ es := by simp [hes]
    refine ⟨hr.addr_ne he, ?_⟩
    by_cases hid : e.val.id = id
    · subst hid
      exact Or.inr (destroyBody_fails hr he)
    · refine Or.inl ⟨t, destroyBody_other hr he hid, (hes ▸ hr).next_faults, rfl, ?_, ?_⟩
      · exact ⟨seen ++ [e], by simp [hes]⟩
      · simpa [hid] using hrest
  have hstart : I es h := ⟨rfl, ⟨[], rfl⟩, hhit⟩
  have hrun := forEach_fails_rule hround (by simp [I]) hstart (h.live.length + 1)
  unfold identityDestroy
  rwa [Heap.next_myIdList, Option.bind_some, hr.ring.next_head]

theorem identityGet_faults_nil (hr : Represents h []) (g : Node) :
    identityGet .faults g h = some (g, h) := by
  have hhead := hr.ring.next_head
  unfold identityGet
  simp only [List.map_nil, List.headD_nil] at hhead
  simp [hhead, forEach]

theorem identityGet_faults_cons {e : Entry} (hr : Represents h (e :: es)) (g : Node) :
    identityGet .faults g h = none := by
  let I : List Entry → Node × Heap → Prop := fun rest s => s = (g, h) ∧ rest = e :: es
  have hround : ∀ e' rest s, I (e' :: rest) s → e'.addr ≠ myIdList ∧
      ((∃ s', getBody .faults e'.addr s = some s' ∧
        s'.2.next .faults e'.addr = some ((rest.map Entry.addr).headD myIdList) ∧ I rest s') ∨
        (getBody .faults e'.addr s).bind (fun s => Heap.next .faults e'.addr s.2) = none) := by
    rintro e' rest s ⟨rfl, hrest⟩
    obtain ⟨rfl, rfl⟩ := List.cons.inj hrest
    exact ⟨hr.addr_ne (by simp), Or.inr (getBody_fails hr (by simp) g)⟩
  have hrun : forEach (fun a s => Heap.next .faults a s.2) (getBody .faults) myIdList
      (h.live.length + 1) (((e :: es).map Entry.addr).headD myIdList) (g, h) = none :=
    forEach_fails_rule hround (by simp [I]) ⟨rfl, rfl⟩ _
  unfold identityGet
  rwa [Heap.next_myIdList, Option.bind_some, hr.ring.next_head]

end

/-- On every well-formed list both traversals end when a freed cell keeps its contents. When
freeing takes the cell away, `identity_destroy` reads allocated cells only exactly when it
frees nothing, and `identity_get` exactly when the list is empty. -/
theorem deleting_traversal_safe_iff {h : Heap} {es : List Entry} (hr : Represents h es)
    (id : BitVec 32) (g : Node) :
    ((identityDestroy .stale id h).isSome ∧
      ((identityDestroy .faults id h).isSome ↔ ∀ e ∈ es, e.val.id ≠ id)) ∧
    (identityGet .stale g h).isSome ∧ ((identityGet .faults g h).isSome ↔ es = []) := by
  obtain ⟨h₁, hdestroy, -⟩ := identityDestroy_spec id hr
  obtain ⟨g₂, h₂, hget, -⟩ := identityGet_spec hr g
  refine ⟨⟨by simp [hdestroy], ?_⟩, by simp [hget], ?_⟩
  · by_cases hhit : ∃ e ∈ es, e.val.id = id
    · rw [identityDestroy_faults_hit hr hhit]
      obtain ⟨e, he, hid⟩ := hhit
      exact iff_of_false (by simp) fun hno => hno e he hid
    · have hno : ∀ e ∈ es, e.val.id ≠ id := fun e he hid => hhit ⟨e, he, hid⟩
      rw [identityDestroy_faults_other hr hno]
      exact iff_of_true rfl hno
  · cases es with
    | nil => simp [identityGet_faults_nil hr g]
    | cons e es => simp [identityGet_faults_cons hr g]

/-- The list with one identity, "A" with id 1. -/
def oneIdentity : Heap := (identityCreate .above ⟨[65], by decide⟩ 1 .init).2

theorem represents_oneIdentity : Represents oneIdentity [⟨1, ⟨[65], 1, false⟩⟩] :=
  (identityCreate_ok (c := ⟨1, .zero, 0, 0⟩) 1 represents_init (by decide) rfl).2

theorem deleting_traversal_safe_iff_other :
    ((identityDestroy .stale 2 oneIdentity).isSome ∧
      ((identityDestroy .faults 2 oneIdentity).isSome ↔
        ∀ e ∈ [(⟨1, ⟨[65], 1, false⟩⟩ : Entry)], e.val.id ≠ 2)) ∧
    (identityGet .stale .zero oneIdentity).isSome ∧
      ((identityGet .faults .zero oneIdentity).isSome ↔
        [(⟨1, ⟨[65], 1, false⟩⟩ : Entry)] = []) :=
  deleting_traversal_safe_iff represents_oneIdentity 2 .zero

/-- Both traversals read the next link of the node that they have just freed. -/
theorem deleting_traversal_reads_freed :
    Represents oneIdentity [⟨1, ⟨[65], 1, false⟩⟩] ∧
      (identityDestroy .faults 1 oneIdentity).isSome = false ∧
      (identityGet .faults .zero oneIdentity).isSome = false := by
  refine ⟨represents_oneIdentity, ?_, ?_⟩
  · decide +kernel
  · decide +kernel

end Eudyptula.IdList
