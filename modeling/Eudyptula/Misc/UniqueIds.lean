import Mathlib.Data.List.Nodup
import Eudyptula.Misc.Transitions

/-! The ids on the list come from two places: `misc_init` creates its identities with the
ids 1 to 4, a write takes the low half of `id_count` and counts up in a later step. -/
namespace Eudyptula.Misc
open CMem IdList Runs

def InitInstr.createId : InitInstr → Option (BitVec 32)
  | .create _ id => some id
  | _ => none

/-- The ids for which `misc_init` still has to create an identity. -/
def State.toCreate (s : State) : List (BitVec 32) := s.init.filterMap InitInstr.createId

/-- No id twice on the list: `identity_find` and `identity_destroy` mean one node. -/
structure UniqueIds (s : State) : Prop where
  nodup : (s.st.heap.identities.map Identity.id).Nodup
  addressed : ∀ id, (s.st.heap.nodes.filter fun a => (s.st.heap.node a).id == id).length ≤ 1

/-- A write creates its identity when no other one stands before its `id_count++`, when the
counter fits 32 bits, and, until `misc_init` has emptied the list, with an id that `misc_init`
does not use. -/
def OwnId : Label → State → Prop
  | .write k _, s => s.writers[k]? = some .create →
    .count ∉ s.writers ∧ s.st.idCount.toNat < 2 ^ 32 ∧
      (.get ∈ s.init → s.st.idCount.setWidth 32 ∉ [1, 2, 3, 4])
  | _, _ => True

instance : (l : Label) → (s : State) → Decidable (OwnId l s)
  | .write _ _, _ => inferInstanceAs (Decidable (_ → _))
  | .init _ _, _ | .exit, _ | .worker _, _ | .timedOut _, _ | .spurious, _ | .writeBegin _, _ =>
    inferInstanceAs (Decidable True)

/-- An id on the list was counted, or is about to be, or is one of `misc_init`; in the last
case the `identity_get` of `misc_init` is still to come. -/
structure Distinct (s : State) (es : List Entry) : Prop where
  nodup : (es.map fun e => e.val.id).Nodup
  pending : ∀ e ∈ es, e.val.id ∉ s.toCreate
  origin : ∀ e ∈ es, e.val.id.toNat < s.st.idCount.toNat ∨
    (.count ∈ s.writers ∧ e.val.id = s.st.idCount.setWidth 32) ∨
      (.get ∈ s.init ∧ e.val.id ∈ [1, 2, 3, 4])
  counting : s.writers.count .count ≤ 1
  small : .count ∈ s.writers → s.st.idCount.toNat < 2 ^ 32
  unopened : .register ∈ s.init → es = []

section
variable {s t : State} {es es' : List Entry}

theorem uniqueIds_of_nodup (hr : Represents s.st.heap es)
    (h : (es.map fun e => e.val.id).Nodup) : UniqueIds s := by
  constructor
  · rw [hr.identities_eq, List.map_map]
    exact h
  · intro id
    have hids : s.st.heap.nodes.map (fun a => (s.st.heap.node a).id) =
        es.map fun e => e.val.id := by
      rw [hr.nodes_eq, List.map_map]
      exact List.map_congr_left fun e he => hr.id_eq he
    have hcount := List.nodup_iff_count_le_one.mp h id
    rwa [← hids, List.count, List.countP_map, List.countP_eq_length_filter] at hcount

theorem Phase.toCreate_sublist (h : Phase s) : s.toCreate.Sublist [1, 2, 3, 4] := by
  have hids : miscInit.filterMap InitInstr.createId = [1, 2, 3, 4] := by decide
  rw [← hids]
  exact h.rest.sublist.filterMap InitInstr.createId

theorem Phase.createId_cons (h : Phase s) {name : CStr} {id : BitVec 32} {is : List InitInstr}
    (hi : s.init = .create name id :: is) :
    id ∈ [1, 2, 3, 4] ∧ id ∉ is.filterMap InitInstr.createId := by
  have hsub := h.toCreate_sublist
  have hcons : s.toCreate = id :: is.filterMap InitInstr.createId := by
    rw [State.toCreate, hi]
    rfl
  rw [hcons] at hsub
  have hnodup : (id :: is.filterMap InitInstr.createId).Nodup := hsub.nodup (by decide)
  exact ⟨hsub.subset List.mem_cons_self, (List.nodup_cons.mp hnodup).1⟩

/-- Once the `identity_get` of `misc_init` is behind, so are its calls of `identity_create`. -/
theorem Phase.get_of_toCreate (h : Phase s) {id : BitVec 32} (hid : id ∈ s.toCreate) :
    .get ∈ s.init := by
  have hall : ∀ l ∈ miscInit.tails, l.filterMap InitInstr.createId = [] ∨ .get ∈ l := by decide
  rcases hall s.init ((List.mem_tails _ _).mpr h.rest) with hnil | hget
  · rw [State.toCreate, hnil] at hid
    contradiction
  · exact hget

/-- Steps that keep the counter and how many writes are about to count, and that add no
identity. -/
theorem Distinct.frame (h : Distinct s es) (hsub : es'.Sublist es)
    (hcount : t.st.idCount = s.st.idCount)
    (hw : t.writers.count .count = s.writers.count .count) (hinit : t.init.Sublist s.init)
    (hget : .get ∈ s.init → .get ∈ t.init) : Distinct t es' := by
  have hmem : .count ∈ t.writers ↔ .count ∈ s.writers := by
    rw [← List.count_pos_iff, hw, List.count_pos_iff]
  constructor
  · exact (hsub.map _).nodup h.nodup
  · intro e he hid
    exact h.pending e (hsub.subset he) ((hinit.filterMap _).subset hid)
  · intro e he
    rw [hcount, hmem]
    rcases h.origin e (hsub.subset he) with hlt | hnew | ⟨hbefore, hid⟩
    · exact .inl hlt
    · exact .inr (.inl hnew)
    · exact .inr (.inr ⟨hget hbefore, hid⟩)
  · rw [hw]
    exact h.counting
  · rw [hmem, hcount]
    exact h.small
  · intro hreg
    have hnil := h.unopened (hinit.subset hreg)
    rw [hnil] at hsub
    exact List.sublist_nil.mp hsub

/-- A statement of `misc_init` other than `identity_get`. -/
theorem Distinct.tail (h : Distinct s es) (hsub : es'.Sublist es)
    (hcount : t.st.idCount = s.st.idCount) (hw : t.writers = s.writers) {i : InitInstr}
    {is : List InitInstr} (hi : s.init = i :: is) (hne : i ≠ .get) (hinit : t.init = is) :
    Distinct t es' := by
  refine h.frame hsub hcount (by rw [hw]) ?_ ?_
  · rw [hi, hinit]
    exact List.sublist_cons_self i is
  · rw [hi, hinit, List.mem_cons]
    exact fun hmem => hmem.resolve_left hne.symm

/-- The list was emptied. -/
theorem Distinct.nil (h : Distinct s es) (hcount : t.st.idCount = s.st.idCount)
    (hw : t.writers = s.writers) : Distinct t [] where
  nodup := List.nodup_nil
  pending := nofun
  origin := nofun
  counting := by
    rw [hw]
    exact h.counting
  small := by
    rw [hw, hcount]
    exact h.small
  unopened _ := rfl

theorem count_set_of {ws : List WriterPc} {k : ℕ} {old : WriterPc} (new : WriterPc)
    (hk : ws[k]? = some old) :
    (ws.set k new).count .count =
      ws.count .count - (if old = .count then 1 else 0) + if new = .count then 1 else 0 := by
  obtain ⟨hlt, rfl⟩ := List.getElem?_eq_some_iff.mp hk
  simp [List.count_set hlt]

theorem count_eraseIdx_of {ws : List WriterPc} {k : ℕ} (hk : ws[k]? = some .wake) :
    (ws.eraseIdx k).count .count = ws.count .count := by
  obtain ⟨hlt, hwake⟩ := List.getElem?_eq_some_iff.mp hk
  have hperm := (List.getElem_cons_eraseIdx_perm hlt).count_eq WriterPc.count
  rw [hwake] at hperm
  simpa using hperm

/-- A write between its `identity_create` and its `id_count++`. -/
theorem Distinct.created (h : Distinct s es) {k : ℕ} (hk : s.writers[k]? = some .create)
    (hnone : .count ∉ s.writers) (hsmall : s.st.idCount.toNat < 2 ^ 32) {st : Statics}
    (hcount : st.idCount = s.st.idCount) (o : Addr → Bool) :
    Distinct { s with st, byWrite := o, writers := s.writers.set k .count } es where
  nodup := h.nodup
  pending := h.pending
  origin e he := by
    dsimp only
    rw [hcount]
    rcases h.origin e he with hlt | ⟨hmem, -⟩ | hinit
    · exact .inl hlt
    · exact absurd hmem hnone
    · exact .inr (.inr hinit)
  counting := by
    dsimp only
    rw [count_set_of _ hk, List.count_eq_zero.mpr hnone]
    decide
  small _ := by
    dsimp only
    rw [hcount]
    exact hsmall
  unopened := h.unopened

/-- An id that is nowhere on the list, nor to be put there by `misc_init`, comes in front. -/
theorem Distinct.cons (h : Distinct s es) {e : Entry} (hnew : ∀ e' ∈ es, e'.val.id ≠ e.val.id)
    (hpending : e.val.id ∉ s.toCreate)
    (horigin : (.count ∈ s.writers ∧ e.val.id = s.st.idCount.setWidth 32) ∨
      (.get ∈ s.init ∧ e.val.id ∈ [1, 2, 3, 4])) (hopen : .register ∉ s.init) :
    Distinct s (e :: es) where
  nodup := by
    rw [List.map_cons, List.nodup_cons]
    refine ⟨?_, h.nodup⟩
    rintro hmem
    obtain ⟨e', he', heq⟩ := List.mem_map.mp hmem
    exact hnew e' he' heq
  pending := List.forall_mem_cons.mpr ⟨hpending, h.pending⟩
  origin := List.forall_mem_cons.mpr ⟨.inr horigin, h.origin⟩
  counting := h.counting
  small := h.small
  unopened hreg := absurd hreg hopen

/-- `id_count++`: the id waiting for it is now below the counter. -/
theorem Distinct.counted (h : Distinct s es) {k : ℕ} (hk : s.writers[k]? = some .count) :
    Distinct { s with st := writeCount s.st, writers := s.writers.set k .wake } es := by
  have hsmall := h.small (List.mem_of_getElem? hk)
  have hnext : (s.st.idCount + 1).toNat = s.st.idCount.toNat + 1 := by
    have hone : (1 : BitVec 64).toNat = 1 := rfl
    rw [BitVec.toNat_add, hone, Nat.mod_eq_of_lt (by omega)]
  have hzero : (s.writers.set k .wake).count .count = 0 := by
    have hle := h.counting
    rw [count_set_of _ hk]
    simp only [if_true, reduceCtorEq, if_false]
    omega
  constructor
  · exact h.nodup
  · exact h.pending
  · intro e he
    refine (h.origin e he).elim (fun hlt => .inl ?_) fun hor =>
      hor.elim (fun hnew => .inl ?_) fun hinit => .inr (.inr hinit)
    · change _ < (s.st.idCount + 1).toNat
      omega
    · change _ < (s.st.idCount + 1).toNat
      rw [hnew.2, BitVec.toNat_setWidth, hnext]
      omega
  · exact hzero.le.trans (Nat.zero_le 1)
  · exact fun hmem => absurd hmem (List.count_eq_zero.mp hzero)
  · exact h.unopened

/-- The id of the write is free: what is counted lies below it, and nothing waits. -/
theorem Distinct.write_ne (h : Distinct s es) (hnone : .count ∉ s.writers)
    (hsmall : s.st.idCount.toNat < 2 ^ 32)
    (hinit : .get ∈ s.init → s.st.idCount.setWidth 32 ∉ [1, 2, 3, 4]) :
    ∀ e ∈ es, e.val.id ≠ s.st.idCount.setWidth 32 := by
  intro e he heq
  rcases h.origin e he with hlt | ⟨hmem, -⟩ | ⟨hget, hid⟩
  · rw [heq, BitVec.toNat_setWidth, Nat.mod_eq_of_lt hsmall] at hlt
    omega
  · exact hnone hmem
  · exact hinit hget (heq ▸ hid)

theorem Distinct.trans {l : Label} (hph : Phase s) (h : Distinct s es) (hok : OwnId l s)
    (htr : Trans s es l t es') : Distinct t es' := by
  have hself := List.Sublist.refl es
  have hfree : ∀ id, (.get ∈ s.init → id ∉ [1, 2, 3, 4]) → id ∉ s.toCreate :=
    fun id hid hmem => hid (hph.get_of_toCreate hmem) (hph.toCreate_sublist.subset hmem)
  cases htr with
  | registered hi | threadRun hi | initFail hi | initFind hi =>
    exact h.tail hself rfl rfl hi nofun rfl
  | notRegistered hi =>
    rw [h.unopened (by simp [hi])]
    exact h.nil rfl rfl
  | initDestroy hi hc => exact h.tail List.filter_sublist hc rfl hi nofun rfl
  | initPut hi ha hc =>
    obtain ⟨hid, hnext⟩ := hph.createId_cons hi
    have hget := hph.get_of_create hi
    have hopen := hph.register_notMem hi
    apply Distinct.cons
    · exact h.tail hself hc rfl hi nofun rfl
    · intro e he heq
      refine h.pending e he ?_
      rw [State.toCreate, hi, heq]
      exact List.mem_cons_self
    · exact hnext
    · exact .inr ⟨hget, hid⟩
    · exact hopen
  | initGet hi hc => exact h.nil hc rfl
  | workerGet ht hpc hc => exact h.nil hc rfl
  | exitDestroy he hlt hc => exact h.frame List.filter_sublist hc rfl (List.Sublist.refl _) id
  | exitStart | exitLoopEnd | exitStop | exitStopWake | exitJoin | exitDeregister
  | worker | timedOut | spurious => exact h.frame hself rfl rfl (List.Sublist.refl _) id
  | writeEnded hreg hc => exact h.frame hself hc rfl (List.Sublist.refl _) id
  | writeCopied hreg hc => exact h.frame hself hc (by simp) (List.Sublist.refl _) id
  | writeFail hk =>
    obtain ⟨hnone, hsmall, -⟩ := hok hk
    exact h.created hk hnone hsmall rfl s.byWrite
  | writePut hk ha hid hc =>
    obtain ⟨hnone, hsmall, hinit⟩ := hok hk
    have hopen : .register ∉ s.init := by
      intro hreg
      simp [(hph.unregistered hreg).2] at hk
    obtain ⟨hlt, -⟩ := List.getElem?_eq_some_iff.mp hk
    refine (h.created hk hnone hsmall hc _).cons ?_ ?_ (.inl ⟨List.mem_set hlt _, ?_⟩) hopen
    · rw [hid]
      exact h.write_ne hnone hsmall hinit
    · rw [hid]
      exact hfree _ hinit
    · rw [hid, hc]
  | writeCounted hk => exact h.counted hk
  | writeWoken hk => exact h.frame hself rfl (count_eraseIdx_of hk) (List.Sublist.refl _) id

end

/-- In every run whose writes all take an id of their own the ids are unique, in every state. -/
theorem ids_unique_of_ownId (ls : List Label) (hok : Along step OwnId ls .start) :
    Always step UniqueIds ls .start := by
  have hstart : Distinct .start [] := by
    constructor
    · exact List.nodup_nil
    · nofun
    · nofun
    · decide
    · nofun
    · exact fun _ => rfl
  refine (always_of_trans Distinct hstart (fun hph _ hi hl htr => hi.trans hph hl htr) hok).mono ?_
  rintro s ⟨-, es, hr, hd⟩
  exact uniqueIds_of_nodup hr hd.nodup

theorem ids_unique_sleepThenWrite :
    (run step sleepThenWrite .start).isSome ∧ Always step UniqueIds sleepThenWrite .start :=
  ⟨by decide +kernel, ids_unique_of_ownId sleepThenWrite (by decide +kernel)⟩

/-- The device is open before `misc_init` creates its identities: the second write and
Alice both have the id 1. -/
theorem ids_collide_during_init :
    ¬ Always step UniqueIds
      [.init true .above, .init true .above,
        .writeBegin (.byte 78), .write 0 .above, .write 0 .above, .write 0 .above,
        .writeBegin (.byte 75), .write 0 .above, .write 0 .above, .write 0 .above,
        .init true .above] .start := by
  intro h
  have hnodup := h.mono fun s hs => hs.nodup
  revert hnodup
  decide +kernel

end Eudyptula.Misc
