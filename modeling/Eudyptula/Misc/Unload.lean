import Mathlib.Data.List.Nodup
import Eudyptula.Misc.Transitions

/-! Unloading. `misc_exit` does not drain the list: it destroys the ids below `id_count`,
counting them with an `int`. -/
namespace Eudyptula.Misc
open IdList Runs State

def Unloaded (s : State) : Prop := s.exit = .done ∧ s.writers = []

/-- The list is empty and every node that was ever allocated has been freed once. -/
def Released (h : Heap) : Prop := h.identities = [] ∧ ∀ n < h.allocs, h.frees.count n = 1

def UnloadReleases (s : State) : Prop := Unloaded s → Released s.st.heap

def ExitPc.beforeEnd : ExitPc → Bool
  | .idle | .loop _ => true
  | _ => false

/-- The loop ends here: its condition fails. -/
def ExitPc.loopEnds (n : BitVec 64) : ExitPc → Bool
  | .loop i => ¬ i.signExtend 64 < n
  | _ => false

/-- The counter fits an `int`; no write creates an identity after the loop of `misc_exit`;
and the loop does not end between the `identity_create` and the `id_count++` of a write. -/
def Enumerable : Label → State → Prop
  | .write k _, s =>
    (s.writers[k]? = some .create → s.st.idCount.toNat < 2 ^ 31 ∧ s.exit.beforeEnd = true) ∧
      (s.writers[k]? = some .count → s.st.idCount.toNat < 2 ^ 31)
  | .exit, s => s.exit.loopEnds s.st.idCount = true → .count ∉ s.writers
  | _, _ => True

instance : DecidablePred UnloadReleases := fun s =>
  inferInstanceAs (Decidable (s.exit = .done ∧ s.writers = [] → s.st.heap.identities = [] ∧
    ∀ n < s.st.heap.allocs, s.st.heap.frees.count n = 1))

instance : (l : Label) → (s : State) → Decidable (Enumerable l s)
  | .write _ _, _ => inferInstanceAs (Decidable ((_ → _) ∧ (_ → _)))
  | .exit, _ => inferInstanceAs (Decidable (_ → _))
  | .init _ _, _ | .worker _, _ | .timedOut _, _ | .spurious, _ | .writeBegin _, _ =>
    inferInstanceAs (Decidable True)

/-- What the cleanup relies on: the ids given out by writes lie below `id_count`, one that
equals it belongs to a write about to count it, and the identities of `misc_init` are gone
with its `identity_get`. -/
structure Enumerated (s : State) (es : List Entry) : Prop where
  small : s.st.idCount.toNat ≤ 2 ^ 31
  bounded : ∀ e ∈ es, s.byWrite e.addr = true → e.val.id.toNat ≤ s.st.idCount.toNat ∧
    (e.val.id.toNat = s.st.idCount.toNat → .count ∈ s.writers)
  fixed : ∀ e ∈ es, s.byWrite e.addr = false → .get ∈ s.init
  unopened : .register ∈ s.init → es = []
  counter : ∀ i, s.exit = .loop i → i.toNat ≤ s.st.idCount.toNat
  swept : ∀ i, s.exit = .loop i → ∀ e ∈ es, i.toNat ≤ e.val.id.toNat
  emptied : s.exit.beforeEnd = false → es = []

section
variable {s t : State} {es es' : List Entry}

theorem enumerated_nil (hsmall : s.st.idCount.toNat ≤ 2 ^ 31)
    (hcounter : ∀ i, s.exit = .loop i → i.toNat ≤ s.st.idCount.toNat) : Enumerated s [] where
  small := hsmall
  bounded := nofun
  fixed := nofun
  unopened _ := rfl
  counter := hcounter
  swept := nofun
  emptied _ := rfl

/-- Steps that at most take nodes off the list. -/
theorem Enumerated.frame (h : Enumerated s es) (hsub : es' ⊆ es)
    (hcount : t.st.idCount = s.st.idCount) (hby : t.byWrite = s.byWrite) (hexit : t.exit = s.exit)
    (hw : .count ∈ s.writers → .count ∈ t.writers) (hget : .get ∈ s.init → .get ∈ t.init)
    (hreg : .register ∈ t.init → .register ∈ s.init) : Enumerated t es' := by
  have hnil : es = [] → es' = [] := fun hes => List.eq_nil_of_subset_nil (hes ▸ hsub)
  constructor
  · rw [hcount]
    exact h.small
  · intro e he ho
    rw [hby] at ho
    rw [hcount]
    exact (h.bounded e (hsub he) ho).imp_right fun hfresh heq => hw (hfresh heq)
  · intro e he ho
    rw [hby] at ho
    exact hget (h.fixed e (hsub he) ho)
  · exact fun hr => hnil (h.unopened (hreg hr))
  · intro i hi
    rw [hcount]
    exact h.counter i (hexit ▸ hi)
  · exact fun i hi e he => h.swept i (hexit ▸ hi) e (hsub he)
  · exact fun hend => hnil (h.emptied (hexit ▸ hend))

/-- A statement of `misc_init` that adds no node, other than `identity_get`. -/
theorem Enumerated.tail (hph : Phase s) (h : Enumerated s es) (hsub : es' ⊆ es)
    {i : InitInstr} {is : List InitInstr} (hi : s.init = i :: is) (hne : i ≠ .get)
    (hinit : t.init = is) (hcount : t.st.idCount = s.st.idCount) (hby : t.byWrite = s.byWrite)
    (hexit : t.exit = s.exit) (hw : t.writers = s.writers) : Enumerated t es' := by
  apply h.frame hsub hcount hby hexit
  · rw [hw]
    exact id
  · rw [hi, hinit, List.mem_cons]
    exact fun hmem => hmem.resolve_left hne.symm
  · rw [hinit]
    exact fun hr => (hph.register_notMem hi hr).elim

/-- A node `a` that is put on the list, by a write or by `misc_init`. -/
theorem Enumerated.put (h : Enumerated s es) {a : Addr} {v : Identity}
    (ha : a ∉ es.map Entry.addr) (hcount : t.st.idCount = s.st.idCount)
    (hby : t.byWrite = Function.update s.byWrite a (t.byWrite a)) (hexit : t.exit = s.exit)
    (hw : .count ∈ s.writers → .count ∈ t.writers) (hget : .get ∈ s.init → .get ∈ t.init)
    (hreg : .register ∉ t.init) (hend : s.exit.beforeEnd = true)
    (hnew : t.byWrite a = true → v.id.toNat = s.st.idCount.toNat ∧ .count ∈ t.writers)
    (hfix : t.byWrite a = false → .get ∈ t.init ∧ s.exit = .idle) :
    Enumerated t (⟨a, v⟩ :: es) := by
  have hold : ∀ e ∈ es, t.byWrite e.addr = s.byWrite e.addr := by
    intro e he
    have hne : e.addr ≠ a := fun heq => ha (List.mem_map.mpr ⟨e, he, heq⟩)
    rw [hby, Function.update_of_ne hne]
  constructor
  · rw [hcount]
    exact h.small
  · intro e he ho
    rw [hcount]
    rcases List.mem_cons.mp he with rfl | he
    · obtain ⟨hid, hin⟩ := hnew ho
      exact ⟨hid.le, fun _ => hin⟩
    · rw [hold e he] at ho
      exact (h.bounded e he ho).imp_right fun hfresh heq => hw (hfresh heq)
  · intro e he ho
    rcases List.mem_cons.mp he with rfl | he
    · exact (hfix ho).1
    · rw [hold e he] at ho
      exact hget (h.fixed e he ho)
  · exact fun hr => (hreg hr).elim
  · intro i hi
    rw [hcount]
    exact h.counter i (hexit ▸ hi)
  · intro i hi e he
    rw [hexit] at hi
    rcases List.mem_cons.mp he with rfl | he
    · cases hb : t.byWrite a with
      | true =>
        rw [(hnew hb).1]
        exact h.counter i hi
      | false =>
        -- `misc_init` is over before the loop starts
        rw [(hfix hb).2] at hi
        contradiction
    · exact h.swept i hi e he
  · intro hfalse
    rw [hexit, hend] at hfalse
    contradiction

theorem Enumerated.exitMove (h : Enumerated s es) (hs : s.exit.beforeEnd = false) {e : ExitPc}
    (he : e.beforeEnd = false) (hcount : t.st.idCount = s.st.idCount) (hexit : t.exit = e) :
    Enumerated t es := by
  rw [h.emptied hs]
  apply enumerated_nil
  · rw [hcount]
    exact h.small
  · intro i hi
    rw [← hexit, hi] at he
    contradiction

theorem signExtend_lt_iff {i : BitVec 32} {n : BitVec 64} (hi : i.toNat ≤ n.toNat)
    (hn : n.toNat ≤ 2 ^ 31) : i.signExtend 64 < n ↔ i.toNat < n.toNat := by
  rw [BitVec.lt_def, BitVec.toNat_signExtend, BitVec.toNat_setWidth, BitVec.msb_eq_decide]
  have hlt := i.isLt
  split_ifs with hmsb
  · rw [decide_eq_true_iff] at hmsb
    omega
  · omega

/-- `misc_exit` runs when `misc_init` is over: everything on the list comes from a write. -/
theorem Enumerated.byWrite (hph : Phase s) (h : Enumerated s es) (hne : s.exit ≠ .idle)
    {e : Entry} (he : e ∈ es) : s.byWrite e.addr = true := by
  cases ho : s.byWrite e.addr with
  | true => rfl
  | false =>
    have hget := h.fixed e he ho
    rw [hph.loaded hne] at hget
    contradiction

theorem Enumerated.destroy (h : Enumerated s es) {i : BitVec 32} {st : Statics}
    (he : s.exit = .loop i) (hlt : i.signExtend 64 < s.st.idCount)
    (hc : st.idCount = s.st.idCount) :
    Enumerated { s with st, exit := .loop (i + 1) } (es.filter fun e => e.val.id != i) := by
  have hle := h.counter i he
  have hsmall := h.small
  rw [signExtend_lt_iff hle hsmall] at hlt
  have hsucc : (i + 1).toNat = i.toNat + 1 := by
    rw [BitVec.toNat_add, show (1 : BitVec 32).toNat = 1 from rfl]
    omega
  constructor
  · exact hc ▸ hsmall
  · intro e hmem
    rw [hc]
    exact h.bounded e (List.mem_of_mem_filter hmem)
  · exact fun e hmem => h.fixed e (List.mem_of_mem_filter hmem)
  · intro hr
    rw [h.unopened hr, List.filter_nil]
  · intro j hj
    cases hj
    rw [hc, hsucc]
    exact hlt
  · intro j hj e hmem
    cases hj
    obtain ⟨hmem, hne⟩ := List.mem_filter.mp hmem
    have hge := h.swept i he e hmem
    have hne : i.toNat ≠ e.val.id.toNat := by
      intro heq
      rw [BitVec.eq_of_toNat_eq heq] at hne
      simp at hne
    omega
  · exact nofun

/-- When the loop ends every id has been enumerated. -/
theorem Enumerated.loopEnd (hph : Phase s) (h : Enumerated s es) {i : BitVec 32}
    (he : s.exit = .loop i) (hge : ¬ i.signExtend 64 < s.st.idCount) (hw : .count ∉ s.writers) :
    es = [] := by
  rw [signExtend_lt_iff (h.counter i he) h.small] at hge
  apply List.eq_nil_iff_forall_not_mem.mpr
  intro e hmem
  obtain ⟨hle, hfresh⟩ := h.bounded e hmem (h.byWrite hph (by simp [he]) hmem)
  have hlow := h.swept i he e hmem
  -- an id that has not been swept is that of a write about to count it
  exact hw (hfresh (by omega))

theorem Enumerated.counted (h : Enumerated s es) (hlt : s.st.idCount.toNat < 2 ^ 31)
    (ws : List WriterPc) : Enumerated { s with st := writeCount s.st, writers := ws } es := by
  have hsucc : (writeCount s.st).idCount.toNat = s.st.idCount.toNat + 1 := by
    unfold writeCount
    rw [BitVec.toNat_add, show (1 : BitVec 64).toNat = 1 from rfl]
    omega
  constructor
  · change (writeCount s.st).idCount.toNat ≤ 2 ^ 31
    omega
  · intro e he ho
    change _ ≤ (writeCount s.st).idCount.toNat ∧ (_ = (writeCount s.st).idCount.toNat → _)
    have hle := (h.bounded e he ho).1
    omega
  · exact h.fixed
  · exact h.unopened
  · intro i hi
    change _ ≤ (writeCount s.st).idCount.toNat
    have hle := h.counter i hi
    omega
  · exact h.swept
  · exact h.emptied

theorem count_mem_eraseIdx {ws : List WriterPc} {k : ℕ} (hk : ws[k]? = some .wake)
    (h : .count ∈ ws) : .count ∈ ws.eraseIdx k := by
  rw [List.mem_eraseIdx_iff_getElem?]
  obtain ⟨j, hj⟩ := List.mem_iff_getElem?.mp h
  refine ⟨j, fun heq => ?_, hj⟩
  rw [heq, hk] at hj
  contradiction

theorem Enumerated.trans {l : Label} (hph : Phase s) (h : Enumerated s es) (hok : Enumerable l s)
    (htr : Trans s es l t es') : Enumerated t es' := by
  have hsub : es ⊆ es := List.Subset.refl es
  have hnew : ∀ {k pc}, s.writers[k]? = some pc → .count ∈ s.writers.set k WriterPc.count := by
    intro k pc hk
    obtain ⟨hlt, -⟩ := List.getElem?_eq_some_iff.mp hk
    exact List.mem_set hlt _
  cases htr with
  | registered hi | threadRun hi | initFail hi | initFind hi =>
    exact h.tail hph hsub hi nofun rfl rfl rfl rfl rfl
  | notRegistered hi =>
    rw [h.unopened (by simp [hi])]
    exact enumerated_nil h.small h.counter
  | initDestroy hi hc =>
    exact h.tail hph (List.filter_subset_self es) hi nofun rfl hc rfl rfl rfl
  | initPut hi ha hc =>
    have hidle := hph.idle_of_cons hi
    apply h.put ha hc
    · simp
    · rfl
    · exact id
    · exact fun _ => hph.get_of_create hi
    · exact hph.register_notMem hi
    · rw [hidle]
      rfl
    · simp
    · exact fun _ => ⟨hph.get_of_create hi, hidle⟩
  | initGet hi hc => exact enumerated_nil (hc ▸ h.small) fun i he => hc ▸ h.counter i he
  | workerGet ht hpc hc => exact enumerated_nil (hc ▸ h.small) fun i he => hc ▸ h.counter i he
  | exitStart =>
    exact { h with
      counter := fun i hi => by cases hi; simp
      swept := fun i hi e _ => by cases hi; simp
      emptied := nofun }
  | exitDestroy he hlt hc => exact h.destroy he hlt hc
  | exitLoopEnd he hge =>
    have hes := h.loopEnd hph he hge (hok (by simpa [he, ExitPc.loopEnds] using hge))
    rw [hes]
    exact enumerated_nil h.small nofun
  | exitStop he | exitStopWake he | exitJoin he | exitDeregister he =>
    exact h.exitMove (by rw [he]; rfl) rfl rfl rfl
  | worker | timedOut | spurious => exact h.frame hsub rfl rfl rfl id id id
  | writeEnded hreg hc => exact h.frame hsub hc rfl rfl id id id
  | writeCopied hreg hc =>
    exact h.frame hsub hc rfl rfl (List.mem_append_left _) id id
  | writeFail hk => exact h.frame hsub rfl rfl rfl (fun _ => hnew hk) id id
  | writePut hk ha hid hc =>
    obtain ⟨hlt, hend⟩ := hok.1 hk
    apply h.put ha hc
    · simp
    · rfl
    · exact fun _ => hnew hk
    · exact id
    · intro hr
      simp [(hph.unregistered hr).2] at hk
    · exact hend
    · intro _
      rw [hid, BitVec.toNat_setWidth, Nat.mod_eq_of_lt (by omega)]
      exact ⟨rfl, hnew hk⟩
    · simp
  | writeCounted hk => exact h.counted (hok.2 hk) _
  | writeWoken hk => exact h.frame hsub rfl rfl rfl (count_mem_eraseIdx hk) id id

theorem released_of_nil {h : Heap} (hr : Represents h []) : Released h := by
  have hlive : h.live = [] := List.perm_nil.mp hr.live
  have hfrees := hr.accounted
  rw [hlive, List.map_nil, List.append_nil] at hfrees
  constructor
  · rw [hr.identities_eq, List.map_nil]
  · intro n hn
    rw [hfrees.count_eq]
    exact List.count_eq_one_of_mem List.nodup_range (List.mem_range.mpr hn)

end

/-- After every run in which the ids stay enumerable, unloading frees every node once. -/
theorem unload_releases {ls : List Label} (hok : Along step Enumerable ls .start) :
    Always step UnloadReleases ls .start := by
  have hinv := always_of_trans Enumerated (enumerated_nil (by decide) nofun)
    (fun hph _ h hl htr => h.trans hph hl htr) hok
  apply hinv.mono
  intro s hs hdone
  obtain ⟨-, es, hr, henum⟩ := hs
  have hes : es = [] := henum.emptied (by rw [hdone.1]; rfl)
  rw [hes] at hr
  exact released_of_nil hr

/-- Load, write, unload: the write's identity is destroyed by the loop. -/
def loadWriteUnload : List Label :=
  loaded ++ [.writeBegin (.byte 78), .write 0 .above, .write 0 .above, .write 0 .above] ++
    List.replicate 5 .exit ++ List.replicate 4 (.worker true) ++ List.replicate 2 .exit

theorem unload_releases_loadWriteUnload :
    Along step Enumerable loadWriteUnload .start ∧
      Always step UnloadReleases loadWriteUnload .start ∧
      (run step loadWriteUnload .start).map (fun s => (s.exit, s.writers.length)) =
        some (.done, 0) := by
  have hok : Along step Enumerable loadWriteUnload .start := by decide +kernel
  exact ⟨hok, unload_releases hok, by decide +kernel⟩

/-- A write between the end of the loop and `misc_deregister` leaves its node behind. -/
theorem unload_leaks_late_write :
    ¬ Always step UnloadReleases
      (loaded ++ List.replicate 4 .exit ++ List.replicate 4 (.worker true) ++
        [.writeBegin (.byte 78), .write 0 .above, .write 0 .above, .write 0 .above,
          .exit, .exit]) .start := by
  decide +kernel

end Eudyptula.Misc
