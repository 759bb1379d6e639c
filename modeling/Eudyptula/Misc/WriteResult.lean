import Eudyptula.Lib.CString
import Eudyptula.Misc.Transitions

/-! What one uninterrupted `simple_dev_write` does from any state the module can be in: its
return value against what it has done to the list, the counter, the buffer and the offset. -/
namespace Eudyptula.Misc
open CMem IdList Runs

/-- The count after the clamp. -/
def clamped (w : WriteArgs) : ℕ := min w.count (19 - w.fPos)

/-- The user address does not have the bytes that are to be copied. -/
def Faults (w : WriteArgs) : Prop := w.buf.length < clamped w

instance (w : WriteArgs) : Decidable (Faults w) := inferInstanceAs (Decidable (_ < _))

/-- `user_input` after the copy. -/
def overwritten (w : WriteArgs) (m : Bytes) : Bytes :=
  store m w.fPos (copied w.buf (clamped w))

/-- What holds of the module data between any two steps: the heap holds a list, and no write
has gone past the first 19 bytes of `user_input`. -/
structure Sane (s : Statics) : Prop where
  heap : ∃ es, Represents s.heap es
  zeros : ∀ k, 19 ≤ k → s.userInput k = 0

section
variable {w : WriteArgs} {s : Statics}

theorem writeCopy_past (h : 19 ≤ w.fPos) : writeCopy w s = (.inl 0, s) := if_pos h

theorem writeCopy_inside (h : w.fPos < 19) :
    writeCopy w s = (if Faults w then .inl (-EFAULT) else .inr (clamped w),
      { s with userInput := overwritten w s.userInput }) := by
  have hadm := w.admitted
  unfold maxRwCount at hadm
  unfold writeCopy Faults overwritten clamped
  rw [if_neg (by omega)]
  simp only [clamp_eq_min (p := w.fPos) (c := w.count) (n := 19) (by omega) (by omega),
    copyFromUser_eq]
  by_cases hf : w.buf.length < min w.count (19 - w.fPos)
  · simp [hf, Nat.sub_ne_zero_of_lt hf]
  · simp [hf, Nat.sub_eq_zero_of_le (Nat.le_of_not_lt hf)]

theorem overwritten_beyond {m : Bytes} {k : ℕ} (h : w.fPos < 19) (hk : 19 ≤ k) :
    overwritten w m k = m k := by
  refine store_outside (.inr ?_)
  rw [length_copied, clamped]
  omega

theorem Sane.copy (h : Sane s) : Sane (writeCopy w s).2 := by
  by_cases hp : 19 ≤ w.fPos
  · rw [writeCopy_past hp]
    exact h
  · rw [writeCopy_inside (Nat.lt_of_not_le hp)]
    refine ⟨h.heap, fun k hk => ?_⟩
    have hout : overwritten w s.userInput k = s.userInput k :=
      overwritten_beyond (Nat.lt_of_not_le hp) hk
    exact hout.trans (h.zeros k hk)

/-- The name is never too long for `identity_create`. -/
theorem Sane.name_length (h : Sane s) : (CStr.read s.userInput 0 4096).bytes.length ≤ 19 :=
  length_cstr_le (h.zeros _ (by omega))

end

section
variable {l : Label} {s t : State}

theorem callGet_userInput {s s' : Statics} (h : callGet s = some s') :
    s'.userInput = s.userInput := by
  obtain ⟨r, -, rfl⟩ := Option.map_eq_some_iff.mp h
  rfl

theorem callDestroy_userInput {id : BitVec 32} {s s' : Statics} (h : callDestroy id s = some s') :
    s'.userInput = s.userInput := by
  obtain ⟨r, -, rfl⟩ := Option.map_eq_some_iff.mp h
  rfl

theorem initStep_userInput {ok : Bool} {A : Allocator} (h : s.initStep ok A = some t) :
    t.st.userInput = s.st.userInput := by
  unfold State.initStep at h
  split at h
  · contradiction
  · split_ifs at h <;> (cases h; rfl)
  · cases h
    rfl
  · cases h
    rfl
  · rename_i i is _ _ _ _
    obtain ⟨st, hst, rfl⟩ := Option.map_eq_some_iff.mp h
    cases i with
    | register | kthreadRun | create => cases hst; rfl
    | get => exact callGet_userInput hst
    | find =>
      obtain ⟨r, -, rfl⟩ := Option.map_eq_some_iff.mp hst
      rfl
    | destroy => exact callDestroy_userInput hst

theorem workerStep_userInput {ok : Bool} (h : s.workerStep ok = some t) :
    t.st.userInput = s.st.userInput := by
  obtain ⟨-, h⟩ := Option.ite_none_left_eq_some.mp h
  split at h
  case h_7 =>
    obtain ⟨st, hst, rfl⟩ := Option.map_eq_some_iff.mp h
    exact callGet_userInput hst
  all_goals try split_ifs at h
  all_goals cases h <;> rfl

theorem exitStep_userInput (h : s.exitStep = some t) : t.st.userInput = s.st.userInput := by
  unfold State.exitStep at h
  split at h
  case h_2 =>
    split_ifs at h
    · obtain ⟨st, hst, rfl⟩ := Option.map_eq_some_iff.mp h
      exact callDestroy_userInput hst
    · cases h
      rfl
  all_goals try split_ifs at h
  all_goals cases h <;> rfl

/-- Nothing but the copy of a write touches `user_input`. -/
theorem step_userInput (h : step l s = some t) :
    t.st.userInput = s.st.userInput ∨ ∃ w, t.st.userInput = (writeCopy w s.st).2.userInput := by
  cases l with
  | init ok A => exact .inl (initStep_userInput h)
  | exit => exact .inl (exitStep_userInput h)
  | worker ok => exact .inl (workerStep_userInput h)
  | timedOut ret =>
    obtain ⟨-, h⟩ := Option.ite_none_right_eq_some.mp h
    cases h
    exact .inl rfl
  | spurious =>
    cases h
    exact .inl rfl
  | writeBegin w =>
    obtain ⟨-, h⟩ := Option.ite_none_right_eq_some.mp h
    refine .inr ⟨w, ?_⟩
    split at h
    all_goals
      rename_i heq
      cases h
      rw [heq]
  | write k A =>
    simp only [step, State.writeStep] at h
    split at h
    · contradiction
    all_goals
      cases h
      exact .inl rfl

theorem Sane.step (hs : Sane s.st) (h : step l s = some t) : Sane t.st := by
  obtain ⟨es, hr⟩ := hs.heap
  obtain ⟨es', hr', -⟩ := step_trans hr h
  refine ⟨⟨es', hr'⟩, fun k hk => ?_⟩
  rcases step_userInput h with heq | ⟨w, heq⟩
  · rw [heq]
    exact hs.zeros k hk
  · rw [heq]
    exact hs.copy.zeros k hk

/-- In every state of every run. -/
theorem sane_of_run {ls : List Label} (h : run step ls .start = some s) : Sane s.st := by
  have hstart : Sane State.start.st := ⟨⟨[], represents_init⟩, fun _ _ => rfl⟩
  have hstep : ∀ l u v, Sane (u : State).st → step l u = some v → Sane v.st :=
    fun _ _ _ hu huv => hu.step huv
  exact (always_of_step hstep ls hstart).of_run h

end

section
variable {A : Allocator} {w : WriteArgs} {s : Statics}

theorem write_past (A : Allocator) (s : Statics) (hp : 19 ≤ w.fPos) :
    simpleDevWrite A w s = (0, w.fPos, s) := by
  rw [simpleDevWrite, writeCopy_past hp]

theorem write_faulted (A : Allocator) (s : Statics) (hp : w.fPos < 19) (hf : Faults w) :
    simpleDevWrite A w s =
      (-EFAULT, w.fPos, { s with userInput := overwritten w s.userInput }) := by
  rw [simpleDevWrite, writeCopy_inside hp, if_pos hf]

theorem write_copied (A : Allocator) (s : Statics) (hp : w.fPos < 19) (hf : ¬ Faults w) :
    simpleDevWrite A w s = ((clamped w : ℤ), w.fPos + clamped w,
      { s with
        heap := (identityCreate A (CStr.read (overwritten w s.userInput) 0 4096)
          (s.idCount.setWidth 32) s.heap).2
        idCount := s.idCount + 1
        userInput := overwritten w s.userInput }) := by
  rw [simpleDevWrite, writeCopy_inside hp, if_neg hf]
  rfl

theorem Sane.call (hs : Sane s) (A : Allocator) (w : WriteArgs) :
    Sane (simpleDevWrite A w s).2.2 := by
  refine ⟨?_, ?_⟩
  · obtain ⟨es, hr⟩ := hs.heap
    rcases simpleDevWrite_cases A w hr with hsame | ⟨e, hrep⟩
    · rw [hsame]
      exact ⟨es, hr⟩
    · exact ⟨e :: es, hrep⟩
  · have hinput : (simpleDevWrite A w s).2.2.userInput = (writeCopy w s).2.userInput := by
      unfold simpleDevWrite
      rcases writeCopy w s with ⟨r | n, t⟩ <;> rfl
    rw [hinput]
    exact hs.copy.zeros

/-- The name fits, so `identity_create` succeeds when it gets a cell. -/
theorem Sane.create_ok (hs : Sane s) (hp : w.fPos < 19) {es : List Entry}
    (hr : Represents s.heap es) {c : Cell} (hc : A.kmalloc s.heap = some c) :
    Represents (identityCreate A (CStr.read (overwritten w s.userInput) 0 4096)
        (s.idCount.setWidth 32) s.heap).2
      (⟨c.addr, ⟨cstr (overwritten w s.userInput) 0 4096, s.idCount.setWidth 32, false⟩⟩ ::
        es) := by
  have hlen := (hs.copy (w := w)).name_length
  rw [writeCopy_inside hp] at hlen
  exact (identityCreate_ok (s.idCount.setWidth 32) hr hlen hc).2

end

/-- An allocator that is out of memory. -/
def noMemory : Allocator := ⟨fun _ => none, fun _ _ h => nomatch h⟩

end Eudyptula.Misc
