import Eudyptula.IdFile.Agreement
import Eudyptula.IdFile.Verdict

/-! What a failed write of an id leaves behind. The handlers copy into `user_input` and move
the offset before they compare. -/
namespace Eudyptula.IdFile
open CMem

/-- How many bytes the handler asks `copy_from_user` for. -/
def IdWriter.taken : IdWriter → WriteArgs → ℕ
  | .task6, w | .task17, w => min w.count (4096 - w.fPos)
  | .task8, w => w.count

/-- A call that returns a negative value has changed neither `user_input` nor `*f_pos`. -/
def IdWriter.LeavesNoTrace (h : IdWriter) (w : WriteArgs) (m : Bytes) : Prop :=
  (h.write w m).1 < 0 → SamePage (h.write w m).2.2 m ∧ (h.write w m).2.1 = w.fPos

/-- Past the end; a fault on a range that holds the readable bytes and zeros already; or no
fault, and nothing to copy or the id at the front of the buffer with the bytes of the caller
put over it. -/
def IdWriter.Harmless (h : IdWriter) (w : WriteArgs) (m : Bytes) : Prop :=
  4096 ≤ w.fPos ∨
    (w.buf.length < h.taken w ∧
      ∀ k < min (h.taken w) (4096 - w.fPos), m (w.fPos + k) = w.buf.getD k 0) ∨
    (h.taken w ≤ w.buf.length ∧
      (h.taken w = 0 ∨ ∀ j < 13,
        (if w.fPos ≤ j ∧ j < w.fPos + h.taken w then w.buf.getD (j - w.fPos) 0 else m j) =
          author.getD j 0))

section
variable {h : IdWriter} {w : WriteArgs} {m : Bytes}

theorem IdWriter.write_past (hp : 4096 ≤ w.fPos) : h.write w m = (0, w.fPos, m) := by
  cases h with
  | task6 | task17 | task8 => exact if_pos hp

theorem IdWriter.write_inside (hp : w.fPos < 4096) :
    h.write w m = copyAndCheck w (h.taken w) m := by
  have hadm := w.admitted
  unfold maxRwCount at hadm
  cases h with
  | task6 | task17 =>
    change simpleDevWrite w m = _
    unfold simpleDevWrite
    rw [if_neg (by omega)]
    dsimp only
    rw [clamp_eq_min (by omega) (by omega)]
    rfl
  | task8 => exact if_neg (by omega)

theorem copyAndCheck_fault {n : ℕ} (hf : w.buf.length < n) :
    copyAndCheck w n m = (-EFAULT, w.fPos, store m w.fPos (copied w.buf n)) := by
  unfold copyAndCheck
  rw [copyFromUser_eq]
  exact if_pos (Nat.sub_ne_zero_of_lt hf)

theorem copyAndCheck_copied {n : ℕ} (hf : n ≤ w.buf.length) :
    copyAndCheck w n m = (verdict (store m w.fPos (copied w.buf n)) n, w.fPos + n,
      store m w.fPos (copied w.buf n)) := by
  unfold copyAndCheck
  rw [copyFromUser_eq]
  exact if_neg (not_not.mpr (Nat.sub_eq_zero_of_le hf))

theorem store_copied_apply (n j : ℕ) : store m w.fPos (copied w.buf n) j =
    if w.fPos ≤ j ∧ j < w.fPos + n then w.buf.getD (j - w.fPos) 0 else m j := by
  split_ifs with hj
  · rw [store_inside hj.1 (by rw [length_copied]; omega), getD_copied (by omega)]
  · exact store_outside (by rw [length_copied]; omega)

/-- The copy changes nothing in the buffer when the bytes are there already. -/
theorem samePage_store_copied_iff (hp : w.fPos < 4096) (n : ℕ) :
    SamePage (store m w.fPos (copied w.buf n)) m ↔
      ∀ k < min n (4096 - w.fPos), m (w.fPos + k) = w.buf.getD k 0 := by
  constructor
  · intro hsame k hk
    rw [← hsame (w.fPos + k) (by omega), store_copied_apply, if_pos (by omega),
      Nat.add_sub_cancel_left]
  · intro hthere k hk
    rw [store_copied_apply]
    split_ifs with hrange
    · obtain ⟨j, rfl⟩ := Nat.exists_eq_add_of_le hrange.1
      rw [Nat.add_sub_cancel_left, hthere j (by omega)]
    · rfl

theorem leavesNoTrace_of_fault (hp : w.fPos < 4096) (hf : w.buf.length < h.taken w) :
    h.LeavesNoTrace w m ↔
      ∀ k < min (h.taken w) (4096 - w.fPos), m (w.fPos + k) = w.buf.getD k 0 := by
  unfold IdWriter.LeavesNoTrace
  rw [IdWriter.write_inside hp, copyAndCheck_fault hf, ← samePage_store_copied_iff hp]
  have hneg : -EFAULT < 0 := by decide
  exact ⟨fun hno => (hno hneg).1, fun hsame _ => ⟨hsame, rfl⟩⟩

/-- Without a fault the offset moves, so an id of at least one byte must not be rejected. -/
theorem leavesNoTrace_of_copied (hp : w.fPos < 4096) (hf : h.taken w ≤ w.buf.length) :
    h.LeavesNoTrace w m ↔ h.taken w = 0 ∨ ∀ j < 13,
      (if w.fPos ≤ j ∧ j < w.fPos + h.taken w then w.buf.getD (j - w.fPos) 0 else m j) =
        author.getD j 0 := by
  unfold IdWriter.LeavesNoTrace
  rw [IdWriter.write_inside hp, copyAndCheck_copied hf]
  simp only [← store_copied_apply]
  rw [← verdict_nonneg_iff _ (h.taken w)]
  constructor
  · intro hno
    by_cases hrej : verdict (store m w.fPos (copied w.buf (h.taken w))) (h.taken w) < 0
    · have hpos := (hno hrej).2
      exact .inl (by omega)
    · exact .inr (Int.not_lt.mp hrej)
  · intro hgood hrej
    have hzero : h.taken w = 0 := hgood.resolve_right (Int.not_le.mpr hrej)
    refine ⟨?_, by omega⟩
    rw [samePage_store_copied_iff hp, hzero]
    intro k hk
    omega

end

/-- For every handler, every content of the buffer and every call, with every outcome of the
copy. -/
theorem failed_write_leaves_no_trace_iff (h : IdWriter) (w : WriteArgs) (m : Bytes) :
    h.LeavesNoTrace w m ↔ h.Harmless w m := by
  unfold IdWriter.Harmless
  by_cases hp : 4096 ≤ w.fPos
  · refine iff_of_true ?_ (.inl hp)
    intro hneg
    rw [IdWriter.write_past hp] at hneg
    exact absurd hneg (Int.lt_irrefl 0)
  · have hlt := Nat.lt_of_not_le hp
    by_cases hf : w.buf.length < h.taken w
    · simp [hp, hf, Nat.not_le.mpr hf, leavesNoTrace_of_fault hlt hf]
    · have hle := Nat.le_of_not_lt hf
      simp [hp, hf, hle, leavesNoTrace_of_copied hlt hle]

/-- "X" is rejected by all three, and stays in the zeroed buffer with the offset moved. -/
theorem rejected_write_leaves_byte :
    [IdWriter.task6, .task17, .task8].map (fun h =>
        let (ret, fPos, m) := h.write (.byte 88) fun _ => 0
        (ret, fPos, m 0)) = [(-1, 1, 88), (-1, 1, 88), (-1, 1, 88)] ∧
      ¬ IdWriter.task6.LeavesNoTrace (.byte 88) fun _ => 0 := by
  refine ⟨by decide +kernel, fun h => ?_⟩
  have hmoved := (h (by decide +kernel)).2
  revert hmoved
  decide +kernel

end Eudyptula.IdFile
