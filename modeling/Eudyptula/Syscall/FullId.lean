import Mathlib.Data.Int.Notation
import Mathlib.Tactic.Common

/-! The system call of Task_15, which puts a 64-bit id together from two `int`s. -/
namespace Eudyptula.Syscall

/-- Both arguments are converted to `u64` with their sign. -/
def fullId (highId lowId : BitVec 32) : BitVec 64 :=
  (highId.signExtend 64 <<< 32) ||| lowId.signExtend 64

def sysEudyptula (highId lowId : BitVec 32) : ℤ :=
  if fullId highId lowId = 1234567890 then 0 else -1

/-- The halves of an id, as a caller passes them. -/
def high (id : BitVec 64) : BitVec 32 := id.extractLsb' 32 32

def low (id : BitVec 64) : BitVec 32 := id.extractLsb' 0 32

/-- The sign of the lower half reaches all bits of the upper one. -/
theorem getLsbD_fullId_halves (id : BitVec 64) {i : ℕ} (hi : i < 64) :
    (fullId (high id) (low id)).getLsbD i =
      (id.getLsbD i || (decide (32 ≤ i) && id.getLsbD 31)) := by
  have hmsb : (low id).msb = id.getLsbD 31 := by
    simp [BitVec.msb_eq_getLsbD_last, low]
  unfold fullId
  rw [BitVec.getLsbD_or, BitVec.getLsbD_shiftLeft, BitVec.getLsbD_signExtend,
    BitVec.getLsbD_signExtend, hmsb]
  by_cases hlow : i < 32
  · simp [hlow, hi, low, Nat.not_le.mpr hlow]
  · have hsub : 32 + (i - 32) = i := by omega
    have hlt : i - 32 < 32 := by omega
    simp [hlow, hi, hlt, hsub, high, Nat.le_of_not_lt hlow, show i - 32 < 64 by omega]

theorem fullId_halves (id : BitVec 64) (h : id.getLsbD 31 = false) :
    fullId (high id) (low id) = id := by
  refine BitVec.eq_of_getLsbD_eq fun i hi => ?_
  rw [getLsbD_fullId_halves id hi, h]
  simp

theorem low_eq_iff (id id' : BitVec 64) :
    low id = low id' ↔ ∀ i < 32, id.getLsbD i = id'.getLsbD i := by
  constructor
  · intro h i hi
    have hbit := congrArg (fun x => x.getLsbD i) h
    simpa [low, hi] using hbit
  · intro h
    refine BitVec.eq_of_getLsbD_eq fun i hi => ?_
    simpa [low, hi] using h i hi

/-- The lower halves decide, and so do the upper ones unless the lower is negative. -/
theorem fullId_halves_inj_iff (id id' : BitVec 64) :
    fullId (high id) (low id) = fullId (high id') (low id') ↔
      id = id' ∨ id.getLsbD 31 = true ∧ low id = low id' := by
  constructor
  · intro h
    have hbits : ∀ i < 32, id.getLsbD i = id'.getLsbD i := by
      intro i hi
      have hbit := congrArg (fun x => x.getLsbD i) h
      simpa [getLsbD_fullId_halves _ (show i < 64 by omega), Nat.not_le.mpr hi] using hbit
    cases hneg : id.getLsbD 31 with
    | true => exact Or.inr ⟨rfl, (low_eq_iff id id').mpr hbits⟩
    | false =>
      have hneg' : id'.getLsbD 31 = false := by rw [← hbits 31 (by omega), hneg]
      rw [fullId_halves id hneg, fullId_halves id' hneg'] at h
      exact Or.inl h
  · rintro (rfl | ⟨hneg, hlow⟩)
    · rfl
    · have hbits := (low_eq_iff id id').mp hlow
      have hneg' : id'.getLsbD 31 = true := by rw [← hbits 31 (by omega), hneg]
      refine BitVec.eq_of_getLsbD_eq fun i hi => ?_
      rw [getLsbD_fullId_halves id hi, getLsbD_fullId_halves id' hi, hneg, hneg']
      by_cases hi' : i < 32
      · rw [hbits i hi']
      · simp [Nat.le_of_not_lt hi']

/-- The call accepts one id only, but cannot tell apart ids that agree in a negative lower
half. -/
theorem sys_eudyptula_exact :
    (∀ id, sysEudyptula (high id) (low id) = 0 ↔ id = 1234567890) ∧
      ∀ id id', fullId (high id) (low id) = fullId (high id') (low id') ↔
        id = id' ∨ id.getLsbD 31 = true ∧ low id = low id' := by
  refine ⟨fun id => ?_, fullId_halves_inj_iff⟩
  have hiff : sysEudyptula (high id) (low id) = 0 ↔ fullId (high id) (low id) = 1234567890 := by
    simp [sysEudyptula]
  rw [hiff]
  constructor
  · intro h
    have hbit := getLsbD_fullId_halves id (show 31 < 64 by omega)
    rw [h] at hbit
    rw [← fullId_halves id (by simpa using hbit), h]
  · rintro rfl
    decide

end Eudyptula.Syscall
