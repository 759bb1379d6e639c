import Eudyptula.IdFile.Handlers

/-! The verdict on a written id, and what the writes before it have to do with it. -/
namespace Eudyptula.IdFile
open CMem

theorem verdict_nonneg_iff (m : Bytes) (count : ℕ) :
    0 ≤ verdict m count ↔ ∀ j < 13, m j = author.getD j 0 := by
  have hnul : ∀ j < 13, authorId (0 + j) ≠ 0 := by decide
  have hid : ∀ j < 13, authorId (0 + j) = author.getD j 0 := by decide
  have hcmp : strncmp authorId m 0 13 = 0 ↔ ∀ j < 13, m j = author.getD j 0 := by
    rw [strncmp_eq_zero_iff hnul]
    constructor
    · intro h j hj
      rw [← hid j hj, ← h j hj, Nat.zero_add]
    · intro h j hj
      rw [hid j hj, Nat.zero_add, h j hj]
  unfold verdict
  by_cases h : strncmp authorId m 0 13 = 0
  · rw [if_neg (not_not.mpr h)]
    exact iff_of_true (Int.natCast_nonneg count) (hcmp.mp h)
  · rw [if_pos h]
    exact iff_of_false (by decide) (mt hcmp.mpr h)

/-- The id expected at the front of the buffer: the part to be written and the part to be
there already. -/
def Matches (w : WriteArgs) (m : Bytes) : Prop :=
  (∀ j < min w.count 13, w.buf.getD j 0 = author.getD j 0) ∧
    ∀ j, w.count ≤ j → j < 13 → m j = author.getD j 0

section
variable {m : Bytes} {w : WriteArgs}

theorem take_count_getD {j : ℕ} (hj : j < min w.count 13) :
    (w.buf.take w.count).getD j 0 = w.buf.getD j 0 := by
  simp [show j < w.count by omega]

theorem copyAndCheck_accepts_iff (hpos : w.fPos = 0) (hread : w.count ≤ w.buf.length) :
    0 ≤ (copyAndCheck w w.count m).1 ↔ Matches w m := by
  have hlen : (w.buf.take w.count).length = w.count := by simp [hread]
  unfold copyAndCheck Matches
  rw [copyFromUser_ok m w.fPos hread, hpos]
  simp only [ne_eq, not_true_eq_false, if_false]
  rw [verdict_nonneg_iff, store_zero_eq_iff, hlen]
  apply and_congr_left'
  exact forall₂_congr fun j hj => by rw [take_count_getD hj]

theorem idStore_accepts_iff (hread : w.count ≤ w.buf.length) :
    0 ≤ (idStore (w.buf.take w.count) m).1 ↔ Matches w m := by
  have hlen : (w.buf.take w.count).length = w.count := by simp [hread]
  have hnul : ∀ j < 13, author.getD (0 + j) 0 ≠ 0 := by decide
  -- the id has no NUL, so where it matches `strncpy` has copied
  have hcopy : (∀ j < min w.count 13,
      (strncpyBytes (fun k => (w.buf.take w.count).getD k 0) 0 w.count).getD j 0 =
        author.getD (0 + j) 0) ↔
      ∀ j < min w.count 13, (w.buf.take w.count).getD (0 + j) 0 = author.getD (0 + j) 0 :=
    strncpyBytes_matches (a := fun k => author.getD k 0) (fun j hj => hnul j (by omega)) (by omega)
  unfold idStore Matches strncpy
  rw [hlen, verdict_nonneg_iff, store_zero_eq_iff, strncpyBytes_length]
  simp only [Nat.zero_add] at hcopy
  rw [hcopy]
  apply and_congr_left'
  exact forall₂_congr fun j hj => by rw [take_count_getD hj]

theorem call_accepts_iff (h : Handler) (hpos : h = .task9 ∨ w.fPos = 0)
    (hmax : w.count ≤ 4096) (hread : w.count ≤ w.buf.length) :
    0 ≤ (h.call w m).1 ↔ Matches w m := by
  have hsimple : w.fPos = 0 → (0 ≤ (simpleDevWrite w m).1 ↔ Matches w m) := by
    intro h0
    unfold simpleDevWrite
    rw [if_neg (by omega), if_neg (by omega)]
    exact copyAndCheck_accepts_iff h0 hread
  cases h with
  | task6 => exact hsimple (hpos.resolve_left nofun)
  | task17 => exact hsimple (hpos.resolve_left nofun)
  | task8 =>
    have h0 := hpos.resolve_left nofun
    change 0 ≤ (idWrite w m).1 ↔ Matches w m
    unfold idWrite
    rw [if_neg (by omega)]
    exact copyAndCheck_accepts_iff h0 hread
  | task9 =>
    unfold Handler.call
    simp only [Nat.min_eq_left hmax, Nat.not_lt.mpr hread, if_false]
    exact idStore_accepts_iff hread

end

/-- What is written matches the id as far as it goes, it does not go to the end of the id,
and the buffer holds the rest already. -/
def StaleMatch (w : WriteArgs) (m : Bytes) : Prop :=
  w.count < 13 ∧ w.buf.take w.count = author.take w.count ∧
    load m w.count (13 - w.count) = author.drop w.count

theorem matches_of_long {w : WriteArgs} (m : Bytes) (h13 : 13 ≤ w.count)
    (hread : w.count ≤ w.buf.length) : Matches w m ↔ w.buf.take 13 = author := by
  have htake : w.buf.take 13 = author.take 13 ↔ ∀ j < 13, w.buf.getD j 0 = author.getD j 0 :=
    take_eq_take_iff (by omega) (by decide)
  rw [show author.take 13 = author from rfl] at htake
  unfold Matches
  rw [htake, Nat.min_eq_right h13]
  constructor
  · exact fun h => h.1
  · exact fun h => ⟨h, fun j hlo hj => by omega⟩

theorem matches_of_short {w : WriteArgs} (m : Bytes) (h13 : w.count < 13)
    (hread : w.count ≤ w.buf.length) : Matches w m ↔ StaleMatch w m := by
  have hauthor : author.length = 13 := rfl
  have hdrop : (author.drop w.count).length = 13 - w.count := by simp [hauthor]
  have hload : load m w.count (13 - w.count) = author.drop w.count ↔
      ∀ k < 13 - w.count, m (w.count + k) = (author.drop w.count).getD k 0 := by
    rw [← hdrop]
    exact load_eq_iff
  unfold Matches StaleMatch
  rw [hload, take_eq_take_iff hread (by omega), Nat.min_eq_left (by omega)]
  have hrest : (∀ j, w.count ≤ j → j < 13 → m j = author.getD j 0) ↔
      ∀ k < 13 - w.count, m (w.count + k) = (author.drop w.count).getD k 0 := by
    constructor
    · intro h k hk
      rw [h (w.count + k) (by omega) (by omega)]
      simp
    · intro h j hlo hj
      obtain ⟨k, rfl⟩ := Nat.exists_eq_add_of_le hlo
      rw [h k (by omega)]
      simp
  rw [hrest]
  exact (and_iff_right h13).symm

/-- For every handler and every history: the verdict on a write is the right one exactly
when the write does not complete an id that the buffer holds the end of. -/
theorem id_verdict_iff (h : Handler) (hist : List WriteArgs) (w : WriteArgs)
    (hpos : h = .task9 ∨ w.fPos = 0) (hmax : w.count ≤ 4096)
    (hread : w.count ≤ w.buf.length) :
    (0 ≤ (h.call w (h.after hist)).1 ↔ 13 ≤ w.count ∧ w.buf.take 13 = author) ↔
      ¬ StaleMatch w (h.after hist) := by
  rw [call_accepts_iff h hpos hmax hread]
  by_cases h13 : 13 ≤ w.count
  · have hno : ¬ StaleMatch w (h.after hist) := fun hs => by
      have hlt := hs.1
      omega
    simp [matches_of_long _ h13 hread, h13, hno]
  · simp [matches_of_short _ (Nat.lt_of_not_le h13) hread, h13]

def authorWrite : WriteArgs := ⟨author, 13, 0, by decide⟩

/-- After the id has been written once, a single other byte is rejected as it should be. -/
theorem id_verdict_iff_rejected :
    0 ≤ (Handler.task8.call (.byte 88) (Handler.task8.after [authorWrite])).1 ↔
      13 ≤ (WriteArgs.byte 88).count ∧ (WriteArgs.byte 88).buf.take 13 = author :=
  (id_verdict_iff .task8 [authorWrite] (.byte 88) (Or.inr rfl) (by decide) (by decide)).mpr
    fun hstale => absurd hstale.2.1 (by decide)

/-- After the id has been written once, its first byte alone is accepted, by every handler. -/
theorem id_verdict_stale :
    [Handler.task6, .task17, .task8, .task9].map (fun h =>
        (h.call (.byte 78) (h.after [authorWrite])).1) = [1, 1, 1, 1] ∧
      ¬ (13 ≤ 1 ∧ [78].take 13 = author) := by
  decide +kernel

end Eudyptula.IdFile
