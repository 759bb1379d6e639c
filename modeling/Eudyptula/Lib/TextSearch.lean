import Mathlib.Data.List.Infix

/-! Occurrences of a pattern in a text, and the search for the next one. -/
namespace TextSearch

section
variable {α : Type*} [DecidableEq α]

/-- `pat` stands in `text` at offset `i`. -/
def OccursAt (pat text : List α) (i : ℕ) : Prop := pat <+: text.drop i

instance (pat text : List α) (i : ℕ) : Decidable (OccursAt pat text i) :=
  inferInstanceAs (Decidable (_ <+: _))

/-- No proper end of `pat` is a beginning of it. -/
def Borderless (pat : List α) : Prop := ∀ d < pat.length, 0 < d → ¬ pat.drop d <+: pat

instance (pat : List α) : Decidable (Borderless pat) :=
  inferInstanceAs (Decidable (∀ d < pat.length, 0 < d → ¬ pat.drop d <+: pat))

/-- The first occurrence at `i` or later. -/
def firstFrom (pat text : List α) (i : ℕ) : Option ℕ :=
  ((text.drop i).tails.findIdx? fun rest => pat <+: rest).map (i + ·)

end

variable {α : Type*} {pat text : List α} {i j k : ℕ}

theorem OccursAt.add_length_le (h : OccursAt pat text i) (hpat : pat ≠ []) :
    i + pat.length ≤ text.length := by
  have hle := h.length_le
  have hpos := List.length_pos_iff.mpr hpat
  rw [List.length_drop] at hle
  omega

theorem OccursAt.apart (hborder : Borderless pat) (hi : OccursAt pat text i)
    (hj : OccursAt pat text j) (hlt : i < j) : i + pat.length ≤ j := by
  by_contra hnear
  have hend : pat.drop (j - i) <+: text.drop j := by
    have hdrop := List.IsPrefix.drop hi (j - i)
    rwa [List.drop_drop, Nat.add_sub_cancel' hlt.le] at hdrop
  have hshort : (pat.drop (j - i)).length ≤ pat.length := by
    rw [List.length_drop]
    omega
  exact hborder (j - i) (by omega) (by omega) (List.prefix_of_prefix_length_le hend hj hshort)

variable [DecidableEq α]

theorem firstFrom_some (h : firstFrom pat text i = some k) :
    i ≤ k ∧ OccursAt pat text k ∧ ∀ j, i ≤ j → j < k → ¬ OccursAt pat text j := by
  obtain ⟨d, hd, rfl⟩ := Option.map_eq_some_iff.mp h
  obtain ⟨_, hat, hbefore⟩ := List.findIdx?_eq_some_iff_getElem.mp hd
  simp only [List.getElem_tails, List.drop_drop, decide_eq_true_eq] at hat hbefore
  refine ⟨Nat.le_add_right i d, hat, ?_⟩
  intro j hij hjd
  have hno := hbefore (j - i) (by omega)
  rwa [Nat.add_sub_cancel' hij] at hno

theorem firstFrom_none (h : firstFrom pat text i = none) (hij : i ≤ j) :
    ¬ OccursAt pat text j := by
  have hnone := List.findIdx?_eq_none_iff.mp (Option.map_eq_none_iff.mp h)
  have htail : text.drop j <:+ text.drop i := by
    rw [← Nat.add_sub_cancel' hij, ← List.drop_drop]
    exact List.drop_suffix _ _
  exact of_decide_eq_false (hnone _ ((List.mem_tails _ _).mpr htail))

end TextSearch
