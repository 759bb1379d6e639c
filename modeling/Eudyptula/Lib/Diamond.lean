import Mathlib.Data.List.Perm.Basic
import Eudyptula.Lib.Runs

/-! Systems in which steps with different labels do not disturb each other. If one run of such
a system ends, then every run is a part of it up to the order of the steps: all of them end,
with the same steps taken and in the same state. -/
namespace Runs

section
variable {ε σ : Type*} (step : ε → σ → Option σ)

def Diamond : Prop :=
  ∀ a b s t u, a ≠ b → step a s = some t → step b s = some u →
    ∃ v, step b t = some v ∧ step a u = some v

def Stuck (s : σ) : Prop := ∀ e, step e s = none

/-- The listed steps in turn, those that are not enabled left out. -/
def drive : List ε → σ → σ
  | [], s => s
  | e :: es, s => drive es ((step e s).getD s)

end

variable {ε σ : Type*} {step : ε → σ → Option σ} {s t u : σ} {es ds : List ε}

theorem run_cons_of_step {e : ε} (h : step e s = some t) :
    run step (e :: es) s = run step es t := by
  rw [run, h, Option.bind_some]

theorem run_singleton (e : ε) (s : σ) : run step [e] s = step e s := by
  cases h : step e s <;> simp [run, h]

theorem run_append (es ds : List ε) (s : σ) :
    run step (es ++ ds) s = (run step es s).bind (run step ds) := by
  induction es generalizing s with
  | nil => rfl
  | cons e es ih =>
    simp only [List.cons_append, run, Option.bind_assoc]
    congr 1
    funext t
    exact ih t

theorem drive_run (ls : List ε) (s : σ) :
    ∃ es, es.Sublist ls ∧ run step es s = some (drive step ls s) := by
  induction ls generalizing s with
  | nil => exact ⟨[], List.Sublist.refl [], rfl⟩
  | cons e ls ih =>
    cases he : step e s with
    | none =>
      obtain ⟨es, hsub, hes⟩ := ih s
      exact ⟨es, hsub.cons e, by rw [hes, drive, he, Option.getD_none]⟩
    | some t =>
      obtain ⟨es, hsub, hes⟩ := ih t
      exact ⟨e :: es, hsub.cons_cons e,
        by rw [run_cons_of_step he, hes, drive, he, Option.getD_some]⟩

/-- Runs of bounded length can be continued to an end. -/
theorem exists_stuck {n : ℕ} (h : ∀ es t, run step es s = some t → es.length ≤ n) :
    ∃ es t, run step es s = some t ∧ Stuck step t := by
  induction n generalizing s with
  | zero =>
    refine ⟨[], s, rfl, fun e => ?_⟩
    cases he : step e s with
    | none => rfl
    | some t =>
      have hlen := h [e] t (by rw [run_singleton, he])
      simp at hlen
  | succ n ih =>
    by_cases hs : Stuck step s
    · exact ⟨[], s, rfl, hs⟩
    obtain ⟨e, he⟩ := not_forall.mp hs
    obtain ⟨t, ht⟩ := Option.ne_none_iff_exists'.mp he
    have hbound : ∀ es u, run step es t = some u → es.length ≤ n := by
      intro es u hu
      have hlen := h (e :: es) u (by rw [run_cons_of_step ht, hu])
      exact Nat.le_of_succ_le_succ hlen
    obtain ⟨es, u, hu, hstuck⟩ := ih hbound
    exact ⟨e :: es, u, by rw [run_cons_of_step ht, hu], hstuck⟩

variable [DecidableEq ε]

/-- A step that is enabled at the start of a run to the end is taken in it, and may as well
be taken first. -/
theorem Diamond.run_erase (h : Diamond step) (ht : Stuck step t) {a : ε}
    (hrun : run step es s = some t) (ha : step a s = some u) :
    a ∈ es ∧ run step (es.erase a) u = some t := by
  induction es generalizing s u with
  | nil =>
    cases hrun
    rw [ht a] at ha
    contradiction
  | cons e es ih =>
    obtain ⟨s', hs', hrun⟩ := run_cons_some hrun
    by_cases hea : e = a
    · subst hea
      rw [ha, Option.some.injEq] at hs'
      subst hs'
      rw [List.erase_cons_head]
      exact ⟨List.mem_cons_self, hrun⟩
    · obtain ⟨v, hav, hev⟩ := h e a s s' u hea hs' ha
      obtain ⟨hmem, hrest⟩ := ih hrun hav
      refine ⟨List.mem_cons_of_mem e hmem, ?_⟩
      rw [List.erase_cons_tail (by simpa using hea), run_cons_of_step hev]
      exact hrest

/-- Every run can be completed to the end that one run has reached, and the steps are then
those of that run. -/
theorem Diamond.complete (h : Diamond step) (ht : Stuck step t) (hrun : run step es s = some t)
    (hd : run step ds s = some u) : ∃ rest, run step rest u = some t ∧ (ds ++ rest).Perm es := by
  induction ds generalizing s es with
  | nil =>
    cases hd
    exact ⟨es, hrun, List.Perm.refl es⟩
  | cons a ds ih =>
    obtain ⟨s', hs', hd⟩ := run_cons_some hd
    obtain ⟨hmem, hrest⟩ := h.run_erase ht hrun hs'
    obtain ⟨rest, hend, hperm⟩ := ih hrest hd
    have hfirst : (a :: es.erase a).Perm es := (List.perm_cons_erase hmem).symm
    exact ⟨rest, hend, (hperm.cons a).trans hfirst⟩

theorem Diamond.count_le (h : Diamond step) (ht : Stuck step t) (hrun : run step es s = some t)
    (hd : run step ds s = some u) (e : ε) : ds.count e ≤ es.count e := by
  obtain ⟨rest, -, hperm⟩ := h.complete ht hrun hd
  rw [← hperm.count_eq e, List.count_append]
  exact Nat.le_add_right _ _

/-- There is only one end. -/
theorem Diamond.stuck_eq (h : Diamond step) (ht : Stuck step t) (hrun : run step es s = some t)
    (hu : Stuck step u) (hd : run step ds s = some u) : u = t := by
  obtain ⟨rest, hend, -⟩ := h.complete ht hrun hd
  cases rest with
  | nil =>
    cases hend
    rfl
  | cons e rest =>
    obtain ⟨v, hv, -⟩ := run_cons_some hend
    rw [hu e] at hv
    contradiction

end Runs
