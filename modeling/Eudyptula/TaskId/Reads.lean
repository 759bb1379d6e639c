import Eudyptula.Lib.Runs
import Mathlib.Tactic.Common

/-! The `id` that Task_14 adds to every task. A read of `/proc/<pid>/id` prints `task->id++`,
which loads the field and stores it back in two steps, with no lock. -/
namespace Eudyptula.TaskId
open Runs

def FIRST_ID : BitVec 64 := 12345678

/-- `loaded` are the values of the reads that have still to store; `printed` is what the reads
of this task have printed. -/
structure Task where
  id : BitVec 64
  loaded : List (BitVec 64)
  printed : List (BitVec 64)
deriving DecidableEq

inductive Label
  | fork
  | load (i : ℕ)
  | store (i k : ℕ)

namespace Task

/-- `copy_process` sets the field. -/
def new : Task := ⟨FIRST_ID, [], []⟩

/-- First half of `proc_eudyptula_id`. -/
def load (t : Task) : Task :=
  { t with loaded := t.loaded ++ [t.id], printed := t.printed ++ [t.id] }

def store (k : ℕ) (t : Task) : Option Task :=
  t.loaded[k]?.map fun v => { t with id := v + 1, loaded := t.loaded.eraseIdx k }

/-- The reads have counted up from the first id. -/
def Counts (t : Task) : Prop :=
  t.printed = (List.range t.printed.length).map fun n => FIRST_ID + BitVec.ofNat 64 n

end Task

def step : Label → List Task → Option (List Task)
  | .fork, s => some (s ++ [.new])
  | .load i, s => s[i]?.map fun t => s.set i t.load
  | .store i k, s => s[i]?.bind fun t => (t.store k).map fun t => s.set i t

/-- No read of a task begins while another of the same task is under way. -/
def Alone : Label → List Task → Prop
  | .load i, s => ∀ t ∈ s[i]?, t.loaded = []
  | _, _ => True

/-- If the reads have counted so far, at most one is under way and the field is what comes
next, or has been printed by that read and not yet been counted up. -/
def Task.InStep (t : Task) : Prop :=
  t.Counts → (t.loaded = [] ∧ t.id = FIRST_ID + BitVec.ofNat 64 t.printed.length) ∨
    (t.loaded = [t.id] ∧ t.id + 1 = FIRST_ID + BitVec.ofNat 64 t.printed.length)

section
variable {t t' : Task} {s s' : List Task} {l : Label}

/-- One more read counts if the earlier ones did and the field was what comes next. -/
theorem counts_load_iff (t : Task) :
    t.load.Counts ↔ t.Counts ∧ t.id = FIRST_ID + BitVec.ofNat 64 t.printed.length := by
  unfold Task.Counts Task.load
  simp only [List.length_append, List.length_singleton, List.range_succ, List.map_append,
    List.map_cons, List.map_nil]
  constructor
  · intro h
    have hlen : t.printed.length = ((List.range t.printed.length).map fun n =>
        FIRST_ID + BitVec.ofNat 64 n).length := by simp
    obtain ⟨hinit, hlast⟩ := List.append_inj h hlen
    exact ⟨hinit, by simpa using hlast⟩
  · rintro ⟨hinit, hid⟩
    rw [← hinit, ← hid]

theorem Task.InStep.load_iff (h : t.InStep) (hcounts : t.Counts) :
    t.load.Counts ↔ t.loaded = [] := by
  rw [counts_load_iff]
  rcases h hcounts with ⟨hnone, hid⟩ | ⟨hone, hid⟩
  · exact iff_of_true ⟨hcounts, hid⟩ hnone
  · refine iff_of_false ?_ (by simp [hone])
    rintro ⟨-, hnow⟩
    rw [← hnow] at hid
    bv_omega

theorem Task.InStep.load (h : t.InStep) : t.load.InStep := by
  intro hcounts
  obtain ⟨hold, hid⟩ := (counts_load_iff t).mp hcounts
  have hnone := (h.load_iff hold).mp hcounts
  refine Or.inr ⟨by simp [Task.load, hnone], ?_⟩
  simp only [Task.load, List.length_append, List.length_singleton, BitVec.ofNat_add]
  rw [hid, BitVec.add_assoc]
  rfl

theorem Task.InStep.store {k : ℕ} (h : t.InStep) (hstore : t.store k = some t') : t'.InStep := by
  obtain ⟨v, hv, rfl⟩ := Option.map_eq_some_iff.mp hstore
  intro hcounts
  rcases h hcounts with ⟨hnone, -⟩ | ⟨hone, hid⟩
  · simp [hnone] at hv
  · obtain ⟨hk, hv⟩ := List.getElem?_eq_some_iff.mp hv
    obtain rfl : k = 0 := by simpa [hone] using hk
    have hid' : v = t.id := by simpa [hone] using hv.symm
    exact Or.inl ⟨by simp [hone], by rw [hid', hid]⟩

theorem inStep_step (h : ∀ t ∈ s, t.InStep) (hstep : step l s = some s') : ∀ t ∈ s', t.InStep := by
  cases l with
  | fork =>
    obtain rfl := Option.some.inj hstep
    intro t ht
    rcases List.mem_append.mp ht with ht | ht
    · exact h t ht
    · rw [List.mem_singleton.mp ht]
      exact fun _ => Or.inl ⟨rfl, rfl⟩
  | load i =>
    obtain ⟨t, hi, rfl⟩ := Option.map_eq_some_iff.mp hstep
    intro t' ht'
    rcases List.mem_or_eq_of_mem_set ht' with ht' | rfl
    · exact h t' ht'
    · exact (h t (List.mem_of_getElem? hi)).load
  | store i k =>
    obtain ⟨t, hi, hnext⟩ := Option.bind_eq_some_iff.mp hstep
    obtain ⟨u, hu, rfl⟩ := Option.map_eq_some_iff.mp hnext
    intro t' ht'
    rcases List.mem_or_eq_of_mem_set ht' with ht' | rfl
    · exact h t' ht'
    · exact (h t (List.mem_of_getElem? hi)).store hu

theorem counts_step_iff (h : ∀ t ∈ s, t.InStep) (hcounts : ∀ t ∈ s, t.Counts)
    (hstep : step l s = some s') : (∀ t ∈ s', t.Counts) ↔ Alone l s := by
  cases l with
  | fork =>
    obtain rfl := Option.some.inj hstep
    refine iff_of_true (fun t ht => ?_) trivial
    rcases List.mem_append.mp ht with ht | ht
    · exact hcounts t ht
    · rw [List.mem_singleton.mp ht]
      rfl
  | load i =>
    obtain ⟨t, hi, rfl⟩ := Option.map_eq_some_iff.mp hstep
    have hmem := List.mem_of_getElem? hi
    have hlt := (List.getElem?_eq_some_iff.mp hi).1
    have hiff := (h t hmem).load_iff (hcounts t hmem)
    constructor
    · intro hall t' ht'
      obtain rfl := Option.some.inj (hi.symm.trans ht')
      exact hiff.mp (hall _ (List.mem_set hlt _))
    · intro halone t' ht'
      rcases List.mem_or_eq_of_mem_set ht' with ht' | rfl
      · exact hcounts t' ht'
      · exact hiff.mpr (halone t hi)
  | store i k =>
    obtain ⟨t, hi, hnext⟩ := Option.bind_eq_some_iff.mp hstep
    obtain ⟨u, hu, rfl⟩ := Option.map_eq_some_iff.mp hnext
    obtain ⟨v, -, rfl⟩ := Option.map_eq_some_iff.mp hu
    refine iff_of_true (fun t' ht' => ?_) trivial
    rcases List.mem_or_eq_of_mem_set ht' with ht' | rfl
    · exact hcounts t' ht'
    · exact hcounts t (List.mem_of_getElem? hi)

/-- The reads of every task print 12345678, 12345679 and so on, each number once until the
field wraps around, exactly when no two reads of a task overlap. -/
theorem reads_count_iff (ls : List Label) :
    Always step (fun s => ∀ t ∈ s, t.Counts) ls [] ↔ Along step Alone ls [] :=
  always_iff_along (fun _ _ _ h ht => inStep_step h ht)
    (fun _ _ _ h hP ht => counts_step_iff h hP ht) (by simp) (by simp)

/-- Two reads at once print one number twice. -/
example : ((run step [.fork, .load 0, .load 0] []).map fun s => s.map Task.printed) =
    some [[12345678, 12345678]] := by decide

end
end Eudyptula.TaskId
