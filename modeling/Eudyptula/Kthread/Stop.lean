import Mathlib.Data.Fin.Basic
import Mathlib.Logic.Function.Basic
import Eudyptula.Lib.Runs

/-! Two threads that end by themselves, in Task_17's `kthread_stop.c`. Each sets a flag when it
is done, so that `cleanup_module` does not stop a thread that is no longer there. -/
namespace Eudyptula.Kthread
open Runs

/-- What a thread prints at its end. -/
inductive Report
  | stopped (n : ℕ)
  | completed
deriving DecidableEq

/-- `function`: the two halves of the loop's condition with the value of `n`, `msleep`, the
message, the flag and the return. -/
inductive Pc
  | test (n : ℕ)
  | count (n : ℕ)
  | sleep (n : ℕ)
  | report (r : Report)
  | setFlag
  | leave
  | returned
deriving DecidableEq

/-- `made` tells whether `kthread_run` has succeeded. -/
structure Thread where
  made : Bool
  pc : Pc
  stop : Bool
  flag : Bool
  sleeps : ℕ
  said : Option Report
deriving DecidableEq

/-- `cleanup_module` looks at the flag, calls `kthread_stop` and waits for the thread, first
for one thread and then for the other. -/
inductive CleanupPc
  | loaded
  | test (i : Fin 2)
  | stop (i : Fin 2)
  | join (i : Fin 2)
  | oops (i : Fin 2)
  | done
deriving DecidableEq

structure State where
  thread : Fin 2 → Thread
  cleanup : CleanupPc

inductive Label
  | thread (i : Fin 2)
  | cleanup

def Thread.start (made : Bool) : Thread := ⟨made, .test 0, false, false, 0, none⟩

/-- After `init_module`. -/
def State.start (made : Fin 2 → Bool) : State := ⟨fun i => .start (made i), .loaded⟩

/-- The thread that comes after this one. -/
def CleanupPc.after (i : Fin 2) : CleanupPc := if i = 0 then .test 1 else .done

def Thread.step (t : Thread) : Option Thread :=
  match t.pc with
  | .test n => some { t with pc := if t.stop then .report (.stopped n) else .count n }
  | .count n => some { t with pc := if n < 50 then .sleep (n + 1) else .report .completed }
  | .sleep n => some { t with pc := .test n, sleeps := t.sleeps + 1 }
  | .report r => some { t with pc := .setFlag, said := some r }
  | .setFlag => some { t with pc := .leave, flag := true }
  | .leave => some { t with pc := .returned }
  | .returned => none

namespace State

def threadStep (i : Fin 2) (s : State) : Option State :=
  if (s.thread i).made then
    (s.thread i).step.map fun t => { s with thread := Function.update s.thread i t }
  else none

/-- `kthread_stop` of an error pointer, or of a thread whose memory is gone, goes wrong. -/
def cleanupStep (s : State) : Option State :=
  match s.cleanup with
  | .loaded => some { s with cleanup := .test 0 }
  | .test i => some { s with cleanup := if (s.thread i).flag then .after i else .stop i }
  | .stop i =>
    if (s.thread i).made ∧ (s.thread i).pc ≠ .returned then
      some ⟨Function.update s.thread i { s.thread i with stop := true }, .join i⟩
    else some { s with cleanup := .oops i }
  | .join i => if (s.thread i).pc = .returned then some { s with cleanup := .after i } else none
  | .oops _ | .done => none

def step : Label → State → Option State
  | .thread i, s => s.threadStep i
  | .cleanup, s => s.cleanupStep

/-- `kthread_stop` meets a thread, and no thread is left when the module is gone. -/
structure Safe (s : State) : Prop where
  stop : ∀ i, s.cleanup = .stop i → (s.thread i).made = true ∧ (s.thread i).pc ≠ .returned
  oops : ∀ i, s.cleanup ≠ .oops i
  done : s.cleanup = .done → ∀ i, (s.thread i).made = true → (s.thread i).pc = .returned

/-- The next step of `cleanup_module` is its return. -/
def ends (s : State) : Prop :=
  s.cleanup = .test 1 ∧ (s.thread 1).flag = true ∨ s.cleanup = .join 1

end State

/-- No thread returns between the look at its flag and `kthread_stop`; a thread whose flag is
not set was made; and `cleanup_module` does not return when a thread has set its flag and is
about to. -/
def Timely : Label → State → Prop
  | .thread i, s => (s.thread i).pc = .leave → s.cleanup ≠ .stop i
  | .cleanup, s =>
    (∀ i, s.cleanup = .test i → (s.thread i).flag = false → (s.thread i).made = true) ∧
      (s.ends → ∀ i, (s.thread i).pc ≠ .leave)

/-- What the message says is so. -/
def Report.Holds (t : Thread) : Report → Prop
  | .stopped n => t.stop = true ∧ n = t.sleeps ∧ n ≤ 50
  | .completed => t.sleeps = 50

/-- `n` counts the calls of `msleep`, one ahead before each; past the loop the report or what
has been said about it is so. -/
def Thread.Counted (t : Thread) : Prop :=
  match t.pc with
  | .test n | .count n => n = t.sleeps ∧ n ≤ 50 ∧ t.said = none
  | .sleep n => n = t.sleeps + 1 ∧ n ≤ 50 ∧ t.said = none
  | .report r => r.Holds t ∧ t.said = none
  | .setFlag | .leave | .returned => ∃ r, t.said = some r ∧ r.Holds t

/-- The flag is set for the last two steps. -/
structure Thread.Sound (t : Thread) : Prop where
  flag : t.flag = true ↔ t.pc = .leave ∨ t.pc = .returned
  counted : t.Counted

/-- What each step does, with the condition under which it is taken. -/
inductive Goes (s : State) : Label → State → Prop
  | thread {i t} : (s.thread i).made = true → (s.thread i).step = some t →
      Goes s (.thread i) { s with thread := Function.update s.thread i t }
  | unload : s.cleanup = .loaded → Goes s .cleanup { s with cleanup := .test 0 }
  | pass {i} : s.cleanup = .test i → (s.thread i).flag = true →
      Goes s .cleanup { s with cleanup := .after i }
  | stop {i} : s.cleanup = .test i → (s.thread i).flag = false →
      Goes s .cleanup { s with cleanup := .stop i }
  | ask {i} : s.cleanup = .stop i → (s.thread i).made = true → (s.thread i).pc ≠ .returned →
      Goes s .cleanup ⟨Function.update s.thread i { s.thread i with stop := true }, .join i⟩
  | oops {i} : s.cleanup = .stop i → ¬ ((s.thread i).made = true ∧ (s.thread i).pc ≠ .returned) →
      Goes s .cleanup { s with cleanup := .oops i }
  | join {i} : s.cleanup = .join i → (s.thread i).pc = .returned →
      Goes s .cleanup { s with cleanup := .after i }

section
variable {s s' : State} {t t' : Thread} {l : Label} {i : Fin 2}

theorem Thread.sound_start (made : Bool) : (Thread.start made).Sound :=
  ⟨by simp [Thread.start], by simp [Thread.Counted, Thread.start]⟩

theorem Thread.Sound.step (h : t.Sound) (hstep : t.step = some t') : t'.Sound := by
  obtain ⟨hflag, hcounted⟩ := h
  unfold Thread.step at hstep
  unfold Thread.Counted at hcounted
  cases hpc : t.pc with
  | test n =>
    simp only [hpc, Option.some.injEq] at hstep hcounted
    have hclear : t.flag = false := by simpa [hpc] using hflag
    obtain ⟨rfl, hle, hsaid⟩ := hcounted
    subst hstep
    cases hstop : t.stop with
    | true => exact ⟨by simp [hclear], by simp [Thread.Counted, Report.Holds, hle, hsaid]⟩
    | false => exact ⟨by simp [hclear], by simp [Thread.Counted, hle, hsaid]⟩
  | count n =>
    simp only [hpc, Option.some.injEq] at hstep hcounted
    have hclear : t.flag = false := by simpa [hpc] using hflag
    obtain ⟨rfl, hle, hsaid⟩ := hcounted
    subst hstep
    by_cases hlt : t.sleeps < 50
    · exact ⟨by simp [hclear, hlt], by simp [Thread.Counted, hlt, hsaid, Nat.succ_le_of_lt hlt]⟩
    · have heq : t.sleeps = 50 := by omega
      exact ⟨by simp [hclear, hlt], by simp [Thread.Counted, Report.Holds, heq, hsaid]⟩
  | sleep n =>
    simp only [hpc, Option.some.injEq] at hstep hcounted
    have hclear : t.flag = false := by simpa [hpc] using hflag
    subst hstep
    exact ⟨by simp [hclear], hcounted⟩
  | report r =>
    simp only [hpc, Option.some.injEq] at hstep hcounted
    have hclear : t.flag = false := by simpa [hpc] using hflag
    subst hstep
    exact ⟨by simp [hclear], r, rfl, by cases r <;> exact hcounted.1⟩
  | setFlag =>
    simp only [hpc, Option.some.injEq] at hstep hcounted
    obtain ⟨r, hr, hholds⟩ := hcounted
    subst hstep
    exact ⟨by simp, r, hr, by cases r <;> exact hholds⟩
  | leave =>
    simp only [hpc, Option.some.injEq] at hstep hcounted
    obtain ⟨r, hr, hholds⟩ := hcounted
    subst hstep
    exact ⟨by simpa [hpc] using hflag, r, hr, by cases r <;> exact hholds⟩
  | returned => simp [hpc] at hstep

theorem Report.Holds.ask {r : Report} (h : r.Holds t) : r.Holds { t with stop := true } := by
  cases r with
  | stopped n => exact ⟨rfl, h.2⟩
  | completed => exact h

theorem Thread.Sound.ask (h : t.Sound) : ({ t with stop := true } : Thread).Sound := by
  refine ⟨h.flag, ?_⟩
  have hcounted := h.counted
  unfold Thread.Counted at hcounted ⊢
  cases hpc : t.pc with
  | test n | count n | sleep n =>
    rw [hpc] at hcounted
    exact hcounted
  | report r =>
    rw [hpc] at hcounted
    exact ⟨hcounted.1.ask, hcounted.2⟩
  | setFlag | leave | returned =>
    rw [hpc] at hcounted
    obtain ⟨r, hr, hholds⟩ := hcounted
    exact ⟨r, hr, hholds.ask⟩

theorem goes_of_step (h : State.step l s = some s') : Goes s l s' := by
  cases l with
  | thread i =>
    simp only [State.step, State.threadStep] at h
    split_ifs at h with hmade
    obtain ⟨t, ht, rfl⟩ := Option.map_eq_some_iff.mp h
    exact .thread hmade ht
  | cleanup =>
    simp only [State.step, State.cleanupStep] at h
    split at h
    next hc => exact Option.some.inj h ▸ .unload hc
    next i hc =>
      cases hflag : (s.thread i).flag with
      | true => exact Option.some.inj h ▸ by simpa [hflag] using Goes.pass hc hflag
      | false => exact Option.some.inj h ▸ by simpa [hflag] using Goes.stop hc hflag
    next i hc =>
      split_ifs at h with hthere
      · exact Option.some.inj h ▸ .ask hc hthere.1 hthere.2
      · exact Option.some.inj h ▸ .oops hc hthere
    next i hc =>
      split_ifs at h with hret
      exact Option.some.inj h ▸ .join hc hret
    next => cases h
    next => cases h

/-- `cleanup_module` has dealt with the thread. -/
def CleanupPc.past : CleanupPc → Fin 2 → Bool
  | .loaded, _ => false
  | .test j, i | .stop j, i | .join j, i | .oops j, i => i < j
  | .done, _ => true

theorem past_after (i j : Fin 2) : (CleanupPc.after i).past j = decide (j ≤ i) := by
  revert i j
  decide

theorem sound_step (h : ∀ i, (s.thread i).Sound) (hstep : State.step l s = some s') (i : Fin 2) :
    (s'.thread i).Sound := by
  cases goes_of_step hstep with
  | @thread j t hmade ht =>
    by_cases hi : i = j
    · subst hi
      simpa using (h i).step ht
    · simpa [hi] using h i
  | @ask j hc hmade hpc =>
    by_cases hi : i = j
    · subst hi
      simpa using (h i).ask
    · simpa [hi] using h i
  | unload | pass | stop | oops | join => exact h i

theorem Thread.Sound.not_returned (h : t.Sound) (hflag : t.flag = false) : t.pc ≠ .returned := by
  intro hpc
  simp [h.flag.mpr (Or.inr hpc)] at hflag

theorem Thread.step_pc (hstep : t.step = some t') :
    t.pc ≠ .returned ∧ (t'.pc = .returned ↔ t.pc = .leave) ∧ t'.made = t.made ∧
      (t.flag = true → t'.flag = true) := by
  unfold Thread.step at hstep
  cases hpc : t.pc with
  | test n | count n =>
    simp only [hpc, Option.some.injEq] at hstep
    subst hstep
    dsimp only
    split_ifs <;> simp
  | sleep n | report r | setFlag | leave =>
    simp only [hpc, Option.some.injEq] at hstep
    subst hstep
    simp
  | returned => simp [hpc] at hstep

theorem Report.Holds.sleeps_le {r : Report} (h : r.Holds t) : t.sleeps ≤ 50 := by
  cases r with
  | stopped n => exact h.2.1 ▸ h.2.2
  | completed => exact Nat.le_of_eq h

theorem Thread.Sound.sleeps_le (h : t.Sound) : t.sleeps ≤ 50 := by
  have hcounted := h.counted
  unfold Thread.Counted at hcounted
  cases hpc : t.pc with
  | test n | count n | sleep n =>
    simp only [hpc] at hcounted
    omega
  | report r =>
    simp only [hpc] at hcounted
    exact hcounted.1.sleeps_le
  | setFlag | leave | returned =>
    simp only [hpc] at hcounted
    obtain ⟨r, -, hholds⟩ := hcounted
    exact hholds.sleeps_le

theorem Thread.Sound.said_holds (h : t.Sound) : ∀ r ∈ t.said, r.Holds t := by
  intro r hr
  have hsaid : t.said = some r := hr
  have hcounted := h.counted
  unfold Thread.Counted at hcounted
  cases hpc : t.pc with
  | test n | count n | sleep n | report r => simp [hpc, hsaid] at hcounted
  | setFlag | leave | returned =>
    simp only [hpc, hsaid, Option.some.injEq] at hcounted
    obtain ⟨r, rfl, hholds⟩ := hcounted
    exact hholds

structure Inv (s : State) : Prop where
  threads : ∀ i, (s.thread i).Sound
  unmade : ∀ i, (s.thread i).made = false → (s.thread i).flag = false
  passed : ∀ i, s.cleanup.past i = true → (s.thread i).flag = true

/-- `cleanup_module` has dealt with the thread `j` as well. -/
theorem Inv.after {j : Fin 2} (h : Inv s) (hpast : ∀ i, s.cleanup.past i = decide (i < j))
    (hflag : (s.thread j).flag = true) : Inv { s with cleanup := .after j } := by
  refine ⟨h.threads, h.unmade, fun i hi => ?_⟩
  rw [past_after, decide_eq_true_eq] at hi
  by_cases hij : i = j
  · exact hij ▸ hflag
  · exact h.passed i (by rw [hpast, decide_eq_true_eq]; omega)

theorem Inv.step (h : Inv s) (hstep : State.step l s = some s') : Inv s' := by
  have hthreads := sound_step h.threads hstep
  cases goes_of_step hstep with
  | @thread j t hmade ht =>
    obtain ⟨-, -, hsame, hflag⟩ := Thread.step_pc ht
    refine ⟨hthreads, fun i hi => ?_, fun i hi => ?_⟩
    · by_cases hij : i = j
      · subst hij
        simp [hsame, hmade] at hi
      · simpa [hij] using h.unmade i (by simpa [hij] using hi)
    · have hold := h.passed i hi
      by_cases hij : i = j
      · subst hij
        simpa using hflag hold
      · simpa [hij] using hold
  | @ask j hc hmade =>
    have hkept : ∀ i, (Function.update s.thread j { s.thread j with stop := true } i).made =
        (s.thread i).made ∧ (Function.update s.thread j { s.thread j with stop := true } i).flag =
        (s.thread i).flag := by
      intro i
      by_cases hij : i = j
      · subst hij
        simp
      · simp [hij]
    refine ⟨hthreads, fun i hi => ?_, fun i hi => ?_⟩
    · exact (hkept i).2.trans (h.unmade i ((hkept i).1.symm.trans hi))
    · exact (hkept i).2.trans (h.passed i (by rw [hc]; exact hi))
  | unload => exact ⟨h.threads, h.unmade, by simp [CleanupPc.past]⟩
  | pass hc hflag => exact h.after (fun _ => by rw [hc]; rfl) hflag
  | stop hc | oops hc => exact ⟨h.threads, h.unmade, fun i hi => h.passed i (by rw [hc]; exact hi)⟩
  | @join j hc hret =>
    exact h.after (fun _ => by rw [hc]; rfl) ((h.threads j).flag.mpr (Or.inr hret))

/-- At the end every thread has set its flag. -/
theorem Inv.all_returned_iff (h : Inv s) (hflag : ∀ i, (s.thread i).flag = true) :
    (∀ i, (s.thread i).made = true → (s.thread i).pc = .returned) ↔
      ∀ i, (s.thread i).pc ≠ .leave := by
  refine forall_congr' fun i => ?_
  have hmade : (s.thread i).made = true := by
    by_contra hnot
    have hclear := h.unmade i (by simpa using hnot)
    simp [hflag i] at hclear
  rcases (h.threads i).flag.mp (hflag i) with hpc | hpc <;> simp [hmade, hpc]

/-- A step of a thread. -/
theorem safe_thread_iff (hsafe : s.Safe) {t : Thread} (hmade : (s.thread i).made = true)
    (hstep : (s.thread i).step = some t) :
    State.Safe { s with thread := Function.update s.thread i t } ↔
      ((s.thread i).pc = .leave → s.cleanup ≠ .stop i) := by
  obtain ⟨hrun, hret, hsame, -⟩ := Thread.step_pc hstep
  constructor
  · intro h hleave hc
    have hstop := (h.stop i hc).2
    simp only [Function.update_self] at hstop
    exact hstop (hret.mpr hleave)
  · intro htimely
    refine ⟨fun j hc => ?_, hsafe.oops, fun hc => ?_⟩
    · have hold := hsafe.stop j hc
      by_cases hj : j = i
      · subst hj
        simp only [Function.update_self, hsame]
        exact ⟨hold.1, fun hpc => htimely (hret.mp hpc) hc⟩
      · simpa [hj] using hold
    · exact absurd (hsafe.done hc i hmade) hrun

/-- `cleanup_module` has finished with a thread. -/
theorem safe_after_iff (s : State) (i : Fin 2) :
    State.Safe { s with cleanup := .after i } ↔
      (i = 1 → ∀ j, (s.thread j).made = true → (s.thread j).pc = .returned) := by
  unfold CleanupPc.after
  by_cases hi : i = 0
  · simp only [hi, if_true]
    exact iff_of_true ⟨nofun, nofun, nofun⟩ nofun
  · rw [if_neg hi]
    exact ⟨fun h _ => h.done rfl, fun h => ⟨nofun, nofun, fun _ => h (by omega)⟩⟩

theorem Inv.safe_step_iff (h : Inv s) (hsafe : s.Safe) (hstep : State.step l s = some s') :
    s'.Safe ↔ Timely l s := by
  have hlast : ∀ {j : Fin 2}, (∀ i, s.cleanup.past i = decide (i < j)) →
      (s.thread j).flag = true → j = 1 → ∀ i, (s.thread i).flag = true := by
    intro j hpast hflag hj i
    exact (h.after hpast hflag).passed i (by rw [hj, past_after, decide_eq_true_eq]; omega)
  cases goes_of_step hstep with
  | thread hmade ht => exact safe_thread_iff hsafe hmade ht
  | unload hc =>
    exact iff_of_true ⟨nofun, nofun, nofun⟩ ⟨by simp [hc], by simp [State.ends, hc]⟩
  | @pass j hc hflag =>
    have hends : s.ends ↔ j = 1 := by
      unfold State.ends
      simp only [hc, CleanupPc.test.injEq, reduceCtorEq, or_false]
      exact ⟨fun h => h.1, fun h => ⟨h, h ▸ hflag⟩⟩
    have hthere : ∀ i, s.cleanup = .test i → (s.thread i).flag = false →
        (s.thread i).made = true := by
      intro i hi hclear
      obtain rfl := CleanupPc.test.inj (hc.symm.trans hi)
      simp [hflag] at hclear
    rw [safe_after_iff, Timely, and_iff_right hthere, hends]
    exact forall_congr' fun hj => h.all_returned_iff (hlast (fun _ => by rw [hc]; rfl) hflag hj)
  | @stop j hc hflag =>
    have hrun := (h.threads j).not_returned hflag
    have hends : ¬ s.ends := by
      rintro (⟨htest, hset⟩ | hjoin)
      · obtain rfl := CleanupPc.test.inj (hc.symm.trans htest)
        simp [hflag] at hset
      · simp [hc] at hjoin
    constructor
    · intro hsafe'
      refine ⟨fun i hi _ => ?_, fun hend => absurd hend hends⟩
      obtain rfl := CleanupPc.test.inj (hc.symm.trans hi)
      exact (hsafe'.stop j rfl).1
    · intro htimely
      refine ⟨fun i hi => ?_, nofun, nofun⟩
      obtain rfl := CleanupPc.stop.inj hi
      exact ⟨htimely.1 j hc hflag, hrun⟩
  | ask hc => exact iff_of_true ⟨nofun, nofun, nofun⟩ ⟨by simp [hc], by simp [State.ends, hc]⟩
  | @oops j hc hnot => exact absurd (hsafe.stop j hc) hnot
  | @join j hc hret =>
    have hends : s.ends ↔ j = 1 := by simp [State.ends, hc]
    have hflag := (h.threads j).flag.mpr (Or.inr hret)
    rw [safe_after_iff, Timely, and_iff_right (by simp [hc]), hends]
    exact forall_congr' fun hj => h.all_returned_iff (hlast (fun _ => by rw [hc]; rfl) hflag hj)

theorem inv_start (made : Fin 2 → Bool) : Inv (.start made) :=
  ⟨fun i => Thread.sound_start (made i), fun _ _ => rfl, nofun⟩

/-- The flags keep `cleanup_module` from stopping a thread that is gone, and from leaving one
behind, in exactly these runs. -/
theorem cleanup_safe_iff (made : Fin 2 → Bool) (ls : List Label) :
    Always State.step State.Safe ls (.start made) ↔ Along State.step Timely ls (.start made) :=
  always_iff_along (fun _ _ _ h ht => h.step ht) (fun _ _ _ h hP ht => h.safe_step_iff hP ht)
    (inv_start made) ⟨nofun, nofun, nofun⟩

/-- No thread sleeps more than fifty times, and its message is right: stopped after as many
sleeps as it says, or completed after fifty. -/
theorem reports_hold (made : Fin 2 → Bool) (ls : List Label) :
    Always State.step (fun s => ∀ i, (s.thread i).sleeps ≤ 50 ∧
      ∀ r ∈ (s.thread i).said, r.Holds (s.thread i)) ls (.start made) := by
  have halways : Always State.step (fun s => ∀ i, (s.thread i).Sound) ls (.start made) :=
    always_of_step (fun _ _ _ h ht => sound_step h ht) ls fun i => Thread.sound_start (made i)
  exact halways.mono fun s hs i => ⟨(hs i).sleeps_le, (hs i).said_holds⟩

end
end Eudyptula.Kthread
