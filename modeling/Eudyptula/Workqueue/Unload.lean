import Eudyptula.Workqueue.Threads

/-! What `cleanup_module` leaves behind. -/
namespace Eudyptula.Workqueue
open Runs State

/-- What each step does, with the condition under which it is taken. -/
inductive Goes (s : State) : Label → State → Prop
  | fire {p : Place} : s.pending = some .timer →
      (p = .queued ∧ s.cleanup.destroyed = false ∨ p = .refused ∧ s.cleanup.draining = true ∨
        p = .dangling ∧ s.cleanup.destroyed = true) → Goes s .fire { s with pending := some p }
  | begin {ok} : s.work = .idle → s.pending = some .queued →
      Goes s (.work ok) { s with pending := none, work := .create }
  | create : s.work = .create → Goes s (.work true)
      { s with work := .store (.task s.threads.length), threads := s.threads ++ [.running] }
  | createErr : s.work = .create → Goes s (.work false) { s with work := .store .err }
  | store {ok p} : s.work = .store p → s.count < TS_SIZE → Goes s (.work ok)
      { s with ts := Function.update s.ts s.count (some p), count := s.count + 1, work := .requeue }
  | overrun {ok p} : s.work = .store p → TS_SIZE ≤ s.count → Goes s (.work ok)
      { s with overrun := true, count := s.count + 1, work := .requeue }
  | requeue {ok} : s.work = .requeue → Goes s (.work ok)
      { s with pending := some (s.pending.getD .timer), work := .leave }
  | leave {ok} : s.work = .leave → Goes s (.work ok)
      { s with work := .idle, cleanup := s.cleanup.executed }
  | unload : s.cleanup = .loaded →
      Goes s .cleanup { s with cleanup := .flush (s.running + s.queued) }
  | flushed : s.cleanup = .flush 0 → Goes s .cleanup { s with cleanup := .test }
  | test {pc} : s.cleanup = .test →
      (s.pending.isSome = true ∧ pc = .cancel ∨ s.pending.isSome = false ∧ pc = .destroy false) →
      Goes s .cleanup { s with cleanup := pc }
  | cancel : s.cleanup = .cancel → Goes s .cleanup
      { s with pending := none, cleanup := .flushAgain s.running s.pending.isSome }
  | flushedAgain {c} : s.cleanup = .flushAgain 0 c →
      Goes s .cleanup { s with cleanup := .destroy c }
  | destroy {c} : s.cleanup = .destroy c → s.work = .idle → s.pending ≠ some .queued →
      Goes s .cleanup { s with cleanup := .stop 0 c }
  | skip {i c} : s.cleanup = .stop i c → i < TS_SIZE → s.ts i = none →
      Goes s .cleanup { s with cleanup := .stop (i + 1) c }
  | oops {i c} : s.cleanup = .stop i c → i < TS_SIZE → s.ts i = some .err →
      Goes s .cleanup { s with cleanup := .oops i c }
  | ask {i j c} : s.cleanup = .stop i c → i < TS_SIZE → s.ts i = some (.task j) →
      Goes s .cleanup { s with threads := s.threads.set j .asked, cleanup := .join i j c }
  | finish {i c} : s.cleanup = .stop i c → TS_SIZE ≤ i →
      Goes s .cleanup { s with cleanup := .done c }
  | join {i j c} : s.cleanup = .join i j c → s.threads[j]? = some .exited →
      Goes s .cleanup { s with cleanup := .stop (i + 1) c }
  | exit {j} : s.threads[j]? = some .asked →
      Goes s (.thread j) { s with threads := s.threads.set j .exited }

variable {s t : State} {l : Label}

theorem goes_of_fire (h : s.fire = some t) : Goes s .fire t := by
  unfold State.fire at h
  split_ifs at h with hp hd hdr
  · exact Option.some.inj h ▸ .fire hp (Or.inr (Or.inr ⟨rfl, hd⟩))
  · exact Option.some.inj h ▸ .fire hp (Or.inr (Or.inl ⟨rfl, hdr⟩))
  · exact Option.some.inj h ▸ .fire hp (Or.inl ⟨rfl, by simpa using hd⟩)

theorem goes_of_workStep {ok : Bool} (h : s.workStep ok = some t) : Goes s (.work ok) t := by
  unfold workStep at h
  split at h
  next hw =>
    split_ifs at h with hq
    exact Option.some.inj h ▸ .begin hw hq
  next hw =>
    split_ifs at h with hok
    · exact Option.some.inj h ▸ hok ▸ .create hw
    · rw [Bool.not_eq_true] at hok
      exact Option.some.inj h ▸ hok ▸ .createErr hw
  next p hw =>
    split_ifs at h with hlt
    · exact Option.some.inj h ▸ .store hw hlt
    · exact Option.some.inj h ▸ .overrun hw (Nat.le_of_not_lt hlt)
  next hw => exact Option.some.inj h ▸ .requeue hw
  next hw => exact Option.some.inj h ▸ .leave hw

theorem goes_of_cleanupStep (h : s.cleanupStep = some t) : Goes s .cleanup t := by
  unfold cleanupStep at h
  split at h
  next hc => exact Option.some.inj h ▸ .unload hc
  next n hc =>
    split_ifs at h with hn
    exact Option.some.inj h ▸ .flushed (hn ▸ hc)
  next hc =>
    refine Option.some.inj h ▸ .test hc ?_
    cases s.pending <;> simp
  next hc => exact Option.some.inj h ▸ .cancel hc
  next n c hc =>
    split_ifs at h with hn
    exact Option.some.inj h ▸ .flushedAgain (hn ▸ hc)
  next c hc =>
    split_ifs at h with hidle
    exact Option.some.inj h ▸ .destroy hc hidle.1 hidle.2
  next i c hc =>
    split_ifs at h with hlt
    · split at h
      next hts => exact Option.some.inj h ▸ .skip hc hlt hts
      next hts => exact Option.some.inj h ▸ .oops hc hlt hts
      next j hts => exact Option.some.inj h ▸ .ask hc hlt hts
    · exact Option.some.inj h ▸ .finish hc (Nat.le_of_not_lt hlt)
  next i j c hc =>
    split_ifs at h with hexit
    exact Option.some.inj h ▸ .join hc hexit
  next => cases h
  next => cases h

theorem goes_of_step (h : State.step l s = some t) : Goes s l t := by
  cases l with
  | fire => exact goes_of_fire h
  | work ok => exact goes_of_workStep h
  | cleanup => exact goes_of_cleanupStep h
  | thread j =>
    change s.threadStep j = some t at h
    unfold threadStep at h
    split_ifs at h with hasked
    exact Option.some.inj h ▸ .exit hasked

/-- The worker has taken the work and not yet queued it again. -/
def WorkPc.owes : WorkPc → Bool
  | .create | .store _ | .requeue => true
  | _ => false

def CleanupPc.caught : CleanupPc → Bool
  | .flushAgain _ c | .destroy c | .stop _ c | .join _ _ c | .oops _ c | .done c => c
  | _ => false

@[simp] theorem caught_executed (pc : CleanupPc) : pc.executed.caught = pc.caught := by
  cases pc <;> rfl

@[simp] theorem destroyed_executed (pc : CleanupPc) : pc.executed.destroyed = pc.destroyed := by
  cases pc <;> rfl

/-- The work is in one place: pending, or in the hands of the worker, until it is caught. -/
structure OnePlace (s : State) : Prop where
  one : s.pending.isSome = (!s.work.owes && !s.cleanup.caught)
  caught : s.cleanup.caught = true → s.work.owes = false
  drained : s.cleanup.destroyed = true → s.work = .idle ∧ s.pending ≠ some .queued
  early : s.cleanup.draining = false → s.cleanup.destroyed = false →
    ∀ p ∈ s.pending, p = .timer ∨ p = .queued

@[simp] theorem draining_executed (pc : CleanupPc) : pc.executed.draining = pc.draining := by
  cases pc <;> rfl

theorem OnePlace.step (h : OnePlace s) (hstep : State.step l s = some t) : OnePlace t := by
  obtain ⟨hone, hcaught, hdrained, hearly⟩ := h
  cases goes_of_step hstep with
  | fire hp hplace =>
    refine ⟨by simpa [hp] using hone, hcaught, fun hd => ⟨(hdrained hd).1, ?_⟩, fun hdr hd => ?_⟩
    · rcases hplace with ⟨-, hnot⟩ | ⟨rfl, -⟩ | ⟨rfl, -⟩
      · simp [hd] at hnot
      · nofun
      · nofun
    · rcases hplace with ⟨rfl, -⟩ | ⟨-, hnot⟩ | ⟨-, hnot⟩
      · simp
      · simp [hdr] at hnot
      · simp [hd] at hnot
  | begin hw hq =>
    have hfree : s.cleanup.caught = false := by simpa [hw, hq, WorkPc.owes] using hone
    refine ⟨by simp [WorkPc.owes], by simp [hfree], fun hd => ?_, by simp⟩
    exact absurd hq (hdrained hd).2
  | create hw | createErr hw | store hw _ | overrun hw _ =>
    rw [hw] at hone hcaught hdrained
    exact ⟨hone, hcaught, fun hd => (nomatch (hdrained hd).1), hearly⟩
  | requeue hw =>
    rw [hw] at hone hcaught hdrained
    have hfree : s.cleanup.caught = false := by simpa [WorkPc.owes] using hcaught
    have hnone : s.pending = none := by simpa [WorkPc.owes] using hone
    exact ⟨by simp [WorkPc.owes, hfree], by simp [hfree], fun hd => (nomatch (hdrained hd).1),
      by simp [hnone]⟩
  | leave hw =>
    rw [hw] at hone hdrained
    refine ⟨by simpa [WorkPc.owes] using hone, fun _ => rfl, fun hd => ?_, by simpa using hearly⟩
    exact nomatch (hdrained (by simpa using hd)).1
  | unload hc | flushed hc =>
    rw [hc] at hone hearly
    exact ⟨hone, nofun, nofun, hearly⟩
  | test hc hpc =>
    rw [hc] at hone hearly
    rcases hpc with ⟨-, rfl⟩ | ⟨-, rfl⟩
    · exact ⟨hone, nofun, nofun, hearly⟩
    · exact ⟨hone, nofun, nofun, nofun⟩
  | cancel hc =>
    -- what `cancel_delayed_work` does not find is with the worker
    rw [hc] at hone
    have hone' : s.pending.isSome = !s.work.owes := by simpa [CleanupPc.caught] using hone
    refine ⟨by simp [CleanupPc.caught, hone'], fun hfound => ?_, nofun, nofun⟩
    simpa [hone'] using (show s.pending.isSome = true from hfound)
  | flushedAgain hc =>
    rw [hc] at hone hcaught
    exact ⟨hone, hcaught, nofun, nofun⟩
  | destroy hc hw hp =>
    rw [hc] at hone hcaught
    exact ⟨hone, hcaught, fun _ => ⟨hw, hp⟩, nofun⟩
  | skip hc | oops hc | ask hc | finish hc | join hc =>
    rw [hc] at hone hcaught hdrained
    exact ⟨hone, hcaught, fun _ => hdrained rfl, nofun⟩
  | exit => exact ⟨hone, hcaught, hdrained, hearly⟩

theorem onePlace_start : OnePlace State.start :=
  ⟨rfl, nofun, nofun, fun _ _ _ hp => Or.inl (Option.some.inj hp).symm⟩

/-- The timer fires just before `cancel_delayed_work`: it runs again when the queue is gone. -/
example : ((run State.step [.cleanup, .cleanup, .cleanup, .fire, .work true, .cleanup, .work true,
    .work true, .work true, .work true, .cleanup, .cleanup] .start).map fun s =>
      (s.cleanup, s.pending)) = some (.stop 0 false, some .timer) := by decide

/-- From the first flush up to `cancel_delayed_work`. -/
def CleanupPc.open : CleanupPc → Bool
  | .flush _ | .test | .cancel => true
  | _ => false

/-- The timer does not fire in that time. -/
def Quiet : Label → State → Prop
  | .fire, s => s.cleanup.open = false
  | _, _ => True

instance : (l : Label) → (s : State) → Decidable (Quiet l s)
  | .fire, s => inferInstanceAs (Decidable (s.cleanup.open = false))
  | .work _, _ | .cleanup, _ | .thread _, _ => inferInstanceAs (Decidable True)

theorem executed_eq_flush_iff {pc : CleanupPc} {n : ℕ} :
    pc.executed = .flush n ↔ ∃ m, pc = .flush m ∧ m - 1 = n := by
  cases pc <;> simp [CleanupPc.executed]

@[simp] theorem open_executed (pc : CleanupPc) : pc.executed.open = pc.open := by
  cases pc <;> rfl

@[simp] theorem executed_eq_loaded_iff {pc : CleanupPc} : pc.executed = .loaded ↔ pc = .loaded := by
  cases pc <;> simp [CleanupPc.executed]

@[simp] theorem executed_eq_test_iff {pc : CleanupPc} : pc.executed = .test ↔ pc = .test := by
  cases pc <;> simp [CleanupPc.executed]

@[simp] theorem executed_eq_cancel_iff {pc : CleanupPc} : pc.executed = .cancel ↔ pc = .cancel := by
  cases pc <;> simp [CleanupPc.executed]

/-- The flush waits for all there is, so the work is on its timer afterwards. -/
structure Settling (s : State) : Prop where
  flush : ∀ n, s.cleanup = .flush n → n = s.running + s.queued
  timer : s.cleanup = .test ∨ s.cleanup = .cancel → s.pending = some .timer
  caught : s.cleanup = .loaded ∨ s.cleanup.open = true ∨ s.cleanup.caught = true

theorem Settling.flushed (h : Settling s) (hone : OnePlace s) (hc : s.cleanup = .flush 0) :
    s.pending = some .timer := by
  have hzero := h.flush 0 hc
  have hw : s.work = .idle := by
    by_contra hne
    simp only [running, hne, if_false] at hzero
    omega
  have hq : s.pending ≠ some .queued := by
    intro hq
    simp [queued, hq] at hzero
  have hsome : s.pending.isSome = true := by
    simpa [hw, hc, WorkPc.owes, CleanupPc.caught] using hone.one
  obtain ⟨p, hp⟩ := Option.isSome_iff_exists.mp hsome
  rcases hone.early (by rw [hc]; rfl) (by rw [hc]; rfl) p hp with rfl | rfl
  · exact hp
  · exact absurd hp hq

theorem Settling.step (h : Settling s) (hone : OnePlace s) (hquiet : Quiet l s)
    (hstep : State.step l s = some t) : Settling t := by
  have hflushed := h.flushed hone
  obtain ⟨hflush, htimer, hcaught⟩ := h
  cases goes_of_step hstep with
  | fire hp hplace =>
    have hopen : s.cleanup.open = false := hquiet
    refine ⟨fun n hc => ?_, ?_, hcaught⟩
    · have hc' : s.cleanup = .flush n := hc
      simp [hc', CleanupPc.open] at hopen
    · rintro (hc | hc) <;> simp [show s.cleanup = _ from hc, CleanupPc.open] at hopen
  | begin hw hq =>
    refine ⟨fun n hc => ?_, fun hc => ?_, hcaught⟩
    · simpa [running, queued, hw, hq] using hflush n hc
    · exact absurd (htimer hc) (by simp [hq])
  | create hw | createErr hw | store hw _ | overrun hw _ =>
    refine ⟨fun n hc => ?_, htimer, hcaught⟩
    simpa [running, queued, hw] using hflush n hc
  | requeue hw =>
    have hnone : s.pending = none := by simpa [hw, WorkPc.owes] using hone.one
    refine ⟨fun n hc => ?_, fun _ => by simp [hnone], hcaught⟩
    simpa [running, queued, hw, hnone] using hflush n hc
  | leave hw =>
    refine ⟨fun n hn => ?_, fun hc => ?_, by simpa using hcaught⟩
    · obtain ⟨m, hc, rfl⟩ := executed_eq_flush_iff.mp hn
      have hm := hflush m hc
      simp only [running, queued, hw, if_true, reduceCtorEq, if_false] at hm ⊢
      omega
    · exact htimer (by simpa using hc)
  | unload hc => exact ⟨fun n hn => (CleanupPc.flush.inj hn).symm, nofun, Or.inr (Or.inl rfl)⟩
  | flushed hc => exact ⟨nofun, fun _ => hflushed hc, Or.inr (Or.inl rfl)⟩
  | test hc hpc =>
    have hp := htimer (Or.inl hc)
    rcases hpc with ⟨-, rfl⟩ | ⟨hnone, -⟩
    · exact ⟨nofun, fun _ => hp, Or.inr (Or.inl rfl)⟩
    · simp [hp] at hnone
  | cancel hc =>
    have hp := htimer (Or.inr hc)
    exact ⟨nofun, nofun, Or.inr (Or.inr (by simp [hp, CleanupPc.caught]))⟩
  | flushedAgain hc | destroy hc | skip hc | oops hc | ask hc | finish hc | join hc =>
    rw [hc] at hcaught
    exact ⟨nofun, nofun, hcaught.imp nofun (Or.imp nofun id)⟩
  | exit => exact ⟨hflush, htimer, hcaught⟩

/-- When the timer stays quiet, nothing of the work is left once the queue is gone. -/
theorem quiet_unload_clean {ls : List Label} (h : Along State.step Quiet ls .start) :
    Always State.step (fun s => s.overrun = false → s.cleanup.destroyed = true →
      s.work = .idle ∧ s.pending = none) ls .start := by
  have hstart : OnePlace .start ∧ Settling .start :=
    ⟨onePlace_start, nofun, by simp [State.start], Or.inl rfl⟩
  have halways : Always State.step (fun s => OnePlace s ∧ Settling s) ls .start :=
    always_of_invariant
      (fun _ _ _ hs hq ht => ⟨hs.1.step ht, hs.2.step hs.1 hq ht⟩) hstart h
  refine halways.mono fun s hs _ hd => ?_
  obtain ⟨hone, hsettling⟩ := hs
  have hidle := (hone.drained hd).1
  have hcaught : s.cleanup.caught = true := by
    rcases hsettling.caught with hc | hc | hc
    · simp [hc, CleanupPc.destroyed] at hd
    · cases hp : s.cleanup <;> simp [hp, CleanupPc.open, CleanupPc.destroyed] at hc hd
    · exact hc
  have hpending := hone.one
  rw [hcaught] at hpending
  exact ⟨hidle, by simpa using hpending⟩

/-- The work has run once when the module is unloaded. -/
def ranOnce : List Label :=
  .fire :: List.replicate 5 (.work true) ++ List.replicate 6 .cleanup

theorem quiet_unload_clean_ranOnce :
    (run State.step ranOnce .start).any (fun s => !s.overrun && s.cleanup.destroyed) = true ∧
      Always State.step (fun s => s.overrun = false → s.cleanup.destroyed = true →
        s.work = .idle ∧ s.pending = none) ranOnce .start :=
  ⟨by decide +kernel, quiet_unload_clean (by decide +kernel)⟩

end Eudyptula.Workqueue
