import Eudyptula.Misc.Wakeup
import Eudyptula.Waiter.Thread

/-! Stopping the worker. `misc_exit` calls `kthread_stop`, which sets the flag and wakes the
worker; `kthread_fn` announces its sleep before it looks at the flag. The threads of Task_17
and of Task_18 both follow the protocol for such a sleep. -/
namespace Eudyptula.Misc
open IdList Runs

/-- `kthread_stop` is past its wake-up. -/
def ExitPc.delivered : ExitPc → Bool
  | .join | .deregister | .done => true
  | .idle | .loop _ | .stop | .stopWake => false

/-- The timed sleep is outside: it ends by itself. -/
def WorkerPc.zone : WorkerPc → Sleeper.Zone
  | .testStop => .armed
  | .schedule => .committed
  | .blocked => .blocked
  | .alloc | .prepare | .recheck | .get | .timedPrepare | .timedWait | .report | .returned =>
    .outside

def Worker.sleeper (w : Worker) (delivered : Bool) : Sleeper.Thread where
  zone := w.pc.zone
  interruptible := w.task = .interruptible
  stop := w.stop
  woken := w.stop && delivered

/-- What the module shows of the protocol. -/
def State.sleeper (s : State) : Sleeper.Thread := s.worker.sleeper s.exit.delivered

/-- The invariant under which the steps are those of the protocol: only a thread that exists
is told to stop. -/
structure Stoppable (s : State) : Prop where
  phase : Phase s
  list : ∃ es, Represents s.st.heap es
  stopped : s.worker.stop = true → s.thread = .task

section
variable {s t : State} {es es' : List Entry} {l : Label}

theorem WorkerMove.sleeper {ok : Bool} {w w' : Worker} (hm : WorkerMove ok w w') (d : Bool) :
    w'.sleeper d = w.sleeper d ∨ Sleeper.Step (w.sleeper d) (w'.sleeper d) := by
  cases hm with
  | prepared hpc =>
    exact .inr (.prepare (by simp [Worker.sleeper, hpc, WorkerPc.zone]) rfl)
  | stopSeen hpc hs =>
    exact .inr (.seesStop (by simp [Worker.sleeper, hpc, WorkerPc.zone]) hs rfl)
  | toSchedule hpc hs =>
    exact .inr (.commits (by simp [Worker.sleeper, hpc, WorkerPc.zone]) hs rfl)
  | slept hpc ht =>
    exact .inr (.sleeps (by simp [Worker.sleeper, hpc, WorkerPc.zone])
      (by simp [Worker.sleeper, ht]) rfl)
  | ranOn hpc ht | woken hpc ht =>
    exact .inr (.resumes (by simp [Worker.sleeper, ht]) rfl)
  | dozed hpc =>
    exact .inr (.elsewhere true (by simp [Worker.sleeper, hpc, WorkerPc.zone])
      (by simp [Worker.sleeper, hpc, WorkerPc.zone]))
  | resleeps hpc =>
    exact .inr (.elsewhere true (by simp [Worker.sleeper, hpc, WorkerPc.zone])
      (by simp [Worker.sleeper]))
  | allocated hpc | allocFailed hpc | stopped hpc | toGet hpc | reported hpc =>
    exact .inl (by simp [Worker.sleeper, hpc, WorkerPc.zone])

theorem wakeUp_sleeper (s : State) :
    s.wakeUp.sleeper = s.sleeper ∨ Sleeper.Step s.sleeper s.wakeUp.sleeper := by
  by_cases ht : s.thread = .task
  · exact .inr (.wake (by simp [State.sleeper, Worker.sleeper, State.wakeUp, ht]))
  · exact .inl (by simp [State.sleeper, Worker.sleeper, State.wakeUp, ht])

/-- Second half of `kthread_stop`: the wake-up of a thread that was told to stop, or one
more wake-up. -/
theorem stopWake_sleeper (h : s.worker.stop = true → s.thread = .task) :
    State.sleeper { s.wakeUp with exit := .join } = s.sleeper ∨
      Sleeper.Step s.sleeper (State.sleeper { s.wakeUp with exit := .join }) := by
  cases hs : s.worker.stop with
  | true =>
    have ht := h hs
    refine .inr (.stopWake hs ?_)
    simp [State.sleeper, Worker.sleeper, State.wakeUp, ht, hs, ExitPc.delivered]
  | false =>
    have hsame : State.sleeper { s.wakeUp with exit := .join } = s.wakeUp.sleeper := by
      simp [State.sleeper, Worker.sleeper, State.wakeUp, hs]
    rw [hsame]
    exact wakeUp_sleeper s

/-- A move of `misc_exit` other than the two halves of `kthread_stop`. -/
theorem sleeper_exit_eq {e : ExitPc} (hworker : t.worker = s.worker) (hexit : t.exit = e)
    (hdel : e.delivered = s.exit.delivered) : t.sleeper = s.sleeper := by
  rw [State.sleeper, State.sleeper, hworker, hexit, hdel]

theorem Trans.sleeper (hph : Phase s) (h : s.worker.stop = true → s.thread = .task)
    (htr : Trans s es l t es') :
    (t.worker.stop = true → t.thread = .task) ∧
      (t.sleeper = s.sleeper ∨ Sleeper.Step s.sleeper t.sleeper) := by
  cases htr with
  | threadRun hi =>
    -- there is no thread yet, so none has been told to stop
    have hnull : s.thread = .null := hph.noThread (by simp [hi])
    refine ⟨fun hstop => ?_, .inl rfl⟩
    rw [hnull] at h
    exact nomatch h hstop
  | registered | notRegistered | initFail | initPut | initGet | initFind | initDestroy
  | writeEnded | writeCopied | writeFail | writePut | writeCounted => exact ⟨h, .inl rfl⟩
  | exitStart he | exitDestroy he | exitLoopEnd he | exitJoin he | exitDeregister he =>
    exact ⟨h, .inl (sleeper_exit_eq rfl rfl (by rw [he]; rfl))⟩
  | exitStop he =>
    by_cases ht : s.thread = .task
    · refine ⟨fun _ => ht, .inr (.setStop ?_)⟩
      simp [State.sleeper, Worker.sleeper, State.setStop, ht, he, ExitPc.delivered]
    · have hsame : s.setStop = s := by simp [State.setStop, ht]
      rw [hsame]
      exact ⟨h, .inl (sleeper_exit_eq rfl rfl (by rw [he]; rfl))⟩
  | exitStopWake he => exact ⟨h, stopWake_sleeper h⟩
  | worker ht hm =>
    exact ⟨fun _ => ht, hm.sleeper s.exit.delivered⟩
  | workerGet ht hpc =>
    exact ⟨fun _ => ht, .inl (by simp [State.sleeper, Worker.sleeper, hpc, WorkerPc.zone])⟩
  | @timedOut ret ht hpc =>
    refine ⟨fun _ => ht, .inr (.elsewhere false ?_ ?_)⟩
    · simp [State.sleeper, Worker.sleeper, hpc, WorkerPc.zone]
    · by_cases hret : ret < 0 <;> simp [State.sleeper, Worker.sleeper, hpc, hret, WorkerPc.zone]
  | spurious => exact ⟨h, wakeUp_sleeper s⟩
  | writeWoken => exact ⟨h, wakeUp_sleeper s⟩

theorem simulates : Sleeper.Simulates step Stoppable State.sleeper := by
  intro l s t h hst
  obtain ⟨es, hr⟩ := h.list
  obtain ⟨es', hr', htr⟩ := step_trans hr hst
  obtain ⟨hstopped, hmove⟩ := htr.sleeper h.phase h.stopped
  exact ⟨⟨htr.phase h.phase, ⟨es', hr'⟩, hstopped⟩, hmove⟩

theorem never_asleep_after_stop {ls : List Label} (hs : run step ls .start = some s)
    (hstop : s.worker.stop = true) (hdel : s.exit.delivered = true) (later : List Label) :
    Always step (fun t => ¬ Asleep t.worker) later s := by
  have hstart : Stoppable .start := ⟨phase_start, ⟨[], represents_init⟩, nofun⟩
  have hwoken : s.sleeper.woken = true := by simp [State.sleeper, Worker.sleeper, hstop, hdel]
  refine (simulates.awake hstart nofun hs hwoken later).mono ?_
  intro t hawake hasleep
  refine hawake ⟨?_, ?_⟩
  · simp [State.sleeper, Worker.sleeper, hasleep.1, WorkerPc.zone]
  · simp [State.sleeper, Worker.sleeper, hasleep.2]

end

/-- In both modules, whatever the interleaving: once the stop flag is set and the wake-up of
`kthread_stop` delivered, the worker is not blocked in the untimed `schedule()`, and whatever
happens later it never is again. -/
theorem stop_not_lost :
    (∀ (ls later : List Waiter.Label) (s : Waiter.State), run Waiter.step ls .start = some s →
      s.worker.stop = true → s.exit.delivered = true →
        Always Waiter.step (fun t => ¬ Waiter.Asleep t.worker) later s) ∧
    (∀ (ls later : List Label) (s : State), run step ls .start = some s →
      s.worker.stop = true → s.exit.delivered = true →
        Always step (fun t => ¬ Asleep t.worker) later s) := by
  constructor
  · intro ls later s hs hstop hdel
    exact Waiter.never_asleep_after_stop hs hstop hdel later
  · intro ls later s hs hstop hdel
    exact never_asleep_after_stop hs hstop hdel later

/-- Both threads sleep when their module is unloaded. -/
theorem stop_not_lost_unload :
    (∃ s, run Waiter.step ([.init true, .init true] ++ List.replicate 3 .worker ++
        List.replicate 3 .exit) .start = some s ∧ s.worker.stop = true ∧
      s.exit.delivered = true ∧ Always Waiter.step (fun t => ¬ Waiter.Asleep t.worker)
        [.worker, .worker, .exit, .exit] s) ∧
    (∃ s, run step (loaded ++ List.replicate 4 (.worker true) ++ List.replicate 4 .exit) .start =
        some s ∧ s.worker.stop = true ∧ s.exit.delivered = true ∧
      Always step (fun t => ¬ Asleep t.worker) [.worker true, .worker true, .exit, .exit] s) := by
  have hwaiter : ((run Waiter.step ([.init true, .init true] ++ List.replicate 3 .worker ++
      List.replicate 3 .exit) .start).map fun s => (s.worker.stop, s.exit.delivered)) =
        some (true, true) := by
    decide +kernel
  have hworker : ((run step (loaded ++ List.replicate 4 (.worker true) ++
      List.replicate 4 .exit) .start).map fun s => (s.worker.stop, s.exit.delivered)) =
        some (true, true) := by
    decide +kernel
  obtain ⟨s, hs, hflags⟩ := Option.map_eq_some_iff.mp hwaiter
  obtain ⟨hstop, hdel⟩ := Prod.mk.inj hflags
  obtain ⟨t, ht, hflags⟩ := Option.map_eq_some_iff.mp hworker
  obtain ⟨hstop', hdel'⟩ := Prod.mk.inj hflags
  exact ⟨⟨s, hs, hstop, hdel, stop_not_lost.1 _ _ s hs hstop hdel⟩,
    ⟨t, ht, hstop', hdel', stop_not_lost.2 _ _ t ht hstop' hdel'⟩⟩

end Eudyptula.Misc
