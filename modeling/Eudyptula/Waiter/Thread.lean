import Eudyptula.IdFile.Handlers
import Eudyptula.Lib.Sleeper
import Eudyptula.Misc.Lifecycle

/-! The module of Task_17: a thread that does nothing but sleep until `misc_exit` stops it,
beside a device whose writes do not wake it. The steps are cut as those of Task_18. -/
namespace Eudyptula.Waiter
open CMem Runs
open Eudyptula.Misc (TaskState ThreadPtr)

/-- The statement of `kthread_fn` to be executed next. -/
inductive Pc
  | prepare
  | testStop
  | schedule
  | blocked
  | recheck
  | returned
deriving DecidableEq, Repr

structure Worker where
  pc : Pc
  task : TaskState
  stop : Bool

inductive InitPc
  | register
  | kthreadRun
  | done
deriving DecidableEq, Repr

/-- `misc_exit`: the two halves of `kthread_stop`, its wait for the thread, and
`misc_deregister`. -/
inductive ExitPc
  | idle
  | stop
  | stopWake
  | join
  | deregister
  | done
deriving DecidableEq, Repr

structure State where
  userInput : Bytes
  registered : Bool
  thread : ThreadPtr
  worker : Worker
  init : InitPc
  exit : ExitPc

inductive Label
  | init (ok : Bool)
  | exit
  | worker
  | spurious
  | write (w : WriteArgs)

def State.start : State where
  userInput := fun _ => 0
  registered := false
  thread := .null
  worker := ⟨.prepare, .running, false⟩
  init := .register
  exit := .idle

namespace State

def setPc (pc : Pc) (s : State) : State := { s with worker := { s.worker with pc } }

/-- `wake_up_process` on the thread, if there is one. -/
def wakeUp (s : State) : State := { s with worker := { s.worker with
  task := if s.thread = .task then .running else s.worker.task } }

/-- First half of `kthread_stop(eudyptula_thread)`. -/
def setStop (s : State) : State := { s with worker := { s.worker with
  stop := if s.thread = .task then true else s.worker.stop } }

/-- A failing `kthread_run` leaves an error pointer, which `misc_init` takes for a thread. -/
def initStep (ok : Bool) (s : State) : Option State :=
  match s.init with
  | .register =>
    if ok then some { s with registered := true, init := .kthreadRun }
    else some { s with init := .done }
  | .kthreadRun => some { s with thread := if ok then .task else .err, init := .done }
  | .done => none

def workerStep (s : State) : Option State :=
  if s.thread ≠ .task then none
  else
    match s.worker.pc with
    | .prepare => some { s with worker := { s.worker with
        pc := .testStop, task := .interruptible } }
    | .testStop => some (s.setPc (if s.worker.stop then .recheck else .schedule))
    | .schedule => some (s.setPc (if s.worker.task = .interruptible then .blocked else .recheck))
    | .blocked => if s.worker.task = .running then some (s.setPc .recheck) else none
    | .recheck => some (s.setPc (if s.worker.stop then .returned else .prepare))
    | .returned => none

/-- A step of `misc_exit`, which runs once `misc_init` has succeeded. -/
def exitStep (s : State) : Option State :=
  match s.exit with
  | .idle => if s.init = .done ∧ s.registered then some { s with exit := .stop } else none
  | .stop => some { s.setStop with exit := .stopWake }
  | .stopWake => some { s.wakeUp with exit := .join }
  | .join => if s.worker.pc = .returned then some { s with exit := .deregister } else none
  | .deregister => some { s with registered := false, exit := .done }
  | .done => none

def writeStep (w : WriteArgs) (s : State) : Option State :=
  if s.registered then
    let (_, _, userInput) := IdFile.simpleDevWrite w s.userInput
    some { s with userInput }
  else none

end State

def step : Label → State → Option State
  | .init ok, s => s.initStep ok
  | .exit, s => s.exitStep
  | .worker, s => s.workerStep
  | .spurious, s => some s.wakeUp
  | .write w, s => s.writeStep w

/-- Blocked in `schedule()`. -/
def Asleep (w : Worker) : Prop := w.pc = .blocked ∧ w.task = .interruptible

/-- `kthread_stop` is past its wake-up. -/
def ExitPc.delivered : ExitPc → Bool
  | .join | .deregister | .done => true
  | .idle | .stop | .stopWake => false

def Pc.zone : Pc → Sleeper.Zone
  | .testStop => .armed
  | .schedule => .committed
  | .blocked => .blocked
  | .prepare | .recheck | .returned => .outside

/-- What the module shows of the protocol. -/
def State.sleeper (s : State) : Sleeper.Thread where
  zone := s.worker.pc.zone
  interruptible := s.worker.task = .interruptible
  stop := s.worker.stop
  woken := s.worker.stop && s.exit.delivered

/-- The thread that was stopped is the one `misc_init` has created. -/
structure Ordered (s : State) : Prop where
  loaded : s.exit ≠ .idle → s.init = .done
  stopped : s.worker.stop = true → s.exit ≠ .idle ∧ s.thread = .task

section
variable {s t : State}

theorem ordered_start : Ordered .start := ⟨fun h => absurd rfl h, nofun⟩

theorem Ordered.frame (h : Ordered s) (hexit : t.exit = s.exit) (hinit : t.init = s.init)
    (hthread : t.thread = s.thread) (hstop : t.worker.stop = s.worker.stop) : Ordered t := by
  constructor
  · rw [hexit, hinit]
    exact h.loaded
  · rw [hstop, hexit, hthread]
    exact h.stopped

theorem initStep_simulates {ok : Bool} (h : Ordered s) (hst : s.initStep ok = some t) :
    Ordered t ∧ t.sleeper = s.sleeper := by
  -- while `misc_init` runs nobody stops the thread
  have hkeep : ∀ t : State, t.worker = s.worker → t.exit = s.exit → s.init ≠ .done →
      Ordered t ∧ t.sleeper = s.sleeper := by
    intro t hworker hexit hinit
    have hidle : s.exit = .idle := by
      by_contra hbusy
      exact hinit (h.loaded hbusy)
    refine ⟨⟨fun hne => ?_, fun hstop => ?_⟩, ?_⟩
    · exact absurd (hexit.trans hidle) hne
    · rw [hworker] at hstop
      exact absurd hidle (h.stopped hstop).1
    · rw [State.sleeper, hworker, hexit]
      rfl
  unfold State.initStep at hst
  cases hi : s.init with
  | register =>
    simp only [hi] at hst
    split_ifs at hst
    all_goals
      cases hst
      exact hkeep _ rfl rfl (by simp [hi])
  | kthreadRun =>
    simp only [hi] at hst
    cases hst
    exact hkeep _ rfl rfl (by simp [hi])
  | done => simp [hi] at hst

theorem workerStep_simulates (h : Ordered s) (hst : s.workerStep = some t) :
    Ordered t ∧ (t.sleeper = s.sleeper ∨ Sleeper.Step s.sleeper t.sleeper) := by
  obtain ⟨-, hst⟩ := Option.ite_none_left_eq_some.mp hst
  cases hpc : s.worker.pc with
  | prepare =>
    simp only [hpc, Option.some.injEq] at hst
    subst hst
    exact ⟨h.frame rfl rfl rfl rfl, .inr (.prepare (by simp [State.sleeper, hpc, Pc.zone]) rfl)⟩
  | testStop =>
    have hzone : s.sleeper.zone = .armed := by simp [State.sleeper, hpc, Pc.zone]
    cases hs : s.worker.stop with
    | true =>
      simp only [hpc, hs, if_true, Option.some.injEq] at hst
      subst hst
      exact ⟨h.frame rfl rfl rfl rfl, .inr (.seesStop hzone hs rfl)⟩
    | false =>
      simp only [hpc, hs, Bool.false_eq_true, if_false, Option.some.injEq] at hst
      subst hst
      exact ⟨h.frame rfl rfl rfl rfl, .inr (.commits hzone hs rfl)⟩
  | schedule =>
    have hzone : s.sleeper.zone = .committed := by simp [State.sleeper, hpc, Pc.zone]
    cases hk : s.worker.task with
    | interruptible =>
      simp only [hpc, hk, if_true, Option.some.injEq] at hst
      subst hst
      exact ⟨h.frame rfl rfl rfl rfl, .inr (.sleeps hzone (by simp [State.sleeper, hk]) rfl)⟩
    | running =>
      simp only [hpc, hk, reduceCtorEq, if_false, Option.some.injEq] at hst
      subst hst
      exact ⟨h.frame rfl rfl rfl rfl, .inr (.resumes (by simp [State.sleeper, hk]) rfl)⟩
  | blocked =>
    simp only [hpc] at hst
    split_ifs at hst with hk
    cases hst
    exact ⟨h.frame rfl rfl rfl rfl, .inr (.resumes (by simp [State.sleeper, hk]) rfl)⟩
  | recheck =>
    simp only [hpc, Option.some.injEq] at hst
    subst hst
    refine ⟨h.frame rfl rfl rfl rfl, .inl ?_⟩
    cases hs : s.worker.stop <;> simp [State.sleeper, State.setPc, hpc, hs, Pc.zone]
  | returned => simp [hpc] at hst

theorem wakeUp_simulates (s : State) :
    s.wakeUp.sleeper = s.sleeper ∨ Sleeper.Step s.sleeper s.wakeUp.sleeper := by
  by_cases ht : s.thread = .task
  · exact .inr (.wake (by simp [State.sleeper, State.wakeUp, ht]))
  · exact .inl (by simp [State.sleeper, State.wakeUp, ht])

/-- Second half of `kthread_stop`: the wake-up of a thread that was told to stop, or one
more wake-up. -/
theorem stopWake_simulates (h : Ordered s) :
    State.sleeper { s.wakeUp with exit := .join } = s.sleeper ∨
      Sleeper.Step s.sleeper (State.sleeper { s.wakeUp with exit := .join }) := by
  cases hs : s.worker.stop with
  | true =>
    have ht := (h.stopped hs).2
    refine .inr (.stopWake hs ?_)
    simp [State.sleeper, State.wakeUp, ht, hs, ExitPc.delivered]
  | false =>
    have hsame : State.sleeper { s.wakeUp with exit := .join } = s.wakeUp.sleeper := by
      simp [State.sleeper, State.wakeUp, hs]
    rw [hsame]
    exact wakeUp_simulates s

/-- A move of `misc_exit` other than the two halves of `kthread_stop`. -/
theorem exitMove_simulates (h : Ordered s) (hinit : t.init = .done) (hexit : t.exit ≠ .idle)
    (hthread : t.thread = s.thread) (hworker : t.worker = s.worker)
    (hdel : t.exit.delivered = s.exit.delivered) :
    Ordered t ∧ (t.sleeper = s.sleeper ∨ Sleeper.Step s.sleeper t.sleeper) := by
  refine ⟨⟨fun _ => hinit, fun hstop => ⟨hexit, ?_⟩⟩, .inl ?_⟩
  · rw [hworker] at hstop
    rw [hthread]
    exact (h.stopped hstop).2
  · rw [State.sleeper, State.sleeper, hworker, hdel]

theorem exitStep_simulates (h : Ordered s) (hst : s.exitStep = some t) :
    Ordered t ∧ (t.sleeper = s.sleeper ∨ Sleeper.Step s.sleeper t.sleeper) := by
  unfold State.exitStep at hst
  cases he : s.exit with
  | idle =>
    simp only [he] at hst
    split_ifs at hst with hc
    cases hst
    exact exitMove_simulates h hc.1 nofun rfl rfl (by rw [he]; rfl)
  | stop =>
    simp only [he, Option.some.injEq] at hst
    subst hst
    have hinit := h.loaded (by simp [he])
    by_cases ht : s.thread = .task
    · refine ⟨⟨fun _ => hinit, fun _ => ⟨nofun, ht⟩⟩, .inr (.setStop ?_)⟩
      simp [State.sleeper, State.setStop, ht, he, ExitPc.delivered]
    · have hsame : s.setStop = s := by simp [State.setStop, ht]
      rw [hsame]
      exact exitMove_simulates h hinit nofun rfl rfl (by rw [he]; rfl)
  | stopWake =>
    simp only [he, Option.some.injEq] at hst
    subst hst
    have hinit := h.loaded (by simp [he])
    exact ⟨⟨fun _ => hinit, fun hstop => ⟨nofun, (h.stopped hstop).2⟩⟩, stopWake_simulates h⟩
  | join =>
    simp only [he] at hst
    split_ifs at hst
    cases hst
    have hinit := h.loaded (by simp [he])
    exact exitMove_simulates h hinit nofun rfl rfl (by rw [he]; rfl)
  | deregister =>
    simp only [he, Option.some.injEq] at hst
    subst hst
    have hinit := h.loaded (by simp [he])
    exact exitMove_simulates h hinit nofun rfl rfl (by rw [he]; rfl)
  | done => simp [he] at hst

theorem simulates : Sleeper.Simulates step Ordered State.sleeper := by
  intro l s t h hst
  cases l with
  | init ok =>
    obtain ⟨ht, hsame⟩ := initStep_simulates h hst
    exact ⟨ht, .inl hsame⟩
  | exit => exact exitStep_simulates h hst
  | worker => exact workerStep_simulates h hst
  | spurious =>
    cases hst
    exact ⟨h.frame rfl rfl rfl rfl, wakeUp_simulates s⟩
  | write w =>
    obtain ⟨-, hst⟩ := Option.ite_none_right_eq_some.mp hst
    cases hst
    exact ⟨h.frame rfl rfl rfl rfl, .inl rfl⟩

end

/-- Once `kthread_stop` has woken the thread, it is not asleep in any state that follows. -/
theorem never_asleep_after_stop {ls : List Label} {s : State} (hs : run step ls .start = some s)
    (hstop : s.worker.stop = true) (hdel : s.exit.delivered = true) (later : List Label) :
    Always step (fun t => ¬ Asleep t.worker) later s := by
  have hwoken : s.sleeper.woken = true := by simp [State.sleeper, hstop, hdel]
  refine (simulates.awake ordered_start nofun hs hwoken later).mono ?_
  intro t hawake hasleep
  exact hawake ⟨by simp [State.sleeper, hasleep.1, Pc.zone], by simp [State.sleeper, hasleep.2]⟩

end Eudyptula.Waiter
