import Mathlib.Logic.Function.Basic
import Eudyptula.Lib.Runs

/-! The work queue module of Task_17: a delayed work that starts a thread and queues itself
again, and `cleanup_module`, which takes the work off the queue and stops the threads. The
timer, the worker, the threads and `cleanup_module` run at the same time. -/
namespace Eudyptula.Workqueue
open Runs

/-- `ts` has this many elements. -/
def TS_SIZE : ℕ := 1000

/-- Where a pending `dwork` is. A queue that is being drained refuses it when the timer fires;
after `destroy_workqueue` the timer fires on freed memory. -/
inductive Place
  | timer
  | queued
  | refused
  | dangling
deriving DecidableEq

/-- What `kthread_run` returns. -/
inductive TaskPtr
  | task (j : ℕ)
  | err
deriving DecidableEq

/-- The statement of `function` that the worker executes next. -/
inductive WorkPc
  | idle
  | create
  | store (p : TaskPtr)
  | requeue
  | leave
deriving DecidableEq

/-- A thread in `threadf`; it returns some time after it was asked to stop. -/
inductive Thread
  | running
  | asked
  | exited
deriving DecidableEq

/-- `cleanup_module`. A flush waits for `n` more executions of the work; `caught` is what
`cancel_delayed_work` has returned, or false if it was not called. -/
inductive CleanupPc
  | loaded
  | flush (n : ℕ)
  | test
  | cancel
  | flushAgain (n : ℕ) (caught : Bool)
  | destroy (caught : Bool)
  | stop (i : ℕ) (caught : Bool)
  | join (i j : ℕ) (caught : Bool)
  | oops (i : ℕ) (caught : Bool)
  | done (caught : Bool)
deriving DecidableEq

/-- `pending` is the bit that `delayed_work_pending` reads, with the place of the work;
`overrun` tells that a store went past the end of `ts`. -/
structure State where
  pending : Option Place
  work : WorkPc
  ts : ℕ → Option TaskPtr
  count : ℕ
  overrun : Bool
  threads : List Thread
  cleanup : CleanupPc

inductive Label
  | fire
  | work (ok : Bool)
  | cleanup
  | thread (j : ℕ)

/-- After `init_module`. -/
def State.start : State := ⟨some .timer, .idle, fun _ => none, 1, false, [], .loaded⟩

def CleanupPc.destroyed : CleanupPc → Bool
  | .stop .. | .join .. | .oops .. | .done _ => true
  | _ => false

def CleanupPc.draining : CleanupPc → Bool
  | .destroy _ => true
  | _ => false

def CleanupPc.executed : CleanupPc → CleanupPc
  | .flush n => .flush (n - 1)
  | .flushAgain n caught => .flushAgain (n - 1) caught
  | pc => pc

namespace State

def running (s : State) : ℕ := if s.work = .idle then 0 else 1

def queued (s : State) : ℕ := if s.pending = some .queued then 1 else 0

/-- The timer puts the work on its queue. -/
def fire (s : State) : Option State :=
  if s.pending = some .timer then
    some { s with pending := some (if s.cleanup.destroyed then .dangling
      else if s.cleanup.draining then .refused else .queued) }
  else none

/-- `ok` tells whether `kthread_run` succeeds. -/
def workStep (ok : Bool) (s : State) : Option State :=
  match s.work with
  | .idle =>
    if s.pending = some .queued then some { s with pending := none, work := .create } else none
  | .create =>
    if ok then
      some { s with work := .store (.task s.threads.length), threads := s.threads ++ [.running] }
    else some { s with work := .store .err }
  | .store p =>
    if s.count < TS_SIZE then
      some { s with
        ts := Function.update s.ts s.count (some p), count := s.count + 1, work := .requeue }
    else some { s with overrun := true, count := s.count + 1, work := .requeue }
  | .requeue => some { s with pending := some (s.pending.getD .timer), work := .leave }
  | .leave => some { s with work := .idle, cleanup := s.cleanup.executed }

def cleanupStep (s : State) : Option State :=
  match s.cleanup with
  | .loaded => some { s with cleanup := .flush (s.running + s.queued) }
  | .flush n => if n = 0 then some { s with cleanup := .test } else none
  | .test => some { s with cleanup := if s.pending.isSome then .cancel else .destroy false }
  | .cancel =>
    some { s with pending := none, cleanup := .flushAgain s.running s.pending.isSome }
  | .flushAgain n caught => if n = 0 then some { s with cleanup := .destroy caught } else none
  | .destroy caught =>
    if s.work = .idle ∧ s.pending ≠ some .queued then some { s with cleanup := .stop 0 caught }
    else none
  | .stop i caught =>
    if i < TS_SIZE then
      match s.ts i with
      | none => some { s with cleanup := .stop (i + 1) caught }
      | some .err => some { s with cleanup := .oops i caught }
      | some (.task j) =>
        some { s with threads := s.threads.set j .asked, cleanup := .join i j caught }
    else some { s with cleanup := .done caught }
  | .join i j caught =>
    if s.threads[j]? = some .exited then some { s with cleanup := .stop (i + 1) caught } else none
  | .oops .. | .done _ => none

def threadStep (j : ℕ) (s : State) : Option State :=
  if s.threads[j]? = some .asked then some { s with threads := s.threads.set j .exited } else none

def step : Label → State → Option State
  | .fire, s => s.fire
  | .work ok, s => s.workStep ok
  | .cleanup, s => s.cleanupStep
  | .thread j, s => s.threadStep j

end State
end Eudyptula.Workqueue
