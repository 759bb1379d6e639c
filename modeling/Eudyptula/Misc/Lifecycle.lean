import Eudyptula.Lib.Runs
import Eudyptula.Misc.Device

/-! The module of Task_18 as one system: `misc_init`, `misc_exit`, the thread running
`kthread_fn` and any number of concurrent writes, cut into the steps between which the
others can run. The kernel's part is the outcome carried by a label: whether a call
succeeds, which cell the allocator hands out, what the timed wait returns. -/
namespace Eudyptula.Misc
open CMem IdList

inductive TaskState
  | running
  | interruptible
deriving DecidableEq, Repr

/-- The statement of `kthread_fn` to be executed next; `blocked` is inside `schedule()`,
`timedPrepare` and `timedWait` are `wait_event_interruptible_timeout`. -/
inductive WorkerPc
  | alloc
  | prepare
  | testStop
  | schedule
  | blocked
  | recheck
  | get
  | timedPrepare
  | timedWait
  | report
  | returned
deriving DecidableEq, Repr

/-- The thread: `stop` is the flag of `kthread_should_stop`, `linked` tells whether
`eu_wait` is in `wee_wait`. The buffers obtained for `temp1` are numbered. -/
structure Worker where
  pc : WorkerPc
  task : TaskState
  stop : Bool
  linked : Bool
  obtained : ℕ
  temp1 : Option ℕ
  freed : List ℕ
  got : Node
  reports : List Identity

/-- The value of `eudyptula_thread`: before `kthread_run`, an error pointer, or the
thread. -/
inductive ThreadPtr
  | null
  | err
  | task
deriving DecidableEq, Repr

inductive WriterPc
  | create
  | count
  | wake
deriving DecidableEq, Repr

/-- `misc_exit`: the loop with its counter, the two halves of `kthread_stop`, its wait for
the thread, `misc_deregister`. -/
inductive ExitPc
  | idle
  | loop (i : BitVec 32)
  | stop
  | stopWake
  | join
  | deregister
  | done
deriving DecidableEq, Repr

/-- `byWrite` marks the nodes that a write has created, `init` is what is left of
`misc_init`, `writers` are the writes that have been started and not finished. -/
structure State where
  st : Statics
  byWrite : Addr → Bool
  registered : Bool
  thread : ThreadPtr
  worker : Worker
  init : List InitInstr
  exit : ExitPc
  writers : List WriterPc

inductive Label
  | init (ok : Bool) (A : Allocator)
  | exit
  | worker (ok : Bool)
  | timedOut (ret : ℤ)
  | spurious
  | writeBegin (w : WriteArgs)
  | write (k : ℕ) (A : Allocator)

def Worker.start : Worker := ⟨.alloc, .running, false, false, 0, none, [], .zero, []⟩

def State.start : State where
  st := .init
  byWrite := fun _ => false
  registered := false
  thread := .null
  worker := .start
  init := miscInit
  exit := .idle
  writers := []

namespace State

def setPc (pc : WorkerPc) (s : State) : State := { s with worker := { s.worker with pc } }

/-- `wake_up_process(eudyptula_thread)`. On a pointer that is not a thread the call is
undefined; the run then goes on as if it had done nothing. -/
def wakeUp (s : State) : State := { s with worker := { s.worker with
  task := if s.thread = .task then .running else s.worker.task } }

/-- First half of `kthread_stop(eudyptula_thread)`, with the same convention. -/
def setStop (s : State) : State := { s with worker := { s.worker with
  stop := if s.thread = .task then true else s.worker.stop } }

/-- The node just put in front of the list, if the call of `identity_create` returned 0. -/
def noteOrigin (w : Bool) (code : ℤ) (h : Heap) (o : Addr → Bool) : Addr → Bool :=
  if code = 0 then Function.update o (h.links.next myIdList) w else o

def initStep (ok : Bool) (A : Allocator) (s : State) : Option State :=
  match s.init with
  | [] => none
  | .register :: is =>
    if ok then some { s with registered := true, init := is } else some { s with init := [] }
  | .kthreadRun :: is => some { s with thread := if ok then .task else .err, init := is }
  | .create name id :: is =>
    let (r, heap) := identityCreate A name id s.st.heap
    some { s with
      st := { s.st with heap }, byWrite := noteOrigin false r heap s.byWrite, init := is }
  | i :: is => (i.exec A s.st).map fun st => { s with st, init := is }

/-- A step of `kthread_fn`; `ok` tells whether its `kmalloc` succeeds. -/
def workerStep (ok : Bool) (s : State) : Option State :=
  if s.thread ≠ .task then none
  else
    match s.worker.pc with
    | .alloc =>
      if ok then
        some { s with worker := { s.worker with
          pc := .prepare, obtained := s.worker.obtained + 1, temp1 := some s.worker.obtained } }
      else some { s with worker := { s.worker with pc := .returned, temp1 := none } }
    | .prepare => some { s with worker := { s.worker with
        pc := .testStop, task := .interruptible, linked := true } }
    | .testStop => some (s.setPc (if s.worker.stop then .recheck else .schedule))
    | .schedule => some (s.setPc (if s.worker.task = .interruptible then .blocked else .recheck))
    | .blocked => if s.worker.task = .running then some (s.setPc .recheck) else none
    | .recheck => some (s.setPc (if s.worker.stop then .returned else .get))
    | .get => (callGet s.st).map fun st => { s with st, worker := { s.worker with
        pc := .timedPrepare, got := st.idGet } }
    | .timedPrepare => some { s with worker := { s.worker with
        pc := .timedWait, task := .interruptible } }
    | .timedWait =>
      -- back to sleep after an early wake-up: the condition waited for is the constant 0
      if s.worker.task = .running then
        some { s with worker := { s.worker with task := .interruptible } }
      else none
    | .report => some { s with worker := { s.worker with
        pc := .alloc, reports := s.worker.reports ++ [s.worker.got.identity],
        freed := s.worker.temp1.toList ++ s.worker.freed } }
    | .returned => none

/-- The timed wait returns `ret`: 0 when the time is over, negative on a signal. -/
def timedOutStep (ret : ℤ) (s : State) : Option State :=
  if s.thread = .task ∧ s.worker.pc = .timedWait then
    some { s with worker := { s.worker with
      pc := if ret < 0 then .returned else .report, task := .running } }
  else none

def writeBeginStep (w : WriteArgs) (s : State) : Option State :=
  if s.registered then
    match writeCopy w s.st with
    | (.inl _, st) => some { s with st }
    | (.inr _, st) => some { s with st, writers := s.writers ++ [.create] }
  else none

def writeStep (k : ℕ) (A : Allocator) (s : State) : Option State :=
  match s.writers[k]? with
  | none => none
  | some .create =>
    let (r, st) := writeCreate A s.st
    some { s with
      st, byWrite := noteOrigin true r st.heap s.byWrite, writers := s.writers.set k .count }
  | some .count => some { s with st := writeCount s.st, writers := s.writers.set k .wake }
  | some .wake => some { s.wakeUp with writers := s.writers.eraseIdx k }

/-- A step of `misc_exit`, which runs once `misc_init` has succeeded. -/
def exitStep (s : State) : Option State :=
  match s.exit with
  | .idle => if s.init = [] ∧ s.registered then some { s with exit := .loop 0 } else none
  | .loop i =>
    -- `i < id_count` converts the `int` to `unsigned long`
    if i.signExtend 64 < s.st.idCount then
      (callDestroy i s.st).map fun st => { s with st, exit := .loop (i + 1) }
    else some { s with exit := .stop }
  | .stop => some { s.setStop with exit := .stopWake }
  | .stopWake => some { s.wakeUp with exit := .join }
  | .join => if s.worker.pc = .returned then some { s with exit := .deregister } else none
  | .deregister => some { s with registered := false, exit := .done }
  | .done => none

end State

open State in
def step : Label → State → Option State
  | .init ok A, s => initStep ok A s
  | .exit, s => exitStep s
  | .worker ok, s => workerStep ok s
  | .timedOut ret, s => timedOutStep ret s
  | .spurious, s => some s.wakeUp
  | .writeBegin w, s => writeBeginStep w s
  | .write k A, s => writeStep k A s

/-- `misc_init` with everything going well. -/
def loaded : List Label := miscInit.map fun _ => .init true .above

/-- A worker that has gone to sleep, a write and its wake-up. -/
def sleepThenWrite : List Label :=
  loaded ++ List.replicate 4 (.worker true) ++
    [.writeBegin (.byte 78), .write 0 .above, .write 0 .above, .write 0 .above]

end Eudyptula.Misc
