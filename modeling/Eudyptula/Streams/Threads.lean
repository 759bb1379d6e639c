import Mathlib.Data.Fintype.Defs
import Eudyptula.Lib.Semaphores

/-! The producer–consumer module: two successors, two multipliers, a merge and a consumer,
connected by five streams. The queue of `queue_a.h` is a parameter. -/
namespace Eudyptula.Streams
open Function Kahn

/-- The `Stream` objects. -/
inductive StreamId
  | suc1 | suc2 | tms1 | tms2 | mrg
  deriving DecidableEq

/-- The `Args` objects, one for each thread. -/
inductive ThreadId
  | suc1 | suc2 | tms1 | tms2 | mrg | cons
  deriving DecidableEq

instance : Fintype StreamId where
  elems := {.suc1, .suc2, .tms1, .tms2, .mrg}
  complete s := by cases s <;> decide

instance : Fintype ThreadId where
  elems := {.suc1, .suc2, .tms1, .tms2, .mrg, .cons}
  complete p := by cases p <;> decide

inductive Sem
  | empty | full | mutex
  deriving DecidableEq

/-- A cell of `vmalloc` and the `int` in it. It is told from the other cells by the stream of
the successor that has allocated it and the number of cells that one had allocated before. -/
structure Cell where
  src : StreamId
  num : ℕ
  value : BitVec 32
  deriving DecidableEq

def bufferSize : ℕ := 5

/-- `β` is the type of the buffer. -/
structure Stream (β : Type*) where
  next : Option StreamId
  sems : Sem → ℕ
  buffer : β
  args : Option (BitVec 32)
  id : BitVec 32

structure Args where
  self : Option StreamId
  prod : Option StreamId

structure Globals (β : Type*) where
  idcnt : BitVec 32
  stream : StreamId → Stream β
  args : ThreadId → Args

def mult1 : BitVec 32 := 3

def mult2 : BitVec 32 := 5

def initSems : Sem → ℕ
  | .mutex => 1
  | .empty => bufferSize
  | .full => 0

section
variable {β : Type*}

def initStream (initQueue : β → β) (args : ThreadId) (self : Option StreamId)
    (data : Option (BitVec 32)) (g : Globals β) : Globals β :=
  let g := match self with
    | none => g
    | some s =>
      { g with
        idcnt := g.idcnt + 1
        stream := update g.stream s
          { next := none, args := data, id := g.idcnt, buffer := initQueue (g.stream s).buffer
            sems := initSems } }
  { g with args := update g.args args { self, prod := none } }

def connect (arg : ThreadId) (s : StreamId) (g : Globals β) : Globals β :=
  { g with
    stream := update g.stream s { g.stream s with next := (g.args arg).prod }
    args := update g.args arg { g.args arg with prod := some s } }

/-- The objects as the module is loaded. -/
def loaded (zeroed : β) : Globals β where
  idcnt := 1
  stream _ := { next := none, sems := fun _ => 0, buffer := zeroed, args := none, id := 0 }
  args _ := { self := none, prod := none }

def initModule (initQueue : β → β) (g : Globals β) : Globals β :=
  let g := initStream initQueue .suc1 (some .suc1) none g
  let g := initStream initQueue .suc2 (some .suc2) none g
  let g := initStream initQueue .tms1 (some .tms1) (some mult1) g
  let g := connect .tms1 .suc1 g
  let g := initStream initQueue .tms2 (some .tms2) (some mult2) g
  let g := connect .tms2 .suc2 g
  let g := initStream initQueue .mrg (some .mrg) none g
  let g := connect .mrg .tms1 g
  let g := connect .mrg .tms2 g
  let g := initStream initQueue .cons none none g
  connect .cons .mrg g

/-- The stream without its buffer. -/
def Stream.forget (s : Stream β) : Stream Unit := { s with buffer := () }

def Globals.forget (g : Globals β) : Globals Unit :=
  { g with stream := Stream.forget ∘ g.stream }

theorem forget_initStream (initQueue : β → β) (args : ThreadId) (self : Option StreamId)
    (data : Option (BitVec 32)) (g : Globals β) :
    (initStream initQueue args self data g).forget = initStream id args self data g.forget := by
  cases self with
  | none => rfl
  | some s =>
    simp only [initStream, Globals.forget, comp_update]
    rfl

theorem forget_connect (arg : ThreadId) (s : StreamId) (g : Globals β) :
    (connect arg s g).forget = connect arg s g.forget := by
  simp only [connect, Globals.forget, comp_update]
  rfl

end

/-- What the threads find apart from the buffers; they change nothing of it but the semaphores. -/
def wired : Globals Unit := initModule id (loaded ())

/-- It is the same whatever the queue is. -/
theorem forget_initModule {β : Type*} (initQueue : β → β) (zeroed : β) :
    (initModule initQueue (loaded zeroed)).forget = wired := by
  simp only [initModule, forget_connect, forget_initStream]
  rfl

/-- Where a thread is in its function. `sleep` stands for `msleep`, `num` counts the cells that
a successor has allocated and `freed` lists those that the consumer has printed and freed. -/
inductive Local
  | sucSleep (i : BitVec 32) (num : ℕ)
  | sucAlloc (i : BitVec 32) (num : ℕ)
  | sucPut (i : BitVec 32) (num : ℕ) (value : Cell)
  | timesSleep
  | timesGet
  | timesMul (value : Cell)
  | timesPut (value : Cell)
  | mergeFirst
  | mergeSecond (a : Option Cell)
  | mergeCompare (a b : Cell)
  | mergePutA (a b : Cell)
  | mergePutB (a b : Cell)
  | mergeGetA (b : Cell)
  | mergeGetB (a : Cell)
  | consGet (i : ℕ) (freed : List Cell)
  | consPrint (i : ℕ) (value : Cell) (freed : List Cell)
  | returned (freed : List Cell)
  | oops (freed : List Cell)
  deriving DecidableEq

def putTo (s : Option StreamId) (v : Cell) : Act StreamId Cell :=
  match s with
  | some c => .op (.put c v)
  | none => .halt

def getFrom (s : Option StreamId) : Act StreamId Cell :=
  match s with
  | some c => .op (.get c)
  | none => .halt

/-- The next thing a thread does. The second stream of `merge` is behind the first in the list
that `connect` has made. -/
def act (p : ThreadId) : Local → Act StreamId Cell
  | .sucSleep _ _ | .sucAlloc _ _ => .pause
  | .sucPut _ _ value => putTo (wired.args p).self value
  | .timesSleep => .pause
  | .timesGet => getFrom (wired.args p).prod
  | .timesMul _ => .pause
  | .timesPut value => putTo (wired.args p).self value
  | .mergeFirst | .mergeGetA _ => getFrom (wired.args p).prod
  | .mergeSecond _ | .mergeGetB _ =>
    getFrom ((wired.args p).prod.bind fun s1 => (wired.stream s1).next)
  | .mergeCompare _ _ => .pause
  | .mergePutA a _ => putTo (wired.args p).self a
  | .mergePutB _ b => putTo (wired.args p).self b
  | .consGet _ _ => getFrom (wired.args p).prod
  | .consPrint _ _ _ => .pause
  | .returned _ | .oops _ => .halt

/-- The factor of `times`. -/
def factor (p : ThreadId) : BitVec 32 :=
  ((wired.args p).self.bind fun s => (wired.stream s).args).getD 0

/-- Where a thread is afterwards. The result is what `get` has returned: `none` is `NULL`, which
is read at once, except for the first of the two values of `merge`. -/
def next (p : ThreadId) : Local → Option Cell → Local
  | .sucSleep i num, _ => .sucAlloc i num
  | .sucAlloc i num, _ =>
    match (wired.args p).self with
    | some s => .sucPut i (num + 1) { src := s, num, value := i }
    | none => .oops []
  | .sucPut i num _, _ => .sucSleep (i + 1) num
  | .timesSleep, _ => .timesGet
  | .timesGet, some value => .timesMul value
  | .timesGet, none => .oops []
  | .timesMul value, _ => .timesPut { value with value := value.value * factor p }
  | .timesPut _, _ => .timesSleep
  | .mergeFirst, a => .mergeSecond a
  | .mergeSecond (some a), some b => .mergeCompare a b
  | .mergeSecond _, _ => .oops []
  | .mergeCompare a b, _ => if a.value.slt b.value then .mergePutA a b else .mergePutB a b
  | .mergePutA _ b, _ => .mergeGetA b
  | .mergePutB a _, _ => .mergeGetB a
  | .mergeGetA b, some a => .mergeCompare a b
  | .mergeGetA _, none => .oops []
  | .mergeGetB a, some b => .mergeCompare a b
  | .mergeGetB _, none => .oops []
  | .consGet i freed, some value => .consPrint i value freed
  | .consGet _ freed, none => .oops freed
  | .consPrint i value freed, _ =>
    if i + 1 < 10 then .consGet (i + 1) (freed ++ [value]) else .returned (freed ++ [value])
  | .returned freed, _ => .returned freed
  | .oops freed, _ => .oops freed

/-- `vmalloc` without memory: the cell that is written is at `NULL`. -/
def fail (_ : ThreadId) : Local → Option Local
  | .sucAlloc _ _ => some (.oops [])
  | _ => none

/-- The thread whose output the stream is. -/
def writer : StreamId → ThreadId
  | .suc1 => .suc1
  | .suc2 => .suc2
  | .tms1 => .tms1
  | .tms2 => .tms2
  | .mrg => .mrg

/-- The thread that consumes the stream. -/
def reader : StreamId → ThreadId
  | .suc1 => .tms1
  | .suc2 => .tms2
  | .tms1 | .tms2 => .mrg
  | .mrg => .cons

theorem writer_of_self {p : ThreadId} {c : StreamId} (h : (wired.args p).self = some c) :
    writer c = p := by
  cases p <;> cases h <;> rfl

theorem reader_of_prod {p : ThreadId} {c : StreamId} (h : (wired.args p).prod = some c) :
    reader c = p := by
  cases p <;> cases h <;> rfl

theorem reader_of_next {p : ThreadId} {c : StreamId}
    (h : ((wired.args p).prod.bind fun s1 => (wired.stream s1).next) = some c) :
    reader c = p := by
  cases p <;> cases h
  rfl

theorem putTo_eq_put {s : Option StreamId} {v w : Cell} {c : StreamId} :
    putTo s v = .op (.put c w) ↔ s = some c ∧ v = w := by
  cases s <;> simp [putTo]

theorem putTo_ne_get {s : Option StreamId} {v : Cell} {c : StreamId} :
    putTo s v ≠ .op (.get c) := by
  cases s <;> simp [putTo]

theorem getFrom_eq_get {s : Option StreamId} {c : StreamId} :
    getFrom s = .op (.get c) ↔ s = some c := by
  cases s <;> simp [getFrom]

theorem getFrom_ne_put {s : Option StreamId} {v : Cell} {c : StreamId} :
    getFrom s ≠ .op (.put c v) := by
  cases s <;> simp [getFrom]

theorem putTo_ne_pause {s : Option StreamId} {v : Cell} : putTo s v ≠ .pause := by
  cases s <;> simp [putTo]

theorem getFrom_ne_pause {s : Option StreamId} : getFrom s ≠ .pause := by
  cases s <;> simp [getFrom]

theorem act_put {p : ThreadId} {s : Local} {c : StreamId} {v : Cell}
    (h : act p s = .op (.put c v)) : writer c = p := by
  cases s with
  | sucPut | timesPut | mergePutA | mergePutB => exact writer_of_self (putTo_eq_put.mp h).1
  | timesGet | mergeFirst | mergeGetA | mergeSecond | mergeGetB | consGet =>
    exact absurd h getFrom_ne_put
  | _ => simp [act] at h

theorem act_get {p : ThreadId} {s : Local} {c : StreamId} (h : act p s = .op (.get c)) :
    reader c = p := by
  cases s with
  | timesGet | mergeFirst | mergeGetA | consGet => exact reader_of_prod (getFrom_eq_get.mp h)
  | mergeSecond | mergeGetB => exact reader_of_next (getFrom_eq_get.mp h)
  | sucPut | timesPut | mergePutA | mergePutB => exact absurd h putTo_ne_get
  | _ => simp [act] at h

def network : Net ThreadId StreamId Cell Local where
  act
  next
  capacity := bufferSize
  writer
  reader
  put_writer := act_put
  get_reader := act_get

/-- The function each thread is created with. -/
def entry : ThreadId → Local
  | .suc1 | .suc2 => .sucSleep 1 0
  | .tms1 | .tms2 => .timesSleep
  | .mrg => .mergeFirst
  | .cons => .consGet 0 []

end Eudyptula.Streams
