import Eudyptula.IdList.Store

/-! `misc_dev.c` of Task_18: its file-scope data, `simple_dev_write` cut at the points
where other code can run, and the calls of `misc_init` on the identity list. -/
namespace Eudyptula.Misc
open CMem IdList

/-- `idGet` is the static variable of `identity_get`. -/
structure Statics where
  heap : Heap
  idGet : Node
  idCount : BitVec 64
  userInput : Bytes

def Statics.init : Statics := ⟨.init, .zero, 0, fun _ => 0⟩

/-- `simple_dev_write` up to the copy: either it returns, or it goes on with the number
of bytes copied. The sum of offset and count is an unsigned 64-bit one. -/
def writeCopy (w : WriteArgs) (s : Statics) : (ℤ ⊕ ℕ) × Statics :=
  if 19 ≤ w.fPos then (.inl 0, s)
  else
    let count := if (w.fPos + w.count) % 2 ^ 64 > 19 then 19 - w.fPos else w.count
    let (left, userInput) := copyFromUser s.userInput w.fPos w.buf count
    if left ≠ 0 then (.inl (-EFAULT), { s with userInput })
    else (.inr count, { s with userInput })

/-- `identity_create(user_input, id_count)`: the counter is cut to an `int`. -/
def writeCreate (A : Allocator) (s : Statics) : ℤ × Statics :=
  let (r, heap) := identityCreate A (CStr.read s.userInput 0 4096) (s.idCount.setWidth 32) s.heap
  (r, { s with heap })

def writeCount (s : Statics) : Statics := { s with idCount := s.idCount + 1 }

/-- Return value, new `*f_pos` and the state when nothing else runs in between. The
result of `identity_create` is dropped. -/
def simpleDevWrite (A : Allocator) (w : WriteArgs) (s : Statics) : ℤ × ℕ × Statics :=
  match writeCopy w s with
  | (.inl r, s) => (r, w.fPos, s)
  | (.inr n, s) => (n, w.fPos + n, writeCount (writeCreate A s).2)

def callGet (s : Statics) : Option Statics :=
  (identityGet .stale s.idGet s.heap).map fun (idGet, heap) => { s with idGet, heap }

def callDestroy (id : BitVec 32) (s : Statics) : Option Statics :=
  (identityDestroy .stale id s.heap).map fun heap => { s with heap }

inductive InitInstr
  | register
  | kthreadRun
  | create (name : CStr) (id : BitVec 32)
  | get
  | find (id : BitVec 32)
  | destroy (id : BitVec 32)
deriving DecidableEq

def miscInit : List InitInstr :=
  [.register, .kthreadRun,
    .create ⟨[65, 108, 105, 99, 101], by decide⟩ 1, .create ⟨[66, 111, 98], by decide⟩ 2,
    .create ⟨[68, 97, 118, 101], by decide⟩ 3, .create ⟨[71, 101, 110, 97], by decide⟩ 4,
    .get, .find 3, .find 42, .destroy 2, .destroy 1, .destroy 10, .destroy 42, .destroy 3]

def InitInstr.exec (A : Allocator) : InitInstr → Statics → Option Statics
  | .register, s => some s
  | .kthreadRun, s => some s
  | .create name id, s => some { s with heap := (identityCreate A name id s.heap).2 }
  | .get, s => callGet s
  | .find id, s => (identityFind .stale id s.heap).map fun _ => s
  | .destroy id, s => callDestroy id s

/-- `misc_init` run without interruption. -/
def initAll (A : Allocator) : List InitInstr → Statics → Option Statics
  | [], s => some s
  | i :: is, s => (i.exec A s).bind (initAll A is)

theorem callGet_spec {s : Statics} {es : List Entry} (hr : Represents s.heap es) :
    ∃ s', callGet s = some s' ∧ Represents s'.heap [] ∧
      s'.idGet.identity = (es.getLast?.map Entry.val).getD s.idGet.identity ∧
      s'.idCount = s.idCount ∧ s'.userInput = s.userInput := by
  obtain ⟨g, h, hget, hr', hval⟩ := identityGet_spec hr s.idGet
  exact ⟨{ s with idGet := g, heap := h }, by simp [callGet, hget], hr', hval, rfl, rfl⟩

theorem callDestroy_spec (id : BitVec 32) {s : Statics} {es : List Entry}
    (hr : Represents s.heap es) :
    ∃ s', callDestroy id s = some s' ∧ Represents s'.heap (es.filter fun e => e.val.id != id) ∧
      s'.idGet = s.idGet ∧ s'.idCount = s.idCount ∧ s'.userInput = s.userInput := by
  obtain ⟨h, hd, hr'⟩ := identityDestroy_spec id hr
  exact ⟨{ s with heap := h }, by simp [callDestroy, hd], hr', rfl, rfl, rfl⟩

/-- A write leaves the list alone or puts one identity in front of it. -/
theorem simpleDevWrite_cases (A : Allocator) (w : WriteArgs) {s : Statics} {es : List Entry}
    (hr : Represents s.heap es) :
    (simpleDevWrite A w s).2.2.heap = s.heap ∨
      ∃ e, Represents (simpleDevWrite A w s).2.2.heap (e :: es) := by
  have hcopy : (writeCopy w s).2.heap = s.heap := by
    unfold writeCopy
    dsimp only
    split_ifs <;> rfl
  unfold simpleDevWrite
  rcases hw : writeCopy w s with ⟨r | n, s'⟩
  all_goals rw [hw] at hcopy; dsimp only at hcopy ⊢
  · exact Or.inl hcopy
  · unfold writeCount writeCreate
    rw [← hcopy] at hr ⊢
    rcases identityCreate_cases A (CStr.read s'.userInput 0 4096) (s'.idCount.setWidth 32) hr
      with ⟨-, h⟩ | ⟨-, a, -, h⟩
    · exact Or.inl h
    · exact Or.inr ⟨_, h⟩

end Eudyptula.Misc
