import Eudyptula.Lib.CMem
import Eudyptula.Lib.Runs

/-! The volume id calls of Task_20. `fat_ioctl_set_volume_id` lets `get_user` store straight
into the superblock, and on a fault `get_user` stores too. -/
namespace Eudyptula.Fat
open CMem Runs

/-- What is behind a user address: the word that can be read there, if any, and whether one
can be written. -/
structure UserWord where
  value : Option UInt32
  writable : Bool
deriving DecidableEq, Repr

/-- `get_user(x, p)`: the result, and what is in `x` afterwards. -/
def getUser (p : UserWord) : ℤ × UInt32 :=
  match p.value with
  | some x => (0, x)
  | none => (-EFAULT, 0)

/-- `put_user(x, p)`: the result, and the word that reaches the user. -/
def putUser (x : UInt32) (p : UserWord) : ℤ × Option UInt32 :=
  if p.writable then (0, some x) else (-EFAULT, none)

inductive IdCmd
  | getVolumeId
  | setVolumeId
  | unknown
deriving DecidableEq, Repr

structure IdCall where
  cmd : IdCmd
  userAttr : UserWord
deriving DecidableEq, Repr

/-- The result of a call, the word it has given to the user and `sbi->vol_id` after it. -/
structure IdReply where
  ret : ℤ
  out : Option UInt32
  volId : UInt32
deriving DecidableEq, Repr

/-- Nothing of the old `vol_id` is left, whatever the result. -/
def fatIoctlSetVolumeId (userAttr : UserWord) : IdReply :=
  let (ret, volId) := getUser userAttr
  ⟨ret, none, volId⟩

def fatIoctlGetVolumeId (userAttr : UserWord) (volId : UInt32) : IdReply :=
  let (ret, out) := putUser volId userAttr
  ⟨ret, out, volId⟩

/-- `unknown` is a command that has no case of its own. -/
def fatGenericIoctl (c : IdCall) (volId : UInt32) : IdReply :=
  match c.cmd with
  | .getVolumeId => fatIoctlGetVolumeId c.userAttr volId
  | .setVolumeId => fatIoctlSetVolumeId c.userAttr
  | .unknown => ⟨-ENOTTY, none, volId⟩

/-- A mounted volume with its history: `lastSet` is the value of the last set that returned 0,
or the id read at mount. -/
structure Mounted where
  volId : UInt32
  lastSet : UInt32
deriving DecidableEq, Repr

def Mounted.mount (id : UInt32) : Mounted := ⟨id, id⟩

def idStep (c : IdCall) (s : Mounted) : Option Mounted :=
  let r := fatGenericIoctl c s.volId
  some ⟨r.volId, if c.cmd = .setVolumeId ∧ r.ret = 0 then c.userAttr.value.getD s.lastSet
    else s.lastSet⟩

/-- What the user expects of a call: a get that succeeds gives the last value set, and a set
that fails changes nothing. -/
def Lawful (c : IdCall) (s : Mounted) : Prop :=
  let r := fatGenericIoctl c s.volId
  (c.cmd = .getVolumeId → r.ret = 0 → r.out = some s.lastSet) ∧
    (c.cmd = .setVolumeId → r.ret ≠ 0 → r.volId = s.volId)

instance (c : IdCall) (s : Mounted) : Decidable (Lawful c s) := inferInstanceAs (Decidable (_ ∧ _))

def IdCall.FaultingSet (c : IdCall) : Prop := c.cmd = .setVolumeId ∧ c.userAttr.value = none

section
variable {c : IdCall} {s t : Mounted}

/-- While the history and the superblock agree, only a faulting set can break the law. -/
theorem lawful_iff (h : s.volId = s.lastSet) :
    Lawful c s ↔ (c.FaultingSet → s.volId = 0) := by
  obtain ⟨cmd, value, writable⟩ := c
  cases cmd with
  | getVolumeId =>
    refine iff_of_true ⟨fun _ hret => ?_, nofun⟩ nofun
    cases writable with
    | true => exact congrArg some h
    | false => exact nomatch hret
  | setVolumeId =>
    cases value with
    | some x => exact iff_of_true ⟨nofun, fun _ hret => (hret rfl).elim⟩ nofun
    | none =>
      constructor
      · intro hlaw _
        exact (hlaw.2 rfl (show (-EFAULT : ℤ) ≠ 0 by decide)).symm
      · intro hzero
        exact ⟨nofun, fun _ _ => (hzero ⟨rfl, rfl⟩).symm⟩
  | unknown => exact iff_of_true ⟨nofun, nofun⟩ nofun

theorem idStep_agrees (h : s.volId = s.lastSet) (hc : c.FaultingSet → s.volId = 0)
    (hst : idStep c s = some t) : t.volId = t.lastSet := by
  cases hst
  obtain ⟨cmd, value, writable⟩ := c
  cases cmd with
  | getVolumeId | unknown => exact h
  | setVolumeId =>
    cases value with
    | some x => rfl
    | none => exact (hc ⟨rfl, rfl⟩).symm.trans h

end

/-- Along every sequence of calls on a volume mounted with any id, the law holds when every
set that faults finds the id 0, and only then. -/
theorem volumeId_lawful_iff (id : UInt32) (calls : List IdCall) :
    Along idStep Lawful calls (.mount id) ↔
      Along idStep (fun c s => c.FaultingSet → s.volId = 0) calls (.mount id) := by
  have hstep : ∀ (c : IdCall) (s t : Mounted), s.volId = s.lastSet →
      (c.FaultingSet → s.volId = 0) → idStep c s = some t → t.volId = t.lastSet :=
    fun c s t hs hc hst => idStep_agrees hs hc hst
  refine along_congr ?_ hstep rfl
  intro c s hs
  exact lawful_iff hs

/-- The id is 5, a set from a bad address fails, and the next get gives 0. -/
theorem faulting_set_clears :
    ¬ Along idStep Lawful [⟨.setVolumeId, ⟨none, false⟩⟩, ⟨.getVolumeId, ⟨none, true⟩⟩] (.mount 5) ∧
      fatGenericIoctl ⟨.setVolumeId, ⟨none, false⟩⟩ 5 = ⟨-EFAULT, none, 0⟩ ∧
      fatGenericIoctl ⟨.getVolumeId, ⟨none, true⟩⟩ 0 = ⟨0, some 0, 0⟩ := by
  decide

end Eudyptula.Fat
