import Eudyptula.Fat.Sequence

/-! The local variables of `fat_ioctl_set_volume_label`. They are not initialised, so a call
starts with whatever the stack holds; the function is given here once more, with every local
that it assigns, and two calls are compared that differ in nothing else. -/
namespace Eudyptula.Fat
open CMem Volume

/-- `bh` and `bh1` stand for the sector they hold, `b` and `b1` for the data of it.
`label_inode` is assigned right before it is used. -/
structure Locals where
  newlabel : Label
  sinfo : SlotInfo
  de : DirEntry
  bh : Option ℕ
  bh1 : Option ℕ
  curTime : Timespec
  time : UInt16
  date : UInt16
  err : ℤ

namespace Locals

/-- The branch for a label that was found. -/
def updateLabel (x : Locals) (v : Volume) : Volume :=
  { v with
    root := v.root.modify x.sinfo.index fun de => { de with name := x.newlabel }
    labelAtime := x.curTime, labelMtime := x.curTime }

/-- The other branch, up to the test of `err`; this one does assign `cur_time`. -/
def createLabel (c : Call) (x : Locals) (v : Volume) : Locals × Volume :=
  let x := { x with de := newEntry x.newlabel x.time x.date, curTime := c.clock }
  let (err, v) := fatAddEntries c.slots x.de v
  ({ x with err }, v)

def writeBoot (c : Call) (x : Locals) (v : Volume) : ℤ × Volume :=
  if v.rdonly || v.dirty then (-ENOTTY, v)
  else
    let x := { x with bh := if c.readBoot then some 0 else none }
    match x.bh with
    | none => (-ENOTTY, v)
    | some b =>
      if v.fatBits = 32 then
        let v := v.storeLabel b 71 x.newlabel
        let x := { x with bh1 := if c.readBackup then some v.backupBoot else none }
        match x.bh1 with
        | some b1 => (0, v.storeLabel b1 71 x.newlabel)
        | none => (0, v)
      else (0, v.storeLabel b 43 x.newlabel)

/-- The whole function, with the locals as they are at entry. -/
def fatIoctlSetVolumeLabel (c : Call) (x : Locals) (v : Volume) : ℤ × Volume :=
  match c.arg with
  | none => (-EFAULT, v)
  | some l =>
    let x := { x with newlabel := l }
    let (time, date) := v.unix2fat x.curTime
    let x := { x with time, date }
    match fatFindVolumeLabel v.root with
    | .ok sinfo =>
      let x := { x with sinfo }
      x.writeBoot c (touchDir x.curTime (x.updateLabel v))
    | .error _ =>
      let (x, v) := x.createLabel c v
      if x.err ≠ 0 then (x.err, v) else x.writeBoot c (touchDir x.curTime v)

theorem writeBoot_eq (c : Call) (x : Locals) (v : Volume) :
    x.writeBoot c v = setBootLabel c x.newlabel v := by
  unfold writeBoot setBootLabel
  cases hboot : c.readBoot with
  | false => simp
  | true => cases hbackup : c.readBackup <;> simp

/-- Of all the locals at entry, only `cur_time` is read. -/
theorem fatIoctlSetVolumeLabel_eq (c : Call) (x : Locals) (v : Volume) :
    x.fatIoctlSetVolumeLabel c v = Fat.fatIoctlSetVolumeLabel { c with stack := x.curTime } v := by
  unfold fatIoctlSetVolumeLabel Fat.fatIoctlSetVolumeLabel setDirLabel createLabel
  simp only [writeBoot_eq]
  cases c.arg with
  | none => rfl
  | some l =>
    cases fatFindVolumeLabel v.root with
    | ok sinfo => rfl
    | error e =>
      dsimp only
      generalize fatAddEntries c.slots _ v = r
      by_cases hr : r.1 = 0
      · simp only [hr, ne_eq, not_true_eq_false, if_false]
        rfl
      · simp [hr]

end Locals

/-- What two calls are compared in. -/
structure Agree (r₁ r₂ : ℤ × Volume) : Prop where
  ret : r₁.1 = r₂.1
  root : r₁.2.root = r₂.2.root
  sector : r₁.2.sector = r₂.2.sector
  labelAtime : r₁.2.labelAtime = r₂.2.labelAtime
  labelMtime : r₁.2.labelMtime = r₂.2.labelMtime
  dirCtime : r₁.2.dirCtime = r₂.2.dirCtime
  dirMtime : r₁.2.dirMtime = r₂.2.dirMtime

theorem Agree.refl (r : ℤ × Volume) : Agree r r := ⟨rfl, rfl, rfl, rfl, rfl, rfl, rfl⟩

theorem setBootLabel_labelMtime (c : Call) (l : Label) (v : Volume) :
    (setBootLabel c l v).2.labelMtime = v.labelMtime := by
  rw [setBootLabel_sectors]

section
variable {c : Call} {l : Label} {v : Volume} (x y : Locals)

theorem setLabel_found (harg : c.arg = some l) {si : SlotInfo}
    (hfind : fatFindVolumeLabel v.root = .ok si) :
    x.fatIoctlSetVolumeLabel c v = setBootLabel c l (touchDir x.curTime { v with
      root := v.root.modify si.index fun de => { de with name := l }
      labelAtime := x.curTime, labelMtime := x.curTime }) := by
  rw [x.fatIoctlSetVolumeLabel_eq]
  simp only [fatIoctlSetVolumeLabel, harg, hfind, setDirLabel, ne_eq, not_true_eq_false, if_false]
  rfl

theorem setLabel_created (harg : c.arg = some l) {e : ℤ}
    (hfind : fatFindVolumeLabel v.root = .error e) {i : ℕ} (hpick : c.slots.pick v.root = .ok i) :
    x.fatIoctlSetVolumeLabel c v = setBootLabel c l (touchDir c.clock { v with
      root := v.root.set i
        (newEntry l (v.unix2fat x.curTime).1 (v.unix2fat x.curTime).2) }) := by
  rw [x.fatIoctlSetVolumeLabel_eq]
  simp only [fatIoctlSetVolumeLabel, harg, hfind, setDirLabel, fatAddEntries, hpick, ne_eq,
    not_true_eq_false, if_false]
  rfl

theorem setLabel_full (harg : c.arg = some l) {e e' : ℤ}
    (hfind : fatFindVolumeLabel v.root = .error e) (hpick : c.slots.pick v.root = .error e') :
    x.fatIoctlSetVolumeLabel c v = (e', v) := by
  have hne := c.slots.failed hpick
  rw [x.fatIoctlSetVolumeLabel_eq]
  simp [fatIoctlSetVolumeLabel, harg, hfind, setDirLabel, fatAddEntries, hpick, hne]

/-- With a label in the directory, `cur_time` goes into the inodes as it was at entry. -/
theorem agree_found_iff (harg : c.arg = some l) {si : SlotInfo}
    (hfind : fatFindVolumeLabel v.root = .ok si) :
    Agree (x.fatIoctlSetVolumeLabel c v) (y.fatIoctlSetVolumeLabel c v) ↔
      x.curTime = y.curTime := by
  rw [setLabel_found x harg hfind, setLabel_found y harg hfind]
  constructor
  · intro h
    have hmtime := h.labelMtime
    rwa [setBootLabel_labelMtime, setBootLabel_labelMtime] at hmtime
  · intro h
    rw [h]
    exact .refl _

/-- Without one, it goes into the new entry, converted. -/
theorem agree_created_iff (harg : c.arg = some l) {e : ℤ}
    (hfind : fatFindVolumeLabel v.root = .error e) {i : ℕ} (hpick : c.slots.pick v.root = .ok i) :
    Agree (x.fatIoctlSetVolumeLabel c v) (y.fatIoctlSetVolumeLabel c v) ↔
      v.unix2fat x.curTime = v.unix2fat y.curTime := by
  rw [setLabel_created x harg hfind hpick, setLabel_created y harg hfind hpick]
  constructor
  · intro h
    have hroot := h.root
    rw [setBootLabel_root, setBootLabel_root] at hroot
    have hlt := c.slots.pick_lt hpick
    have hentry := congrArg (fun root : List DirEntry => root[i]?) hroot
    simp only [touchDir, List.getElem?_set_self hlt, Option.some.injEq] at hentry
    exact Prod.ext (congrArg DirEntry.time hentry) (congrArg DirEntry.date hentry)
  · intro h
    rw [h]
    exact .refl _

end

/-- Two calls that differ in the locals at entry only. -/
theorem set_volume_label_independent_iff (c : Call) (v : Volume) (x y : Locals) :
    Agree (x.fatIoctlSetVolumeLabel c v) (y.fatIoctlSetVolumeLabel c v) ↔
      c.arg = none ∨
      (∃ si, fatFindVolumeLabel v.root = .ok si) ∧ x.curTime = y.curTime ∨
      (∃ e, fatFindVolumeLabel v.root = .error e) ∧
        ((∃ e, c.slots.pick v.root = .error e) ∨
          v.unix2fat x.curTime = v.unix2fat y.curTime) := by
  cases harg : c.arg with
  | none =>
    have hsame : x.fatIoctlSetVolumeLabel c v = y.fatIoctlSetVolumeLabel c v := by
      simp only [Locals.fatIoctlSetVolumeLabel, harg]
    exact iff_of_true (hsame ▸ .refl _) (.inl rfl)
  | some l =>
    cases hfind : fatFindVolumeLabel v.root with
    | ok si =>
      rw [agree_found_iff x y harg hfind]
      simp
    | error e =>
      cases hpick : c.slots.pick v.root with
      | ok i =>
        rw [agree_created_iff x y harg hfind hpick]
        simp
      | error e' =>
        rw [setLabel_full x harg hfind hpick, setLabel_full y harg hfind hpick]
        exact iff_of_true (.refl _) (by simp)

/-- Locals full of zeros, but for `cur_time`. -/
def Locals.zeros (curTime : Timespec) : Locals :=
  ⟨.replicate 11 0, ⟨0, 0⟩, .unused, none, none, curTime, 0, 0, 0⟩

/-- The same rename of the same label gives it the time 7 or the time 9. -/
theorem set_volume_label_reads_stack :
    ((Locals.zeros ⟨7, 0⟩).fatIoctlSetVolumeLabel (.smooth (.replicate 11 66))
        (.blank [newEntry (.replicate 11 65) 0 0] 16 false)).2.labelMtime = ⟨7, 0⟩ ∧
      ((Locals.zeros ⟨9, 0⟩).fatIoctlSetVolumeLabel (.smooth (.replicate 11 66))
        (.blank [newEntry (.replicate 11 65) 0 0] 16 false)).2.labelMtime = ⟨9, 0⟩ ∧
      ¬ Agree
        ((Locals.zeros ⟨7, 0⟩).fatIoctlSetVolumeLabel (.smooth (.replicate 11 66))
          (.blank [newEntry (.replicate 11 65) 0 0] 16 false))
        ((Locals.zeros ⟨9, 0⟩).fatIoctlSetVolumeLabel (.smooth (.replicate 11 66))
          (.blank [newEntry (.replicate 11 65) 0 0] 16 false)) := by
  refine ⟨by decide +kernel, by decide +kernel, fun h => ?_⟩
  exact absurd h.labelMtime (by decide +kernel)

end Eudyptula.Fat
