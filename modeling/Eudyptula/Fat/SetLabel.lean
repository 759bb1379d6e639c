import Eudyptula.Fat.Volume

/-! `fat_find_volume_label` and `fat_ioctl_set_volume_label`, the latter cut into its three
parts: the search, the change of the directory under `s_lock` and the change of the boot
sectors. -/
namespace Eudyptula.Fat
open CMem Volume

/-- What `struct fat_slot_info` says about the entry found, which stands at `slotOff`. -/
structure SlotInfo where
  slotOff : ℕ
  nrSlots : ℕ
deriving DecidableEq, Repr

/-- The entry that `de` points to. -/
def SlotInfo.index (i : SlotInfo) : ℕ := i.slotOff / 32

/-- The loop of `fat_find_volume_label` over the entries that `fat_get_entry` has still to
deliver; it advances the offset before the entry is looked at. -/
def findFrom : List DirEntry → ℕ → Except ℤ SlotInfo
  | [], _ => .error (-ENOENT)
  | e :: es, off =>
    let off := off + 32
    if e.hasVolume then .ok ⟨off - 32, 1⟩ else findFrom es off

def fatFindVolumeLabel (root : List DirEntry) : Except ℤ SlotInfo := findFrom root 0

/-- `fat_add_entries` for one entry: it picks a free slot or fails. -/
structure DirAlloc where
  pick : List DirEntry → Except ℤ ℕ
  free : ∀ {root i}, pick root = .ok i → ∃ e, root[i]? = some e ∧ e.isFree = true
  failed : ∀ {root err}, pick root = .error err → err ≠ 0

/-- One call with the outcomes of the kernel functions in it. `arg` is the label at the user
address, if it can be read; `stack` is what the variable `cur_time` holds at entry. -/
structure Call where
  arg : Option Label
  slots : DirAlloc
  readBoot : Bool
  readBackup : Bool
  stack : Timespec
  clock : Timespec

def newEntry (l : Label) (time date : UInt16) : DirEntry where
  name := l
  attr := ATTR_VOLUME
  lcase := 0
  ctimeCs := 0
  ctime := 0
  cdate := 0
  adate := 0
  starthi := 0
  time := time
  date := date
  start := 0
  size := 0

/-- `dir->i_ctime`, `dir->i_mtime` and `dir->i_version`. -/
def touchDir (t : Timespec) (v : Volume) : Volume :=
  { v with dirCtime := t, dirMtime := t, dirVersion := v.dirVersion + 1 }

def fatAddEntries (slots : DirAlloc) (de : DirEntry) (v : Volume) : ℤ × Volume :=
  match slots.pick v.root with
  | .ok i => (0, { v with root := v.root.set i de })
  | .error err => (err, v)

/-- The directory part, for the outcome of the search. -/
def setDirLabel (c : Call) (l : Label) (found : Except ℤ SlotInfo) (v : Volume) : ℤ × Volume :=
  -- `cur_time` is converted before anything has been assigned to it
  let (time, date) := v.unix2fat c.stack
  match found with
  | .ok i => (0, touchDir c.stack { v with
      root := v.root.modify i.index fun de => { de with name := l },
      labelAtime := c.stack, labelMtime := c.stack })
  | .error _ =>
    let (err, v) := fatAddEntries c.slots (newEntry l time date) v
    if err ≠ 0 then (err, v) else (0, touchDir c.clock v)

def setBootLabel (c : Call) (l : Label) (v : Volume) : ℤ × Volume :=
  if v.rdonly || v.dirty then (-ENOTTY, v)
  else if !c.readBoot then (-ENOTTY, v)
  else if v.fatBits = 32 then
    let v := v.storeLabel 0 71 l
    if c.readBackup then (0, v.storeLabel v.backupBoot 71 l) else (0, v)
  else (0, v.storeLabel 0 43 l)

def fatIoctlSetVolumeLabel (c : Call) (v : Volume) : ℤ × Volume :=
  match c.arg with
  | none => (-EFAULT, v)
  | some l =>
    let (err, v) := setDirLabel c l (fatFindVolumeLabel v.root) v
    if err ≠ 0 then (err, v) else setBootLabel c l v

theorem findFrom_eq (root : List DirEntry) (off : ℕ) :
    findFrom root off = match root.findIdx? DirEntry.hasVolume with
      | some i => .ok ⟨off + 32 * i, 1⟩
      | none => .error (-ENOENT) := by
  induction root generalizing off with
  | nil => rfl
  | cons e es ih =>
    simp only [findFrom, List.findIdx?_cons]
    by_cases he : e.hasVolume
    · simp [he]
    · rw [if_neg he, if_neg he, ih]
      cases es.findIdx? DirEntry.hasVolume with
      | none => rfl
      | some i =>
        have hoff : off + 32 + 32 * i = off + 32 * (i + 1) := by omega
        simp [hoff]

theorem fatFindVolumeLabel_eq (root : List DirEntry) :
    fatFindVolumeLabel root = match root.findIdx? DirEntry.hasVolume with
      | some i => .ok ⟨32 * i, 1⟩
      | none => .error (-ENOENT) := by
  unfold fatFindVolumeLabel
  rw [findFrom_eq]
  simp

@[simp] theorem index_mk (i n : ℕ) : (SlotInfo.mk (32 * i) n).index = i := by
  simp [SlotInfo.index]

/-- Everything but the directory and the inode fields. -/
structure SameMount (v v' : Volume) : Prop where
  sector : v'.sector = v.sector
  fatBits : v'.fatBits = v.fatBits
  rdonly : v'.rdonly = v.rdonly
  dirty : v'.dirty = v.dirty

section
variable (c : Call) (l : Label) (v : Volume)

theorem setDirLabel_sameMount (found : Except ℤ SlotInfo) :
    SameMount v (setDirLabel c l found v).2 := by
  unfold setDirLabel fatAddEntries
  cases found with
  | ok i => exact ⟨rfl, rfl, rfl, rfl⟩
  | error err =>
    dsimp only
    cases c.slots.pick v.root with
    | ok i => exact ⟨rfl, rfl, rfl, rfl⟩
    | error err =>
      dsimp only
      split_ifs <;> exact ⟨rfl, rfl, rfl, rfl⟩

theorem setDirLabel_ok (i : ℕ) (n : ℕ) :
    (setDirLabel c l (.ok ⟨32 * i, n⟩) v).1 = 0 ∧
      (setDirLabel c l (.ok ⟨32 * i, n⟩) v).2.root =
        v.root.modify i fun de => { de with name := l } := by
  unfold setDirLabel
  simp [touchDir]

/-- The create branch: it fails and changes nothing, or fills a free slot. -/
theorem setDirLabel_error (err : ℤ) :
    (∃ e, c.slots.pick v.root = .error e ∧ e ≠ 0 ∧ setDirLabel c l (.error err) v = (e, v)) ∨
      ∃ i, c.slots.pick v.root = .ok i ∧ (setDirLabel c l (.error err) v).1 = 0 ∧
        (setDirLabel c l (.error err) v).2.root =
          v.root.set i (newEntry l (v.unix2fat c.stack).1 (v.unix2fat c.stack).2) := by
  unfold setDirLabel fatAddEntries
  cases hp : c.slots.pick v.root with
  | ok i => exact Or.inr ⟨i, rfl, rfl, rfl⟩
  | error e =>
    have hne := c.slots.failed hp
    exact Or.inl ⟨e, rfl, hne, by simp [hne]⟩

/-- The boot part changes sectors and nothing else. -/
theorem setBootLabel_sectors :
    (setBootLabel c l v).2 = { v with sector := (setBootLabel c l v).2.sector } := by
  unfold setBootLabel
  dsimp only
  split_ifs <;> rfl

theorem setBootLabel_root : (setBootLabel c l v).2.root = v.root := by
  rw [setBootLabel_sectors]

def BootWritable : Prop := v.rdonly = false ∧ v.dirty = false ∧ c.readBoot = true

theorem setBootLabel_fails (h : ¬ BootWritable c v) : setBootLabel c l v = (-ENOTTY, v) := by
  unfold BootWritable at h
  unfold setBootLabel
  split_ifs <;> simp_all

theorem setBootLabel_spec (h : BootWritable c v) :
    (setBootLabel c l v).1 = 0 ∧ Relabelled v (setBootLabel c l v).2 ∧
      (setBootLabel c l v).2.bootLabel = l.toList ∧
      (v.fatBits = 32 → c.readBackup = true → (setBootLabel c l v).2.backupLabel = l.toList) := by
  obtain ⟨hr, hd, hb⟩ := h
  unfold setBootLabel
  simp only [hr, hd, hb, Bool.or_self, Bool.not_true, Bool.false_eq_true, if_false]
  by_cases h32 : v.fatBits = 32
  · have hoff : v.labelOff = 71 := by simp [labelOff, h32]
    obtain ⟨hrel, hlabel⟩ := storeBoot_spec l hoff
    have h32' := hrel.fatBits.trans h32
    simp only [h32, if_true]
    split_ifs with hread
    · obtain ⟨hrel', hlabel', hbackup⟩ := storeBackup_spec h32' hlabel
      exact ⟨rfl, hrel.trans hrel', hlabel', fun _ _ => hbackup⟩
    · exact ⟨rfl, hrel, hlabel, fun _ h => absurd h hread⟩
  · have hoff : v.labelOff = 43 := by simp [labelOff, h32]
    obtain ⟨hrel, hlabel⟩ := storeBoot_spec l hoff
    simp only [h32, if_false]
    exact ⟨trivial, hrel, hlabel, fun h => h.elim⟩

end

end Eudyptula.Fat
