import Mathlib.Logic.Function.Basic
import Eudyptula.Lib.CMem

/-! A mounted FAT volume, as far as the volume label calls of Task_20 read and write it: the
root directory, the sectors read with `sb_bread` and the inode fields that are set. Directory
and sectors are stores of their own here; what that takes is the condition `Disk.Apart` on the
blocks of the disk. -/
namespace Eudyptula.Fat
open CMem

/-- `MSDOS_NAME` bytes. -/
abbrev Label := Vector UInt8 11

def ATTR_VOLUME : UInt8 := 0x08
def ATTR_EXT : UInt8 := 0x0F
def DELETED_FLAG : UInt8 := 0xE5

/-- `IS_FREE`. -/
def marksFree (name : Label) : Bool := name.head == 0 || name.head == DELETED_FLAG

structure Timespec where
  sec : ℤ
  nsec : ℤ
deriving DecidableEq, Repr

/-- `struct msdos_dir_entry`. -/
structure DirEntry where
  name : Label
  attr : UInt8
  lcase : UInt8
  ctimeCs : UInt8
  ctime : UInt16
  cdate : UInt16
  adate : UInt16
  starthi : UInt16
  time : UInt16
  date : UInt16
  start : UInt16
  size : UInt32
deriving DecidableEq, Repr

namespace DirEntry

def hasVolume (e : DirEntry) : Bool := e.attr &&& ATTR_VOLUME != 0

def isFree (e : DirEntry) : Bool := marksFree e.name

/-- A volume label in use, and not a slot of a long name. -/
def isLabel (e : DirEntry) : Bool := e.hasVolume && !e.isFree && e.attr != ATTR_EXT

end DirEntry

/-- `unix2fat` is `fat_time_unix2fat` with the time zone of the mount. -/
structure Mount where
  fatBits : ℕ
  rdonly : Bool
  dirty : Bool
  unix2fat : Timespec → UInt16 × UInt16
  dirCtime : Timespec
  dirMtime : Timespec
  dirVersion : ℕ
  labelAtime : Timespec
  labelMtime : Timespec

structure Volume extends Mount where
  root : List DirEntry
  sector : ℕ → Bytes

namespace Volume

/-- Offset of `vol_label` in `struct fat_boot_sector`, in its `fat32` or `fat16` variant. -/
def labelOff (v : Volume) : ℕ := if v.fatBits = 32 then 71 else 43

def bootLabel (v : Volume) : List UInt8 := load (v.sector 0) v.labelOff 11

/-- The sector number in `fat32.backup_boot`, a little-endian 16-bit field. -/
def backupBoot (v : Volume) : ℕ := (v.sector 0 50).toNat + 256 * (v.sector 0 51).toNat

def backupLabel (v : Volume) : List UInt8 := load (v.sector v.backupBoot) 71 11

def IsLabelByte (v : Volume) (n k : ℕ) : Prop :=
  n = 0 ∧ v.labelOff ≤ k ∧ k < v.labelOff + 11 ∨
    v.fatBits = 32 ∧ n = v.backupBoot ∧ 71 ≤ k ∧ k < 82

/-- `memcpy` of a label into sector `n`. -/
def storeLabel (v : Volume) (n off : ℕ) (l : Label) : Volume :=
  { v with sector := Function.update v.sector n (store (v.sector n) off l.toList) }

section
variable {v v' v'' : Volume}

theorem load_storeLabel (v : Volume) (n off : ℕ) (l : Label) :
    load ((v.storeLabel n off l).sector n) off 11 = l.toList := by
  have hsame := load_store_same (v.sector n) off l.toList
  rw [Vector.length_toList] at hsame
  simpa [storeLabel] using hsame

theorem sector_storeLabel_of_ne (v : Volume) {n m : ℕ} (off : ℕ) (l : Label) (h : m ≠ n) :
    (v.storeLabel n off l).sector m = v.sector m := by
  simp [storeLabel, h]

structure Relabelled (v v' : Volume) : Prop where
  fatBits : v'.fatBits = v.fatBits
  bytes : ∀ n k, ¬ v.IsLabelByte n k → v'.sector n k = v.sector n k

theorem Relabelled.labelOff (h : Relabelled v v') : v'.labelOff = v.labelOff := by
  unfold Volume.labelOff
  rw [h.fatBits]

theorem Relabelled.backupBoot (h : Relabelled v v') (h32 : v.fatBits = 32) :
    v'.backupBoot = v.backupBoot := by
  have hfix : ∀ k, k < 71 → v'.sector 0 k = v.sector 0 k := by
    intro k hk
    apply h.bytes
    simp only [IsLabelByte, Volume.labelOff, h32, if_true]
    omega
  unfold Volume.backupBoot
  rw [hfix 50 (by omega), hfix 51 (by omega)]

theorem Relabelled.isLabelByte_iff (h : Relabelled v v') (n k : ℕ) :
    v'.IsLabelByte n k ↔ v.IsLabelByte n k := by
  unfold IsLabelByte
  rw [h.labelOff, h.fatBits]
  by_cases h32 : v.fatBits = 32
  · rw [h.backupBoot h32]
  · simp [h32]

theorem Relabelled.trans (h : Relabelled v v') (h' : Relabelled v' v'') : Relabelled v v'' where
  fatBits := h'.fatBits.trans h.fatBits
  bytes n k hk := by
    have hk' : ¬ v'.IsLabelByte n k := fun hb => hk ((h.isLabelByte_iff n k).mp hb)
    rw [h'.bytes n k hk', h.bytes n k hk]

theorem relabelled_storeLabel {n off : ℕ} (l : Label)
    (h : ∀ k, off ≤ k → k < off + 11 → v.IsLabelByte n k) :
    Relabelled v (v.storeLabel n off l) where
  fatBits := rfl
  bytes m k hk := by
    by_cases hm : m = n
    · subst hm
      have hout : k < off ∨ off + l.toList.length ≤ k := by
        rw [Vector.length_toList]
        by_contra hin
        exact hk (h k (by omega) (by omega))
      simp [storeLabel, store_outside hout]
    · rw [sector_storeLabel_of_ne v off l hm]

theorem storeBoot_spec {off : ℕ} (l : Label) (hoff : v.labelOff = off) :
    Relabelled v (v.storeLabel 0 off l) ∧ (v.storeLabel 0 off l).bootLabel = l.toList := by
  have hrel : Relabelled v (v.storeLabel 0 off l) :=
    relabelled_storeLabel l fun k hlo hhi => Or.inl ⟨rfl, by omega, by omega⟩
  refine ⟨hrel, ?_⟩
  unfold bootLabel
  rw [hrel.labelOff, hoff, load_storeLabel]

theorem storeBackup_spec {l : Label} (h32 : v.fatBits = 32) (hboot : v.bootLabel = l.toList) :
    Relabelled v (v.storeLabel v.backupBoot 71 l) ∧
      (v.storeLabel v.backupBoot 71 l).bootLabel = l.toList ∧
      (v.storeLabel v.backupBoot 71 l).backupLabel = l.toList := by
  have hoff : v.labelOff = 71 := by simp [Volume.labelOff, h32]
  have hrel : Relabelled v (v.storeLabel v.backupBoot 71 l) :=
    relabelled_storeLabel l fun k hlo hhi => Or.inr ⟨h32, rfl, hlo, hhi⟩
  refine ⟨hrel, ?_, ?_⟩
  · unfold bootLabel at hboot ⊢
    rw [hrel.labelOff]
    -- the backup may be sector 0 itself
    by_cases h0 : v.backupBoot = 0
    · rw [hoff, h0, load_storeLabel]
    · rw [sector_storeLabel_of_ne v 71 l (Ne.symm h0), hboot]
  · unfold backupLabel
    rw [hrel.backupBoot h32, load_storeLabel]

end

end Volume

end Eudyptula.Fat
