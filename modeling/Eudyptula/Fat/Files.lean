import Mathlib.Data.List.Forall2
import Eudyptula.Fat.Blocks
import Eudyptula.Fat.Concurrent

/-! What label calls leave alone. `fat_get_short_entry`, which the lookups of files use, finds
the same entries at the same offsets whatever label calls are under way, and outside of the
root directory only the label fields of the boot sectors are written. First for the volume,
then for the disk that refines it. -/
namespace Eudyptula.Fat
open CMem Volume Runs

/-- Neither free nor a volume label nor a slot of a long name: a file or a directory. -/
def DirEntry.isShort (e : DirEntry) : Bool := !e.isFree && !e.hasVolume

/-- The entries differ at most where neither of them is a short one. -/
def SameFiles (root root' : List DirEntry) : Prop :=
  List.Forall₂ (fun e e' => e' = e ∨ e.isShort = false ∧ e'.isShort = false) root root'

theorem SameFiles.drop {root root' : List DirEntry} (h : SameFiles root root') (n : ℕ) :
    SameFiles (root.drop n) (root'.drop n) :=
  List.forall₂_drop n h

theorem SameFiles.refl (root : List DirEntry) : SameFiles root root :=
  List.forall₂_same.mpr fun _ _ => Or.inl rfl

theorem SameFiles.trans {root root' root'' : List DirEntry} (h : SameFiles root root')
    (h' : SameFiles root' root'') : SameFiles root root'' := by
  induction h generalizing root'' with
  | nil => exact h'
  | cons he _ ih =>
    cases h' with
    | cons he' hrest =>
      refine .cons ?_ (ih hrest)
      rcases he' with rfl | ⟨hmid, hnew⟩
      · exact he
      · rcases he with rfl | ⟨hold, -⟩
        · exact Or.inr ⟨hmid, hnew⟩
        · exact Or.inr ⟨hold, hnew⟩

theorem sameFiles_set {root : List DirEntry} {i : ℕ} {e e' : DirEntry} (h : root[i]? = some e)
    (he : e.isShort = false) (he' : e'.isShort = false) : SameFiles root (root.set i e') := by
  induction root generalizing i with
  | nil => simp at h
  | cons x xs ih =>
    cases i with
    | zero =>
      rw [List.getElem?_cons_zero, Option.some.injEq] at h
      subst h
      exact .cons (Or.inr ⟨he, he'⟩) (SameFiles.refl xs)
    | succ i => exact .cons (Or.inl rfl) (ih (by simpa using h))

theorem sameFiles_modify {root : List DirEntry} {i : ℕ} {e : DirEntry} (l : Label)
    (h : root[i]? = some e) (he : e.hasVolume = true) :
    SameFiles root (root.modify i fun de => { de with name := l }) := by
  have hmod : (root.modify i fun de => { de with name := l }) =
      root.set i { e with name := l } := by
    rw [List.modify_eq_set_getElem?, h]
    rfl
  rw [hmod]
  have hvol : ({ e with name := l } : DirEntry).hasVolume = true := he
  exact sameFiles_set h (by simp [DirEntry.isShort, he]) (by simp [DirEntry.isShort, hvol])

/-- A volume entry stays one, so the slot that a search has found can still be renamed. -/
def VolumeAt (root : List DirEntry) (i : ℕ) : Prop :=
  ∃ e, root[i]? = some e ∧ e.hasVolume = true

theorem VolumeAt.set {root : List DirEntry} {i j : ℕ} {e : DirEntry} (h : VolumeAt root j)
    (he : e.hasVolume = true) : VolumeAt (root.set i e) j := by
  obtain ⟨x, hx, hvol⟩ := h
  by_cases hij : i = j
  · subst hij
    exact ⟨e, List.getElem?_set_self (List.getElem?_eq_some_iff.mp hx).1, he⟩
  · exact ⟨x, by rw [List.getElem?_set_ne hij, hx], hvol⟩

theorem VolumeAt.modify {root : List DirEntry} {i j : ℕ} (l : Label) (h : VolumeAt root j) :
    VolumeAt (root.modify i fun de => { de with name := l }) j := by
  obtain ⟨x, hx, hvol⟩ := h
  rw [VolumeAt, List.getElem?_modify, hx]
  by_cases hij : i = j
  · exact ⟨{ x with name := l }, by simp [hij], hvol⟩
  · exact ⟨x, by simp [hij], hvol⟩

theorem volumeAt_of_found {root : List DirEntry} {si : SlotInfo}
    (h : fatFindVolumeLabel root = .ok si) : VolumeAt root si.index := by
  obtain ⟨i, hi, rfl⟩ := fatFindVolumeLabel_ok_iff.mp h
  obtain ⟨hlt, hvol, -⟩ := List.findIdx?_eq_some_iff_getElem.mp hi
  rw [index_mk]
  exact ⟨root[i], List.getElem?_eq_getElem hlt, hvol⟩

/-- The directory part of a call that has found a volume entry, or none. -/
theorem setDirLabel_files {c : Call} {l : Label} {found : Except ℤ SlotInfo} {v : Volume}
    (h : ∀ si, found = .ok si → VolumeAt v.root si.index) :
    SameFiles v.root (setDirLabel c l found v).2.root ∧
      ∀ j, VolumeAt v.root j → VolumeAt (setDirLabel c l found v).2.root j := by
  cases found with
  | ok si =>
    obtain ⟨e, he, hvol⟩ := h si rfl
    exact ⟨sameFiles_modify l he hvol, fun j hj => hj.modify l⟩
  | error err =>
    rcases setDirLabel_error c l v err with ⟨_, -, -, hsame⟩ | ⟨i, hpick, -, hroot⟩
    · rw [hsame]
      exact ⟨SameFiles.refl v.root, fun _ => id⟩
    · obtain ⟨e, he, hfree⟩ := c.slots.free hpick
      have hnew := newEntry_hasVolume l (v.unix2fat c.stack).1 (v.unix2fat c.stack).2
      rw [hroot]
      refine ⟨sameFiles_set he ?_ ?_, fun j hj => hj.set hnew⟩
      · simp [DirEntry.isShort, hfree]
      · simp [DirEntry.isShort, hnew]

structure Undisturbed (v : Volume) (s : System) : Prop where
  files : SameFiles v.root s.vol.root
  boot : Relabelled v s.vol
  found : ∀ (j : ℕ) q, s.callers[j]? = some q → ∀ l si, q.pc = .dir l (.ok si) →
    VolumeAt s.vol.root si.index

section
variable {v : Volume} {s t : System} {c : Call} {l : Label} {k : ℕ} {q : Caller}

/-- A call enters, searches or writes the boot sectors. -/
theorem Undisturbed.stay (h : Undisturbed v s) (hm : Moves s t k q)
    (hroot : t.vol.root = s.vol.root) (hboot : Relabelled s.vol t.vol)
    (hq : ∀ l si, q.pc = .dir l (.ok si) → VolumeAt s.vol.root si.index) : Undisturbed v t where
  files := hroot ▸ h.files
  boot := h.boot.trans hboot
  found := by
    rw [hroot]
    exact hm.forall hq fun j p hp _ => h.found j p hp

theorem relabelled_refl (v : Volume) : Relabelled v v := ⟨rfl, fun _ _ _ => rfl⟩

theorem setBootLabel_relabelled (c : Call) (l : Label) (v : Volume) :
    Relabelled v (setBootLabel c l v).2 := by
  by_cases hw : BootWritable c v
  · exact (setBootLabel_spec c l v hw).2.1
  · rw [setBootLabel_fails c l v hw]
    exact relabelled_refl v

theorem Undisturbed.advance (h : Undisturbed v s) (hstep : s.advance k = some t) :
    Undisturbed v t := by
  unfold System.advance at hstep
  rcases hk : s.callers[k]? with _ | ⟨c, l | ⟨l, found⟩ | l | r⟩
  · simp [hk] at hstep
  · simp only [hk, Option.some.injEq] at hstep
    subst hstep
    refine h.stay (moves_set s.vol _ hk) rfl (relabelled_refl s.vol) fun l' si hpc => ?_
    obtain ⟨-, hfind⟩ := CallPc.dir.inj hpc
    exact volumeAt_of_found hfind
  · simp only [hk, Option.some.injEq] at hstep
    subst hstep
    have hfound : ∀ si, found = .ok si → VolumeAt s.vol.root si.index :=
      fun si hsi => h.found k _ hk l si (by rw [hsi])
    obtain ⟨hfiles, hkept⟩ := setDirLabel_files (c := c) (l := l) hfound
    have hmount := setDirLabel_sameMount c l s.vol found
    refine ⟨h.files.trans hfiles, h.boot.trans hmount.relabelled, ?_⟩
    refine (moves_set _ _ hk).forall (fun l' si hpc => ?_) fun j p hp _ l' si hpc => ?_
    · simp only at hpc
      split_ifs at hpc
    · exact hkept _ (h.found j p hp l' si hpc)
  · simp only [hk, Option.some.injEq] at hstep
    subst hstep
    exact h.stay (moves_set _ _ hk) (setBootLabel_root c l s.vol)
      (setBootLabel_relabelled c l s.vol) nofun
  · simp [hk] at hstep

theorem Undisturbed.enter (h : Undisturbed v s) (c : Call) : Undisturbed v (s.enter c) := by
  refine h.stay (moves_enter s _) rfl (relabelled_refl s.vol) fun l si hpc => ?_
  cases harg : c.arg <;> simp [harg] at hpc

end

/-- The calls on the disk. -/
structure DiskSystem where
  disk : Disk
  callers : List Caller

namespace DiskSystem

def enter (c : Call) (s : DiskSystem) : DiskSystem :=
  { s with callers := s.callers ++ [⟨c, match c.arg with
    | none => .returned (-EFAULT)
    | some l => .search l⟩] }

def advance (k : ℕ) (s : DiskSystem) : Option DiskSystem :=
  match s.callers[k]? with
  | none => none
  | some ⟨c, .search l⟩ =>
    some { s with callers := s.callers.set k ⟨c, .dir l (fatFindVolumeLabel s.disk.root)⟩ }
  | some ⟨c, .dir l found⟩ =>
    let (err, disk) := s.disk.setDirLabel c l found
    some ⟨disk, s.callers.set k ⟨c, if err ≠ 0 then .returned err else .boot l⟩⟩
  | some ⟨c, .boot l⟩ =>
    let (ret, disk) := s.disk.setBootLabel c l
    some ⟨disk, s.callers.set k ⟨c, .returned ret⟩⟩
  | some ⟨_, .returned _⟩ => none

def step : Event → DiskSystem → Option DiskSystem
  | .enter c, s => some (s.enter c)
  | .step k, s => s.advance k

structure Refines (d₀ : Disk) (s : DiskSystem) (t : System) : Prop where
  disk : d₀.Refines s.disk t.vol
  callers : s.callers = t.callers

theorem Refines.advance {d₀ : Disk} {s s' : DiskSystem} {t : System} {k : ℕ} (h : Refines d₀ s t)
    (hs : s.advance k = some s') : ∃ t', t.advance k = some t' ∧ Refines d₀ s' t' := by
  obtain ⟨disk, callers⟩ := s
  obtain rfl : callers = t.callers := h.callers
  unfold DiskSystem.advance at hs
  unfold System.advance
  rcases hk : t.callers[k]? with _ | ⟨c, l | ⟨l, found⟩ | l | r⟩
  · simp [hk] at hs
  · simp only [hk, Option.some.injEq] at hs ⊢
    subst hs
    exact ⟨_, rfl, h.disk, by rw [h.disk.root]⟩
  · obtain ⟨hret, hdisk⟩ := h.disk.setDirLabel c l found
    simp only [hk, Option.some.injEq] at hs ⊢
    subst hs
    exact ⟨_, rfl, hdisk, by rw [hret]⟩
  · obtain ⟨hret, hdisk⟩ := h.disk.setBootLabel c l
    simp only [hk, Option.some.injEq] at hs ⊢
    subst hs
    exact ⟨_, rfl, hdisk, by rw [hret]⟩
  · simp [hk] at hs

theorem Refines.step {d₀ : Disk} {s s' : DiskSystem} {t : System} {e : Event} (h : Refines d₀ s t)
    (hs : DiskSystem.step e s = some s') :
    ∃ t', System.step e t = some t' ∧ Refines d₀ s' t' := by
  cases e with
  | enter c =>
    cases hs
    refine ⟨t.enter c, rfl, h.disk, ?_⟩
    cases harg : c.arg <;> simp [enter, System.enter, h.callers, harg]
  | step k => exact h.advance hs

end DiskSystem

end Eudyptula.Fat
