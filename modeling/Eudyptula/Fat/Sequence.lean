import Eudyptula.Lib.Runs
import Eudyptula.Fat.SetLabel

/-! Calls of `fat_ioctl_set_volume_label` that run one after another: agreement of the
copies of the label when they succeed, and what is left behind by one that fails. -/
namespace Eudyptula.Fat
open CMem Volume Runs

/-- One call, as a step that is enabled when the call returns 0. -/
def setLabelStep (c : Call) (v : Volume) : Option Volume :=
  if (fatIoctlSetVolumeLabel c v).1 = 0 then some (fatIoctlSetVolumeLabel c v).2 else none

/-- A call adds a directory entry when its search finds none. -/
def addedIn (root : List DirEntry) : ℕ :=
  match fatFindVolumeLabel root with
  | .ok _ => 0
  | .error _ => 1

/-- How many of the calls, run one after another, add a directory entry. -/
def entriesAdded : List Call → Volume → ℕ
  | [], _ => 0
  | c :: cs, v => addedIn v.root + entriesAdded cs (fatIoctlSetVolumeLabel c v).2

theorem addedIn_le (root : List DirEntry) : addedIn root ≤ 1 := by
  unfold addedIn
  split <;> omega

/-- The search in `root'` finds entry `i`, its name is `l`, and the others are those of
`root`. A label that the search finds in `root` is that entry already. -/
structure Labelled (root root' : List DirEntry) (i : ℕ) (l : Label) : Prop where
  found : fatFindVolumeLabel root' = .ok ⟨32 * i, 1⟩
  name : root'[i]?.map DirEntry.name = some l
  length : root'.length = root.length
  others : ∀ j, j ≠ i → root'[j]? = root[j]?
  kept : ∀ si, fatFindVolumeLabel root = .ok si → si = ⟨32 * i, 1⟩

/-- The three copies of the label agree; nothing else has changed on the volume. -/
structure LabelSet (c : Call) (v v' : Volume) (i : ℕ) (l : Label) : Prop where
  root : Labelled v.root v'.root i l
  relabelled : Relabelled v v'
  boot : v'.bootLabel = l.toList
  backup : v.fatBits = 32 → c.readBackup = true → v'.backupLabel = l.toList

theorem fatFindVolumeLabel_ok_iff {root : List DirEntry} {si : SlotInfo} :
    fatFindVolumeLabel root = .ok si ↔
      ∃ i, root.findIdx? DirEntry.hasVolume = some i ∧ si = ⟨32 * i, 1⟩ := by
  rw [fatFindVolumeLabel_eq]
  cases root.findIdx? DirEntry.hasVolume with
  | none => simp
  | some i => simp [eq_comm]

theorem labelled_modify {root : List DirEntry} {i : ℕ} (l : Label)
    (h : root.findIdx? DirEntry.hasVolume = some i) :
    Labelled root (root.modify i fun de => { de with name := l }) i l := by
  obtain ⟨hlt, hvol, hfirst⟩ := List.findIdx?_eq_some_iff_getElem.mp h
  constructor
  · rw [fatFindVolumeLabel_ok_iff]
    refine ⟨i, List.findIdx?_eq_some_iff_getElem.mpr ⟨by simpa using hlt, ?_, ?_⟩, rfl⟩
    · simpa [DirEntry.hasVolume] using hvol
    · intro j hj
      have hne : i ≠ j := by omega
      simpa [List.getElem_modify, hne] using hfirst j hj
  · simp [hlt]
  · simp
  · intro j hj
    simp [Ne.symm hj]
  · intro si hsi
    obtain ⟨k, hk, rfl⟩ := fatFindVolumeLabel_ok_iff.mp hsi
    rw [h, Option.some.injEq] at hk
    rw [hk]

theorem labelled_set {root : List DirEntry} {i : ℕ} {e : DirEntry} (hlt : i < root.length)
    (he : e.hasVolume = true) (h : root.findIdx? DirEntry.hasVolume = none) :
    Labelled root (root.set i e) i e.name := by
  rw [List.findIdx?_eq_none_iff] at h
  constructor
  · rw [fatFindVolumeLabel_ok_iff]
    refine ⟨i, List.findIdx?_eq_some_iff_getElem.mpr ⟨by simpa using hlt, ?_, ?_⟩, rfl⟩
    · simpa using he
    · intro j hj
      have hne : i ≠ j := by omega
      simp [hne, h]
  · simp [hlt]
  · simp
  · intro j hj
    simp [Ne.symm hj]
  · intro si hsi
    obtain ⟨k, hk, -⟩ := fatFindVolumeLabel_ok_iff.mp hsi
    rw [List.findIdx?_eq_none_iff.mpr h] at hk
    contradiction

section
variable {c : Call} {v v' : Volume}

theorem newEntry_hasVolume (l : Label) (time date : UInt16) :
    (newEntry l time date).hasVolume = true :=
  show (ATTR_VOLUME &&& ATTR_VOLUME != 0) = true by decide

theorem DirAlloc.pick_lt (a : DirAlloc) {root : List DirEntry} {i : ℕ}
    (h : a.pick root = .ok i) : i < root.length := by
  obtain ⟨e, he, -⟩ := a.free h
  exact (List.getElem?_eq_some_iff.mp he).1

theorem setDirLabel_labelled (l : Label)
    (h : (setDirLabel c l (fatFindVolumeLabel v.root) v).1 = 0) :
    ∃ i, Labelled v.root (setDirLabel c l (fatFindVolumeLabel v.root) v).2.root i l := by
  rw [fatFindVolumeLabel_eq] at h ⊢
  cases hfind : v.root.findIdx? DirEntry.hasVolume with
  | some i =>
    dsimp only
    rw [(setDirLabel_ok c l v i 1).2]
    exact ⟨i, labelled_modify l hfind⟩
  | none =>
    rw [hfind] at h
    rcases setDirLabel_error c l v (-ENOENT) with ⟨e, -, hne, heq⟩ | ⟨i, hpick, -, hroot⟩
    · rw [heq] at h
      exact absurd h hne
    · dsimp only
      rw [hroot]
      exact ⟨i, labelled_set (c.slots.pick_lt hpick) (newEntry_hasVolume l _ _) hfind⟩

theorem SameMount.relabelled (h : SameMount v v') : Relabelled v v' :=
  ⟨h.fatBits, fun n k _ => by rw [h.sector]⟩

theorem SameMount.bootWritable_iff (h : SameMount v v') : BootWritable c v' ↔ BootWritable c v := by
  unfold BootWritable
  rw [h.rdonly, h.dirty]

theorem setLabelStep_spec (h : setLabelStep c v = some v') :
    ∃ l i, c.arg = some l ∧ LabelSet c v v' i l := by
  obtain ⟨hret, hv'⟩ := Option.ite_none_right_eq_some.mp h
  rw [Option.some.injEq] at hv'
  unfold fatIoctlSetVolumeLabel at hret hv'
  cases harg : c.arg with
  | none =>
    rw [harg] at hret
    contradiction
  | some l =>
    simp only [harg] at hret hv'
    by_cases hdir : (setDirLabel c l (fatFindVolumeLabel v.root) v).1 = 0
    · obtain ⟨i, hroot⟩ := setDirLabel_labelled l hdir
      have hmount := setDirLabel_sameMount c l v (fatFindVolumeLabel v.root)
      simp only [hdir, ne_eq, not_true_eq_false, if_false] at hret hv'
      generalize (setDirLabel c l (fatFindVolumeLabel v.root) v).2 = u at hret hv' hroot hmount
      have hboot : BootWritable c u := by
        by_contra hno
        rw [setBootLabel_fails c l u hno] at hret
        contradiction
      obtain ⟨-, hrel, hbl, hbk⟩ := setBootLabel_spec c l u hboot
      have hsame := setBootLabel_root c l u
      rw [hv'] at hrel hbl hbk hsame
      refine ⟨l, i, rfl, hsame ▸ hroot, hmount.relabelled.trans hrel, hbl, ?_⟩
      rw [← hmount.fatBits]
      exact hbk
    · simp only [hdir, ne_eq, not_false_eq_true, if_true] at hret

theorem entriesAdded_of_found {cs : List Call} (h : run setLabelStep cs v = some v') {si : SlotInfo}
    (hfound : fatFindVolumeLabel v.root = .ok si) : entriesAdded cs v = 0 := by
  induction cs generalizing v si with
  | nil => rfl
  | cons c cs ih =>
    obtain ⟨u, hu, hrun⟩ := run_cons_some h
    obtain ⟨l, i, -, hset⟩ := setLabelStep_spec hu
    obtain ⟨-, hstep⟩ := Option.ite_none_right_eq_some.mp hu
    rw [Option.some.injEq] at hstep
    simp only [entriesAdded, addedIn, hfound, hstep, ih hrun hset.root.found]

end

/-- After calls that all return 0, the last of them with the label `l`: the entry that the
search finds, the boot sector and a readable backup hold `l`, nothing else has changed since
before the first call, and at most one entry has been added. -/
theorem labelSet_of_run {v v' : Volume} {cs : List Call} {c : Call}
    (h : run setLabelStep (cs ++ [c]) v = some v') :
    (∃ l i, c.arg = some l ∧ LabelSet c v v' i l) ∧ entriesAdded (cs ++ [c]) v ≤ 1 := by
  induction cs generalizing v with
  | nil =>
    obtain ⟨u, hu, hrun⟩ := run_cons_some h
    cases hrun
    exact ⟨setLabelStep_spec hu, addedIn_le v.root⟩
  | cons c₀ cs ih =>
    rw [List.cons_append] at h ⊢
    obtain ⟨u, hu, hrun⟩ := run_cons_some h
    obtain ⟨l₀, i₀, -, hset₀⟩ := setLabelStep_spec hu
    obtain ⟨⟨l, i, harg, hset⟩, -⟩ := ih hrun
    -- the entry labelled by the first call is the one that the later calls find
    have hi : i₀ = i := by
      have hkept := hset.root.kept _ hset₀.root.found
      rw [SlotInfo.mk.injEq] at hkept
      omega
    subst hi
    constructor
    · refine ⟨l, i₀, harg, ⟨hset.root.found, hset.root.name, ?_, ?_, hset₀.root.kept⟩,
        hset₀.relabelled.trans hset.relabelled, hset.boot, ?_⟩
      · exact hset.root.length.trans hset₀.root.length
      · exact fun j hj => (hset.root.others j hj).trans (hset₀.root.others j hj)
      · rw [← hset₀.relabelled.fatBits]
        exact hset.backup
    · obtain ⟨-, hstep⟩ := Option.ite_none_right_eq_some.mp hu
      rw [Option.some.injEq] at hstep
      have hrest := entriesAdded_of_found hrun hset₀.root.found
      simp only [entriesAdded, hstep, hrest]
      exact addedIn_le v.root

/-- The first free slot, or `-ENOSPC`. -/
def DirAlloc.firstFree : DirAlloc where
  pick root := match root.findIdx? DirEntry.isFree with
    | some i => .ok i
    | none => .error (-28)
  free {root i} h := by
    cases hf : root.findIdx? DirEntry.isFree with
    | none => simp [hf] at h
    | some j =>
      obtain ⟨hlt, hfree, -⟩ := List.findIdx?_eq_some_iff_getElem.mp hf
      simp only [hf, Except.ok.injEq] at h
      subst h
      exact ⟨_, List.getElem?_eq_getElem hlt, hfree⟩
  failed {root err} h := by
    cases hf : root.findIdx? DirEntry.isFree with
    | some j => simp [hf] at h
    | none =>
      simp only [hf, Except.error.injEq] at h
      rw [← h]
      decide

def Call.smooth (l : Label) : Call := ⟨some l, .firstFree, true, true, ⟨0, 0⟩, ⟨1, 0⟩⟩

def Mount.fresh (fatBits : ℕ) (rdonly : Bool) : Mount :=
  ⟨fatBits, rdonly, false, fun _ => (0, 0), ⟨0, 0⟩, ⟨0, 0⟩, 0, ⟨0, 0⟩, ⟨0, 0⟩⟩

/-- A volume with zeroed boot sectors, so that sector 0 is its own backup. -/
def Volume.blank (root : List DirEntry) (fatBits : ℕ) (rdonly : Bool) : Volume :=
  ⟨.fresh fatBits rdonly, root, fun _ _ => 0⟩

def DirEntry.unused : DirEntry := { newEntry (.replicate 11 0) 0 0 with attr := 0 }

/-- If the call fails, the directory and the boot sectors are as before. -/
def ErrorAtomic (c : Call) (v : Volume) : Prop :=
  (fatIoctlSetVolumeLabel c v).1 ≠ 0 →
    (fatIoctlSetVolumeLabel c v).2.root = v.root ∧
      (fatIoctlSetVolumeLabel c v).2.sector 0 = v.sector 0 ∧
      (fatIoctlSetVolumeLabel c v).2.sector v.backupBoot = v.sector v.backupBoot

section
variable {c : Call} {v : Volume} {l : Label}

/-- A call that gets past the directory part fails without a trace exactly when it does not
fail or had nothing to change in the directory. -/
theorem errorAtomic_iff_of_dir (harg : c.arg = some l)
    (hdir : (setDirLabel c l (fatFindVolumeLabel v.root) v).1 = 0) :
    ErrorAtomic c v ↔ BootWritable c v ∨
      (setDirLabel c l (fatFindVolumeLabel v.root) v).2.root = v.root := by
  have hmount := setDirLabel_sameMount c l v (fatFindVolumeLabel v.root)
  unfold ErrorAtomic fatIoctlSetVolumeLabel
  simp only [harg, hdir, ne_eq, not_true_eq_false, if_false]
  generalize (setDirLabel c l (fatFindVolumeLabel v.root) v).2 = u at hmount
  rw [← hmount.bootWritable_iff]
  by_cases hboot : BootWritable c u
  · simp [(setBootLabel_spec c l u hboot).1, hboot]
  · have hne : (-ENOTTY : ℤ) ≠ 0 := by decide
    simp [setBootLabel_fails c l u hboot, hboot, hmount.sector, hne]

theorem modify_name_eq_self_iff {root : List DirEntry} {i : ℕ} (hlt : i < root.length) :
    (root.modify i fun de => { de with name := l }) = root ↔
      root[i]?.map DirEntry.name = some l := by
  constructor
  · intro h
    have hname := (congrArg (fun r : List DirEntry => r[i]?.map DirEntry.name) h).symm
    simpa [hlt] using hname
  · intro h
    apply List.ext_getElem?
    intro j
    by_cases hj : i = j
    · subst hj
      simp only [hlt, List.getElem?_eq_getElem, Option.map_some, Option.some.injEq] at h
      simp [hlt, ← h]
    · simp [hj]

end

/-- For every call on every volume: a failing call leaves everything as it was exactly when
the argument cannot be read, or there is no label and no slot for one, or the boot sector
can be written, or the label has the wanted name already. -/
theorem set_volume_label_error_atomic_iff (c : Call) (v : Volume) :
    ErrorAtomic c v ↔
      c.arg = none ∨
      ((∃ e, fatFindVolumeLabel v.root = .error e) ∧ ∃ e, c.slots.pick v.root = .error e) ∨
      BootWritable c v ∨
      ∃ l si, c.arg = some l ∧ fatFindVolumeLabel v.root = .ok si ∧
        v.root[si.index]?.map DirEntry.name = some l := by
  cases harg : c.arg with
  | none => simp [ErrorAtomic, fatIoctlSetVolumeLabel, harg]
  | some l =>
    cases hfind : v.root.findIdx? DirEntry.hasVolume with
    | some i =>
      have hlt := (List.findIdx?_eq_some_iff_getElem.mp hfind).1
      have hsearch : fatFindVolumeLabel v.root = .ok ⟨32 * i, 1⟩ := by
        rw [fatFindVolumeLabel_eq, hfind]
      obtain ⟨hdir, hroot⟩ := setDirLabel_ok c l v i 1
      rw [← hsearch] at hdir hroot
      rw [errorAtomic_iff_of_dir harg hdir, hroot, modify_name_eq_self_iff hlt]
      simp [hsearch]
    | none =>
      have hsearch : fatFindVolumeLabel v.root = .error (-ENOENT) := by
        rw [fatFindVolumeLabel_eq, hfind]
      rcases setDirLabel_error c l v (-ENOENT) with ⟨e, hpick, hne, heq⟩ | ⟨i, hpick, hdir, hroot⟩
      · simp [ErrorAtomic, fatIoctlSetVolumeLabel, harg, hsearch, heq, hne, hpick]
      · rw [← hsearch] at hdir hroot
        have hchanged : v.root.set i (newEntry l (v.unix2fat c.stack).1 (v.unix2fat c.stack).2) ≠
            v.root := by
          intro hsame
          have hmem := List.mem_set (c.slots.pick_lt hpick)
            (newEntry l (v.unix2fat c.stack).1 (v.unix2fat c.stack).2)
          rw [hsame] at hmem
          have hno := List.findIdx?_eq_none_iff.mp hfind _ hmem
          rw [newEntry_hasVolume] at hno
          contradiction
        rw [errorAtomic_iff_of_dir harg hdir, hroot]
        simp [hsearch, hpick, hchanged]

/-- On a read-only volume the call returns `-ENOTTY` after it has renamed the label. -/
theorem set_volume_label_renames_on_rdonly :
    ¬ ErrorAtomic (.smooth (.replicate 11 66))
      (.blank [newEntry (.replicate 11 65) 0 0] 16 true) := by
  intro h
  have hret : (fatIoctlSetVolumeLabel (.smooth (.replicate 11 66))
      (.blank [newEntry (.replicate 11 65) 0 0] 16 true)).1 ≠ 0 := by
    decide +kernel
  have hroot : (fatIoctlSetVolumeLabel (.smooth (.replicate 11 66))
      (.blank [newEntry (.replicate 11 65) 0 0] 16 true)).2.root ≠
        [newEntry (.replicate 11 65) 0 0] := by
    decide +kernel
  exact hroot (h hret).1

end Eudyptula.Fat
