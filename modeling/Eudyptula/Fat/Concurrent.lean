import Eudyptula.Fat.Sequence

/-! Concurrent calls of `fat_ioctl_set_volume_label`. The search runs before `s_lock` is
taken and the boot sectors are written after it has been released, so other calls can run
between the three parts. -/
namespace Eudyptula.Fat
open CMem Volume Runs

inductive CallPc
  | search (l : Label)
  | dir (l : Label) (found : Except ℤ SlotInfo)
  | boot (l : Label)
  | returned (ret : ℤ)
deriving DecidableEq

structure Caller where
  call : Call
  pc : CallPc

structure System where
  vol : Volume
  callers : List Caller

inductive Event
  | enter (c : Call)
  | step (k : ℕ)

namespace System

def enter (c : Call) (s : System) : System :=
  { s with callers := s.callers ++ [⟨c, match c.arg with
    | none => .returned (-EFAULT)
    | some l => .search l⟩] }

def advance (k : ℕ) (s : System) : Option System :=
  match s.callers[k]? with
  | none => none
  | some ⟨c, .search l⟩ =>
    some { s with callers := s.callers.set k ⟨c, .dir l (fatFindVolumeLabel s.vol.root)⟩ }
  | some ⟨c, .dir l found⟩ =>
    let (err, vol) := setDirLabel c l found s.vol
    some ⟨vol, s.callers.set k ⟨c, if err ≠ 0 then .returned err else .boot l⟩⟩
  | some ⟨c, .boot l⟩ =>
    let (ret, vol) := setBootLabel c l s.vol
    some ⟨vol, s.callers.set k ⟨c, .returned ret⟩⟩
  | some ⟨_, .returned _⟩ => none

def step : Event → System → Option System
  | .enter c, s => some (s.enter c)
  | .step k, s => s.advance k

/-- There has been a call, and every call has returned 0. -/
def AllDone (s : System) : Prop :=
  s.callers ≠ [] ∧ ∀ q ∈ s.callers, q.pc = .returned 0

end System

/-- The directory has one label entry, and its name is in the boot sector. -/
def LabelAgrees (v : Volume) : Prop :=
  (v.root.filter DirEntry.isLabel).map (fun e => e.name.toList) = [v.bootLabel]

def System.Consistent (s : System) : Prop := s.AllDone → LabelAgrees s.vol

def CallPc.searching : CallPc → Bool
  | .search _ => true
  | _ => false

def CallPc.creating : CallPc → Bool
  | .dir _ (.error _) => true
  | _ => false

def CallPc.atDir : CallPc → Bool
  | .dir _ _ => true
  | _ => false

def CallPc.atBoot : CallPc → Bool
  | .boot _ => true
  | _ => false

/-- No label marks its entry as free; no call searches while another is about to create an
entry; and no call changes the directory while another has still to write the boot sector. -/
def Ordered : Event → System → Prop
  | .enter c, _ => c.arg.any marksFree = false
  | .step k, s =>
    (∀ q ∈ s.callers[k]?, q.pc.searching = true → ∀ p ∈ s.callers, p.pc.creating = false) ∧
      ∀ q ∈ s.callers[k]?, q.pc.atDir = true → ∀ p ∈ s.callers, p.pc.atBoot = false

instance : (e : Event) → (s : System) → Decidable (Ordered e s)
  | .enter c, _ => inferInstanceAs (Decidable (c.arg.any marksFree = false))
  | .step _, _ => inferInstanceAs (Decidable (_ ∧ _))

instance : DecidablePred System.Consistent := fun s =>
  inferInstanceAs (Decidable ((s.callers ≠ [] ∧ ∀ q ∈ s.callers, q.pc = .returned 0) →
    (s.vol.root.filter DirEntry.isLabel).map (fun e => e.name.toList) = [s.vol.bootLabel]))

/-- The three parts in a row are the call. -/
theorem advance_alone (c : Call) (l : Label) (v : Volume) (harg : c.arg = some l) :
    ∃ n, run System.step (.enter c :: List.replicate n (.step 0)) ⟨v, []⟩ =
      some ⟨(fatIoctlSetVolumeLabel c v).2, [⟨c, .returned (fatIoctlSetVolumeLabel c v).1⟩]⟩ := by
  by_cases hdir : (setDirLabel c l (fatFindVolumeLabel v.root) v).1 = 0
  · refine ⟨3, ?_⟩
    simp [run, System.step, System.enter, System.advance, fatIoctlSetVolumeLabel, harg, hdir]
  · refine ⟨2, ?_⟩
    simp [run, System.step, System.enter, System.advance, fatIoctlSetVolumeLabel, harg, hdir]

/-- The label that the call has still to write into the directory. -/
def CallPc.todo : CallPc → Option Label
  | .search l | .dir l _ => some l
  | _ => none

/-- As long as no call has failed. `current`: what a call has found is still what a search
finds; there is at most one call about to create an entry. -/
structure Sound (s : System) : Prop where
  first : ∀ e, s.vol.root.find? DirEntry.hasVolume = some e → e.isLabel = true
  one : (s.vol.root.filter DirEntry.isLabel).length ≤ 1
  usable : ∀ (j : ℕ) q, s.callers[j]? = some q → ∀ l ∈ q.pc.todo, marksFree l = false
  current : ∀ (j : ℕ) q, s.callers[j]? = some q → ∀ l found, q.pc = .dir l found →
    fatFindVolumeLabel s.vol.root = found
  unique : ∀ (i j : ℕ) p q, s.callers[i]? = some p → s.callers[j]? = some q →
    p.pc.creating = true → q.pc.creating = true → i = j
  boot : ∀ (j : ℕ) q, s.callers[j]? = some q → ∀ l, q.pc = .boot l →
    (s.vol.root.filter DirEntry.isLabel).map DirEntry.name = [l]
  done : (∃ (j : ℕ) (q : Caller), s.callers[j]? = some q ∧ q.pc = .returned 0) →
    (∀ (j : ℕ) q, s.callers[j]? = some q → q.pc.atBoot = false) →
    LabelAgrees s.vol

/-- The labels are among the entries that the search stops at. -/
theorem filter_isLabel (root : List DirEntry) :
    root.filter DirEntry.isLabel = (root.filter DirEntry.hasVolume).filter DirEntry.isLabel := by
  rw [List.filter_filter]
  apply List.filter_congr
  intro e _
  cases hv : e.hasVolume <;> simp [DirEntry.isLabel, hv]

theorem filter_modify_of_findIdx? {root : List DirEntry} {i : ℕ} (l : Label)
    (h : root.findIdx? DirEntry.hasVolume = some i) :
    ∃ e rest, root.filter DirEntry.hasVolume = e :: rest ∧
      (root.modify i fun de => { de with name := l }).filter DirEntry.hasVolume =
        { e with name := l } :: rest := by
  induction root generalizing i with
  | nil => simp at h
  | cons x xs ih =>
    by_cases hx : x.hasVolume
    · have hi : i = 0 := by simpa [List.findIdx?_cons, hx, eq_comm] using h
      have hx' : ({ x with name := l } : DirEntry).hasVolume = true := hx
      subst hi
      exact ⟨x, xs.filter DirEntry.hasVolume, by simp [hx], by simp [hx']⟩
    · obtain ⟨j, hj, rfl⟩ : ∃ j, xs.findIdx? DirEntry.hasVolume = some j ∧ j + 1 = i := by
        simpa [List.findIdx?_cons, hx] using h
      obtain ⟨e, rest, hold, hnew⟩ := ih hj
      exact ⟨e, rest, by simpa [hx] using hold, by simpa [hx] using hnew⟩

theorem filter_set_of_findIdx? {root : List DirEntry} {i : ℕ} {e : DirEntry}
    (hlt : i < root.length) (he : e.hasVolume = true)
    (h : root.findIdx? DirEntry.hasVolume = none) :
    (root.set i e).filter DirEntry.hasVolume = [e] := by
  induction root generalizing i with
  | nil => simp at hlt
  | cons x xs ih =>
    have hnone := List.findIdx?_eq_none_iff.mp h
    have hx : x.hasVolume = false := hnone x (by simp)
    have hxs : ∀ y ∈ xs, y.hasVolume = false := fun y hy => hnone y (by simp [hy])
    cases i with
    | zero => simpa [he] using hxs
    | succ i =>
      have hrest := ih (by simpa using hlt) (List.findIdx?_eq_none_iff.mpr hxs)
      simpa [hx] using hrest

theorem isLabel_of_usable {e : DirEntry} (hvol : e.hasVolume = true) (hext : e.attr ≠ ATTR_EXT)
    (hl : marksFree e.name = false) : e.isLabel = true := by
  simp [DirEntry.isLabel, DirEntry.isFree, hvol, hext, hl]

/-- Whatever branch is taken, the directory part leaves one label entry, and the search stops
at it. -/
theorem setDirLabel_filter {c : Call} {l : Label} {v : Volume}
    (hfirst : ∀ e, v.root.find? DirEntry.hasVolume = some e → e.isLabel = true)
    (hone : (v.root.filter DirEntry.isLabel).length ≤ 1) (hl : marksFree l = false)
    (hret : (setDirLabel c l (fatFindVolumeLabel v.root) v).1 = 0) :
    ∃ e rest, (setDirLabel c l (fatFindVolumeLabel v.root) v).2.root.filter DirEntry.hasVolume =
        e :: rest ∧ rest.filter DirEntry.isLabel = [] ∧ e.name = l ∧ e.isLabel = true := by
  rw [fatFindVolumeLabel_eq] at hret ⊢
  cases hfind : v.root.findIdx? DirEntry.hasVolume with
  | some i =>
    obtain ⟨e, rest, hold, hnew⟩ := filter_modify_of_findIdx? l hfind
    have hlabel : e.isLabel = true := hfirst e (by rw [← List.head?_filter, hold, List.head?_cons])
    have hrest : rest.filter DirEntry.isLabel = [] := by
      rw [filter_isLabel, hold, List.filter_cons_of_pos hlabel, List.length_cons] at hone
      exact List.length_eq_zero_iff.mp (by omega)
    simp only [DirEntry.isLabel, Bool.and_eq_true, bne_iff_ne] at hlabel
    obtain ⟨⟨hvol, -⟩, hext⟩ := hlabel
    dsimp only
    rw [(setDirLabel_ok c l v i 1).2, hnew]
    exact ⟨{ e with name := l }, rest, rfl, hrest, rfl, isLabel_of_usable hvol hext hl⟩
  | none =>
    rw [hfind] at hret
    rcases setDirLabel_error c l v (-ENOENT) with ⟨err, -, hne, heq⟩ | ⟨i, hpick, -, hroot⟩
    · rw [heq] at hret
      exact absurd hret hne
    · dsimp only
      rw [hroot]
      have hnew := newEntry_hasVolume l (v.unix2fat c.stack).1 (v.unix2fat c.stack).2
      refine ⟨_, [], filter_set_of_findIdx? (c.slots.pick_lt hpick) hnew hfind, rfl, rfl, ?_⟩
      exact isLabel_of_usable hnew (show ATTR_VOLUME ≠ ATTR_EXT by decide) hl

/-- From `s` to `t` only the `k`th call moves, to `q`. -/
structure Moves (s t : System) (k : ℕ) (q : Caller) : Prop where
  moved : t.callers[k]? = some q
  after : ∀ (j : ℕ) p, t.callers[j]? = some p → j = k ∧ p = q ∨ j ≠ k ∧ s.callers[j]? = some p
  before : ∀ (j : ℕ) p, s.callers[j]? = some p → j ≠ k → t.callers[j]? = some p

section
variable {s t : System} {c : Call} {l : Label} {k : ℕ} {p q : Caller}

theorem moves_enter (s : System) (q : Caller) :
    Moves s { s with callers := s.callers ++ [q] } s.callers.length q where
  moved := List.getElem?_concat_length
  after j p h := by
    by_cases hlt : j < s.callers.length
    · rw [List.getElem?_append_left hlt] at h
      exact Or.inr ⟨by omega, h⟩
    · rw [List.getElem?_append_right (by omega)] at h
      have hj := (List.getElem?_eq_some_iff.mp h).1
      rw [List.length_singleton] at hj
      rw [show j - s.callers.length = 0 by omega] at h
      exact Or.inl ⟨by omega, by simpa [eq_comm] using h⟩
  before j p h _ := by
    rw [List.getElem?_append_left (List.getElem?_eq_some_iff.mp h).1]
    exact h

theorem moves_set (v : Volume) (q : Caller) (hk : s.callers[k]? = some p) :
    Moves s ⟨v, s.callers.set k q⟩ k q where
  moved := List.getElem?_set_self (List.getElem?_eq_some_iff.mp hk).1
  after j p' h := by
    by_cases hjk : k = j
    · subst hjk
      rw [List.getElem?_set_self (List.getElem?_eq_some_iff.mp hk).1, Option.some.injEq] at h
      exact Or.inl ⟨rfl, h.symm⟩
    · rw [List.getElem?_set_ne hjk] at h
      exact Or.inr ⟨Ne.symm hjk, h⟩
  before j p h hjk := by
    rw [List.getElem?_set_ne (Ne.symm hjk)]
    exact h

theorem Moves.forall {P : Caller → Prop} (hm : Moves s t k q) (hq : P q)
    (hold : ∀ (j : ℕ) p, s.callers[j]? = some p → j ≠ k → P p) :
    ∀ (j : ℕ) p, t.callers[j]? = some p → P p := by
  intro j p hp
  rcases hm.after j p hp with ⟨-, rfl⟩ | ⟨hjk, hp⟩
  · exact hq
  · exact hold j p hp hjk

theorem Sound.unique_moves (h : Sound s) (hm : Moves s t k q)
    (hcreate : q.pc.creating = true → ∀ p ∈ s.callers, p.pc.creating = false)
    (i j : ℕ) (p p' : Caller) (hp : t.callers[i]? = some p) (hp' : t.callers[j]? = some p')
    (hc : p.pc.creating = true) (hc' : p'.pc.creating = true) : i = j := by
  rcases hm.after i p hp with ⟨rfl, rfl⟩ | ⟨-, hp⟩
  · rcases hm.after j p' hp' with ⟨rfl, -⟩ | ⟨-, hp'⟩
    · rfl
    · rw [hcreate hc p' (List.mem_of_getElem? hp')] at hc'
      contradiction
  · rcases hm.after j p' hp' with ⟨rfl, rfl⟩ | ⟨-, hp'⟩
    · rw [hcreate hc' p (List.mem_of_getElem? hp)] at hc
      contradiction
    · exact h.unique i j p p' hp hp' hc hc'

/-- A call enters or searches: the volume stays, and the call has not come past the
directory part. -/
theorem Sound.stay (h : Sound s) (hm : Moves s t k q) (hvol : t.vol = s.vol)
    (hold : ∀ p, s.callers[k]? = some p → p.pc.atBoot = false)
    (husable : ∀ l ∈ q.pc.todo, marksFree l = false) (htodo : q.pc.todo ≠ none)
    (hcurrent : ∀ l found, q.pc = .dir l found → fatFindVolumeLabel s.vol.root = found)
    (hcreate : q.pc.creating = true → ∀ p ∈ s.callers, p.pc.creating = false) : Sound t := by
  constructor
  · exact hvol ▸ h.first
  · exact hvol ▸ h.one
  · exact hm.forall husable fun j p hp _ => h.usable j p hp
  · rw [hvol]
    exact hm.forall hcurrent fun j p hp _ => h.current j p hp
  · exact h.unique_moves hm hcreate
  · rw [hvol]
    refine hm.forall (fun l hpc => ?_) fun j p hp _ => h.boot j p hp
    simp [hpc, CallPc.todo] at htodo
  · intro hret hnone
    rw [hvol]
    obtain ⟨j, p, hp, hpc⟩ := hret
    rcases hm.after j p hp with ⟨-, rfl⟩ | ⟨-, hp⟩
    · simp [hpc, CallPc.todo] at htodo
    · apply h.done ⟨j, p, hp, hpc⟩
      intro i p' hp'
      by_cases hik : i = k
      · subst hik
        exact hold p' hp'
      · exact hnone i p' (hm.before i p' hp' hik)

theorem Sound.dir (h : Sound s) {found : Except ℤ SlotInfo}
    (hk : s.callers[k]? = some ⟨c, .dir l found⟩) (hm : Moves s t k ⟨c, .boot l⟩)
    (hvol : t.vol = (setDirLabel c l found s.vol).2) (hret : (setDirLabel c l found s.vol).1 = 0)
    (hboot : ∀ p ∈ s.callers, p.pc.atBoot = false) : Sound t := by
  have hfound := h.current k _ hk l found rfl
  have hl := h.usable k _ hk l rfl
  subst hfound
  obtain ⟨i, hlab⟩ := setDirLabel_labelled l hret
  obtain ⟨e, rest, hvolumes, hrest, hname, hlabel⟩ := setDirLabel_filter h.first h.one hl hret
  rw [← hvol] at hlab hvolumes
  have hfilter : t.vol.root.filter DirEntry.isLabel = [e] := by
    rw [filter_isLabel, hvolumes, List.filter_cons_of_pos hlabel, hrest]
  constructor
  · intro e' he'
    rw [← List.head?_filter, hvolumes, List.head?_cons, Option.some.injEq] at he'
    exact he' ▸ hlabel
  · simp [hfilter]
  · exact hm.forall nofun fun j p hp _ => h.usable j p hp
  · refine hm.forall nofun fun j p hp hjk l' found' hpc => ?_
    have hcur := h.current j p hp l' found' hpc
    cases hsearch : fatFindVolumeLabel s.vol.root with
    | ok si => rw [hlab.found, ← hcur, hsearch, hlab.kept si hsearch]
    | error err =>
      -- both calls would be about to create the entry
      rw [hsearch] at hcur hk
      exact absurd (h.unique j k p _ hp hk (by simp [hpc, ← hcur, CallPc.creating]) rfl) hjk
  · exact h.unique_moves hm nofun
  · refine hm.forall (fun l' hpc => ?_) fun j p hp _ l' hpc => ?_
    · cases hpc
      simp [hfilter, hname]
    · have hnone := hboot p (List.mem_of_getElem? hp)
      simp [hpc, CallPc.atBoot] at hnone
  · intro _ hnone
    have hatBoot := hnone k _ hm.moved
    contradiction

theorem Sound.bootWritten (h : Sound s) (hk : s.callers[k]? = some ⟨c, .boot l⟩)
    (hm : Moves s t k ⟨c, .returned 0⟩) (hvol : t.vol = (setBootLabel c l s.vol).2)
    (hw : BootWritable c s.vol) : Sound t := by
  have hroot : t.vol.root = s.vol.root := hvol ▸ setBootLabel_root c l s.vol
  have hlabel : t.vol.bootLabel = l.toList := hvol ▸ (setBootLabel_spec c l s.vol hw).2.2.1
  have hname := h.boot k _ hk l rfl
  constructor
  · exact hroot ▸ h.first
  · exact hroot ▸ h.one
  · exact hm.forall nofun fun j p hp _ => h.usable j p hp
  · rw [hroot]
    exact hm.forall nofun fun j p hp _ => h.current j p hp
  · exact h.unique_moves hm nofun
  · rw [hroot]
    exact hm.forall nofun fun j p hp _ => h.boot j p hp
  · intro _ _
    have hmap := congrArg (List.map Vector.toList) hname
    unfold LabelAgrees
    rw [hroot, hlabel]
    simpa [Function.comp_def] using hmap

def Failed (s : System) : Prop :=
  ∃ (j : ℕ) (q : Caller) (r : ℤ), s.callers[j]? = some q ∧ q.pc = .returned r ∧ r ≠ 0

theorem Failed.moves (h : Failed s) (hm : Moves s t k q)
    (hk : ∀ r, s.callers[k]?.map Caller.pc ≠ some (.returned r)) : Failed t := by
  obtain ⟨j, p, r, hp, hpc, hr⟩ := h
  have hjk : j ≠ k := by
    intro heq
    subst heq
    exact hk r (by simp [hp, hpc])
  exact ⟨j, p, r, hm.before j p hp hjk, hpc, hr⟩

theorem failed_of_moved {r : ℤ} (hm : Moves s t k ⟨c, .returned r⟩) (hr : r ≠ 0) : Failed t :=
  ⟨k, _, r, hm.moved, rfl, hr⟩

theorem sound_enter (h : Failed s ∨ Sound s) (hok : Ordered (.enter c) s) :
    Failed (s.enter c) ∨ Sound (s.enter c) := by
  cases harg : c.arg with
  | none =>
    have hm := moves_enter s ⟨c, .returned (-EFAULT)⟩
    simp only [System.enter, harg]
    exact Or.inl (failed_of_moved hm (by decide))
  | some l =>
    have hm := moves_enter s ⟨c, .search l⟩
    simp only [System.enter, harg]
    rcases h with h | h
    · exact Or.inl (h.moves hm (by simp))
    · refine Or.inr (h.stay hm rfl (by simp) ?_ nofun nofun nofun)
      intro l' hl'
      cases hl'
      simpa [Ordered, harg] using hok

theorem sound_search (h : Failed s ∨ Sound s) (hk : s.callers[k]? = some ⟨c, .search l⟩)
    (hcreate : ∀ p ∈ s.callers, p.pc.creating = false)
    (hm : Moves s t k ⟨c, .dir l (fatFindVolumeLabel s.vol.root)⟩) (hvol : t.vol = s.vol) :
    Failed t ∨ Sound t := by
  have hold : ∀ p, s.callers[k]? = some p → p.pc = .search l := by
    intro p hp
    rw [hk, Option.some.injEq] at hp
    rw [← hp]
  rcases h with h | h
  · exact Or.inl (h.moves hm (by simp [hk]))
  · refine Or.inr (h.stay hm hvol ?_ ?_ nofun ?_ fun _ => hcreate)
    · intro p hp
      rw [hold p hp]
      rfl
    · exact fun l' hl' => h.usable k _ hk l' hl'
    · intro l' found hpc
      cases hpc
      rfl

theorem sound_advance (h : Failed s ∨ Sound s) (hok : Ordered (.step k) s)
    (hstep : s.advance k = some t) : Failed t ∨ Sound t := by
  unfold System.advance at hstep
  rcases hk : s.callers[k]? with _ | ⟨c, l | ⟨l, found⟩ | l | r⟩
  · simp [hk] at hstep
  · simp only [hk, Option.some.injEq] at hstep
    subst hstep
    exact sound_search h hk (hok.1 _ hk rfl) (moves_set s.vol _ hk) rfl
  · simp only [hk, Option.some.injEq] at hstep
    subst hstep
    by_cases hret : (setDirLabel c l found s.vol).1 = 0
    · simp only [hret, ne_eq, not_true_eq_false, if_false]
      have hm := moves_set (setDirLabel c l found s.vol).2 ⟨c, .boot l⟩ hk
      have hboot := hok.2 _ hk rfl
      exact h.imp (fun h => h.moves hm (by simp [hk])) fun h => h.dir hk hm rfl hret hboot
    · simp only [hret, ne_eq, not_false_eq_true, if_true]
      exact Or.inl (failed_of_moved (moves_set _ _ hk) hret)
  · simp only [hk, Option.some.injEq] at hstep
    subst hstep
    by_cases hw : BootWritable c s.vol
    · rw [(setBootLabel_spec c l s.vol hw).1]
      have hm := moves_set (setBootLabel c l s.vol).2 ⟨c, .returned 0⟩ hk
      exact h.imp (fun h => h.moves hm (by simp [hk])) fun h => h.bootWritten hk hm rfl hw
    · rw [setBootLabel_fails c l s.vol hw]
      exact Or.inl (failed_of_moved (moves_set _ _ hk) (show -ENOTTY ≠ 0 by decide))
  · simp [hk] at hstep

theorem Sound.consistent (h : Sound s) : s.Consistent := by
  intro hdone
  obtain ⟨hne, hall⟩ := hdone
  obtain ⟨q, hq⟩ := List.exists_mem_of_ne_nil s.callers hne
  obtain ⟨j, hj⟩ := List.mem_iff_getElem?.mp hq
  apply h.done ⟨j, q, hj, hall q hq⟩
  intro i p hp
  rw [hall p (List.mem_of_getElem? hp)]
  rfl

theorem Failed.consistent (h : Failed s) : s.Consistent := by
  intro hdone
  obtain ⟨j, q, r, hj, hpc, hr⟩ := h
  have hzero := hdone.2 q (List.mem_of_getElem? hj)
  rw [hpc, CallPc.returned.injEq] at hzero
  exact absurd hzero hr

end

/-- From a directory with at most one label entry, where the first entry with the volume bit,
if there is any, is a label in use, every ordered interleaving of calls that all return 0 ends
with one label entry, whose name is in the boot sector. -/
theorem concurrent_labels_agree {v : Volume} {es : List Event}
    (hone : (v.root.filter DirEntry.isLabel).length ≤ 1)
    (hfirst : ∀ e, v.root.find? DirEntry.hasVolume = some e → e.isLabel = true)
    (hok : Along System.step Ordered es ⟨v, []⟩) :
    Always System.step System.Consistent es ⟨v, []⟩ := by
  have hstart : Sound ⟨v, []⟩ := ⟨hfirst, hone, by simp, by simp, by simp, by simp, by simp⟩
  have hinv : Always System.step (fun s => Failed s ∨ Sound s) es ⟨v, []⟩ := by
    refine always_of_invariant ?_ (Or.inr hstart) hok
    intro e s t hs he ht
    cases e with
    | enter c =>
      cases ht
      exact sound_enter hs he
    | step k => exact sound_advance hs he ht
  exact hinv.mono fun s hs => hs.elim Failed.consistent Sound.consistent

/-- A label, and behind it a slot of a long name. -/
def longNamed : Volume :=
  .blank [newEntry (.replicate 11 65) 0 0,
    { newEntry (.replicate 11 97) 0 0 with attr := ATTR_EXT }] 16 false

/-- Two calls that both find the label before either renames it. -/
def overlapping : List Event :=
  [.enter (.smooth (.replicate 11 66)), .enter (.smooth (.replicate 11 67)),
    .step 0, .step 1, .step 0, .step 0, .step 1, .step 1]

theorem concurrent_labels_agree_overlapping :
    Along System.step Ordered overlapping ⟨longNamed, []⟩ ∧
      Always System.step System.Consistent overlapping ⟨longNamed, []⟩ ∧
      (run System.step overlapping ⟨longNamed, []⟩).map (fun s => s.callers.map Caller.pc) =
        some [.returned 0, .returned 0] := by
  have hok : Along System.step Ordered overlapping ⟨longNamed, []⟩ := by decide +kernel
  have hfirst : ∀ e, longNamed.root.find? DirEntry.hasVolume = some e → e.isLabel = true := by
    intro e he
    obtain rfl := Option.some.inj he
    decide +kernel
  exact ⟨hok, concurrent_labels_agree (by decide +kernel) hfirst hok, by decide +kernel⟩

/-- Two calls that both search before either has created the entry: both create one. -/
theorem concurrent_labels_duplicate :
    ((Volume.blank [.unused, .unused] 16 false).root.filter DirEntry.isLabel).length ≤ 1 ∧
      ¬ Always System.step System.Consistent
        [.enter (.smooth (.replicate 11 65)), .enter (.smooth (.replicate 11 66)),
          .step 0, .step 1, .step 0, .step 1, .step 0, .step 1]
        ⟨.blank [.unused, .unused] 16 false, []⟩ := by
  decide +kernel

end Eudyptula.Fat
