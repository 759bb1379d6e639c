import Eudyptula.Fat.Sequence

/-! `fat_find_volume_label` compared with what a volume label is on disk. The scan takes the
first entry with the volume bit, which slots of long names and deleted labels have too. -/
namespace Eudyptula.Fat
open CMem

/-- The scan finds the first live label, if there is one. -/
structure FindsLabel (root : List DirEntry) : Prop where
  found_iff : (∃ si, fatFindVolumeLabel root = .ok si) ↔ ∃ e ∈ root, e.isLabel = true
  first : ∀ si, fatFindVolumeLabel root = .ok si → si.nrSlots = 1 ∧
    ∃ i e, si.slotOff = 32 * i ∧ si.index = i ∧ root[i]? = some e ∧ e.isLabel = true ∧
      ∀ j < i, ∀ e', root[j]? = some e' → e'.isLabel = false
  absent : (∀ e ∈ root, e.isLabel = false) → fatFindVolumeLabel root = .error (-ENOENT)

theorem isLabel_false_of_volume {e : DirEntry} (h : e.hasVolume = false) : e.isLabel = false := by
  simp [DirEntry.isLabel, h]

section
variable {root : List DirEntry}

/-- No entry with the volume bit: nothing is found, and there is no label. -/
theorem findsLabel_of_none (h : root.findIdx? DirEntry.hasVolume = none) : FindsLabel root := by
  have hnone := List.findIdx?_eq_none_iff.mp h
  have hsearch : fatFindVolumeLabel root = .error (-ENOENT) := by
    rw [fatFindVolumeLabel_eq, h]
  constructor
  · refine iff_of_false (by simp [hsearch]) ?_
    rintro ⟨e, he, hlabel⟩
    rw [isLabel_false_of_volume (hnone e he)] at hlabel
    contradiction
  · simp [hsearch]
  · exact fun _ => hsearch

/-- The first entry with the volume bit is a label: it is the first label. -/
theorem findsLabel_of_label {i : ℕ} {e : DirEntry}
    (h : root.findIdx? DirEntry.hasVolume = some i) (he : root[i]? = some e)
    (hlabel : e.isLabel = true) : FindsLabel root := by
  obtain ⟨hlt, -, hfirst⟩ := List.findIdx?_eq_some_iff_getElem.mp h
  have hsearch : fatFindVolumeLabel root = .ok ⟨32 * i, 1⟩ := by
    rw [fatFindVolumeLabel_eq, h]
  have hmem := List.mem_of_getElem? he
  constructor
  · exact iff_of_true ⟨_, hsearch⟩ ⟨e, hmem, hlabel⟩
  · intro si hsi
    rw [hsearch, Except.ok.injEq] at hsi
    subst hsi
    refine ⟨rfl, i, e, rfl, by simp, he, hlabel, ?_⟩
    intro j hj e' he'
    obtain ⟨hlt', rfl⟩ := List.getElem?_eq_some_iff.mp he'
    exact isLabel_false_of_volume (by simpa using hfirst j hj)
  · intro hno
    rw [hno e hmem] at hlabel
    contradiction

end

/-- For every directory: the scan is right exactly when the first entry with the volume bit,
if there is one, is a live label. -/
theorem find_volume_label_iff (root : List DirEntry) :
    FindsLabel root ↔ ∀ e, root.find? DirEntry.hasVolume = some e → e.isLabel = true := by
  cases h : root.findIdx? DirEntry.hasVolume with
  | none =>
    have hfind : root.find? DirEntry.hasVolume = none := by
      simpa using List.findIdx?_eq_none_iff.mp h
    exact iff_of_true (findsLabel_of_none h) (by simp [hfind])
  | some i =>
    obtain ⟨hlt, hvol, hbefore⟩ := List.findIdx?_eq_some_iff_getElem.mp h
    have hfind : root.find? DirEntry.hasVolume = some root[i] := by
      rw [List.find?_eq_some_iff_getElem]
      exact ⟨hvol, i, hlt, rfl, by simpa using hbefore⟩
    simp only [hfind, Option.some.injEq, forall_eq']
    constructor
    · intro hright
      have hsearch : fatFindVolumeLabel root = .ok ⟨32 * i, 1⟩ := by
        rw [fatFindVolumeLabel_eq, h]
      obtain ⟨-, j, e, hoff, -, he, hlabel, -⟩ := hright.first _ hsearch
      obtain rfl : i = j := by
        dsimp only at hoff
        omega
      rw [List.getElem?_eq_getElem hlt, Option.some.injEq] at he
      rwa [he]
    · exact findsLabel_of_label h (List.getElem?_eq_getElem hlt)

/-- A slot of a long name. -/
def DirEntry.longNameSlot : DirEntry := { newEntry (.replicate 11 65) 0 0 with attr := ATTR_EXT }

/-- A directory with a long name and no label: the slot of the name is taken for the label. -/
theorem find_volume_label_takes_slot : ¬ FindsLabel [.longNameSlot] := by
  intro h
  have hfound : fatFindVolumeLabel [.longNameSlot] = .ok ⟨0, 1⟩ := by decide +kernel
  obtain ⟨e, he, hlabel⟩ := h.found_iff.mp ⟨_, hfound⟩
  rw [List.mem_singleton] at he
  subst he
  revert hlabel
  decide +kernel

end Eudyptula.Fat
