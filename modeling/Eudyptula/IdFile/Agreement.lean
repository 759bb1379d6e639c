import Eudyptula.IdFile.Handlers

/-! The three copies of the id write handler side by side, each on a buffer of its own. -/
namespace Eudyptula.IdFile
open CMem

inductive IdWriter
  | task6
  | task17
  | task8
deriving DecidableEq, Repr

/-- Return value, new `*f_pos` and the storage from `user_input` on. -/
def IdWriter.write : IdWriter → WriteArgs → Bytes → ℤ × ℕ × Bytes
  | .task6 | .task17 => simpleDevWrite
  | .task8 => idWrite

/-- The same 4096 bytes of `user_input`. -/
def SamePage (m m' : Bytes) : Prop := ∀ k < 4096, m k = m' k

/-- There is a content of the storage for which the call changes a byte past `user_input`. -/
def IdWriter.StoresOutside (h : IdWriter) (w : WriteArgs) : Prop :=
  ∃ m k, 4096 ≤ k ∧ (h.write w m).2.2 k ≠ m k

/-- One call of all three. -/
structure SameCall (w : WriteArgs) (m : IdWriter → Bytes) : Prop where
  ret : ∀ h h' : IdWriter, (h.write w (m h)).1 = (h'.write w (m h')).1
  fPos : ∀ h h' : IdWriter, (h.write w (m h)).2.1 = (h'.write w (m h')).2.1
  page : ∀ h h' : IdWriter, SamePage (h.write w (m h)).2.2 (h'.write w (m h')).2.2
  inside : ∀ h : IdWriter, ¬ h.StoresOutside w

/-- Call by call the same. -/
def Agree : List WriteArgs → (IdWriter → Bytes) → Prop
  | [], _ => True
  | w :: ws, m => SameCall w m ∧ Agree ws fun h => (h.write w (m h)).2.2

/-- A write that lies past the buffer or ends inside it. -/
def Fits (w : WriteArgs) : Prop := 4096 ≤ w.fPos ∨ w.fPos + w.count ≤ 4096

section
variable {m m' : Bytes} {w : WriteArgs}

theorem verdict_congr (h : SamePage m m') (count : ℕ) : verdict m count = verdict m' count := by
  unfold verdict
  rw [strncmp_congr fun j _ hj => h j (by omega)]

theorem simpleDevWrite_eq_idWrite (h : Fits w) (m : Bytes) :
    simpleDevWrite w m = idWrite w m := by
  unfold simpleDevWrite idWrite
  by_cases hp : 4096 ≤ w.fPos
  · rw [if_pos hp, if_pos hp]
  · have hfit := h.resolve_left hp
    rw [if_neg hp, if_neg hp]
    dsimp only
    rw [if_neg (by omega)]

theorem IdWriter.write_eq_idWrite (h : IdWriter) (hfit : Fits w) (m : Bytes) :
    h.write w m = idWrite w m := by
  cases h with
  | task6 | task17 => exact simpleDevWrite_eq_idWrite hfit m
  | task8 => rfl

/-- The call reads nothing past the buffer. -/
theorem idWrite_congr (w : WriteArgs) (h : SamePage m m') :
    (idWrite w m).1 = (idWrite w m').1 ∧ (idWrite w m).2.1 = (idWrite w m').2.1 ∧
      SamePage (idWrite w m).2.2 (idWrite w m').2.2 := by
  have hstore : SamePage (store m w.fPos (copied w.buf w.count))
      (store m' w.fPos (copied w.buf w.count)) := fun k hk => store_congr _ (h k hk)
  unfold idWrite copyAndCheck
  rw [copyFromUser_eq, copyFromUser_eq]
  dsimp only
  split_ifs
  · exact ⟨rfl, rfl, h⟩
  · exact ⟨rfl, rfl, hstore⟩
  · exact ⟨verdict_congr hstore _, rfl, hstore⟩

theorem idWrite_mem (hp : w.fPos < 4096) (m : Bytes) :
    (idWrite w m).2.2 = store m w.fPos (copied w.buf w.count) := by
  unfold idWrite copyAndCheck
  rw [if_neg (by omega), copyFromUser_eq]
  dsimp only
  split_ifs <;> rfl

theorem idWrite_inside (hfit : Fits w) (m : Bytes) {k : ℕ} (hk : 4096 ≤ k) :
    (idWrite w m).2.2 k = m k := by
  by_cases hp : 4096 ≤ w.fPos
  · unfold idWrite
    rw [if_pos hp]
  · have hend := hfit.resolve_left hp
    rw [idWrite_mem (by omega)]
    exact store_outside (by rw [length_copied]; omega)

/-- A write across the end of the buffer. -/
theorem task8_storesOutside (hno : ¬ Fits w) : IdWriter.task8.StoresOutside w := by
  obtain ⟨hp, hend⟩ := not_or.mp hno
  let b := (copied w.buf w.count).getD (4096 - w.fPos) 0
  -- any other byte than the one that is stored shows the store
  obtain ⟨c, hc⟩ : ∃ c : UInt8, b ≠ c := by
    by_cases hb : b = 0
    · exact ⟨1, by rw [hb]; decide⟩
    · exact ⟨0, hb⟩
  refine ⟨fun _ => c, 4096, Nat.le_refl _, ?_⟩
  change (idWrite w fun _ => c).2.2 4096 ≠ c
  rw [idWrite_mem (by omega), store_inside (by omega) (by rw [length_copied]; omega)]
  exact hc

theorem sameCall_of_fits {ms : IdWriter → Bytes} (hfit : Fits w)
    (hm : ∀ h h' : IdWriter, SamePage (ms h) (ms h')) : SameCall w ms := by
  constructor
  · intro h h'
    rw [h.write_eq_idWrite hfit, h'.write_eq_idWrite hfit]
    exact (idWrite_congr w (hm h h')).1
  · intro h h'
    rw [h.write_eq_idWrite hfit, h'.write_eq_idWrite hfit]
    exact (idWrite_congr w (hm h h')).2.1
  · intro h h'
    rw [h.write_eq_idWrite hfit, h'.write_eq_idWrite hfit]
    exact (idWrite_congr w (hm h h')).2.2
  · rintro h ⟨m, k, hk, hne⟩
    rw [h.write_eq_idWrite hfit, idWrite_inside hfit m hk] at hne
    exact hne rfl

theorem agree_iff {ms : IdWriter → Bytes} (ws : List WriteArgs)
    (hm : ∀ h h' : IdWriter, SamePage (ms h) (ms h')) : Agree ws ms ↔ ∀ w ∈ ws, Fits w := by
  induction ws generalizing ms with
  | nil => simp [Agree]
  | cons w ws ih =>
    rw [List.forall_mem_cons]
    constructor
    · rintro ⟨hcall, hrest⟩
      have hfit : Fits w := by
        by_contra hno
        exact hcall.inside .task8 (task8_storesOutside hno)
      exact ⟨hfit, (ih hcall.page).mp hrest⟩
    · rintro ⟨hfit, hrest⟩
      have hcall := sameCall_of_fits hfit hm
      exact ⟨hcall, (ih hcall.page).mpr hrest⟩

end

/-- For every sequence of writes, from zeroed buffers: the three handlers agree call by call
and stay inside `user_input` exactly when no write reaches across its end. -/
theorem id_writers_agree_iff (ws : List WriteArgs) :
    Agree ws (fun _ _ => 0) ↔ ∀ w ∈ ws, 4096 ≤ w.fPos ∨ w.fPos + w.count ≤ 4096 :=
  agree_iff ws fun _ _ _ _ => rfl

/-- Two bytes at offset 4095: Task_6 stores one of them and moves to 4096, Task_8 both. -/
theorem id_writers_disagree :
    ¬ Agree [⟨[65, 66], 2, 4095, by decide⟩] (fun _ _ => 0) := by
  rintro ⟨hcall, -⟩
  have hpos := hcall.fPos .task6 .task8
  revert hpos
  decide +kernel

end Eudyptula.IdFile
