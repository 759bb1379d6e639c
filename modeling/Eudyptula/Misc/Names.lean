import Eudyptula.Misc.WriteResult

/-! Whose bytes the name of an identity is made of. Two runs are compared: the same writes
through a newly opened file, after two histories that may have left different bytes in
`user_input`. -/
namespace Eudyptula.Misc
open CMem IdList Runs

/-- A write all of whose bytes can be read. -/
structure Chunk where
  data : List UInt8
  admitted : data.length ≤ maxRwCount

def Chunk.args (d : Chunk) (fPos : ℕ) : WriteArgs := ⟨d.data, d.data.length, fPos, d.admitted⟩

/-- The names of the identities that the writes put on the list, made one after another
through one open file at the offset `p`. -/
def namesFrom (A : Allocator) : List Chunk → ℕ → Statics → List (List UInt8)
  | [], _, _ => []
  | d :: ds, p, s =>
    let (_, p', s') := simpleDevWrite A (d.args p) s
    let added := s'.heap.identities.length - s.heap.identities.length
    (s'.heap.identities.take added).map Identity.name ++ namesFrom A ds p' s'

/-- For each identity created, what was written through the file until then: `xs`, and the
data of the writes up to the 19 bytes that are kept. -/
def ownBytes : List Chunk → List UInt8 → List (List UInt8)
  | [], _ => []
  | d :: ds, xs =>
    if 19 ≤ xs.length then []
    else (xs ++ d.data).take 19 :: ownBytes ds ((xs ++ d.data).take 19)

section
variable {A : Allocator} {s : Statics} {m : Bytes} {xs : List UInt8}

theorem length_ownBytes_le (ds : List Chunk) (xs : List UInt8) :
    ∀ ys ∈ ownBytes ds xs, ys.length ≤ 19 := by
  induction ds generalizing xs with
  | nil => simp [ownBytes]
  | cons d ds ih =>
    unfold ownBytes
    split_ifs
    · simp
    · rw [List.forall_mem_cons]
      exact ⟨by rw [List.length_take]; omega, ih _⟩

theorem Chunk.not_faults (d : Chunk) (p : ℕ) : ¬ Faults (d.args p) := by
  unfold Faults clamped Chunk.args
  dsimp only
  omega

/-- The file's own bytes stay together in the buffer. -/
theorem Chunk.overwritten_eq (d : Chunk) (hlen : xs.length < 19) :
    overwritten (d.args xs.length) (store m 0 xs) = store m 0 ((xs ++ d.data).take 19) := by
  have hcopied : copied d.data (clamped (d.args xs.length)) = d.data.take (19 - xs.length) := by
    unfold copied clamped Chunk.args
    rw [Nat.sub_eq_zero_of_le (Nat.min_le_left _ _), List.replicate_zero, List.append_nil,
      Nat.min_comm]
    exact List.take_eq_take_min.symm
  have hall : xs.take 19 = xs := List.take_of_length_le hlen.le
  have hstore := store_store m 0 xs (d.data.take (19 - xs.length))
  rw [Nat.zero_add] at hstore
  rw [List.take_append, hall, ← hstore, ← hcopied]
  rfl

/-- A write that is not past the end puts one identity on the list, named by the buffer. -/
theorem Sane.write {w : WriteArgs} (hs : Sane s) (hp : w.fPos < 19) (hf : ¬ Faults w)
    (hA : (A.kmalloc s.heap).isSome) :
    ∃ s', simpleDevWrite A w s = ((clamped w : ℤ), w.fPos + clamped w, s') ∧ Sane s' ∧
      s'.userInput = overwritten w s.userInput ∧
      s'.heap.identities =
        ⟨cstr (overwritten w s.userInput) 0 4096, s.idCount.setWidth 32, false⟩ ::
          s.heap.identities := by
  obtain ⟨es, hr⟩ := hs.heap
  obtain ⟨c, hc⟩ := Option.isSome_iff_exists.mp hA
  have hrep := hs.create_ok hp hr hc
  have hsane := hs.call A w
  rw [write_copied A s hp hf] at hsane
  refine ⟨_, write_copied A s hp hf, hsane, rfl, ?_⟩
  rw [hrep.identities_eq, hr.identities_eq, List.map_cons]

/-- The 19 bytes are there: no write does anything more. -/
theorem namesFrom_past (A : Allocator) (ds : List Chunk) {p : ℕ} (s : Statics) (hp : 19 ≤ p) :
    namesFrom A ds p s = [] := by
  induction ds with
  | nil => rfl
  | cons d ds ih =>
    have hpast : simpleDevWrite A (d.args p) s = (0, p, s) :=
      write_past A s (show 19 ≤ (d.args p).fPos from hp)
    simp [namesFrom, hpast, ih]

theorem ownBytes_past (ds : List Chunk) (hfull : 19 ≤ xs.length) : ownBytes ds xs = [] := by
  cases ds with
  | nil => rfl
  | cons => exact if_pos hfull

/-- The names in terms of what the buffer held before the first write. -/
theorem namesFrom_eq (hA : ∀ h, (A.kmalloc h).isSome) (ds : List Chunk) (hs : Sane s)
    (hxs : xs.length ≤ 19) (hm : s.userInput = store m 0 xs) :
    namesFrom A ds xs.length s = (ownBytes ds xs).map fun ys => cstr (store m 0 ys) 0 4096 := by
  induction ds generalizing s xs with
  | nil => rfl
  | cons d ds ih =>
    by_cases hfull : 19 ≤ xs.length
    · rw [namesFrom_past A _ s hfull, ownBytes_past _ hfull, List.map_nil]
    · have hroom : xs.length < 19 := Nat.lt_of_not_le hfull
      obtain ⟨s', hw, hs', hbuf, hids⟩ :=
        hs.write (w := d.args xs.length) hroom (d.not_faults _) (hA s.heap)
      rw [hm, d.overwritten_eq hroom] at hbuf hids
      have hlen : ((xs ++ d.data).take 19).length = xs.length + clamped (d.args xs.length) := by
        rw [List.length_take, List.length_append]
        unfold clamped Chunk.args
        dsimp only
        omega
      have hrest := ih hs' (by rw [List.length_take]; omega) hbuf
      rw [hlen] at hrest
      have hadded : s'.heap.identities.length - s.heap.identities.length = 1 := by
        rw [hids, List.length_cons]
        omega
      unfold namesFrom ownBytes
      rw [hw, if_neg hfull, List.map_cons, ← hrest]
      dsimp only
      rw [hadded, hids]
      rfl

end

/-- After any two histories of the module the writes of a new file create the same names
exactly when, at each identity created, the file has written a NUL within its 19 bytes, or
`user_input` goes on with the same string behind them in both runs. -/
theorem names_isolated_iff (ls₁ ls₂ : List Label) (s₁ s₂ : State)
    (h₁ : run step ls₁ .start = some s₁) (h₂ : run step ls₂ .start = some s₂)
    (A₁ A₂ : Allocator) (hA₁ : ∀ h, (A₁.kmalloc h).isSome) (hA₂ : ∀ h, (A₂.kmalloc h).isSome)
    (ds : List Chunk) :
    namesFrom A₁ ds 0 s₁.st = namesFrom A₂ ds 0 s₂.st ↔
      ∀ ys ∈ ownBytes ds [], 0 ∈ ys ∨ cstr s₁.st.userInput ys.length (4096 - ys.length) =
        cstr s₂.st.userInput ys.length (4096 - ys.length) := by
  have hnames : ∀ {ls : List Label} {s : State} {A : Allocator}, run step ls .start = some s →
      (∀ h, (A.kmalloc h).isSome) → namesFrom A ds 0 s.st =
        (ownBytes ds []).map fun ys => cstr (store s.st.userInput 0 ys) 0 4096 := by
    intro ls s A hs hA
    have hempty : s.st.userInput = store s.st.userInput 0 [] := by
      funext k
      exact (store_outside (.inr (Nat.zero_le k))).symm
    exact namesFrom_eq hA ds (sane_of_run hs) (show [].length ≤ 19 by decide) hempty
  rw [hnames h₁ hA₁, hnames h₂ hA₂, List.map_inj_left]
  have heach : ∀ ys ∈ ownBytes ds [],
      (cstr (store s₁.st.userInput 0 ys) 0 4096 = cstr (store s₂.st.userInput 0 ys) 0 4096 ↔
        0 ∈ ys ∨ cstr s₁.st.userInput ys.length (4096 - ys.length) =
          cstr s₂.st.userInput ys.length (4096 - ys.length)) := by
    intro ys hys
    have hlen := length_ownBytes_le ds [] ys hys
    rw [cstr_store_eq_iff (by omega), Nat.zero_add]
  exact forall₂_congr heach

/-- Another file writes "AB". -/
def writeByOther : List Label :=
  [.writeBegin (.pair 65 66), .write 0 .above, .write 0 .above, .write 0 .above]

/-- With a NUL of its own the name "N" is the same after the other write and without it. -/
theorem names_isolated_iff_terminated :
    ∃ s₁ s₂, run step loaded .start = some s₁ ∧
      run step (loaded ++ writeByOther) .start = some s₂ ∧
      namesFrom .above [⟨[78, 0], by decide⟩] 0 s₁.st =
        namesFrom .above [⟨[78, 0], by decide⟩] 0 s₂.st := by
  obtain ⟨s₁, h₁⟩ := Option.isSome_iff_exists.mp
    (show (run step loaded .start).isSome by decide +kernel)
  obtain ⟨s₂, h₂⟩ := Option.isSome_iff_exists.mp
    (show (run step (loaded ++ writeByOther) .start).isSome by decide +kernel)
  refine ⟨s₁, s₂, h₁, h₂, ?_⟩
  refine (names_isolated_iff _ _ s₁ s₂ h₁ h₂ .above .above (fun _ => rfl) (fun _ => rfl) _).mpr ?_
  intro ys hys
  obtain rfl : ys = [78, 0] := by simpa [ownBytes] using hys
  exact .inl (by decide)

/-- Without one, the "N" of the new file becomes "NB" after the other write. -/
theorem name_leaks_other_file :
    (run step loaded .start).map (fun s => namesFrom .above [⟨[78], by decide⟩] 0 s.st) =
        some [[78]] ∧
      (run step (loaded ++ writeByOther) .start).map
        (fun s => namesFrom .above [⟨[78], by decide⟩] 0 s.st) = some [[78, 66]] := by
  decide +kernel

end Eudyptula.Misc
