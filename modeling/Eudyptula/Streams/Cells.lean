import Eudyptula.Streams.Pipeline

/-! The cells that the successors allocate: each one is in one place at a time until the
consumer frees it. -/
namespace Eudyptula.Streams
open Function Kahn Runs

/-- The cells in the hands of a thread. Those that the consumer has freed stay with it. -/
def held : Local → List Cell
  | .sucPut _ _ value | .timesMul value | .timesPut value => [value]
  | .mergeSecond (some a) => [a]
  | .mergeCompare a b | .mergePutA a b | .mergePutB a b => [a, b]
  | .mergeGetA b => [b]
  | .mergeGetB a => [a]
  | .consGet _ freed => freed
  | .consPrint _ value freed => freed ++ [value]
  | .returned freed => freed
  | .oops freed => freed
  | _ => []

def Cell.key (v : Cell) : StreamId × ℕ := (v.src, v.num)

/-- How often a cell is in the hands of a thread, in a buffer or freed. -/
def places (x : Config ThreadId StreamId Cell Local) (k : StreamId × ℕ) : ℕ :=
  ∑ p, ((held (x.locals p)).map Cell.key).count k + ∑ c, ((x.queue c).map Cell.key).count k

/-- A successor has allocated the cell with this number, or it may have before it was lost. -/
def allocated : Local → ℕ → Bool
  | .sucSleep _ num, n | .sucAlloc _ num, n | .sucPut _ num _, n => n < num
  | .oops _, _ => true
  | _, _ => false

def made (x : Config ThreadId StreamId Cell Local) (k : StreamId × ℕ) : ℕ :=
  if allocated (x.locals (writer k.1)) k.2 then 1 else 0

def tally (k : StreamId × ℕ) (v : Cell) : ℤ := if v.key = k then 1 else 0

def copies (k : StreamId × ℕ) (l : List Cell) : ℤ := (l.map (tally k)).sum

@[simp]
theorem copies_nil (k : StreamId × ℕ) : copies k [] = 0 := rfl

@[simp]
theorem copies_cons (k : StreamId × ℕ) (v : Cell) (l : List Cell) :
    copies k (v :: l) = tally k v + copies k l := rfl

@[simp]
theorem copies_append (k : StreamId × ℕ) (l m : List Cell) :
    copies k (l ++ m) = copies k l + copies k m := by
  simp [copies]

theorem copies_eq_count (k : StreamId × ℕ) (l : List Cell) :
    copies k l = (l.map Cell.key).count k := by
  induction l with
  | nil => rfl
  | cons v l ih =>
    rw [copies_cons, ih, List.map_cons, List.count_cons, tally]
    simp only [beq_iff_eq]
    split_ifs <;> omega

theorem copies_nonneg (k : StreamId × ℕ) (l : List Cell) : 0 ≤ copies k l := by
  rw [copies_eq_count]
  exact Int.natCast_nonneg _

theorem tally_nonneg (k : StreamId × ℕ) (v : Cell) : 0 ≤ tally k v := by
  unfold tally
  split_ifs <;> omega

/-- A cell counts for the successor that has allocated it. -/
def mark (k : StreamId × ℕ) (p : ThreadId) (s : Local) : ℤ :=
  if writer k.1 = p ∧ allocated s k.2 then 1 else 0

def excess (k : StreamId × ℕ) (p : ThreadId) (s : Local) : ℤ := copies k (held s) - mark k p s

/-- What is lost with a thread cannot be found twice. -/
theorem excess_oops {k : StreamId × ℕ} {s : Local} {l : List Cell}
    (h : copies k l ≤ copies k (held s)) (p : ThreadId) :
    excess k p (.oops l) ≤ excess k p s := by
  have hmark : mark k p s ≤ mark k p (.oops l) := by
    unfold mark
    split_ifs with h₁ h₂
    · exact le_refl 1
    · exact absurd ⟨h₁.1, rfl⟩ h₂
    · exact Int.zero_le_ofNat 1
    · exact le_refl 0
  have hheld : held (.oops l) = l := rfl
  rw [excess, excess, hheld]
  omega

theorem excess_put {k : StreamId × ℕ} {p : ThreadId} {s : Local} {c : StreamId} {v : Cell}
    (h : act p s = .op (.put c v)) : excess k p (next p s none) + tally k v ≤ excess k p s := by
  cases s with
  | sucPut i num value =>
    obtain ⟨-, rfl⟩ := putTo_eq_put.mp h
    simp [excess, next, held, mark, allocated]
  | timesPut value =>
    obtain ⟨-, rfl⟩ := putTo_eq_put.mp h
    simp [excess, next, held, mark, allocated]
  | mergePutA a b =>
    obtain ⟨-, rfl⟩ := putTo_eq_put.mp h
    simp [excess, next, held, mark, allocated, Int.add_comm]
  | mergePutB a b =>
    obtain ⟨-, rfl⟩ := putTo_eq_put.mp h
    simp [excess, next, held, mark, allocated]
  | timesGet | mergeFirst | mergeGetA | mergeSecond | mergeGetB | consGet =>
    exact absurd h getFrom_ne_put
  | _ => simp [act] at h

/-- A `get` that fails may lose what the thread holds. -/
theorem excess_get {k : StreamId × ℕ} {p : ThreadId} {s : Local} {c : StreamId}
    (h : act p s = .op (.get c)) (r : Option Cell) :
    excess k p (next p s r) ≤ excess k p s + copies k r.toList := by
  have hr : 0 ≤ copies k r.toList := copies_nonneg k r.toList
  have hlost {l : List Cell} (hl : copies k l ≤ copies k (held s)) :
      excess k p (.oops l) ≤ excess k p s + copies k r.toList := by
    have hle := excess_oops hl p
    omega
  cases s with
  | timesGet =>
    cases r with
    | none => exact hlost (copies_nonneg k _)
    | some v => simp [excess, next, held, mark, allocated]
  | mergeFirst => cases r <;> simp [excess, next, held, mark, allocated]
  | mergeSecond a =>
    cases a with
    | none => exact hlost (copies_nonneg k _)
    | some a =>
      cases r with
      | none => exact hlost (copies_nonneg k _)
      | some b => simp [excess, next, held, mark, allocated]
  | mergeGetA b =>
    cases r with
    | none => exact hlost (copies_nonneg k _)
    | some a => simp [excess, next, held, mark, allocated, Int.add_comm]
  | mergeGetB a =>
    cases r with
    | none => exact hlost (copies_nonneg k _)
    | some b => simp [excess, next, held, mark, allocated]
  | consGet i freed =>
    cases r with
    | none => exact hlost (le_refl _)
    | some v => simp [excess, next, held, mark, allocated]
  | sucPut | timesPut | mergePutA | mergePutB => exact absurd h putTo_ne_get
  | _ => simp [act] at h

theorem excess_alloc (k : StreamId × ℕ) (p : ThreadId) (i : BitVec 32) (num : ℕ) :
    excess k p (next p (.sucAlloc i num) none) ≤ excess k p (.sucAlloc i num) := by
  cases hs : (wired.args p).self with
  | none =>
    simp only [next, hs]
    exact excess_oops (le_refl _) p
  | some s =>
    have hw : writer s = p := writer_of_self hs
    simp only [next, hs, excess, held, mark, allocated, copies_cons, copies_nil, tally, Cell.key]
    obtain ⟨src, n⟩ := k
    by_cases hk : (s, num) = (src, n)
    · cases hk
      simp [hw]
    · -- the number of another cell is below the new count if it was below the old one
      have hmono : n < num → n < num + 1 := Nat.lt_succ_of_lt
      simp only [hk, decide_eq_true_eq, if_false]
      split_ifs <;> simp_all

theorem excess_pause {k : StreamId × ℕ} {p : ThreadId} {s : Local} (h : act p s = .pause) :
    excess k p (next p s none) ≤ excess k p s := by
  cases s with
  | sucSleep i num => exact le_refl _
  | sucAlloc i num => exact excess_alloc k p i num
  | timesSleep => exact le_refl _
  | timesMul value => exact le_refl _
  | mergeCompare a b =>
    simp only [next]
    split_ifs <;> exact le_refl _
  | consPrint i value freed =>
    simp only [next]
    split_ifs <;> exact le_refl _
  | sucPut | timesPut | mergePutA | mergePutB => exact absurd h putTo_ne_pause
  | timesGet | mergeFirst | mergeGetA | mergeSecond | mergeGetB | consGet =>
    exact absurd h getFrom_ne_pause
  | returned | oops => simp [act] at h

/-- No step makes a second copy of a cell. -/
def cellWeight (k : StreamId × ℕ) : Weight network where
  held := excess k
  value := tally k
  put_le := excess_put
  get_le h v := (excess_get h (some v)).trans_eq (by simp)
  pause_le := excess_pause

theorem excess_interrupted {k : StreamId × ℕ} {p : ThreadId} {s : Local} {o : Op StreamId Cell}
    (h : act p s = .op o) : excess k p (next p s none) ≤ excess k p s := by
  cases o with
  | put c v =>
    have hle := excess_put (k := k) h
    have hv := tally_nonneg k v
    omega
  | get c => simpa using excess_get (k := k) h none

theorem excess_fail {k : StreamId × ℕ} {p : ThreadId} {s t : Local} (h : fail p s = some t) :
    excess k p t ≤ excess k p s := by
  cases s <;> simp only [fail, reduceCtorEq, Option.some.injEq] at h
  subst h
  exact excess_oops (le_refl _) p

/-- Nor does an interruption or a failed allocation. -/
theorem total_fault_le {k : StreamId × ℕ} {F : Queue} {x y : Module F} {p : ThreadId}
    (hx : InStep network x) (h : FineMove network F call fail x (.fault p) y) :
    (cellWeight k).total (abstract y) ≤ (cellWeight k).total (abstract x) := by
  have hlocals : ∀ s, excess k p s ≤ excess k p (x.locals p) →
      (cellWeight k).total ⟨update x.locals p s, (abstract x).queue⟩ ≤
        (cellWeight k).total (abstract x) := by
    intro s hs
    have hsum := sum_update_eq (excess k) x.locals p s
    simp only [Weight.total, cellWeight, abstract]
    omega
  cases h with
  | fail hc hf => exact hlocals _ (excess_fail hf)
  | interrupted hc hs =>
    obtain ⟨o, ho⟩ := hx.act_of_down hc
    exact hlocals _ (excess_interrupted ho)

theorem sum_mark (x : Config ThreadId StreamId Cell Local) (k : StreamId × ℕ) :
    ∑ p, mark k p (x.locals p) = made x k := by
  have hmark : ∀ p, mark k p (x.locals p) = if writer k.1 = p then (made x k : ℤ) else 0 := by
    intro p
    unfold mark made
    by_cases hp : writer k.1 = p
    · subst hp
      simp only [true_and, if_true]
      split_ifs <;> rfl
    · simp [hp]
  simp only [hmark, Finset.sum_ite_eq, Finset.mem_univ, if_true]

theorem total_cellWeight (x : Config ThreadId StreamId Cell Local) (k : StreamId × ℕ) :
    (cellWeight k).total x = places x k - made x k := by
  have hheld : ∑ p, excess k p (x.locals p) = ∑ p, copies k (held (x.locals p)) - made x k := by
    rw [← sum_mark, ← Finset.sum_sub_distrib]
    rfl
  have hqueued : ∀ c, (cellWeight k).queued (x.queue c) = copies k (x.queue c) := fun _ => rfl
  have htotal : (cellWeight k).total x =
      ∑ p, excess k p (x.locals p) + ∑ c, (cellWeight k).queued (x.queue c) := rfl
  rw [htotal, hheld]
  simp only [hqueued, copies_eq_count, places, Nat.cast_add, Nat.cast_sum]
  omega

theorem made_le_one (x : Config ThreadId StreamId Cell Local) (k : StreamId × ℕ) :
    made x k ≤ 1 := by
  unfold made
  split_ifs <;> omega

theorem total_initial (k : StreamId × ℕ) : (cellWeight k).total initial = 0 := by
  have hheld : ∀ p, held (initial.locals p) = [] := by decide
  have hmade : allocated (initial.locals (writer k.1)) k.2 = false := by
    obtain ⟨src, n⟩ := k
    cases src <;> simp [initial, entry, writer, allocated]
  have hqueue : ∀ c, initial.queue c = [] := fun _ => rfl
  simp [total_cellWeight, places, made, hheld, hqueue, hmade]

/-- Whatever is interrupted, no cell is in two places: none is freed twice, and none is used
after it was freed. -/
theorem cells_in_one_place (F : Queue) (es : List (Label ThreadId)) :
    Always (threadStep F) (fun x => ∀ k, places (abstract x) k ≤ 1) es (start F) := by
  have hinv : Always (threadStep F) (fun x => Bounded network F x ∧
      ∀ k, (cellWeight k).total (abstract x) ≤ 0) es (start F) := by
    have htotal : ∀ k, (cellWeight k).total (abstract (start F)) ≤ 0 := fun k => by
      rw [abstract_start, total_initial]
    refine always_of_step ?_ es ⟨start_exact.bounded, htotal⟩
    rintro l x y ⟨hx, htotal⟩ h
    have hmove := fineStep_move h
    refine ⟨hx.move hmove, fun k => ?_⟩
    cases l with
    | step p =>
      obtain ⟨ds, hds, -⟩ := hx.refines hmove
      exact (Weight.run_le hds).trans (htotal k)
    | fault p => exact (total_fault_le hx.inStep hmove).trans (htotal k)
  refine hinv.mono fun x hx k => ?_
  have htotal := hx.2 k
  have hmade := made_le_one (abstract x) k
  rw [total_cellWeight] at htotal
  omega

/-- The threads as they are left: one successor is blocked after 23 cells, the other after 18. -/
theorem final_locals :
    final.locals .suc1 = .sucPut 23 23 ⟨.suc1, 22, 23⟩ ∧
      final.locals .suc2 = .sucPut 18 18 ⟨.suc2, 17, 18⟩ ∧
      final.locals .tms1 = .timesPut ⟨.suc1, 16, 51⟩ ∧
      final.locals .tms2 = .timesPut ⟨.suc2, 11, 60⟩ ∧
      final.locals .mrg = .mergePutA ⟨.suc2, 5, 30⟩ ⟨.suc1, 10, 33⟩ := by
  decide +kernel

theorem final_cells :
    (∀ n < 23, 1 ≤ places final (.suc1, n)) ∧ ∀ n < 18, 1 ≤ places final (.suc2, n) := by
  decide +kernel

def cellCount : StreamId → ℕ
  | .suc1 => 23
  | .suc2 => 18
  | _ => 0

theorem final_allocated (src : StreamId) (n : ℕ) :
    allocated (final.locals (writer src)) n = true ↔ n < cellCount src := by
  obtain ⟨h₁, h₂, h₃, h₄, h₅⟩ := final_locals
  cases src <;> simp [writer, allocated, cellCount, *]

theorem total_final (k : StreamId × ℕ) : 0 ≤ (cellWeight k).total final := by
  simp only [total_cellWeight, made, final_allocated]
  obtain ⟨h₁, h₂⟩ := final_cells
  obtain ⟨src, n⟩ := k
  split_ifs with hn
  · cases src with
    | suc1 =>
      have hle := h₁ n hn
      omega
    | suc2 =>
      have hle := h₂ n hn
      omega
    | _ => simp [cellCount] at hn
  · omega

def IsOops (s : Local) : Prop := ∃ l, s = .oops l

theorem isOops_next (p : ThreadId) (s : Local) (r : Option Cell) (h : IsOops s) :
    IsOops (next p s r) := by
  obtain ⟨l, rfl⟩ := h
  exact ⟨l, rfl⟩

theorem final_not_isOops (p : ThreadId) : ¬ IsOops (final.locals p) := by
  obtain ⟨h₁, h₂, h₃, h₄, h₅⟩ := final_locals
  have h₆ := final_returned.1
  rintro ⟨l, hl⟩
  cases p <;> simp_all

theorem not_isOops {es : List ThreadId} {F : Queue} {y : Module F}
    (h : run (smoothStep network F) es (start F) = some y) (p : ThreadId) :
    ¬ IsOops (y.locals p) := by
  obtain ⟨rest, hrest⟩ := smooth_completes h
  intro hp
  exact final_not_isOops p (run_locals (R := fun s t => IsOops s → IsOops t) (fun _ => id)
    (fun hst htu => htu ∘ hst) (fun s r => isOops_next p s r) hrest hp)

theorem places_eq_made {es : List ThreadId} {F : Queue} {y : Module F}
    (h : run (smoothStep network F) es (start F) = some y) (k : StreamId × ℕ) :
    places (abstract y) k = made (abstract y) k := by
  obtain ⟨rest, hrest⟩ := smooth_completes h
  obtain ⟨-, ds, hds, -⟩ := start_exact.run h
  -- the total can only fall, and is 0 at both ends
  have hstart : (cellWeight k).total (abstract y) ≤ (cellWeight k).total (abstract (start F)) :=
    Weight.run_le hds
  have hfinal : (cellWeight k).total final ≤ (cellWeight k).total (abstract y) :=
    Weight.run_le hrest
  have hzero := total_final k
  have htotal := total_cellWeight (abstract y) k
  rw [abstract_start, total_initial] at hstart
  omega

/-- Without interruptions no thread reads `NULL`, and every cell that was allocated is in one
place. -/
theorem cells_accounted (F : Queue) (es : List ThreadId) (y : Module F)
    (h : run (smoothStep network F) es (start F) = some y) :
    (∀ p, ¬ IsOops (y.locals p)) ∧ ∀ k, places (abstract y) k = made (abstract y) k :=
  ⟨not_isOops h, places_eq_made h⟩

theorem cells_accounted_firstNumber :
    ∃ y : Module (.list Cell _), printed y = [3] ∧ (∀ p, ¬ IsOops (y.locals p)) ∧
      places (abstract y) (.suc1, 0) = made (abstract y) (.suc1, 0) := by
  obtain ⟨y, hy, hprinted⟩ := run_firstNumber
  obtain ⟨hoops, hplaces⟩ := cells_accounted _ firstNumber y hy
  exact ⟨y, hprinted, hoops, hplaces (.suc1, 0)⟩

end Eudyptula.Streams
