import Eudyptula.Streams.Cells

/-! The numbers in the cells. No `int` of the module wraps around: what a buffer holds and what
is printed are the multiples themselves. -/
namespace Eudyptula.Streams
open Function Kahn Runs

/-- What `times` makes of the cells of a successor. -/
def scale (src : StreamId) : ℕ := (factor (reader src)).toNat

def Multiple (m : ℕ) (v : Cell) : Prop := v.value = BitVec.ofNat 32 (m * (v.num + 1))

/-- A cell as a successor has written it. -/
def Raw (c : StreamId) (v : Cell) : Prop := v.src = c ∧ Multiple 1 v

def Scaled (v : Cell) : Prop := Multiple (scale v.src) v

def InBuffer (c : StreamId) (v : Cell) : Prop :=
  match c with
  | .suc1 | .suc2 => Raw c v
  | .tms1 | .tms2 | .mrg => Scaled v

/-- The threads whose function has this state. -/
def role : Local → List ThreadId
  | .sucSleep _ _ | .sucAlloc _ _ | .sucPut _ _ _ => [.suc1, .suc2]
  | .timesSleep | .timesGet | .timesMul _ | .timesPut _ => [.tms1, .tms2]
  | .mergeFirst | .mergeSecond _ | .mergeCompare _ _ | .mergePutA _ _ | .mergePutB _ _
  | .mergeGetA _ | .mergeGetB _ => [.mrg]
  | .consGet _ _ | .consPrint _ _ _ | .returned _ => [.cons]
  | .oops _ => [.suc1, .suc2, .tms1, .tms2, .mrg, .cons]

def Numbers (p : ThreadId) : Local → Prop
  | .sucSleep i num | .sucAlloc i num => i = BitVec.ofNat 32 (num + 1)
  | .sucPut i num value => i = BitVec.ofNat 32 num ∧ ∀ s ∈ (wired.args p).self, Raw s value
  | .timesMul value => ∀ s ∈ (wired.args p).prod, Raw s value
  | s => ∀ v ∈ held s, Scaled v

def InHand (p : ThreadId) (s : Local) : Prop := p ∈ role s ∧ Numbers p s

theorem inHand_oops {p : ThreadId} {l : List Cell} (hl : ∀ v ∈ l, Scaled v) :
    InHand p (.oops l) := by
  refine ⟨?_, hl⟩
  cases p <;> simp [role]

theorem inBuffer_raw {p : ThreadId} {c : StreamId} {v : Cell} (hp : p ∈ [.suc1, .suc2])
    (hc : (wired.args p).self = some c) (hv : Raw c v) : InBuffer c v := by
  cases p <;> cases hc <;> first | exact hv | simp at hp

theorem inBuffer_scaled {p : ThreadId} {c : StreamId} {v : Cell}
    (hp : p ∈ [.tms1, .tms2] ∨ p ∈ [.mrg]) (hc : (wired.args p).self = some c)
    (hv : Scaled v) : InBuffer c v := by
  cases p <;> cases hc <;> first | exact hv | simp at hp

theorem raw_of_inBuffer {p : ThreadId} {c : StreamId} {v : Cell} (hp : p ∈ [.tms1, .tms2])
    (hc : (wired.args p).prod = some c) (hv : InBuffer c v) : Raw c v := by
  cases p <;> cases hc <;> first | exact hv | simp at hp

theorem scaled_of_inBuffer {p : ThreadId} {c : StreamId} {v : Cell} (hp : p ∈ [.mrg, .cons])
    (hc : reader c = p) (hv : InBuffer c v) : Scaled v := by
  subst hc
  cases c <;> first | exact hv | simp [reader] at hp

theorem inHand_put {p : ThreadId} {s : Local} {c : StreamId} {v : Cell}
    (h : act p s = .op (.put c v)) (hs : InHand p s) :
    InBuffer c v ∧ InHand p (next p s none) := by
  obtain ⟨hrole, hnum⟩ := hs
  cases s with
  | sucPut i num value =>
    obtain ⟨hself, rfl⟩ := putTo_eq_put.mp h
    obtain ⟨hi, hraw⟩ := hnum
    refine ⟨inBuffer_raw hrole hself (hraw c hself), hrole, ?_⟩
    simp only [next, Numbers, hi, BitVec.ofNat_add]
    rfl
  | timesPut value =>
    obtain ⟨hself, rfl⟩ := putTo_eq_put.mp h
    refine ⟨inBuffer_scaled (Or.inl hrole) hself (hnum value (by simp [held])), hrole, ?_⟩
    simp [next, Numbers, held]
  | mergePutA a b =>
    obtain ⟨hself, rfl⟩ := putTo_eq_put.mp h
    refine ⟨inBuffer_scaled (Or.inr hrole) hself (hnum a (by simp [held])), hrole, ?_⟩
    exact fun v hv => hnum v (by simp_all [held, next])
  | mergePutB a b =>
    obtain ⟨hself, rfl⟩ := putTo_eq_put.mp h
    refine ⟨inBuffer_scaled (Or.inr hrole) hself (hnum b (by simp [held])), hrole, ?_⟩
    exact fun v hv => hnum v (by simp_all [held, next])
  | timesGet | mergeFirst | mergeGetA | mergeSecond | mergeGetB | consGet =>
    exact absurd h getFrom_ne_put
  | _ => simp [act] at h

theorem inHand_get {p : ThreadId} {s : Local} {c : StreamId} {v : Cell}
    (h : act p s = .op (.get c)) (hs : InHand p s) (hv : InBuffer c v) :
    InHand p (next p s (some v)) := by
  have hreader : reader c = p := act_get h
  obtain ⟨hrole, hnum⟩ := hs
  cases s with
  | timesGet =>
    have hprod := getFrom_eq_get.mp h
    refine ⟨hrole, fun s hs => ?_⟩
    rw [hprod, Option.mem_def, Option.some.injEq] at hs
    exact hs ▸ raw_of_inBuffer hrole hprod hv
  | mergeFirst | mergeGetA | mergeGetB =>
    have hscaled : Scaled v := scaled_of_inBuffer (by simp_all [role]) hreader hv
    refine ⟨hrole, ?_⟩
    simp_all [Numbers, next, held]
  | consGet i freed =>
    have hscaled : Scaled v := scaled_of_inBuffer (by simp_all [role]) hreader hv
    exact ⟨hrole, List.forall_mem_append.mpr ⟨hnum, by simpa using hscaled⟩⟩
  | mergeSecond a =>
    have hscaled : Scaled v := scaled_of_inBuffer (by simp_all [role]) hreader hv
    cases a with
    | none => exact inHand_oops (by simp)
    | some a =>
      refine ⟨hrole, ?_⟩
      simp_all [Numbers, next, held]
  | sucPut | timesPut | mergePutA | mergePutB => exact absurd h putTo_ne_get
  | _ => simp [act] at h

theorem inHand_alloc {p : ThreadId} {i : BitVec 32} {num : ℕ} (hp : p ∈ [.suc1, .suc2])
    (hi : i = BitVec.ofNat 32 (num + 1)) : InHand p (next p (.sucAlloc i num) none) := by
  cases hs : (wired.args p).self with
  | none =>
    simp only [next, hs]
    exact inHand_oops (by simp)
  | some c =>
    simp only [next, hs]
    refine ⟨hp, hi, fun s hsc => ?_⟩
    rw [hs, Option.mem_def, Option.some.injEq] at hsc
    exact ⟨hsc, by rw [Multiple, Nat.one_mul, hi]⟩

theorem scaled_mul {p : ThreadId} {value : Cell} (hp : p ∈ [.tms1, .tms2])
    (hraw : ∀ s ∈ (wired.args p).prod, Raw s value) :
    Scaled { value with value := value.value * factor p } := by
  have hsrc : reader value.src = p ∧ Multiple 1 value := by
    cases hs : (wired.args p).prod with
    | none => cases p <;> simp_all <;> cases hs
    | some c =>
      obtain ⟨rfl, hval⟩ := hraw c hs
      exact ⟨reader_of_prod hs, hval⟩
  have hmul : BitVec.ofNat 32 ((factor p).toNat) = factor p := by simp
  simp only [Scaled, Multiple, scale, hsrc.1, BitVec.ofNat_mul, hmul]
  rw [hsrc.2, Nat.one_mul, BitVec.mul_comm]

theorem inHand_pause {p : ThreadId} {s : Local} (h : act p s = .pause) (hs : InHand p s) :
    InHand p (next p s none) := by
  obtain ⟨hrole, hnum⟩ := hs
  cases s with
  | sucSleep i num => exact ⟨hrole, hnum⟩
  | sucAlloc i num => exact inHand_alloc hrole hnum
  | timesSleep => exact ⟨hrole, hnum⟩
  | timesMul value => exact ⟨hrole, by simpa [Numbers, next, held] using scaled_mul hrole hnum⟩
  | mergeCompare a b =>
    simp only [next]
    split_ifs <;> exact ⟨hrole, hnum⟩
  | consPrint i value freed =>
    simp only [next]
    split_ifs <;> exact ⟨hrole, hnum⟩
  | sucPut | timesPut | mergePutA | mergePutB => exact absurd h putTo_ne_pause
  | timesGet | mergeFirst | mergeGetA | mergeSecond | mergeGetB | consGet =>
    exact absurd h getFrom_ne_pause
  | returned | oops => simp [act] at h

def numbers : Typing network where
  inQueue := InBuffer
  inState := InHand
  put := inHand_put
  get := inHand_get
  pause := inHand_pause

theorem numbers_initial : numbers.Holds initial where
  locals p := by cases p <;> simp [numbers, InHand, role, Numbers, initial, entry, held]
  queue c v hv := by cases hv

theorem allocated_next (p : ThreadId) (s : Local) (r : Option Cell) (n : ℕ)
    (h : allocated s n = true) : allocated (next p s r) n = true := by
  cases s with
  | sucSleep | sucPut | oops => exact h
  | sucAlloc i num =>
    simp only [next]
    split
    · simp only [allocated, decide_eq_true_eq] at h ⊢
      omega
    · rfl
  | _ => simp [allocated] at h

/-- The successors are held up by the buffers before their counters get large. -/
theorem num_lt {F : Queue} {es : List ThreadId} {y : Module F}
    (h : run (smoothStep network F) es (start F) = some y) {v : Cell}
    (hv : 1 ≤ places (abstract y) v.key) : v.num < cellCount v.src := by
  obtain ⟨rest, hrest⟩ := smooth_completes h
  have hmade := places_eq_made h v.key
  have halloc : allocated (y.locals (writer v.src)) v.num = true := by
    by_contra hnot
    have hzero : made (abstract y) v.key = 0 := by
      rw [made, if_neg]
      exact hnot
    omega
  have hfinal : allocated (final.locals (writer v.src)) v.num = true :=
    run_locals (R := fun s t => allocated s v.num = true → allocated t v.num = true)
      (fun _ => id) (fun hst htu => htu ∘ hst) (fun s r => allocated_next _ s r v.num) hrest halloc
  exact (final_allocated v.src v.num).mp hfinal

theorem places_of_queue {x : Config ThreadId StreamId Cell Local} {c : StreamId} {v : Cell}
    (h : v ∈ x.queue c) : 1 ≤ places x v.key := by
  have hpos : 0 < ((x.queue c).map Cell.key).count v.key :=
    List.count_pos_iff.mpr (List.mem_map_of_mem h)
  have hle : ((x.queue c).map Cell.key).count v.key ≤
      ∑ d, ((x.queue d).map Cell.key).count v.key :=
    Finset.single_le_sum (f := fun d => ((x.queue d).map Cell.key).count v.key)
      (fun _ _ => Nat.zero_le _) (Finset.mem_univ c)
  unfold places
  omega

theorem places_of_held {x : Config ThreadId StreamId Cell Local} {p : ThreadId} {v : Cell}
    (h : v ∈ held (x.locals p)) : 1 ≤ places x v.key := by
  have hpos : 0 < ((held (x.locals p)).map Cell.key).count v.key :=
    List.count_pos_iff.mpr (List.mem_map_of_mem h)
  have hle : ((held (x.locals p)).map Cell.key).count v.key ≤
      ∑ q, ((held (x.locals q)).map Cell.key).count v.key :=
    Finset.single_le_sum (f := fun q => ((held (x.locals q)).map Cell.key).count v.key)
      (fun _ _ => Nat.zero_le _) (Finset.mem_univ p)
  unfold places
  omega

theorem toInt_multiple {m : ℕ} {v : Cell} (hm : m ≤ 5) (hnum : v.num < cellCount v.src)
    (hv : Multiple m v) : v.value.toInt = m * (v.num + 1) := by
  have hcount : cellCount v.src ≤ 23 := by cases v.src <;> decide
  have hprod : m * (v.num + 1) ≤ 5 * 23 := Nat.mul_le_mul hm (by omega)
  rw [hv, BitVec.toInt_eq_toNat_of_lt] <;> rw [BitVec.toNat_ofNat, Nat.mod_eq_of_lt (by omega)]
  · push_cast
    rfl
  · omega

theorem mem_held_of_freed {s : Local} {v : Cell} (h : v ∈ freed s) : v ∈ held s := by
  cases s with
  | consGet | returned | oops => exact h
  | consPrint => exact List.mem_append_left _ h
  | _ => cases h

theorem scaled_of_freed {p : ThreadId} {s : Local} {v : Cell} (hs : InHand p s)
    (hv : v ∈ freed s) : Scaled v := by
  have hheld := mem_held_of_freed hv
  cases s with
  | consGet | consPrint | returned | oops => exact hs.2 v hheld
  | _ => cases hv

/-- What is in the buffers and what was printed are the exact multiples. -/
theorem values_exact (F : Queue) (es : List ThreadId) (y : Module F)
    (h : run (smoothStep network F) es (start F) = some y) :
    (∀ c, ∀ v ∈ F.contents (y.shared.queue c),
      v.value.toInt = (if c ∈ [.suc1, .suc2] then 1 else scale v.src) * (v.num + 1)) ∧
    ∀ v ∈ freed (y.locals .cons), v.value.toInt = scale v.src * (v.num + 1) := by
  obtain ⟨-, ds, hds, -⟩ := start_exact.run h
  rw [abstract_start] at hds
  have hnumbers := numbers_initial.run hds
  have hscale : ∀ src, scale src ≤ 5 := by decide
  constructor
  · intro c v hv
    have hnum := num_lt h (places_of_queue (x := abstract y) hv)
    have hin : InBuffer c v := hnumbers.queue c v hv
    cases c with
    | suc1 | suc2 => exact toInt_multiple (m := 1) (by decide) hnum hin.2
    | tms1 | tms2 | mrg => exact toInt_multiple (hscale v.src) hnum hin
  · intro v hv
    have hnum := num_lt h (places_of_held (x := abstract y) (mem_held_of_freed hv))
    exact toInt_multiple (hscale v.src) hnum (scaled_of_freed (hnumbers.locals .cons) hv)

theorem values_exact_firstNumber :
    ∃ y : Module (.list Cell _), printed y = [3] ∧
      ∀ v ∈ freed (y.locals .cons), v.value.toInt = scale v.src * (v.num + 1) := by
  obtain ⟨y, hy, hprinted⟩ := run_firstNumber
  exact ⟨y, hprinted, (values_exact _ firstNumber y hy).2⟩

example : scale .suc1 = 3 ∧ scale .suc2 = 5 := by decide

end Eudyptula.Streams
