import Mathlib.Data.List.Forall2
import Eudyptula.Lib.CMem
import Eudyptula.Lib.TextSearch

/-! The packet hook of Task_19 with the text search interface it calls. The loop starts its
search with `skb_find_text` and goes on with `textsearch_next`, each with a state of its own. -/
namespace Eudyptula.Netfilter
open TextSearch

def UINT_MAX : UInt32 := 0xFFFFFFFF
def NF_ACCEPT : ℕ := 1

/-- `textsearch_prepare` takes no empty pattern. -/
structure TsConfig where
  pattern : List UInt8
  nonempty : pattern ≠ []

theorem TsConfig.length_pos (cf : TsConfig) : 0 < cf.pattern.length :=
  List.length_pos_iff.mpr cf.nonempty

/-- The configuration made by `init`, for "Nishad". -/
def conf : TsConfig := ⟨[78, 105, 115, 104, 97, 100], by decide⟩

/-- `len` of a `struct sk_buff` is an `unsigned int`. -/
structure SkBuff where
  data : List UInt8
  len_lt : data.length < 2 ^ 32

/-- A search that has been started, and where it goes on. -/
structure Search where
  skb : SkBuff
  offset : ℕ

/-- `struct ts_state`; `none` is one that is all zero. -/
abbrev TsState := Option Search

/-- `find` of the algorithm: past a match the search goes on behind it. -/
def find (conf : TsConfig) (st : Search) : UInt32 × TsState :=
  match firstFrom conf.pattern st.skb.data st.offset with
  | some k => (.ofNat k, some { st with offset := k + conf.pattern.length })
  | none => (UINT_MAX, some st)

def textsearchFind (conf : TsConfig) (skb : SkBuff) : UInt32 × TsState := find conf ⟨skb, 0⟩

def textsearchNext (conf : TsConfig) : TsState → UInt32 × TsState
  | none => (UINT_MAX, none)
  | some st => find conf st

/-- The state of this search is a local variable of the callee. -/
def skbFindText (skb : SkBuff) (conf : TsConfig) : UInt32 := (textsearchFind conf skb).1

/-- The loop, with the positions it reports, entered with `pos`. -/
def scan (conf : TsConfig) : ℕ → UInt32 → TsState → Option (List UInt32 × TsState)
  | 0, _, _ => none
  | fuel + 1, pos, eustate =>
    if pos = UINT_MAX then some ([], eustate)
    else
      let (next, eustate) := textsearchNext conf eustate
      (scan conf fuel next eustate).map fun (ps, eustate) => (pos :: ps, eustate)

/-- What the hook prints about a packet, and its verdict. -/
structure Report where
  positions : List UInt32
  length : ℕ
  verdict : ℕ
deriving DecidableEq

def eudyptulaHook (fuel : ℕ) (skb : SkBuff) (eustate : TsState) : Option (Report × TsState) :=
  (scan conf fuel (skbFindText skb conf) eustate).map fun (ps, eustate) =>
    (⟨ps, skb.data.length, NF_ACCEPT⟩, eustate)

/-- The packets one after another; `eustate` is a static variable. -/
def hookAll (fuel : ℕ) : List SkBuff → TsState → Option (List Report × TsState)
  | [], eustate => some ([], eustate)
  | skb :: skbs, eustate => do
    let (r, eustate) ← eudyptulaHook fuel skb eustate
    let (rs, eustate) ← hookAll fuel skbs eustate
    return (r :: rs, eustate)

/-- `ps` are the offsets of all occurrences from `off` on, in increasing order. -/
structure Exact (conf : TsConfig) (skb : SkBuff) (off : ℕ) (ps : List UInt32) : Prop where
  increasing : ps.Pairwise (· < ·)
  all : ∀ i, i ∈ ps.map UInt32.toNat ↔ off ≤ i ∧ OccursAt conf.pattern skb.data i

def AtMostOnce (conf : TsConfig) (skb : SkBuff) : Prop :=
  ∀ i j, OccursAt conf.pattern skb.data i → OccursAt conf.pattern skb.data j → i = j

section
variable {cf : TsConfig} {skb : SkBuff} {i k : ℕ}

/-- No offset of an occurrence is taken for the end of the search. -/
theorem occurrence_lt (h : OccursAt cf.pattern skb.data i) : i < 2 ^ 32 - 1 := by
  have hle := h.add_length_le cf.nonempty
  have hpos := cf.length_pos
  have hlen := skb.len_lt
  omega

theorem toNat_occurrence (h : OccursAt cf.pattern skb.data i) : (UInt32.ofNat i).toNat = i := by
  have hlt := occurrence_lt h
  exact UInt32.toNat_ofNat_of_lt' (Nat.lt_of_lt_of_le hlt (Nat.sub_le _ _))

theorem occurrence_ne (h : OccursAt cf.pattern skb.data i) : UInt32.ofNat i ≠ UINT_MAX := by
  intro heq
  have hnat := congrArg UInt32.toNat heq
  rw [toNat_occurrence h] at hnat
  have hlt := occurrence_lt h
  have hmax : UINT_MAX.toNat = 2 ^ 32 - 1 := rfl
  omega

/-- One more occurrence in front. -/
theorem Exact.cons (hborder : Borderless cf.pattern) {off : ℕ} {ps : List UInt32}
    (h : Exact cf skb (k + cf.pattern.length) ps) (hle : off ≤ k)
    (hat : OccursAt cf.pattern skb.data k)
    (hbefore : ∀ j, off ≤ j → j < k → ¬ OccursAt cf.pattern skb.data j) :
    Exact cf skb off (.ofNat k :: ps) := by
  have hk := toNat_occurrence hat
  constructor
  · refine List.pairwise_cons.mpr ⟨fun p hp => ?_, h.increasing⟩
    obtain ⟨hpast, -⟩ := (h.all p.toNat).mp (List.mem_map_of_mem hp)
    have hpos := cf.length_pos
    rw [UInt32.lt_iff_toNat_lt, hk]
    omega
  · intro i
    rw [List.map_cons, List.mem_cons, hk, h.all i]
    constructor
    · rintro (rfl | ⟨hpast, hi⟩)
      · exact ⟨hle, hat⟩
      · exact ⟨by omega, hi⟩
    · rintro ⟨hoff, hi⟩
      rcases Nat.lt_trichotomy i k with hlt | heq | hgt
      · exact (hbefore i hoff hlt hi).elim
      · exact .inl heq
      · exact .inr ⟨hat.apart hborder hi hgt, hi⟩

theorem find_some {off : ℕ} (h : firstFrom cf.pattern skb.data off = some k) :
    find cf ⟨skb, off⟩ = (.ofNat k, some ⟨skb, k + cf.pattern.length⟩) := by
  simp only [find, h]

theorem find_none {off : ℕ} (h : firstFrom cf.pattern skb.data off = none) :
    find cf ⟨skb, off⟩ = (UINT_MAX, some ⟨skb, off⟩) := by
  simp only [find, h]

theorem scan_end (cf : TsConfig) (fuel : ℕ) (st : TsState) :
    scan cf (fuel + 1) UINT_MAX st = some ([], st) := if_pos rfl

theorem scan_match {pos : UInt32} (hpos : pos ≠ UINT_MAX) (cf : TsConfig) (fuel : ℕ)
    (st : TsState) :
    scan cf (fuel + 1) pos st =
      (scan cf fuel (textsearchNext cf st).1 (textsearchNext cf st).2).map
        fun (ps, st) => (pos :: ps, st) := if_neg hpos

/-- The loop on the state of its own search ends and misses nothing. -/
theorem scan_find_exact (hborder : Borderless cf.pattern) (skb : SkBuff) (off : ℕ) :
    ∃ ps n, Exact cf skb off ps ∧ ∀ fuel,
      (scan cf (fuel + n) (find cf ⟨skb, off⟩).1 (find cf ⟨skb, off⟩).2).map
        Prod.fst = some ps := by
  -- each match moves the offset on
  induction hrest : skb.data.length - off using Nat.strong_induction_on generalizing off with
  | _ rest ih =>
    cases hfirst : firstFrom cf.pattern skb.data off with
    | none =>
      refine ⟨[], 1, ⟨.nil, fun i => ?_⟩, fun fuel => ?_⟩
      · refine iff_of_false List.not_mem_nil fun hi => ?_
        exact firstFrom_none hfirst hi.1 hi.2
      · rw [find_none hfirst, scan_end]
        rfl
    | some k =>
      obtain ⟨hle, hat, hbefore⟩ := firstFrom_some hfirst
      have hfits := hat.add_length_le cf.nonempty
      have hpos := cf.length_pos
      obtain ⟨ps, n, hps, hscan⟩ := ih _ (by omega) (k + cf.pattern.length) rfl
      refine ⟨.ofNat k :: ps, n + 1, hps.cons hborder hle hat hbefore, fun fuel => ?_⟩
      obtain ⟨r, hr, rfl⟩ := Option.map_eq_some_iff.mp (hscan fuel)
      rw [find_some hfirst, ← Nat.add_assoc, scan_match (occurrence_ne hat), textsearchNext, hr]
      rfl

/-- With the state of the search in the place of `eustate` the same loop is exact. -/
theorem scan_textsearchFind_exact (skb : SkBuff) :
    ∃ ps n, Exact conf skb 0 ps ∧ ∀ fuel,
      (scan conf (fuel + n) (textsearchFind conf skb).1 (textsearchFind conf skb).2).map
        Prod.fst = some ps :=
  scan_find_exact (by decide) skb 0

/-- The report with the first match alone. -/
def firstReport (skb : SkBuff) : Report where
  positions := ((firstFrom conf.pattern skb.data 0).map UInt32.ofNat).toList
  length := skb.data.length
  verdict := NF_ACCEPT

/-- No search is ever recorded in `eustate`, so the loop ends after the first match. -/
theorem hook_zero (fuel : ℕ) (skb : SkBuff) :
    eudyptulaHook (fuel + 2) skb none = some (firstReport skb, none) := by
  unfold eudyptulaHook skbFindText textsearchFind
  cases hfirst : firstFrom conf.pattern skb.data 0 with
  | none =>
    rw [find_none hfirst, scan_end, firstReport, hfirst]
    rfl
  | some k =>
    have hne := occurrence_ne (firstFrom_some hfirst).2.1
    rw [find_some hfirst, scan_match hne, textsearchNext, scan_end, firstReport, hfirst]
    rfl

/-- The first match alone is all there is when no other follows. -/
theorem exact_firstReport_iff (skb : SkBuff) :
    Exact conf skb 0 (firstReport skb).positions ↔ AtMostOnce conf skb := by
  unfold firstReport
  cases hfirst : firstFrom conf.pattern skb.data 0 with
  | none =>
    have hno : ∀ i, ¬ OccursAt conf.pattern skb.data i := fun i => firstFrom_none hfirst i.zero_le
    refine iff_of_true ⟨.nil, fun i => ?_⟩ fun i _ hi => (hno i hi).elim
    exact iff_of_false List.not_mem_nil fun hi => hno i hi.2
  | some k =>
    have hat := (firstFrom_some hfirst).2.1
    have hmem : ∀ i, i ∈ [UInt32.ofNat k].map UInt32.toNat ↔ i = k := by
      intro i
      rw [List.map_singleton, toNat_occurrence hat, List.mem_singleton]
    constructor
    · intro h i j hi hj
      have hik := (hmem i).mp ((h.all i).mpr ⟨i.zero_le, hi⟩)
      have hjk := (hmem j).mp ((h.all j).mpr ⟨j.zero_le, hj⟩)
      rw [hik, hjk]
    · intro h
      refine ⟨List.pairwise_singleton _ _, fun i => (hmem i).trans ?_⟩
      constructor
      · rintro rfl
        exact ⟨Nat.zero_le _, hat⟩
      · exact fun hi => h i k hi.2 hat

/-- The state is zero again for the next packet, whatever this one was. -/
theorem hookAll_zero (fuel : ℕ) (skbs : List SkBuff) :
    hookAll (fuel + 2) skbs none = some (skbs.map firstReport, none) := by
  induction skbs with
  | nil => rfl
  | cons skb skbs ih =>
    rw [hookAll, hook_zero]
    simp only [Option.bind_eq_bind, Option.bind_some, ih]
    rfl

end

/-- For every sequence of packets the loops end, and the report on a packet is exact when the
text is not in it twice, and only then. -/
theorem hook_exact_iff (skbs : List SkBuff) :
    ∃ rs, (∀ fuel, hookAll (fuel + 2) skbs none = some (rs, none)) ∧
      List.Forall₂ (fun skb r => Exact conf skb 0 r.positions ↔ AtMostOnce conf skb) skbs rs := by
  refine ⟨skbs.map firstReport, fun fuel => hookAll_zero fuel skbs, ?_⟩
  rw [List.forall₂_map_right_iff, List.forall₂_same]
  exact fun skb _ => exact_firstReport_iff skb

/-- "NishadNishad": only the first of the two is reported. -/
theorem hook_misses_second :
    (eudyptulaHook 2 ⟨conf.pattern ++ conf.pattern, by decide⟩ none).map
        (fun r => r.1.positions) = some [0] ∧
      OccursAt conf.pattern (conf.pattern ++ conf.pattern) 0 ∧
      OccursAt conf.pattern (conf.pattern ++ conf.pattern) 6 ∧
      ¬ Exact conf ⟨conf.pattern ++ conf.pattern, by decide⟩ 0 [0] := by
  have hsecond : OccursAt conf.pattern (conf.pattern ++ conf.pattern) 6 := by decide
  refine ⟨by decide, by decide, hsecond, fun h => ?_⟩
  have hreported := (h.all 6).mpr ⟨Nat.zero_le 6, hsecond⟩
  exact absurd hreported (by decide)

end Eudyptula.Netfilter
