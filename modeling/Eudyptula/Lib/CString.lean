import Eudyptula.Lib.CMem

/-! Reading C strings out of byte storage that is overwritten in parts: how far a string goes,
what it depends on, and what `strncpy` leaves of the text before. -/
namespace CMem

/-- The string that starts at `off`, when it is terminated within `n` bytes. -/
def terminated (m : Bytes) (off n : ℕ) : Option (List UInt8) :=
  if (cstr m off n).length < n then some (cstr m off n) else none

theorem getD_ne_zero {xs : List UInt8} (h : 0 ∉ xs) {k : ℕ} (hk : k < xs.length) :
    xs.getD k 0 ≠ 0 := by
  rw [List.getD_eq_getElem _ _ hk]
  exact ne_of_mem_of_not_mem (List.getElem_mem hk) h

section
variable {m m' : Bytes} {off n p : ℕ}

theorem length_cstr_le {i : ℕ} (h : m (off + i) = 0) : (cstr m off n).length ≤ i := by
  induction n generalizing off i with
  | zero => simp [cstr]
  | succ n ih =>
    simp only [cstr]
    split_ifs with h0
    · simp
    · cases i with
      | zero => exact absurd h h0
      | succ i =>
        have hrest : (cstr m (off + 1) n).length ≤ i := ih (by rw [← h]; congr 1; omega)
        simpa using hrest

/-- A string that ends before the limit ends with a NUL. -/
theorem nul_of_length_lt (h : (cstr m off n).length < n) :
    m (off + (cstr m off n).length) = 0 := by
  induction n generalizing off with
  | zero => omega
  | succ n ih =>
    simp only [cstr] at h ⊢
    split_ifs at h ⊢ with h0
    · simpa using h0
    · have hrest : m (off + 1 + (cstr m (off + 1) n).length) = 0 := ih (by simpa using h)
      rw [List.length_cons, ← Nat.add_assoc, Nat.add_right_comm]
      exact hrest

/-- A string starts with the bytes before it is looked at for the NUL. -/
theorem cstr_append (h : ∀ k < p, m (off + k) ≠ 0) (hp : p ≤ n) :
    cstr m off n = load m off p ++ cstr m (off + p) (n - p) := by
  induction p generalizing off n with
  | zero => simp [load]
  | succ p ih =>
    obtain ⟨n, rfl⟩ := Nat.exists_eq_succ_of_ne_zero (by omega : n ≠ 0)
    have h0 : m off ≠ 0 := h 0 (by omega)
    have hshift : ∀ k, off + 1 + k = off + (k + 1) := fun k => by omega
    have hrest : cstr m (off + 1) n = load m (off + 1) p ++ cstr m (off + 1 + p) (n - p) :=
      ih (fun k hk => by rw [hshift]; exact h (k + 1) (by omega)) (by omega)
    have hload : load m off (p + 1) = m off :: load m (off + 1) p := by
      simp only [load, List.range_succ_eq_map, List.map_cons, List.map_map, Nat.add_zero]
      congr 1
      exact List.map_congr_left fun k _ => by rw [hshift]; rfl
    rw [hshift] at hrest
    rw [Nat.succ_eq_add_one, Nat.add_sub_add_right, hload, List.cons_append, ← hrest]
    exact if_neg h0

theorem cstr_congr (h : ∀ k, off ≤ k → k < off + n → m k = m' k) :
    cstr m off n = cstr m' off n := by
  induction n generalizing off with
  | zero => rfl
  | succ n ih =>
    have h0 := h off (Nat.le_refl off) (by omega)
    have hrest : cstr m (off + 1) n = cstr m' (off + 1) n :=
      ih fun k hlo hhi => h k (by omega) (by omega)
    simp only [cstr, h0, hrest]

/-- What stands behind a NUL does not matter. -/
theorem cstr_congr_of_nul {i : ℕ} (hi : m (off + i) = 0) (h : ∀ k ≤ i, m (off + k) = m' (off + k)) :
    cstr m off n = cstr m' off n := by
  induction n generalizing off i with
  | zero => rfl
  | succ n ih =>
    have h0 := h 0 (by omega)
    simp only [Nat.add_zero] at h0
    by_cases hz : m off = 0
    · simp [cstr, hz, ← h0]
    · obtain ⟨i, rfl⟩ := Nat.exists_eq_succ_of_ne_zero (show i ≠ 0 by rintro rfl; exact hz hi)
      have hshift : ∀ k, off + 1 + k = off + (k + 1) := fun k => by omega
      have hrest : cstr m (off + 1) n = cstr m' (off + 1) n :=
        ih (i := i) (by rw [hshift]; exact hi) fun k hk => by
          rw [hshift]
          exact h (k + 1) (by omega)
      simp only [cstr, ← h0, hrest]

/-- A terminated string is NUL-free bytes with a NUL behind them. -/
theorem terminated_eq_some_iff {s : List UInt8} (hs : 0 ∉ s) (hn : s.length < n)
    (hbytes : ∀ k < s.length, m (off + k) = s.getD k 0) :
    terminated m off n = some s ↔ m (off + s.length) = 0 := by
  unfold terminated
  constructor
  · intro h
    obtain ⟨hlt, h⟩ := Option.ite_none_right_eq_some.mp h
    rw [Option.some.injEq] at h
    have hnul := nul_of_length_lt hlt
    rwa [h] at hnul
  · intro hnul
    have hcstr : cstr m off n = s := by
      apply cstr_of_bytes hs _ hnul hn
      intro k hk
      rw [hbytes k hk, List.getD_eq_getElem _ _ hk]
      rfl
    rw [hcstr, if_pos hn]

/-- A NUL inside the limit: the string is terminated, at that NUL or before. -/
theorem terminated_of_nul {i : ℕ} (hi : i < n) (h : m (off + i) = 0) :
    ∃ s, terminated m off n = some s ∧ s.length ≤ i := by
  have hle := length_cstr_le (n := n) h
  exact ⟨cstr m off n, if_pos (by omega), hle⟩

/-- Two stores in a row, the second where the first one ends. -/
theorem store_store (m : Bytes) (off : ℕ) (xs ys : List UInt8) :
    store (store m off xs) (off + xs.length) ys = store m off (xs ++ ys) := by
  funext k
  unfold store
  rw [List.length_append]
  by_cases hx : off ≤ k ∧ k < off + xs.length
  · have hfirst : k - off < xs.length := by omega
    rw [if_neg (by omega), if_pos hx, if_pos (by omega), List.getD_append _ _ _ _ hfirst]
  · by_cases hy : off + xs.length ≤ k ∧ k < off + xs.length + ys.length
    · have hsecond : xs.length ≤ k - off := by omega
      rw [if_pos hy, if_pos (by omega), List.getD_append_right _ _ _ _ hsecond, Nat.sub_add_eq]
    · rw [if_neg hy, if_neg hx, if_neg (by omega)]

/-- The string in front of which `xs` was stored: up to the NUL in `xs`, or `xs` with the
string that was there behind it. -/
theorem cstr_store_eq_iff {xs : List UInt8} (hlen : xs.length ≤ n) :
    cstr (store m off xs) off n = cstr (store m' off xs) off n ↔
      0 ∈ xs ∨ cstr m (off + xs.length) (n - xs.length) =
        cstr m' (off + xs.length) (n - xs.length) := by
  have hin : ∀ (m : Bytes) (k : ℕ), k < xs.length → store m off xs (off + k) = xs.getD k 0 := by
    intro m k hk
    rw [store_inside (by omega) (by omega), Nat.add_sub_cancel_left]
  by_cases hnul : 0 ∈ xs
  · refine iff_of_true ?_ (.inl hnul)
    obtain ⟨i, hi, hzero⟩ := List.mem_iff_getElem.mp hnul
    refine cstr_congr_of_nul (i := i) ?_ fun k hk => ?_
    · rw [hin m i hi, List.getD_eq_getElem _ _ hi, hzero]
    · rw [hin m k (by omega), hin m' k (by omega)]
  · have hsplit : ∀ m : Bytes, cstr (store m off xs) off n =
        xs ++ cstr m (off + xs.length) (n - xs.length) := by
      intro m
      have hne : ∀ k < xs.length, store m off xs (off + k) ≠ 0 := by
        intro k hk
        rw [hin m k hk]
        exact getD_ne_zero hnul hk
      have hrest : cstr (store m off xs) (off + xs.length) (n - xs.length) =
          cstr m (off + xs.length) (n - xs.length) :=
        cstr_congr fun k hlo _ => store_outside (.inr hlo)
      rw [cstr_append hne hlen, load_store_same, hrest]
    rw [hsplit m, hsplit m', List.append_cancel_left_eq]
    simp [hnul]

end

section
variable {src : Bytes} {k n i : ℕ}

/-- From the first NUL of the source on `strncpy` pads with NULs. -/
theorem strncpyBytes_after_nul {j : ℕ} (hj : src (k + j) = 0) (hji : j ≤ i) :
    (strncpyBytes src k n).getD i 0 = 0 := by
  induction n generalizing k i j with
  | zero => simp [strncpyBytes]
  | succ n ih =>
    by_cases h0 : src k = 0
    · cases i with
      | zero => simp [strncpyBytes, h0]
      | succ i =>
        have hrest := ih (k := k) (i := i) (j := 0) h0 (by omega)
        simpa [strncpyBytes, h0] using hrest
    · obtain ⟨j, rfl⟩ := Nat.exists_eq_succ_of_ne_zero (show j ≠ 0 by rintro rfl; exact h0 hj)
      obtain ⟨i, rfl⟩ := Nat.exists_eq_succ_of_ne_zero (by omega : i ≠ 0)
      have hrest := ih (k := k + 1) (i := i) (j := j)
        (by rw [← hj]; congr 1; omega) (by omega)
      simpa [strncpyBytes, h0] using hrest

theorem strncpyBytes_before_nul (h : ∀ j < i, src (k + j) ≠ 0) (hi : i < n) :
    (strncpyBytes src k n).getD i 0 = src (k + i) := by
  induction n generalizing k i with
  | zero => omega
  | succ n ih =>
    cases i with
    | zero => simp [strncpyBytes]
    | succ i =>
      have h0 : src k ≠ 0 := h 0 (by omega)
      have hshift : ∀ j, k + 1 + j = k + (j + 1) := fun j => by omega
      have hrest := ih (k := k + 1) (i := i)
        (fun j hj => by rw [hshift]; exact h (j + 1) (by omega)) (by omega)
      rw [hshift] at hrest
      simpa [strncpyBytes, h0] using hrest

end

end CMem
