import Mathlib.Algebra.Group.Nat.Defs
import Mathlib.Data.Int.Order.Basic
import Mathlib.Data.List.GetD
import Mathlib.Tactic.SplitIfs

/-! Byte storage of a C object, the string functions of the kernel library on it, the
copy from user space and the kernel's error numbers. Offsets count from the start of the
object; what lies past its end is the storage that follows it. -/
namespace CMem

def ENOENT : ℤ := 2
def ENOMEM : ℤ := 12
def EFAULT : ℤ := 14
def ENOTTY : ℤ := 25
def ERESTARTSYS : ℤ := 512

/-- Longest read or write that the VFS passes on. -/
def maxRwCount : ℕ := 2 ^ 31 - 4096

/-- One call of `write`: `buf` lists the bytes that can be read at the user address. -/
structure WriteArgs where
  buf : List UInt8
  count : ℕ
  fPos : ℕ
  admitted : count ≤ maxRwCount

/-- One byte at the start of the file. -/
def WriteArgs.byte (b : UInt8) : WriteArgs := ⟨[b], 1, 0, by decide⟩

def WriteArgs.pair (a b : UInt8) : WriteArgs := ⟨[a, b], 2, 0, by decide⟩

abbrev Bytes := ℕ → UInt8

def store (m : Bytes) (off : ℕ) (src : List UInt8) : Bytes := fun k =>
  if off ≤ k ∧ k < off + src.length then src.getD (k - off) 0 else m k

def load (m : Bytes) (off n : ℕ) : List UInt8 :=
  (List.range n).map fun k => m (off + k)

/-- The `n` bytes of a little-endian integer. -/
def leBytes : ℕ → ℕ → List UInt8
  | 0, _ => []
  | n + 1, x => .ofNat x :: leBytes n (x / 256)

def leNat : List UInt8 → ℕ
  | [] => 0
  | b :: bs => b.toNat + 256 * leNat bs

/-- The C string that starts at `off`, read for at most `n` bytes. -/
def cstr (m : Bytes) : ℕ → ℕ → List UInt8
  | _, 0 => []
  | off, n + 1 => if m off = 0 then [] else m off :: cstr m (off + 1) n

/-- A C string value: the bytes before the terminating NUL. -/
structure CStr where
  bytes : List UInt8
  nulFree : 0 ∉ bytes
deriving DecidableEq

/-- `strcpy(dst, s)`, with the terminating NUL. -/
def strcpy (m : Bytes) (s : CStr) : Bytes := store m 0 (s.bytes ++ [0])

/-- `strncmp` from offset `k` on, for at most `n` bytes. -/
def strncmp (a b : Bytes) : ℕ → ℕ → ℤ
  | _, 0 => 0
  | k, n + 1 =>
    if a k ≠ b k then (if a k < b k then -1 else 1)
    else if a k = 0 then 0
    else strncmp a b (k + 1) n

/-- The `n` bytes that `strncpy` writes: the source pointer stays at the first NUL. -/
def strncpyBytes (src : Bytes) : ℕ → ℕ → List UInt8
  | _, 0 => []
  | k, n + 1 => src k :: strncpyBytes src (if src k ≠ 0 then k + 1 else k) n

def strncpy (m src : Bytes) (n : ℕ) : Bytes := store m 0 (strncpyBytes src 0 n)

/-- `copy_from_user(dst + off, src, n)`, where `src` lists the bytes that can be read at
the user address. The result is the number of bytes not copied; their part of the
destination is filled with zeros. -/
def copyFromUser (m : Bytes) (off : ℕ) (src : List UInt8) (n : ℕ) : ℕ × Bytes :=
  (n - src.length, store m off (src.take n ++ List.replicate (n - src.length) 0))

/-- The bytes that `copy_from_user` stores. -/
def copied (src : List UInt8) (n : ℕ) : List UInt8 :=
  src.take n ++ List.replicate (n - src.length) 0

/-- The clamp of a count at the end of `n` bytes, as long as the unsigned sum does not wrap. -/
theorem clamp_eq_min {p c n : ℕ} (hp : p ≤ n) (h : p + c < 2 ^ 64) :
    (if (p + c) % 2 ^ 64 > n then n - p else c) = min c (n - p) := by
  rw [Nat.mod_eq_of_lt h]
  split_ifs <;> omega

theorem store_outside {m : Bytes} {off k : ℕ} {src : List UInt8}
    (h : k < off ∨ off + src.length ≤ k) : store m off src k = m k := by
  simp only [store]
  split_ifs with hk
  · omega
  · rfl

theorem store_inside {m : Bytes} {off k : ℕ} {src : List UInt8} (hlo : off ≤ k)
    (hhi : k < off + src.length) : store m off src k = src.getD (k - off) 0 := by
  simp only [store, hlo, hhi, and_self, if_true]

theorem store_congr {m m' : Bytes} {off k : ℕ} (src : List UInt8) (h : m k = m' k) :
    store m off src k = store m' off src k := by
  simp only [store, h]

/-- The first `n` bytes after a store at the start: the bytes stored, then the old ones. -/
theorem store_zero_eq_iff {m a : Bytes} {xs : List UInt8} {n : ℕ} :
    (∀ j < n, store m 0 xs j = a j) ↔
      (∀ j < min xs.length n, xs.getD j 0 = a j) ∧ ∀ j, xs.length ≤ j → j < n → m j = a j := by
  constructor
  · intro h
    constructor
    · intro j hj
      rw [← h j (by omega), store_inside (by omega) (by omega), Nat.sub_zero]
    · intro j hlo hj
      rw [← h j hj, store_outside (by omega)]
  · intro h j hj
    by_cases hlo : xs.length ≤ j
    · rw [store_outside (by omega), h.2 j hlo hj]
    · rw [store_inside (by omega) (by omega), Nat.sub_zero, h.1 j (by omega)]

@[simp] theorem load_length (m : Bytes) (off n : ℕ) : (load m off n).length = n := by
  simp [load]

theorem load_store_same (m : Bytes) (off : ℕ) (src : List UInt8) :
    load (store m off src) off src.length = src := by
  apply List.ext_getElem (by simp)
  intro k hk hk'
  simp only [load, List.getElem_map, List.getElem_range]
  rw [store_inside (by omega) (by omega), Nat.add_sub_cancel_left, List.getD_eq_getElem _ _ hk']

theorem load_eq_iff {m : Bytes} {off : ℕ} {xs : List UInt8} :
    load m off xs.length = xs ↔ ∀ k < xs.length, m (off + k) = xs.getD k 0 := by
  constructor
  · intro h k hk
    have hget := congrArg (fun ys : List UInt8 => ys.getD k 0) h
    simpa [load, hk] using hget
  · intro h
    apply List.ext_getElem (by simp)
    intro k _ hk
    have hbyte := h k hk
    rw [List.getD_eq_getElem _ _ hk] at hbyte
    simpa [load] using hbyte

@[simp] theorem length_leBytes (n x : ℕ) : (leBytes n x).length = n := by
  induction n generalizing x with
  | zero => rfl
  | succ n ih => simp [leBytes, ih]

theorem leNat_leBytes (n x : ℕ) : leNat (leBytes n x) = x % 256 ^ n := by
  induction n generalizing x with
  | zero => simp [leBytes, leNat, Nat.mod_one]
  | succ n ih =>
    have hpow : 256 ^ (n + 1) = 256 * 256 ^ n := Nat.pow_succ'
    rw [leBytes, leNat, ih, UInt8.toNat_ofNat', hpow, Nat.mod_mul]

theorem take_eq_take_iff {xs ys : List UInt8} {n : ℕ} (hx : n ≤ xs.length) (hy : n ≤ ys.length) :
    xs.take n = ys.take n ↔ ∀ k < n, xs.getD k 0 = ys.getD k 0 := by
  constructor
  · intro h k hk
    have hget := congrArg (fun zs : List UInt8 => zs.getD k 0) h
    simpa [hk] using hget
  · intro h
    apply List.ext_getElem (by simp [hx, hy])
    intro k hk _
    rw [List.length_take] at hk
    have hbyte := h k (by omega)
    rw [List.getD_eq_getElem _ _ (by omega), List.getD_eq_getElem _ _ (by omega)] at hbyte
    simpa using hbyte

theorem zero_notMem_cstr (m : Bytes) (off n : ℕ) : 0 ∉ cstr m off n := by
  induction n generalizing off with
  | zero => simp [cstr]
  | succ n ih =>
    simp only [cstr]
    split_ifs with h
    · simp
    · simp [ih, Ne.symm h]

/-- A terminated string is read back up to its terminator. -/
theorem cstr_of_bytes {m : Bytes} {off n : ℕ} {s : List UInt8} (hs : 0 ∉ s)
    (hbytes : ∀ (k : ℕ) (hk : k < s.length), m (off + k) = s.get ⟨k, hk⟩)
    (hnul : m (off + s.length) = 0) (hn : s.length < n) : cstr m off n = s := by
  induction s generalizing off n with
  | nil =>
    obtain ⟨n, rfl⟩ := Nat.exists_eq_succ_of_ne_zero (Nat.ne_zero_of_lt hn)
    have hz : m off = 0 := hnul
    simp only [cstr, hz, if_true]
  | cons c s ih =>
    obtain ⟨n, rfl⟩ := Nat.exists_eq_succ_of_ne_zero (Nat.ne_zero_of_lt hn)
    obtain ⟨hc, hs⟩ := not_or.mp (mt List.mem_cons.mpr hs)
    have h0 : m off = c := hbytes 0 (by simp)
    have hrest : cstr m (off + 1) n = s := by
      apply ih hs
      · intro k hk
        have := hbytes (k + 1) (by simpa using hk)
        simpa [Nat.add_assoc, Nat.add_comm 1 k] using this
      · simpa only [List.length_cons, Nat.add_assoc, Nat.add_comm 1 s.length] using hnul
      · simpa using hn
    simp only [cstr, h0, Ne.symm hc, if_false, hrest]

def CStr.read (m : Bytes) (off n : ℕ) : CStr := ⟨cstr m off n, zero_notMem_cstr m off n⟩

theorem cstr_strcpy (m : Bytes) {s : CStr} {n : ℕ} (hn : s.bytes.length < n) :
    cstr (strcpy m s) 0 n = s.bytes := by
  apply cstr_of_bytes s.nulFree _ _ hn
  · intro k hk
    rw [strcpy, store_inside (by omega) (by simp; omega)]
    rw [Nat.sub_zero, Nat.zero_add, List.getD_append _ _ _ _ hk, List.getD_eq_getElem _ _ hk]
    rfl
  · rw [strcpy, store_inside (by omega) (by simp)]
    simp

/-- Against a string without NUL in its first `n` bytes, `strncmp` tests these bytes for
equality. -/
theorem strncmp_eq_zero_iff {a b : Bytes} {k n : ℕ} (ha : ∀ j < n, a (k + j) ≠ 0) :
    strncmp a b k n = 0 ↔ ∀ j < n, b (k + j) = a (k + j) := by
  induction n generalizing k with
  | zero => simp [strncmp]
  | succ n ih =>
    have h0 : a k ≠ 0 := ha 0 (by omega)
    have hrest := ih (k := k + 1) fun j hj => by
      simpa only [Nat.add_assoc, Nat.add_comm 1 j] using ha (j + 1) (by omega)
    simp only [strncmp, h0, if_false]
    by_cases he : a k = b k
    · simp only [he, ne_eq, not_true, if_false, hrest]
      constructor
      · intro h j hj
        cases j with
        | zero => exact he.symm
        | succ j => simpa only [Nat.add_assoc, Nat.add_comm 1 j] using h j (by omega)
      · intro h j hj
        simpa only [Nat.add_assoc, Nat.add_comm 1 j] using h (j + 1) (by omega)
    · simp only [ne_eq, he, not_false_eq_true, if_true]
      constructor
      · intro h
        split_ifs at h
        omega
      · intro h
        exact absurd (h 0 (by omega)).symm he

theorem strncmp_congr {a b b' : Bytes} {k n : ℕ} (h : ∀ j, k ≤ j → j < k + n → b j = b' j) :
    strncmp a b k n = strncmp a b' k n := by
  induction n generalizing k with
  | zero => rfl
  | succ n ih =>
    have h0 := h k (Nat.le_refl k) (by omega)
    have hrest := ih (k := k + 1) fun j hlo hhi => h j (by omega) (by omega)
    simp only [strncmp, h0, hrest]

@[simp] theorem strncpyBytes_length (src : Bytes) (k n : ℕ) :
    (strncpyBytes src k n).length = n := by
  induction n generalizing k with
  | zero => rfl
  | succ n ih => simp [strncpyBytes, ih]

/-- Up to the first NUL `strncpy` copies: a NUL-free text appears in the destination
exactly when it stands in the source. -/
theorem strncpyBytes_matches {src a : Bytes} {k c n : ℕ} (ha : ∀ j < c, a (k + j) ≠ 0)
    (hc : c ≤ n) :
    (∀ j < c, (strncpyBytes src k n).getD j 0 = a (k + j)) ↔ ∀ j < c, src (k + j) = a (k + j) := by
  induction c generalizing k n with
  | zero => simp
  | succ c ih =>
    obtain ⟨n, rfl⟩ := Nat.exists_eq_succ_of_ne_zero (by omega : n ≠ 0)
    have hshift : ∀ j, k + 1 + j = k + (j + 1) := fun j => by omega
    have hrest := ih (k := k + 1) (n := n)
      (fun j hj => by rw [hshift]; exact ha (j + 1) (by omega)) (by omega)
    by_cases h0 : src k = a k
    · have hk : src k ≠ 0 := h0 ▸ ha 0 (by omega)
      constructor
      · intro h
        have ht := hrest.mp fun j hj => by
          have := h (j + 1) (by omega)
          simpa only [strncpyBytes, hk, ne_eq, not_false_eq_true, if_true, List.getD_cons_succ,
            hshift] using this
        intro j hj
        cases j with
        | zero => exact h0
        | succ j => rw [← hshift]; exact ht j (by omega)
      · intro h
        have ht := hrest.mpr fun j hj => by rw [hshift]; exact h (j + 1) (by omega)
        intro j hj
        cases j with
        | zero => exact h0
        | succ j =>
          simp only [strncpyBytes, hk, ne_eq, not_false_eq_true, if_true, List.getD_cons_succ]
          exact (ht j (by omega)).trans (by rw [hshift])
    · exact ⟨fun h => absurd (h 0 (by omega)) h0, fun h => absurd (h 0 (by omega)) h0⟩

theorem copyFromUser_eq (m : Bytes) (off : ℕ) (src : List UInt8) (n : ℕ) :
    copyFromUser m off src n = (n - src.length, store m off (copied src n)) := rfl

@[simp] theorem length_copied (src : List UInt8) (n : ℕ) : (copied src n).length = n := by
  simp only [copied, List.length_append, List.length_take, List.length_replicate]
  omega

/-- What is copied are the bytes of the source and zeros behind them. -/
theorem getD_copied {src : List UInt8} {n k : ℕ} (hk : k < n) :
    (copied src n).getD k 0 = src.getD k 0 := by
  unfold copied
  by_cases hsrc : k < src.length
  · rw [List.getD_append _ _ _ _ (by rw [List.length_take]; omega)]
    simp [hk]
  · rw [List.getD_append_right _ _ _ _ (by rw [List.length_take]; omega),
      List.getD_replicate _ (by rw [List.length_take]; omega), List.getD_eq_default _ _ (by omega)]

theorem copyFromUser_ok (m : Bytes) (off : ℕ) {src : List UInt8} {n : ℕ} (h : n ≤ src.length) :
    copyFromUser m off src n = (0, store m off (src.take n)) := by
  simp [copyFromUser, Nat.sub_eq_zero_of_le h]

end CMem
