import Eudyptula.Lib.CMem

/-! A file of fixed size: reads and writes are cut at its end, and what the bytes of a
memory object say about it. -/
namespace FixedFile
open CMem

structure File (n : ℕ) where
  bytes : List UInt8
  size : bytes.length = n

namespace File
variable {n : ℕ}

theorem ext {f g : File n} (h : f.bytes = g.bytes) : f = g := by
  cases f
  cases g
  cases h
  rfl

/-- How many bytes are written, and the file after it. -/
def write (f : File n) (p : ℕ) (data : List UInt8) : ℕ × File n :=
  let len := min data.length (n - p)
  (len,
    { bytes := (List.range n).map fun k =>
        if p ≤ k ∧ k < p + len then data.getD (k - p) 0 else f.bytes.getD k 0
      size := by simp })

def read (f : File n) (p count : ℕ) : List UInt8 := (f.bytes.drop p).take (min count (n - p))

theorem length_read (f : File n) (p count : ℕ) : (f.read p count).length = min count (n - p) := by
  have hsize := f.size
  simp only [read, List.length_take, List.length_drop]
  omega

/-- A read at the offset reached goes on where the bytes before it end. -/
theorem take_append_read (f : File n) {p count : ℕ} (hp : p ≤ n) :
    f.bytes.take p ++ f.read p count = f.bytes.take (min (p + count) n) := by
  have hlen : p + min count (n - p) = min (p + count) n := by omega
  rw [read, ← hlen, List.take_add]

def ofMem (m : Bytes) (n : ℕ) : File n := ⟨load m 0 n, load_length m 0 n⟩

theorem write_past (f : File n) {p : ℕ} (data : List UInt8) (hp : n ≤ p) :
    f.write p data = (0, f) := by
  have hlen : min data.length (n - p) = 0 := by omega
  unfold write
  simp only [hlen, Prod.mk.injEq, true_and]
  apply ext
  apply List.ext_getElem
  · simp [f.size]
  · intro k hk hk'
    have hsize := f.size
    have hout : ¬ p ≤ k := by omega
    simp [hout, hk']

theorem ofMem_read (m : Bytes) (p count : ℕ) :
    (ofMem m n).read p count = load m p (min count (n - p)) := by
  apply List.ext_getElem
  · rw [length_read, load_length]
  · intro k hk hk'
    simp [read, ofMem, load]

theorem ofMem_write (m : Bytes) {p : ℕ} {data : List UInt8} (h : p + data.length ≤ n) :
    (ofMem m n).write p data = (data.length, ofMem (store m p data) n) := by
  have hlen : min data.length (n - p) = data.length := by omega
  unfold write
  simp only [hlen, Prod.mk.injEq, true_and]
  apply ext
  apply List.map_congr_left
  intro k hk
  have hk := List.mem_range.mp hk
  rw [Nat.zero_add]
  unfold store
  split_ifs
  · rfl
  · simp [ofMem, load, hk]

theorem write_fst_lt (f : File n) {p : ℕ} {data : List UInt8} (hp : p < n)
    (h : n < p + data.length) : (f.write p data).1 < data.length := by
  simp only [write]
  omega

end File

end FixedFile
