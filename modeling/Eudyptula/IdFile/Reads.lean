import Eudyptula.Debugfs.Foo
import Eudyptula.IdFile.Handlers

/-! The read side: `simple_dev_read` of Task_6 and `id_read` of Task_8 on the author's id,
`foo_read` on its page, and what a file delivers over a sequence of reads some of which
fault. -/
namespace Eudyptula.IdFile
open CMem FixedFile Runs
open Eudyptula.Debugfs (Foo ReadArgs fooRead fooRead_eq)

def authorIdSize : ℕ := 14

/-- Read handler over the first `size` bytes of `contents`: return value, new `*f_pos` and
the bytes delivered. -/
def readContents (contents : Bytes) (size : ℕ) (r : ReadArgs) : ℤ × ℕ × List UInt8 :=
  if size ≤ r.fPos then (0, r.fPos, [])
  else
    let count := if (r.fPos + r.count) % 2 ^ 64 > size then size - r.fPos else r.count
    if r.room < count then (-EFAULT, r.fPos, [])
    else (count, r.fPos + count, load contents r.fPos count)

def simpleDevRead (r : ReadArgs) : ℤ × ℕ × List UInt8 := readContents authorId authorIdSize r

def idRead (r : ReadArgs) : ℤ × ℕ × List UInt8 := readContents authorId authorIdSize r

inductive ReadFile
  | simpleDev
  | id
  | foo (page : Foo)

namespace ReadFile

def read : ReadFile → ReadArgs → Option (ℤ × ℕ × List UInt8 × ReadFile)
  | .simpleDev, r =>
    let (ret, p, data) := simpleDevRead r
    some (ret, p, data, .simpleDev)
  | .id, r =>
    let (ret, p, data) := idRead r
    some (ret, p, data, .id)
  | .foo page, r => (fooRead false r page).map fun (ret, p, data, page) => (ret, p, data, .foo page)

def size : ReadFile → ℕ
  | .simpleDev | .id => authorIdSize
  | .foo _ => 4096

def storage : ReadFile → Bytes
  | .simpleDev | .id => authorId
  | .foo page => page.mem

/-- Nobody holds the mutex of `foo`; the id has none. -/
def Free : ReadFile → Prop
  | .simpleDev | .id => True
  | .foo page => page.held = false

/-- What there is to read: the id with its NUL, or the page. -/
def file (f : ReadFile) : File f.size := .ofMem f.storage f.size

end ReadFile

/-- A read of `count` bytes at an address where `room` bytes can be written. -/
structure Request where
  count : ℕ
  room : ℕ
  admitted : count ≤ maxRwCount

/-- An open file between two reads: its offset, the data of the successful calls so far and
the sum of their counts. -/
structure Reader where
  file : ReadFile
  fPos : ℕ
  data : List UInt8
  asked : ℕ

def Reader.call (s : Reader) (q : Request) : Option (ℤ × ℕ × List UInt8 × ReadFile) :=
  s.file.read ⟨q.count, s.fPos, q.room, q.admitted⟩

def readStep (q : Request) (s : Reader) : Option Reader :=
  (s.call q).map fun (ret, p, data, file) =>
    if ret < 0 then ⟨file, p, s.data, s.asked⟩ else ⟨file, p, s.data ++ data, s.asked + q.count⟩

section
variable {f : ReadFile} {s t : Reader}

theorem readContents_eq (contents : Bytes) {size : ℕ} (hsize : size < 2 ^ 63) (r : ReadArgs) :
    readContents contents size r = if r.room < min r.count (size - r.fPos)
      then (-EFAULT, r.fPos, [])
      else (((min r.count (size - r.fPos) : ℕ) : ℤ), r.fPos + min r.count (size - r.fPos),
        load contents r.fPos (min r.count (size - r.fPos))) := by
  have hadm := r.admitted
  unfold maxRwCount at hadm
  unfold readContents
  by_cases hp : size ≤ r.fPos
  · simp [hp, load]
  · simp only [hp, clamp_eq_min (p := r.fPos) (c := r.count) (n := size) (by omega) (by omega),
      if_false]

/-- The three handlers do the same over their own contents: they deliver what the file has at
the offset, or fault. -/
theorem ReadFile.read_eq (hfree : f.Free) (r : ReadArgs) :
    f.read r = some (if r.room < (f.file.read r.fPos r.count).length
      then (-EFAULT, r.fPos, [], f)
      else (((f.file.read r.fPos r.count).length : ℤ),
        r.fPos + (f.file.read r.fPos r.count).length, f.file.read r.fPos r.count, f)) := by
  rw [File.length_read, ReadFile.file, File.ofMem_read]
  cases f with
  | simpleDev | id =>
    simp only [ReadFile.read, simpleDevRead, idRead, ReadFile.size, ReadFile.storage,
      readContents_eq authorId (show authorIdSize < 2 ^ 63 by decide) r]
    by_cases hfault : r.room < min r.count (authorIdSize - r.fPos) <;> simp only [hfault] <;> rfl
  | foo page =>
    simp only [ReadFile.read, fooRead_eq r hfree, ReadFile.size, ReadFile.storage]
    by_cases hfault : r.room < min r.count (4096 - r.fPos) <;> simp only [hfault] <;> rfl

/-- The file is as it was, its offset is the length delivered, and that is all the file has
up to what was asked for. -/
structure Reader.Delivered (s : Reader) (f : ReadFile) : Prop where
  file : s.file = f
  data : s.data = f.file.bytes.take (min s.asked f.size)
  fPos : s.fPos = min s.asked f.size

theorem Reader.Delivered.length (h : s.Delivered f) : s.data.length = s.fPos := by
  rw [h.data, h.fPos, List.length_take, f.file.size]
  omega

theorem Reader.Delivered.fPos_le (h : s.Delivered f) : s.fPos ≤ f.size := by
  rw [h.fPos]
  exact Nat.min_le_right _ _

theorem Reader.Delivered.call_eq (h : s.Delivered f) (hfree : f.Free) (q : Request) :
    s.call q = some (if q.room < (f.file.read s.fPos q.count).length
      then (-EFAULT, s.fPos, [], f)
      else (((f.file.read s.fPos q.count).length : ℤ),
        s.fPos + (f.file.read s.fPos q.count).length, f.file.read s.fPos q.count, f)) := by
  rw [Reader.call, h.file, ReadFile.read_eq hfree]

/-- One read, whether it delivers or faults. -/
theorem Reader.Delivered.step (h : s.Delivered f) (hfree : f.Free) (q : Request) :
    ∃ t, readStep q s = some t ∧ t.Delivered f := by
  unfold readStep
  rw [h.call_eq hfree q, Option.map_some]
  refine ⟨_, rfl, ?_⟩
  by_cases hfault : q.room < (f.file.read s.fPos q.count).length
  · simp only [hfault, if_true, show -EFAULT < 0 by decide]
    exact ⟨rfl, h.data, h.fPos⟩
  · simp only [hfault, if_false, Int.not_lt.mpr (Int.natCast_nonneg _)]
    refine ⟨rfl, ?_, ?_⟩
    · have hmin : min (s.fPos + q.count) f.size = min (s.asked + q.count) f.size := by
        rw [h.fPos]
        omega
      rw [h.data, ← h.fPos, File.take_append_read f.file h.fPos_le, hmin]
    · rw [File.length_read, h.fPos]
      dsimp only
      omega

theorem Reader.Delivered.run (h : s.Delivered f) (hfree : f.Free) (qs : List Request) :
    ∃ t, Runs.run readStep qs s = some t ∧ t.Delivered f := by
  induction qs generalizing s with
  | nil => exact ⟨s, rfl, h⟩
  | cons q qs ih =>
    obtain ⟨u, hu, hdel⟩ := h.step hfree q
    obtain ⟨t, ht, hdel⟩ := ih hdel
    exact ⟨t, by rw [Runs.run, hu]; exact ht, hdel⟩

/-- The next read faults exactly when the caller has no room for what is left of the file, up to
the count, and delivers that otherwise. -/
theorem Reader.Delivered.returns (h : s.Delivered f) (hfree : f.Free) (q : Request) :
    ∃ ret p data, s.call q = some (ret, p, data, f) ∧
      (ret < 0 ↔ q.room < min q.count (f.size - s.fPos)) ∧
      (ret < 0 → ret = -EFAULT ∧ p = s.fPos) ∧
      (¬ ret < 0 → ret = (min q.count (f.size - s.fPos) : ℕ)) := by
  rw [h.call_eq hfree q, File.length_read]
  split_ifs with hfault
  · have hneg : -EFAULT < 0 := by decide
    exact ⟨_, _, _, rfl, iff_of_true hneg hfault, fun _ => ⟨rfl, rfl⟩, absurd hneg⟩
  · have hnonneg := Int.not_lt.mpr (Int.natCast_nonneg (min q.count (f.size - s.fPos)))
    exact ⟨_, _, _, rfl, iff_of_false hnonneg hfault, fun hneg => absurd hneg hnonneg, fun _ => rfl⟩

end

/-- For every sequence of reads from offset 0 on, faulting ones among them: the data of the
successful calls is the start of the file up to the sum of their counts, and the offset is its
length. The next read faults exactly when the room does not suffice, and returns 0 for a positive
count exactly at the end of the file. -/
theorem chunked_reads (f : ReadFile) (hfree : f.Free) (qs : List Request) :
    ∃ t, run readStep qs ⟨f, 0, [], 0⟩ = some t ∧
      t.data = f.file.bytes.take (min t.asked f.size) ∧ t.fPos = t.data.length ∧
      ∀ q : Request, ∃ ret p data, t.call q = some (ret, p, data, f) ∧
        (ret < 0 ↔ q.room < min q.count (f.size - t.fPos)) ∧
        (ret < 0 → ret = -EFAULT ∧ p = t.fPos) ∧
        (¬ ret < 0 → ret = (min q.count (f.size - t.fPos) : ℕ)) ∧
        (0 < q.count → (ret = 0 ↔ t.data.length = f.size)) := by
  have hstart : (⟨f, 0, [], 0⟩ : Reader).Delivered f := by
    constructor
    · rfl
    · simp
    · simp
  obtain ⟨t, ht, hdel⟩ := hstart.run hfree qs
  refine ⟨t, ht, hdel.data, hdel.length.symm, fun q => ?_⟩
  obtain ⟨ret, p, data, hcall, hiff, hfault, hret⟩ := hdel.returns hfree q
  refine ⟨ret, p, data, hcall, hiff, hfault, hret, fun hq => ?_⟩
  have hle := hdel.fPos_le
  rw [hdel.length]
  by_cases hneg : ret < 0
  · have hroom := hiff.mp hneg
    omega
  · rw [hret hneg]
    omega

/-- Six bytes of the id, a fault, and then the other eight. -/
theorem chunked_reads_id :
    ∃ t, run readStep [⟨6, 6, by decide⟩, ⟨6, 0, by decide⟩] ⟨.id, 0, [], 0⟩ = some t ∧
      t.data = author.take 6 ∧ t.fPos = 6 ∧
      (∃ p data, t.call ⟨20, 7, by decide⟩ = some (-EFAULT, p, data, .id)) ∧
      ∃ p data, t.call ⟨20, 8, by decide⟩ = some (8, p, data, .id) := by
  obtain ⟨t, ht, hdata, hpos, hnext⟩ := chunked_reads .id trivial
    [⟨6, 6, by decide⟩, ⟨6, 0, by decide⟩]
  have hasked : (run readStep [⟨6, 6, by decide⟩, ⟨6, 0, by decide⟩]
      ⟨.id, 0, [], 0⟩).map Reader.asked = some 6 := by
    decide +kernel
  rw [ht, Option.map_some, Option.some.injEq] at hasked
  rw [hasked] at hdata
  have hdata : t.data = author.take 6 := hdata
  have hpos : t.fPos = 6 := by rw [hpos, hdata]; rfl
  refine ⟨t, ht, hdata, hpos, ?_, ?_⟩
  · obtain ⟨ret, p, data, hcall, hiff, hfault, -⟩ := hnext ⟨20, 7, by decide⟩
    have hneg : ret < 0 := hiff.mpr (by rw [hpos]; decide)
    exact ⟨p, data, (hfault hneg).1 ▸ hcall⟩
  · obtain ⟨ret, p, data, hcall, hiff, -, hret, -⟩ := hnext ⟨20, 8, by decide⟩
    have hnonneg : ¬ ret < 0 := by
      rw [hiff, hpos]
      decide
    have hret : ret = 8 := by
      rw [hret hnonneg, hpos]
      rfl
    exact ⟨p, data, hret ▸ hcall⟩

end Eudyptula.IdFile
