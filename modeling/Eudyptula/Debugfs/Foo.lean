import Eudyptula.Lib.FixedFile
import Eudyptula.Lib.Runs

/-! The file `foo` of Task_8 in debugfs: `foo_read` and `foo_write` on `struct foo`, whose
page is followed by the mutex that protects it, compared with a file of 4096 bytes. -/
namespace Eudyptula.Debugfs
open CMem FixedFile Runs

/-- `mem` is the storage of `foo_page`: its page at 0, the mutex and what follows from 4096
on. `held` tells whether the mutex is locked. -/
structure Foo where
  mem : Bytes
  held : Bool

/-- One call of `read`: `room` bytes can be written at the user address. -/
structure ReadArgs where
  count : ℕ
  fPos : ℕ
  room : ℕ
  admitted : count ≤ maxRwCount

/-- Return value, new `*f_pos`, the bytes delivered and the state; `none` when the call waits
for the mutex. -/
def fooRead (interrupted : Bool) (r : ReadArgs) (s : Foo) : Option (ℤ × ℕ × List UInt8 × Foo) :=
  if interrupted then some (-ERESTARTSYS, r.fPos, [], s)
  else if s.held then none
  else
    let s := { s with held := true }
    if 4096 ≤ r.fPos then some (0, r.fPos, [], { s with held := false })
    else
      let count := if (r.fPos + r.count) % 2 ^ 64 > 4096 then 4096 - r.fPos else r.count
      if r.room < count then some (-EFAULT, r.fPos, [], { s with held := false })
      else some (count, r.fPos + count, load s.mem r.fPos count, { s with held := false })

def fooWrite (interrupted : Bool) (w : WriteArgs) (s : Foo) : Option (ℤ × ℕ × Foo) :=
  if interrupted then some (-ERESTARTSYS, w.fPos, s)
  else if s.held then none
  else
    let s := { s with held := true }
    if 4096 ≤ w.fPos then some (0, w.fPos, { s with held := false })
    else
      -- unlike `foo_read`, without a clamp of the count at the end of the page
      let (left, mem) := copyFromUser s.mem w.fPos w.buf w.count
      if left ≠ 0 then some (-EFAULT, w.fPos, ⟨mem, false⟩)
      else some (w.count, w.fPos + w.count, ⟨mem, false⟩)

structure Files where
  foo : Foo
  fPos : ℕ → ℕ

/-- A call through the open file `k` that neither faults nor is interrupted, or a move of
that file's offset. -/
inductive Op
  | write (k : ℕ) (data : List UInt8) (admitted : data.length ≤ maxRwCount)
  | read (k : ℕ) (count : ℕ) (admitted : count ≤ maxRwCount)
  | seek (k : ℕ) (p : ℕ)

structure Reply where
  ret : ℤ
  data : List UInt8
deriving DecidableEq, Repr

def Op.exec : Op → Files → Option (Reply × Files)
  | .write k data h, s =>
    (fooWrite false ⟨data, data.length, s.fPos k, h⟩ s.foo).map fun (ret, p, foo) =>
      (⟨ret, []⟩, ⟨foo, Function.update s.fPos k p⟩)
  | .read k count h, s =>
    (fooRead false ⟨count, s.fPos k, count, h⟩ s.foo).map fun (ret, p, data, foo) =>
      (⟨ret, data⟩, ⟨foo, Function.update s.fPos k p⟩)
  | .seek k p, s => some (⟨p, []⟩, { s with fPos := Function.update s.fPos k p })

structure SpecFiles where
  file : File 4096
  fPos : ℕ → ℕ

def Op.spec : Op → SpecFiles → Reply × SpecFiles
  | .write k data _, a =>
    let (n, file) := a.file.write (a.fPos k) data
    (⟨n, []⟩, ⟨file, Function.update a.fPos k (a.fPos k + n)⟩)
  | .read k count _, a =>
    let data := a.file.read (a.fPos k) count
    (⟨data.length, data⟩, { a with fPos := Function.update a.fPos k (a.fPos k + data.length) })
  | .seek k p, a => (⟨p, []⟩, { a with fPos := Function.update a.fPos k p })

/-- The page is the abstract file, the offsets are the same, the mutex is free, and past the
page the storage is still that of `m`. -/
structure Represents (m : Bytes) (s : Files) (a : SpecFiles) : Prop where
  file : a.file = .ofMem s.foo.mem 4096
  fPos : a.fPos = s.fPos
  free : s.foo.held = false
  rest : ∀ k, 4096 ≤ k → s.foo.mem k = m k

/-- Call by call the same replies, and representation after each of them. -/
def Refines (m : Bytes) : List Op → Files → SpecFiles → Prop
  | [], s, a => Represents m s a
  | o :: os, s, a => Represents m s a ∧
      ∃ s', o.exec s = some ((o.spec a).1, s') ∧ Refines m os s' (o.spec a).2

def filesStep (o : Op) (s : Files) : Option Files := (o.exec s).map Prod.snd

/-- A write past the end of the file, or one that ends inside it. -/
def Fits : Op → Files → Prop
  | .write k data _, s => 4096 ≤ s.fPos k ∨ s.fPos k + data.length ≤ 4096
  | _, _ => True

section
variable {m : Bytes} {s : Files} {a : SpecFiles} {p : ℕ}

theorem fooWrite_past {w : WriteArgs} {foo : Foo} (hfree : foo.held = false)
    (hp : 4096 ≤ w.fPos) : fooWrite false w foo = some (0, w.fPos, ⟨foo.mem, false⟩) := by
  unfold fooWrite
  simp [hfree, hp]

theorem fooWrite_inside {w : WriteArgs} {foo : Foo} (hfree : foo.held = false)
    (hp : w.fPos < 4096) (hread : w.count ≤ w.buf.length) :
    fooWrite false w foo = some ((w.count : ℤ), w.fPos + w.count,
      ⟨store foo.mem w.fPos (w.buf.take w.count), false⟩) := by
  unfold fooWrite
  simp [hfree, Nat.not_le.mpr hp, copyFromUser_ok foo.mem w.fPos hread]

/-- The call reads what is left of the page, or faults when it does not fit at the user
address. -/
theorem fooRead_eq (r : ReadArgs) {foo : Foo} (hfree : foo.held = false) :
    fooRead false r foo = some (if r.room < min r.count (4096 - r.fPos)
      then (-EFAULT, r.fPos, [], foo)
      else (((min r.count (4096 - r.fPos) : ℕ) : ℤ), r.fPos + min r.count (4096 - r.fPos),
        load foo.mem r.fPos (min r.count (4096 - r.fPos)), foo)) := by
  obtain ⟨mem, held⟩ := foo
  cases hfree
  have hadm := r.admitted
  unfold maxRwCount at hadm
  unfold fooRead
  by_cases hp : 4096 ≤ r.fPos
  · simp [hp, load]
  · simp only [hp, clamp_eq_min (p := r.fPos) (c := r.count) (n := 4096) (by omega) (by omega),
      Bool.false_eq_true, if_false]
    split_ifs <;> rfl

theorem fooRead_spec {r : ReadArgs} {foo : Foo} (hfree : foo.held = false)
    (hroom : r.count ≤ r.room) :
    fooRead false r foo = some (((min r.count (4096 - r.fPos) : ℕ) : ℤ),
      r.fPos + min r.count (4096 - r.fPos),
      load foo.mem r.fPos (min r.count (4096 - r.fPos)), foo) := by
  rw [fooRead_eq r hfree, if_neg (by omega)]

theorem represents_write_past (hr : Represents m s a) {k : ℕ} {data : List UInt8}
    (hadm : data.length ≤ maxRwCount) (hp : 4096 ≤ s.fPos k) :
    ∃ s', (Op.write k data hadm).exec s = some (((Op.write k data hadm).spec a).1, s') ∧
      Represents m s' ((Op.write k data hadm).spec a).2 := by
  have hspec := a.file.write_past data (show 4096 ≤ a.fPos k by rw [hr.fPos]; exact hp)
  have hexec := fooWrite_past (w := ⟨data, data.length, s.fPos k, hadm⟩) hr.free hp
  refine ⟨⟨⟨s.foo.mem, false⟩, Function.update s.fPos k (s.fPos k)⟩, ?_, ?_⟩
  · simp [Op.exec, Op.spec, hexec, hspec]
  · simp only [Op.spec, hspec]
    exact ⟨hr.file, by simp [hr.fPos], rfl, hr.rest⟩

theorem exec_write_inside (hfree : s.foo.held = false) {k : ℕ} {data : List UInt8}
    (hadm : data.length ≤ maxRwCount) (hp : s.fPos k < 4096) :
    (Op.write k data hadm).exec s = some (⟨data.length, []⟩,
      ⟨⟨store s.foo.mem (s.fPos k) data, false⟩,
        Function.update s.fPos k (s.fPos k + data.length)⟩) := by
  have hexec := fooWrite_inside (w := ⟨data, data.length, s.fPos k, hadm⟩) hfree hp (Nat.le_refl _)
  rw [List.take_length] at hexec
  simp only [Op.exec, hexec, Option.map_some]

theorem represents_write (hr : Represents m s a) {k : ℕ} {data : List UInt8}
    (hadm : data.length ≤ maxRwCount) (hp : s.fPos k < 4096)
    (hfit : s.fPos k + data.length ≤ 4096) :
    ∃ s', (Op.write k data hadm).exec s = some (((Op.write k data hadm).spec a).1, s') ∧
      Represents m s' ((Op.write k data hadm).spec a).2 := by
  have hspec : a.file.write (a.fPos k) data =
      (data.length, .ofMem (store s.foo.mem (s.fPos k) data) 4096) := by
    rw [hr.file, hr.fPos]
    exact File.ofMem_write s.foo.mem hfit
  refine ⟨⟨⟨store s.foo.mem (s.fPos k) data, false⟩,
    Function.update s.fPos k (s.fPos k + data.length)⟩, ?_, ?_⟩
  · rw [exec_write_inside hr.free hadm hp]
    simp only [Op.spec, hspec]
  · simp only [Op.spec, hspec]
    refine ⟨rfl, by simp [hr.fPos], rfl, fun j hj => ?_⟩
    have hout : store s.foo.mem (s.fPos k) data j = s.foo.mem j := store_outside (by omega)
    exact hout.trans (hr.rest j hj)

theorem represents_read (hr : Represents m s a) (k : ℕ) {count : ℕ}
    (hadm : count ≤ maxRwCount) :
    ∃ s', (Op.read k count hadm).exec s = some (((Op.read k count hadm).spec a).1, s') ∧
      Represents m s' ((Op.read k count hadm).spec a).2 := by
  have hdata : a.file.read (a.fPos k) count =
      load s.foo.mem (s.fPos k) (min count (4096 - s.fPos k)) := by
    rw [hr.file, hr.fPos]
    exact File.ofMem_read s.foo.mem _ _
  have hexec := fooRead_spec (r := ⟨count, s.fPos k, count, hadm⟩) hr.free (Nat.le_refl _)
  refine ⟨⟨s.foo, Function.update s.fPos k (s.fPos k + min count (4096 - s.fPos k))⟩, ?_, ?_⟩
  · simp [Op.exec, Op.spec, hexec, hdata]
  · simp only [Op.spec, hdata, load_length]
    exact ⟨hr.file, by simp [hr.fPos], hr.free, hr.rest⟩

theorem Op.exec_simulates (o : Op) (hr : Represents m s a) (hfit : Fits o s) :
    ∃ s', o.exec s = some ((o.spec a).1, s') ∧ Represents m s' (o.spec a).2 := by
  cases o with
  | write k data hadm =>
    by_cases hp : 4096 ≤ s.fPos k
    · exact represents_write_past hr hadm hp
    · exact represents_write hr hadm (by omega) (hfit.resolve_left hp)
  | read k count hadm => exact represents_read hr k hadm
  | seek k p => exact ⟨_, rfl, hr.file, by simp [Op.spec, hr.fPos], hr.free, hr.rest⟩

/-- A write across the end of the page returns more than the file has room for. -/
theorem Op.exec_not_fits (o : Op) (hr : Represents m s a) (hno : ¬ Fits o s) :
    ∃ r s', o.exec s = some (r, s') ∧ r ≠ (o.spec a).1 := by
  cases o with
  | write k data hadm =>
    obtain ⟨hp, hlen⟩ := not_or.mp hno
    refine ⟨_, _, exec_write_inside hr.free hadm (Nat.lt_of_not_le hp), ?_⟩
    have hshort : (a.file.write (a.fPos k) data).1 < data.length :=
      a.file.write_fst_lt (by rw [hr.fPos]; omega) (by rw [hr.fPos]; omega)
    simp only [Op.spec, ne_eq, Reply.mk.injEq, and_true]
    omega
  | read => exact absurd trivial hno
  | seek => exact absurd trivial hno

theorem Represents.refines_iff (hr : Represents m s a) (ops : List Op) :
    Refines m ops s a ↔ Along filesStep Fits ops s := by
  induction ops generalizing s a with
  | nil => exact iff_of_true hr trivial
  | cons o ops ih =>
    by_cases hfit : Fits o s
    · obtain ⟨s', hexec, hr'⟩ := o.exec_simulates hr hfit
      simp [Refines, Along, filesStep, hr, hexec, hfit, ih hr']
    · obtain ⟨r, s', hexec, hne⟩ := o.exec_not_fits hr hfit
      simp [Refines, Along, filesStep, hexec, hfit, hne]

end

/-- For every content of the page, every offsets and every sequence of calls: `foo` behaves
as a file of 4096 bytes exactly when no write reaches across the end of the page. -/
theorem foo_refines_iff (m : Bytes) (fPos : ℕ → ℕ) (ops : List Op) :
    Refines m ops ⟨⟨m, false⟩, fPos⟩ ⟨.ofMem m 4096, fPos⟩ ↔
      Along filesStep Fits ops ⟨⟨m, false⟩, fPos⟩ := by
  have hstart : Represents m ⟨⟨m, false⟩, fPos⟩ ⟨.ofMem m 4096, fPos⟩ := by
    constructor
    · rfl
    · rfl
    · rfl
    · exact fun _ _ => rfl
  exact hstart.refines_iff ops

/-- Two bytes at offset 4095: the second one goes into the mutex. -/
theorem foo_write_overruns :
    ¬ Refines (fun _ => 0) [.write 0 [65, 66] (by decide)] ⟨⟨fun _ => 0, false⟩, fun _ => 4095⟩
      ⟨.ofMem (fun _ => 0) 4096, fun _ => 4095⟩ := by
  intro h
  obtain ⟨-, s', hexec, -⟩ := h
  have hreply := congrArg (Option.map fun r => r.1.ret) hexec
  rw [Option.map_some] at hreply
  have hret : (((Op.write 0 [65, 66] (by decide)).exec
      ⟨⟨fun _ => 0, false⟩, fun _ => 4095⟩).map fun r => r.1.ret) = some 2 := by
    decide +kernel
  have hspec : ((Op.write 0 [65, 66] (by decide)).spec
      ⟨.ofMem (fun _ => 0) 4096, fun _ => 4095⟩).1.ret = 1 := by
    decide +kernel
  rw [hret, hspec] at hreply
  contradiction

end Eudyptula.Debugfs
