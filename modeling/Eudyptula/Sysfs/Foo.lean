import Eudyptula.Lib.CString
import Eudyptula.Debugfs.Foo

/-! The attribute `foo` of Task_9 in sysfs. `foo_store` copies with `strncpy` over what the
page holds, `foo_show` prints the page as a C string. Both use the `struct foo` of Task_8. -/
namespace Eudyptula.Sysfs
open CMem Runs
open Eudyptula.Debugfs (Foo)

/-- A call of `foo_store`: the kernel hands over at most a page, with a NUL behind it. -/
structure Store where
  buf : List UInt8
  interrupted : Bool
  fits : buf.length ≤ 4096

/-- Return value and state; `none` when the call waits for the mutex. -/
def fooStore (st : Store) (s : Foo) : Option (ℤ × Foo) :=
  if st.interrupted then some (-ERESTARTSYS, s)
  else if s.held then none
  else
    let s := { s with held := true }
    let mem := strncpy s.mem (fun k => st.buf.getD k 0) st.buf.length
    some (st.buf.length, ⟨mem, false⟩)

/-- `sprintf(buf, "%s\n", s)`: the result, and the bytes written with the terminating NUL. -/
def sprintfLine (s : List UInt8) : ℤ × List UInt8 := (s.length + 1, s ++ [10, 0])

/-- Return value, the bytes written into the output buffer and the state, where `mapped`
bytes can be read from the start of the page on. `none` when the call waits for the mutex, or
when the string is not terminated in these bytes. -/
def fooShow (mapped : ℕ) (interrupted : Bool) (s : Foo) : Option (ℤ × List UInt8 × Foo) :=
  if interrupted then some (-ERESTARTSYS, [], s)
  else if s.held then none
  else
    let s := { s with held := true }
    (terminated s.mem 0 mapped).map fun str =>
      let (retval, out) := sprintfLine str
      (retval, out, { s with held := false })

/-- A store of `n` times the letter `b`. -/
def Store.letters (n : ℕ) (b : UInt8) (h : n ≤ 4096) : Store :=
  ⟨List.replicate n b, false, by simpa using h⟩

def storeStep (st : Store) (s : Foo) : Option Foo := (fooStore st s).map Prod.snd

/-- The page is static storage, so zero; `m` is what follows it. -/
def start (m : Bytes) : Foo := ⟨fun k => if k < 4096 then 0 else m k, false⟩

section
variable {st : Store} {s : Foo}

/-- What a store leaves in the storage. -/
def Store.write (st : Store) (m : Bytes) : Bytes :=
  if st.interrupted then m else store m 0 (strncpyBytes (fun k => st.buf.getD k 0) 0 st.buf.length)

theorem storeStep_free (hfree : s.held = false) :
    storeStep st s = some ⟨st.write s.mem, false⟩ := by
  obtain ⟨mem, held⟩ := s
  cases hfree
  unfold storeStep fooStore Store.write
  simp only [Bool.false_eq_true, if_false]
  split_ifs <;> rfl

theorem Store.write_beyond {m : Bytes} {k : ℕ} (h : st.buf.length ≤ k) :
    st.write m k = m k := by
  unfold Store.write
  split_ifs
  · rfl
  · exact store_outside (.inr (by simpa using h))

theorem Store.write_at {m : Bytes} {k : ℕ} (hi : st.interrupted = false)
    (hk : k < st.buf.length) :
    st.write m k = (strncpyBytes (fun k => st.buf.getD k 0) 0 st.buf.length).getD k 0 := by
  unfold Store.write
  rw [hi, if_neg (by decide), store_inside (by omega) (by simpa using hk), Nat.sub_zero]

theorem Store.write_data {m : Bytes} {k : ℕ} (hi : st.interrupted = false)
    (hbytes : ∀ j < k, st.buf.getD j 0 ≠ 0) (hk : k < st.buf.length) :
    st.write m k = st.buf.getD k 0 := by
  rw [Store.write_at hi hk, strncpyBytes_before_nul _ hk, Nat.zero_add]
  intro j hj
  rw [Nat.zero_add]
  exact hbytes j hj

theorem run_free (ls : List Store) (hfree : s.held = false) :
    ∃ t, run storeStep ls s = some t ∧ t.held = false := by
  induction ls generalizing s with
  | nil => exact ⟨s, rfl, hfree⟩
  | cons st ls ih =>
    obtain ⟨t, ht, hheld⟩ := ih (s := ⟨st.write s.mem, false⟩) rfl
    exact ⟨t, by rw [run, storeStep_free hfree]; exact ht, hheld⟩

theorem fooShow_free (mapped : ℕ) (hfree : s.held = false) :
    fooShow mapped false s = (terminated s.mem 0 mapped).map fun str =>
      (((str.length + 1 : ℕ) : ℤ), str ++ [10, 0], s) := by
  obtain ⟨mem, held⟩ := s
  cases hfree
  rfl

end

/-- `foo_store` of `data` followed by `foo_show` yields the data and a newline. -/
def RoundTrips (mapped : ℕ) (st : Store) (s : Foo) : Prop :=
  ∃ t, fooStore st s = some ((st.buf.length : ℤ), t) ∧
    fooShow mapped false t = some (((st.buf.length + 1 : ℕ) : ℤ), st.buf ++ [10, 0], t)

/-- After every history of stores, a NUL-free text of up to 4094 bytes is shown as it was
stored exactly when the page has a NUL at the index where the text ends: `strncpy` copies
no terminator, so what earlier stores left there is shown too. -/
theorem foo_roundTrips_iff (m : Bytes) (ls : List Store) (s : Foo)
    (hs : run storeStep ls (start m) = some s) (st : Store) (hdone : st.interrupted = false)
    (hdata : 0 ∉ st.buf) (hlen : st.buf.length ≤ 4094)
    (mapped : ℕ) (hmapped : 4096 ≤ mapped) :
    RoundTrips mapped st s ↔ s.mem st.buf.length = 0 := by
  obtain ⟨_, hs', hfree⟩ := run_free ls (show (start m).held = false from rfl)
  cases hs.symm.trans hs'
  have hstore : fooStore st s = some ((st.buf.length : ℤ), ⟨st.write s.mem, false⟩) := by
    simp [fooStore, Store.write, hdone, hfree, strncpy]
  have hshow := fooShow_free mapped (show Foo.held ⟨st.write s.mem, false⟩ = false from rfl)
  have hstr : terminated (st.write s.mem) 0 mapped = some st.buf ↔ s.mem st.buf.length = 0 := by
    have hbytes : ∀ k < st.buf.length, st.write s.mem (0 + k) = st.buf.getD k 0 := by
      intro k hk
      rw [Nat.zero_add]
      exact Store.write_data hdone (fun j hj => getD_ne_zero hdata (by omega)) hk
    rw [terminated_eq_some_iff hdata (by omega) hbytes, Nat.zero_add,
      Store.write_beyond (Nat.le_refl _)]
  rw [← hstr]
  unfold RoundTrips
  constructor
  · rintro ⟨t, ht, hout⟩
    cases hstore.symm.trans ht
    rw [hshow, Option.map_eq_some_iff] at hout
    obtain ⟨str, hterm, heq⟩ := hout
    have hsame : str = st.buf := List.append_cancel_right (congrArg (fun r => r.2.1) heq)
    rw [hterm, hsame]
  · intro hterm
    exact ⟨_, hstore, by rw [hshow, hterm]; rfl⟩

/-- "NNN" after a store of "AA". -/
theorem foo_roundTrips_iff_longer :
    ∃ s, run storeStep [.letters 2 65 (by decide)] (start fun _ => 0) = some s ∧
      RoundTrips 4096 (.letters 3 78 (by decide)) s := by
  refine ⟨⟨Store.write (.letters 2 65 (by decide)) (start fun _ => 0).mem, false⟩, rfl, ?_⟩
  exact (foo_roundTrips_iff (fun _ => 0) [.letters 2 65 (by decide)] _ rfl
    (.letters 3 78 (by decide)) rfl (by decide) (by decide) 4096 (by decide)).mpr
      (by decide +kernel)

/-- A store of "N" after one of "AA" is shown as "NA". -/
theorem foo_shows_earlier_store :
    ∃ s, run storeStep [.letters 2 65 (by decide)] (start fun _ => 0) = some s ∧
      ¬ RoundTrips 4096 (.letters 1 78 (by decide)) s := by
  refine ⟨⟨Store.write (.letters 2 65 (by decide)) (start fun _ => 0).mem, false⟩, rfl, ?_⟩
  rintro ⟨t, ht, hout⟩
  cases ht
  have hshown := congrArg (Option.map fun r : ℤ × List UInt8 × Foo => r.2.1) hout
  revert hshown
  decide +kernel

/-- The string in the page ends early enough for `foo_show` with its newline and its NUL:
with no more than the page to read from, it writes no more than a page. -/
def Bounded (s : Foo) : Prop :=
  (∃ i ≤ 4094, s.mem i = 0) ∧
    ∃ ret out, fooShow 4096 false s = some (ret, out, s) ∧ out.length ≤ 4096

/-- The store does not reach index 4094, or its text ends before that index or there. -/
def Store.Ends (st : Store) : Prop :=
  st.interrupted = true ∨ st.buf.length ≤ 4094 ∨ 0 ∈ st.buf.take 4095

section
variable {st : Store} {s : Foo}

theorem bounded_of_nul (hfree : s.held = false) (h : s.mem 4094 = 0) : Bounded s := by
  refine ⟨⟨4094, Nat.le_refl _, h⟩, ?_⟩
  rw [← Nat.zero_add 4094] at h
  obtain ⟨str, hterm, hlen⟩ := terminated_of_nul (show 4094 < 4096 by omega) h
  refine ⟨_, _, by rw [fooShow_free 4096 hfree, hterm]; rfl, ?_⟩
  simpa using hlen

/-- One store: the NUL at 4094 stays, or `strncpy` pads up to it. -/
theorem Store.Ends.write_last (hends : st.Ends) {m : Bytes} (h : m 4094 = 0) :
    st.write m 4094 = 0 := by
  by_cases hreach : st.buf.length ≤ 4094
  · rw [Store.write_beyond hreach, h]
  cases hi : st.interrupted with
  | true =>
    unfold Store.write
    rw [hi, if_pos rfl, h]
  | false =>
    have hnul : 0 ∈ st.buf.take 4095 := by
      rcases hends with hint | hlen | hnul
      · exact absurd (hi.symm.trans hint) (by decide)
      · exact absurd hlen hreach
      · exact hnul
    obtain ⟨j, hj, hzero⟩ := List.mem_iff_getElem.mp hnul
    rw [List.getElem_take] at hzero
    rw [List.length_take] at hj
    rw [Store.write_at hi (by omega)]
    refine strncpyBytes_after_nul (j := j) ?_ (by omega)
    rw [Nat.zero_add, List.getD_eq_getElem _ _ (by omega), hzero]

/-- A text of 4095 bytes and more leaves no NUL where `foo_show` needs one. -/
theorem Store.not_bounded (hno : ¬ st.Ends) (m : Bytes) : ¬ Bounded ⟨st.write m, false⟩ := by
  unfold Store.Ends at hno
  simp only [not_or, Bool.not_eq_true, Nat.not_le] at hno
  obtain ⟨hi, hlen, hnul⟩ := hno
  have hbytes : ∀ k ≤ 4094, st.buf.getD k 0 ≠ 0 := by
    intro k hk h
    apply hnul
    rw [List.getD_eq_getElem _ _ (by omega)] at h
    exact List.mem_iff_getElem.mpr ⟨k, by rw [List.length_take]; omega, by simp [h]⟩
  rintro ⟨⟨i, hi4094, hzero⟩, -⟩
  have hdata := Store.write_data (m := m) hi (fun j hj => hbytes j (by omega)) (by omega : i < _)
  exact hbytes i hi4094 (hdata.symm.trans hzero)

/-- Along every run of stores from a page with a NUL at 4094. -/
theorem always_bounded_iff (ls : List Store) (hfree : s.held = false) (h : s.mem 4094 = 0) :
    Always storeStep Bounded ls s ↔ ∀ st ∈ ls, st.Ends := by
  have hs := bounded_of_nul hfree h
  induction ls generalizing s with
  | nil => exact iff_of_true hs (by simp)
  | cons st ls ih =>
    rw [List.forall_mem_cons]
    by_cases hends : st.Ends
    · have hnul : st.write s.mem 4094 = 0 := hends.write_last h
      have hrest := ih (s := ⟨st.write s.mem, false⟩) rfl hnul (bounded_of_nul rfl hnul)
      simp [Always, hs, storeStep_free hfree, hends, hrest]
    · refine iff_of_false (fun halways => ?_) fun hall => hends hall.1
      have hafter := halways.2 _ (storeStep_free hfree)
      exact Store.not_bounded hends s.mem hafter.here

end

/-- For every sequence of stores, whatever they contain: `foo_show` stays inside the page and
its output buffer in every state reached exactly when no store puts 4095 NUL-free bytes. -/
theorem foo_bounded_iff (m : Bytes) (ls : List Store) :
    Always storeStep Bounded ls (start m) ↔ ∀ st ∈ ls, st.Ends :=
  always_bounded_iff ls rfl rfl

/-- After 4095 letters the string ends at the last byte of the page, too late. -/
theorem foo_show_overruns :
    ¬ Always storeStep Bounded [.letters 4095 65 (by decide)] (start fun _ => 0) := by
  intro h
  have hafter := h.2 _ (storeStep_free rfl)
  refine Store.not_bounded ?_ _ hafter.here
  rintro (hint | hlen | hnul)
  · exact Bool.false_ne_true hint
  · rw [show (Store.letters 4095 65 _).buf.length = 4095 from List.length_replicate] at hlen
    omega
  · have hletter := List.eq_of_mem_replicate (List.mem_of_mem_take hnul)
    exact absurd hletter (by decide)

end Eudyptula.Sysfs
