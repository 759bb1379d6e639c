import Eudyptula.Lib.CriticalSection
import Eudyptula.Debugfs.Foo

/-! Calls of `foo_read` and `foo_write` by many threads at once, byte by byte. Under the mutex
they behave as the calls one after another, as long as no write reaches into the mutex. -/
namespace Eudyptula.Debugfs
open CMem Critical Function Runs

inductive Call
  | read (r : ReadArgs)
  | write (w : WriteArgs)

/-- The mutex lies behind the page. A write that starts in the page has to end there; one that
starts past it writes nothing. -/
def Call.Fits : Call → Prop
  | .read _ => True
  | .write w => 4096 ≤ w.fPos ∨ w.fPos + w.count ≤ 4096

instance : DecidablePred Call.Fits
  | .read _ => inferInstanceAs (Decidable True)
  | .write w => inferInstanceAs (Decidable (4096 ≤ w.fPos ∨ w.fPos + w.count ≤ 4096))

/-- Return value, new `*f_pos` and the bytes delivered. -/
structure Result where
  ret : ℤ
  fPos : ℕ
  data : List UInt8
  deriving DecidableEq

/-- Where a call is between the lock and the unlock. -/
inductive Pos
  | read (r : ReadArgs)
  | copyTo (r : ReadArgs) (count : ℕ) (data : List UInt8)
  | write (w : WriteArgs)
  | copyFrom (w : WriteArgs) (done : ℕ)

def instr : Pos → Bytes → (Pos × Bytes) ⊕ Result
  | .read r, mem =>
    if 4096 ≤ r.fPos then .inr ⟨0, r.fPos, []⟩
    else
      let count := if (r.fPos + r.count) % 2 ^ 64 > 4096 then 4096 - r.fPos else r.count
      .inl (.copyTo r count [], mem)
  | .copyTo r count data, mem =>
    if data.length = count then .inr ⟨count, r.fPos + count, data⟩
    else if data.length = r.room then .inr ⟨-EFAULT, r.fPos, []⟩
    else .inl (.copyTo r count (data ++ [mem (r.fPos + data.length)]), mem)
  | .write w, mem =>
    if 4096 ≤ w.fPos then .inr ⟨0, w.fPos, []⟩ else .inl (.copyFrom w 0, mem)
  | .copyFrom w done, mem =>
    if done = w.count then
      if w.buf.length < w.count then .inr ⟨-EFAULT, w.fPos, []⟩
      else .inr ⟨w.count, w.fPos + w.count, []⟩
    else .inl (.copyFrom w (done + 1), update mem (w.fPos + done) (w.buf.getD done 0))

def fooBody : Body Call Pos Bytes Result where
  enter
    | .read r => .read r
    | .write w => .write w
  step := instr

/-- The call as `fooRead` and `fooWrite` make it, in one step. -/
def atomically : Call → Foo → Option (Result × Foo)
  | .read r, s => (fooRead false r s).map fun (ret, fPos, data, s) => (⟨ret, fPos, data⟩, s)
  | .write w, s => (fooWrite false w s).map fun (ret, fPos, s) => (⟨ret, fPos, []⟩, s)

/-- The calls of a log one after another, each with the result that the log has for it. -/
def replay {τ : Type*} : List (τ × Call × Result) → Foo → Option Foo
  | [], s => some s
  | (_, c, r) :: log, s =>
    (atomically c s).bind fun (r', s) => if r' = r then replay log s else none

/-- What a call that started with the storage `m` has done so far. -/
inductive Underway (m : Bytes) : Call → Pos → Bytes → Prop
  | read {r} : Underway m (.read r) (.read r) m
  | copyTo {r count data} (hp : r.fPos < 4096) (hcount : count = min r.count (4096 - r.fPos))
      (hdata : data = load m r.fPos data.length) (hlen : data.length ≤ min count r.room) :
      Underway m (.read r) (.copyTo r count data) m
  | write {w} : Underway m (.write w) (.write w) m
  | copyFrom {w done} (hp : w.fPos < 4096) (hdone : done ≤ w.count) :
      Underway m (.write w) (.copyFrom w done)
        (store m w.fPos ((copied w.buf w.count).take done))

theorem load_succ (m : Bytes) (off n : ℕ) :
    load m off (n + 1) = load m off n ++ [m (off + n)] := by
  simp [load, List.range_succ]

theorem store_take_succ (m : Bytes) (off : ℕ) {src : List UInt8} {n : ℕ}
    (hn : n < src.length) : store m off (src.take (n + 1)) =
      update (store m off (src.take n)) (off + n) (src.getD n 0) := by
  funext k
  by_cases hk : k = off + n
  · subst hk
    rw [update_self, store_inside (by omega) (by rw [List.length_take]; omega),
      Nat.add_sub_cancel_left]
    simp
  · rw [update_of_ne hk]
    by_cases hin : off ≤ k ∧ k < off + n
    · rw [store_inside hin.1 (by rw [List.length_take]; omega),
        store_inside hin.1 (by rw [List.length_take]; omega)]
      have hlt : k - off < n := by omega
      have hlt' : k - off < n + 1 := by omega
      simp [hlt, hlt']
    · rw [store_outside (by rw [List.length_take]; omega),
        store_outside (by rw [List.length_take]; omega)]

theorem Underway.step {m mem mem' : Bytes} {c : Call} {p p' : Pos} (h : Underway m c p mem)
    (hstep : instr p mem = .inl (p', mem')) : Underway m c p' mem' := by
  cases h with
  | @read r =>
    have hadm := r.admitted
    unfold maxRwCount at hadm
    by_cases hp : 4096 ≤ r.fPos
    · simp [instr, hp] at hstep
    · simp only [instr, hp, if_false,
        clamp_eq_min (p := r.fPos) (c := r.count) (n := 4096) (by omega) (by omega)] at hstep
      cases hstep
      exact .copyTo (by omega) rfl rfl (Nat.zero_le _)
  | @copyTo r count data hp hcount hdata hlen =>
    simp only [instr] at hstep
    split_ifs at hstep with hend hroom
    cases hstep
    refine .copyTo hp hcount ?_ ?_
    · rw [List.length_append, List.length_singleton, load_succ, ← hdata]
    · rw [List.length_append, List.length_singleton]
      omega
  | @write w =>
    simp only [instr] at hstep
    split_ifs at hstep with hp
    cases hstep
    have hnil : store m w.fPos ((copied w.buf w.count).take 0) = m := by
      funext k
      exact store_outside (by simp; omega)
    have hstart : Underway m (.write w) (.copyFrom w 0)
        (store m w.fPos ((copied w.buf w.count).take 0)) := .copyFrom (by omega) (Nat.zero_le _)
    rwa [hnil] at hstart
  | @copyFrom w done hp hdone =>
    simp only [instr] at hstep
    split_ifs at hstep with hend
    cases hstep
    have hnext : Underway m (.write w) (.copyFrom w (done + 1))
        (store m w.fPos ((copied w.buf w.count).take (done + 1))) := .copyFrom hp (by omega)
    rwa [store_take_succ m w.fPos (by simp; omega), getD_copied (by omega)] at hnext

theorem underway_goes {m mem : Bytes} {c : Call} {p : Pos}
    (h : fooBody.Goes (fooBody.enter c) m p mem) : Underway m c p mem := by
  induction h with
  | start =>
    cases c with
    | read r => exact .read
    | write w => exact .write
  | step _ hstep ih => exact ih.step hstep

/-- A call that runs whole is the call of the sequential model. -/
theorem atomically_of_whole {m mem : Bytes} {c : Call} {r : Result}
    (h : fooBody.Whole c m r mem) : atomically c ⟨m, false⟩ = some (r, ⟨mem, false⟩) := by
  obtain ⟨p, hgoes, hend⟩ := h
  cases underway_goes hgoes with
  | @read r =>
    simp only [fooBody, instr] at hend
    split_ifs at hend with hp
    cases hend
    simp [atomically, fooRead, hp]
  | @copyTo r count data hp hcount hdata hlen =>
    have hread : fooRead false r ⟨m, false⟩ = _ := fooRead_eq r rfl
    rw [← hcount] at hread
    simp only [fooBody, instr] at hend
    split_ifs at hend with hall hroom <;> cases hend
    · rw [if_neg (by omega), ← hall, ← hdata] at hread
      simp [atomically, hread, hall]
    · rw [if_pos (by omega)] at hread
      simp [atomically, hread]
  | @write w =>
    simp only [fooBody, instr] at hend
    split_ifs at hend with hp
    cases hend
    simp [atomically, fooWrite, hp]
  | @copyFrom w done hp hdone =>
    simp only [fooBody, instr] at hend
    split_ifs at hend with hall hleft <;> cases hend
    all_goals
      subst hall
      rw [List.take_of_length_le (by simp)]
    · have hne : w.count - w.buf.length ≠ 0 := by omega
      simp [atomically, fooWrite, copyFromUser_eq, Nat.not_le.mpr hp, hne]
    · have heq : w.count - w.buf.length = 0 := by omega
      simp [atomically, fooWrite, copyFromUser_eq, Nat.not_le.mpr hp, heq]

/-- A call that fits leaves what lies behind the page alone, also while it is under way. -/
theorem Underway.rest {m mem : Bytes} {c : Call} {p : Pos} (h : Underway m c p mem)
    (hfits : c.Fits) {k : ℕ} (hk : 4096 ≤ k) : mem k = m k := by
  cases h with
  | read | copyTo | write => rfl
  | @copyFrom w done hp hdone =>
    refine store_outside (Or.inr ?_)
    have hend : w.fPos + w.count ≤ 4096 := hfits.resolve_left (Nat.not_le.mpr hp)
    rw [List.length_take, length_copied]
    omega

section
variable {τ : Type*} {m mem : Bytes} {log : List (τ × Call × Result)}

theorem replay_append {log log' : List (τ × Call × Result)} {s t : Foo}
    (h : replay log s = some t) : replay (log ++ log') s = replay log' t := by
  induction log generalizing s with
  | nil =>
    cases h
    rfl
  | cons e log ih =>
    obtain ⟨q, c, r⟩ := e
    simp only [replay, Option.bind_eq_some_iff] at h
    obtain ⟨⟨r', u⟩, hcall, h⟩ := h
    split_ifs at h with hr
    simp only [List.cons_append, replay, hcall, Option.bind_some]
    rw [if_pos hr]
    exact ih h

theorem replay_serial (h : fooBody.Serial m log mem) :
    replay log ⟨m, false⟩ = some ⟨mem, false⟩ := by
  induction h with
  | nil => rfl
  | snoc h hcall ih =>
    rw [replay_append ih]
    simp [replay, atomically_of_whole hcall]

theorem rest_serial (h : fooBody.Serial m log mem) (hfits : ∀ e ∈ log, e.2.1.Fits) {k : ℕ}
    (hk : 4096 ≤ k) : mem k = m k := by
  induction h with
  | nil => rfl
  | snoc h hcall ih =>
    obtain ⟨p, hgoes, -⟩ := hcall
    have hlast := hfits _ (List.mem_append_right _ (List.mem_singleton_self _))
    rw [(underway_goes hgoes).rest hlast hk, ih fun e he => hfits e (List.mem_append_left _ he)]

/-- The finished calls have the results of the calls one after another. The page is as these
leave it when nobody is inside, and as the one call inside has made it from there otherwise. No
byte behind the page, where the mutex is, has been written. -/
structure Atomic (m : Bytes) (x : State τ Call Pos Bytes Result) : Prop where
  replays : ∃ mem, replay x.log ⟨m, false⟩ = some ⟨mem, false⟩ ∧
    (x.owner = none ∧ x.shared = mem ∧ (∀ t, (x.phase t).Outside) ∨
      ∃ t c p, x.owner = some t ∧ x.phase t = .inside c p ∧ Underway mem c p x.shared ∧
        ∀ q, q ≠ t → (x.phase q).Outside)
  rest : ∀ k, 4096 ≤ k → x.shared k = m k

/-- Whatever calls are made and however their instructions are interleaved, if no write reaches
past the page. -/
theorem foo_calls_atomic [DecidableEq τ] (m : Bytes) (ls : List (Label τ Call))
    (hfits : Along fooBody.next (fun l _ => l.Makes Call.Fits) ls (.idle m)) :
    Always fooBody.next (Atomic m) ls (.idle m) := by
  have hboth := (fooBody.always_serializes m ls).and (fooBody.always_callsMeet m hfits)
  refine hboth.mono ?_
  rintro x ⟨⟨u, hserial, hfrom⟩, hmeet⟩
  have hrest := fun k (hk : 4096 ≤ k) => rest_serial hserial hmeet.finished hk
  cases hfrom with
  | free howner hshared hout =>
    refine ⟨⟨u, replay_serial hserial, Or.inl ⟨howner, hshared, hout⟩⟩, fun k hk => ?_⟩
    rw [hshared, hrest k hk]
  | @held t c p howner hin hgoes hout =>
    have hunder := underway_goes hgoes
    refine ⟨⟨u, replay_serial hserial, Or.inr ⟨t, c, p, howner, hin, hunder, hout⟩⟩, ?_⟩
    intro k hk
    rw [hunder.rest (hmeet.underway t c (by rw [hin]; rfl)) hk, hrest k hk]

/-- A read comes while a write of two bytes is inside and has written one. -/
def readDuringWrite : List (Label Bool Call) :=
  [.call true (.write (.pair 78 75)), .acquire true, .work true, .work true,
    .call false (.read ⟨2, 0, 2, (WriteArgs.pair 78 75).admitted⟩), .work true, .work true,
    .acquire false, .work false, .work false, .work false, .work false]

theorem foo_calls_atomic_readDuringWrite :
    (run fooBody.next readDuringWrite (.idle fun _ => 0)).isSome ∧
      Always fooBody.next (Atomic fun _ => 0) readDuringWrite (.idle fun _ => 0) :=
  ⟨by decide +kernel, foo_calls_atomic _ readDuringWrite (by decide +kernel)⟩

end
end Eudyptula.Debugfs
