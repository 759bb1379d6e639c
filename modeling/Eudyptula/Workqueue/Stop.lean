import Eudyptula.Workqueue.Unload

/-! The threads started by the work, and the loop of `cleanup_module` that stops them. -/
namespace Eudyptula.Workqueue
open Runs State

variable {s t : State} {l : Label}

/-- Every thread has one element of `ts`, or the worker is about to store it there, or it
went past the end. -/
structure Slots (s : State) : Prop where
  filled : ∀ i p, s.ts i = some p → i < s.count ∧ i < TS_SIZE
  made : ∀ i j, s.ts i = some (.task j) → j < s.threads.length
  inj : ∀ i i' j, s.ts i = some (.task j) → s.ts i' = some (.task j) → i = i'
  new : ∀ j, s.work = .store (.task j) → j < s.threads.length ∧ ∀ i, s.ts i ≠ some (.task j)
  all : ∀ j < s.threads.length,
    (∃ i, s.ts i = some (.task j)) ∨ s.work = .store (.task j) ∨ s.overrun = true
  overrun : s.overrun = true ↔ TS_SIZE < s.count

/-- The steps that store nothing and start nothing. -/
theorem Slots.keep (h : Slots s) (hts : t.ts = s.ts) (hcount : t.count = s.count)
    (hover : t.overrun = s.overrun) (hthreads : t.threads.length = s.threads.length)
    (hwork : ∀ j, t.work = .store (.task j) ↔ s.work = .store (.task j)) : Slots t where
  filled := by rw [hts, hcount]; exact h.filled
  made := by rw [hts, hthreads]; exact h.made
  inj := by rw [hts]; exact h.inj
  new j hj := by rw [hts, hthreads]; exact h.new j ((hwork j).mp hj)
  all j hj := by
    rw [hthreads] at hj
    rw [hts, hover, hwork]
    exact h.all j hj
  overrun := by rw [hover, hcount]; exact h.overrun

theorem Slots.create (h : Slots s) (hw : s.work = .create) :
    Slots { s with
      work := .store (.task s.threads.length), threads := s.threads ++ [.running] } where
  filled := h.filled
  made i j hij := by
    have hj := h.made i j hij
    simp only [List.length_append, List.length_singleton]
    omega
  inj := h.inj
  new j hj := by
    obtain rfl : s.threads.length = j := by simpa using hj
    refine ⟨by simp, fun i hi => ?_⟩
    exact absurd (h.made i _ hi) (Nat.lt_irrefl _)
  all j hj := by
    by_cases hlt : j < s.threads.length
    · rcases h.all j hlt with hslot | hstore | hlost
      · exact Or.inl hslot
      · rw [hw] at hstore
        cases hstore
      · exact Or.inr (Or.inr hlost)
    · obtain rfl : s.threads.length = j := by
        simp only [List.length_append, List.length_singleton] at hj
        omega
      exact Or.inr (Or.inl rfl)
  overrun := h.overrun

theorem Slots.store (h : Slots s) {p : TaskPtr} (hw : s.work = .store p)
    (hlt : s.count < TS_SIZE) :
    Slots { s with
      ts := Function.update s.ts s.count (some p), count := s.count + 1, work := .requeue } where
  filled i q hq := by
    by_cases hi : i = s.count
    · subst hi
      exact ⟨Nat.lt_succ_self _, hlt⟩
    · have hold := h.filled i q (by simpa [hi] using hq)
      exact ⟨Nat.lt_succ_of_lt hold.1, hold.2⟩
  made i j hij := by
    by_cases hi : i = s.count
    · obtain rfl : p = .task j := by simpa [hi] using hij
      exact (h.new j hw).1
    · exact h.made i j (by simpa [hi] using hij)
  inj i i' j hi hi' := by
    -- the new pointer is in no other element
    have hnew : ∀ k, k ≠ s.count → p = .task j →
        Function.update s.ts s.count (some p) k ≠ some (.task j) := by
      rintro k hk rfl
      simpa [hk] using (h.new j hw).2 k
    by_cases hc : i = s.count <;> by_cases hc' : i' = s.count
    · rw [hc, hc']
    · exact absurd hi' (hnew i' hc' (by simpa [hc] using hi))
    · exact absurd hi (hnew i hc (by simpa [hc'] using hi'))
    · exact h.inj i i' j (by simpa [hc] using hi) (by simpa [hc'] using hi')
  new := nofun
  all j hj := by
    rcases h.all j hj with ⟨i, hi⟩ | hstore | hlost
    · have hne : i ≠ s.count := Nat.ne_of_lt (h.filled i _ hi).1
      exact Or.inl ⟨i, by simpa [hne] using hi⟩
    · obtain rfl : p = .task j := by simpa using hw.symm.trans hstore
      exact Or.inl ⟨s.count, by simp⟩
    · exact Or.inr (Or.inr hlost)
  overrun := by
    rw [h.overrun]
    dsimp only
    omega

theorem Slots.lose (h : Slots s) (hge : TS_SIZE ≤ s.count) :
    Slots { s with overrun := true, count := s.count + 1, work := .requeue } where
  filled i q hq := ⟨Nat.lt_succ_of_lt (h.filled i q hq).1, (h.filled i q hq).2⟩
  made := h.made
  inj := h.inj
  new := nofun
  all _ _ := Or.inr (Or.inr rfl)
  overrun := iff_of_true rfl (Nat.lt_succ_of_le hge)

theorem Slots.step (h : Slots s) (hstep : State.step l s = some t) : Slots t := by
  cases goes_of_step hstep with
  | create hw => exact h.create hw
  | store hw hlt => exact h.store hw hlt
  | overrun hw hge => exact h.lose hge
  | begin hw _ | createErr hw | requeue hw | leave hw =>
    exact h.keep rfl rfl rfl rfl fun j => by simp [hw]
  | ask | exit => exact h.keep rfl rfl rfl (List.length_set ..) fun _ => Iff.rfl
  | fire | unload | flushed | test | cancel | flushedAgain | destroy | skip | oops | finish
  | join => exact h.keep rfl rfl rfl rfl fun _ => Iff.rfl

/-- The threads of the elements below have been stopped. -/
def CleanupPc.reached : CleanupPc → ℕ
  | .stop i _ | .join i _ _ | .oops i _ => i
  | .done _ => TS_SIZE
  | _ => 0

@[simp] theorem reached_executed (pc : CleanupPc) : pc.executed.reached = pc.reached := by
  cases pc <;> rfl

theorem executed_eq_join_iff {pc : CleanupPc} {i j : ℕ} {c : Bool} :
    pc.executed = .join i j c ↔ pc = .join i j c := by
  cases pc <;> simp [CleanupPc.executed]

theorem reached_of_not_destroyed {pc : CleanupPc} (h : pc.destroyed = false) : pc.reached = 0 := by
  cases pc <;> first | rfl | cases h

structure Stops (s : State) : Prop where
  past : ∀ i j, s.ts i = some (.task j) → i < s.cleanup.reached → s.threads[j]? = some .exited
  ahead : ∀ i j, s.ts i = some (.task j) → s.cleanup.reached ≤ i →
    s.threads[j]? = some .running ∨ ∃ c, s.cleanup = .join i j c
  fresh : ∀ j, s.work = .store (.task j) → s.threads[j]? = some .running
  joining : ∀ i j c, s.cleanup = .join i j c → s.ts i = some (.task j)

theorem Stops.keep (h : Stops s) (hts : t.ts = s.ts) (hthreads : t.threads = s.threads)
    (hwork : ∀ j, t.work = .store (.task j) → s.work = .store (.task j))
    (hreached : t.cleanup.reached = s.cleanup.reached)
    (hjoin : ∀ i j c, t.cleanup = .join i j c ↔ s.cleanup = .join i j c) : Stops t where
  past := by rw [hts, hthreads, hreached]; exact h.past
  ahead i j := by
    simp only [hts, hthreads, hreached, hjoin]
    exact h.ahead i j
  fresh j hj := by rw [hthreads]; exact h.fresh j (hwork j hj)
  joining i j c hc := by rw [hts]; exact h.joining i j c ((hjoin i j c).mp hc)

/-- As long as the worker is busy, no thread has been stopped. -/
theorem OnePlace.not_destroyed (h : OnePlace s) (hw : s.work ≠ .idle) :
    s.cleanup.destroyed = false := by
  by_contra hd
  exact hw (h.drained (by simpa using hd)).1

theorem not_join_of_not_destroyed (h : s.cleanup.destroyed = false) (i j : ℕ) (c : Bool) :
    s.cleanup ≠ .join i j c := by
  intro hc
  rw [hc] at h
  cases h

theorem Stops.running (h : Stops s) (hd : s.cleanup.destroyed = false) {i j : ℕ}
    (hij : s.ts i = some (.task j)) : s.threads[j]? = some .running := by
  have hzero := reached_of_not_destroyed hd
  refine (h.ahead i j hij (by omega)).resolve_right ?_
  rintro ⟨c, hc⟩
  exact not_join_of_not_destroyed hd i j c hc

theorem Stops.create (h : Stops s) (hslots : Slots s) (hd : s.cleanup.destroyed = false) :
    Stops { s with
      work := .store (.task s.threads.length), threads := s.threads ++ [.running] } where
  past i j _ hlt := by
    rw [reached_of_not_destroyed hd] at hlt
    omega
  ahead i j hij _ := by
    have hj := hslots.made i j hij
    exact Or.inl (by rw [List.getElem?_append_left hj, h.running hd hij])
  fresh j hj := by
    obtain rfl : s.threads.length = j := by simpa using hj
    exact List.getElem?_concat_length
  joining i j c hc := absurd hc (not_join_of_not_destroyed hd i j c)

theorem Stops.store (h : Stops s) {p : TaskPtr} (hw : s.work = .store p)
    (hd : s.cleanup.destroyed = false) :
    Stops { s with
      ts := Function.update s.ts s.count (some p), count := s.count + 1, work := .requeue } where
  past i j _ hlt := by
    rw [reached_of_not_destroyed hd] at hlt
    omega
  ahead i j hij _ := by
    by_cases hi : i = s.count
    · obtain rfl : p = .task j := by simpa [hi] using hij
      exact Or.inl (h.fresh j hw)
    · exact Or.inl (h.running hd (by simpa [hi] using hij))
  fresh := nofun
  joining i j c hc := absurd hc (not_join_of_not_destroyed hd i j c)

section
variable {i j : ℕ} {c : Bool}

theorem Stops.skip (h : Stops s) (hc : s.cleanup = .stop i c) (hnone : s.ts i = none) :
    Stops { s with cleanup := .stop (i + 1) c } where
  past i' j' hij hlt := by
    have hne : i' ≠ i := by
      rintro rfl
      simp [hnone] at hij
    have hlt' : i' < i + 1 := hlt
    exact h.past i' j' hij (by rw [hc]; show i' < i; omega)
  ahead i' j' hij hle := by
    have hle' : i + 1 ≤ i' := hle
    have hold := h.ahead i' j' hij (by rw [hc]; show i ≤ i'; omega)
    exact Or.inl (hold.resolve_right (by simp [hc]))
  fresh := h.fresh
  joining := nofun

theorem Stops.finish (h : Stops s) (hslots : Slots s) (hc : s.cleanup = .stop i c)
    (hge : TS_SIZE ≤ i) : Stops { s with cleanup := .done c } where
  past i' j' hij hlt := by
    have hlt' : i' < TS_SIZE := hlt
    exact h.past i' j' hij (by rw [hc]; show i' < i; omega)
  ahead i' j' hij hle := absurd (hslots.filled i' _ hij).2 (Nat.not_lt.mpr hle)
  fresh := h.fresh
  joining := nofun

theorem Stops.ask (h : Stops s) (hslots : Slots s) (hidle : s.work = .idle)
    (hc : s.cleanup = .stop i c) (hij : s.ts i = some (.task j)) :
    Stops { s with threads := s.threads.set j .asked, cleanup := .join i j c } := by
  have hother : ∀ i' j', s.ts i' = some (.task j') → i' ≠ i → j ≠ j' := by
    rintro i' j' hij' hne rfl
    exact hne (hslots.inj i' i j hij' hij)
  constructor
  · intro i' j' hij' hlt
    have hlt' : i' < i := hlt
    have hold := h.past i' j' hij' (by rw [hc]; exact hlt')
    rw [List.getElem?_set_ne (hother i' j' hij' (by omega))]
    exact hold
  · intro i' j' hij' hle
    by_cases hi : i' = i
    · subst hi
      obtain rfl : j = j' := by simpa using hij.symm.trans hij'
      exact Or.inr ⟨c, rfl⟩
    · have hold := h.ahead i' j' hij' (by rw [hc]; exact hle)
      rw [List.getElem?_set_ne (hother i' j' hij' hi)]
      exact Or.inl (hold.resolve_right (by simp [hc]))
  · intro j' hj'
    rw [hidle] at hj'
    cases hj'
  · rintro i' j' c' hjoin
    obtain ⟨rfl, rfl, -⟩ := CleanupPc.join.inj hjoin
    exact hij

theorem Stops.join (h : Stops s) (hc : s.cleanup = .join i j c)
    (hexit : s.threads[j]? = some .exited) : Stops { s with cleanup := .stop (i + 1) c } where
  past i' j' hij' hlt := by
    by_cases hi : i' = i
    · subst hi
      obtain rfl : j = j' := by simpa using (h.joining i' j c hc).symm.trans hij'
      exact hexit
    · have hlt' : i' < i + 1 := hlt
      exact h.past i' j' hij' (by rw [hc]; show i' < i; omega)
  ahead i' j' hij' hle := by
    have hle' : i + 1 ≤ i' := hle
    refine Or.inl ((h.ahead i' j' hij' (by rw [hc]; show i ≤ i'; omega)).resolve_right ?_)
    rintro ⟨c', hc'⟩
    have hi := (CleanupPc.join.inj (hc.symm.trans hc')).1
    omega
  fresh := h.fresh
  joining := nofun

theorem Stops.exit (h : Stops s) (hasked : s.threads[j]? = some .asked) :
    Stops { s with threads := s.threads.set j .exited } := by
  -- a thread in another state is another thread
  have hother : ∀ (j' : ℕ) (th : Thread), th ≠ .asked → s.threads[j']? = some th →
      (s.threads.set j .exited)[j']? = some th := by
    intro j' th hth hj'
    have hne : j ≠ j' := by
      rintro rfl
      exact hth (Option.some.inj (hj'.symm.trans hasked))
    rw [List.getElem?_set_ne hne, hj']
  constructor
  · exact fun i' j' hij hlt => hother j' _ nofun (h.past i' j' hij hlt)
  · exact fun i' j' hij hle => (h.ahead i' j' hij hle).imp_left (hother j' _ nofun)
  · exact fun j' hj' => hother j' _ nofun (h.fresh j' hj')
  · exact h.joining

end

theorem Stops.step (h : Stops s) (hone : OnePlace s) (hslots : Slots s)
    (hstep : State.step l s = some t) : Stops t := by
  cases goes_of_step hstep with
  | fire => exact h.keep rfl rfl (fun _ => id) rfl fun _ _ _ => Iff.rfl
  | begin | createErr | overrun | requeue => exact h.keep rfl rfl nofun rfl fun _ _ _ => Iff.rfl
  | create hw => exact h.create hslots (hone.not_destroyed (by simp [hw]))
  | store hw => exact h.store hw (hone.not_destroyed (by simp [hw]))
  | leave => exact h.keep rfl rfl nofun (reached_executed _) fun _ _ _ => executed_eq_join_iff
  | unload hc | flushed hc | cancel hc | flushedAgain hc | destroy hc | oops hc =>
    exact h.keep rfl rfl (fun _ => id) (by rw [hc]; rfl) fun _ _ _ => by simp [hc]
  | test hc hpc =>
    rcases hpc with ⟨-, rfl⟩ | ⟨-, rfl⟩ <;>
      exact h.keep rfl rfl (fun _ => id) (by rw [hc]; rfl) fun _ _ _ => by simp [hc]
  | skip hc _ hnone => exact h.skip hc hnone
  | ask hc _ hij =>
    exact h.ask hslots (hone.drained (by rw [hc]; rfl)).1 hc hij
  | finish hc hge => exact h.finish hslots hc hge
  | join hc hexit => exact h.join hc hexit
  | exit hasked => exact h.exit hasked

/-- `kthread_run` succeeds. -/
def Starts : Label → State → Prop
  | .work ok, s => s.work = .create → ok = true
  | _, _ => True

instance : (l : Label) → (s : State) → Decidable (Starts l s)
  | .work ok, s => inferInstanceAs (Decidable (s.work = .create → ok = true))
  | .fire, _ | .cleanup, _ | .thread _, _ => inferInstanceAs (Decidable True)

/-- No error pointer is in `ts` or on its way there. -/
structure Genuine (s : State) : Prop where
  stored : ∀ i, s.ts i ≠ some .err
  new : s.work ≠ .store .err
  noOops : ∀ i c, s.cleanup ≠ .oops i c

theorem Genuine.step (h : Genuine s) (hok : Starts l s) (hstep : State.step l s = some t) :
    Genuine t := by
  obtain ⟨hstored, hnew, hoops⟩ := h
  cases goes_of_step hstep with
  | createErr hw => simpa using hok hw
  | oops hc _ herr => exact absurd herr (hstored _)
  | store hw =>
    refine ⟨fun i => ?_, by simp, hoops⟩
    by_cases hi : i = s.count
    · rw [hw] at hnew
      simpa [hi] using hnew
    · simpa [hi] using hstored i
  | fire | exit => exact ⟨hstored, hnew, hoops⟩
  | begin | create | overrun | requeue => exact ⟨hstored, by simp, hoops⟩
  | leave =>
    refine ⟨hstored, by simp, fun i c hc => hoops i c ?_⟩
    cases hp : s.cleanup <;> simp_all [CleanupPc.executed]
  | unload | flushed | cancel | flushedAgain | destroy | skip | ask | finish | join =>
    exact ⟨hstored, hnew, by simp⟩
  | test hc hpc => rcases hpc with ⟨-, rfl⟩ | ⟨-, rfl⟩ <;> exact ⟨hstored, hnew, by simp⟩

end Eudyptula.Workqueue
