import Mathlib.Data.List.Nodup
import Eudyptula.Misc.Transitions

/-! What `kthread_fn` still holds when it returns: the buffers it got from `kmalloc` and the
wait entry `eu_wait`. -/
namespace Eudyptula.Misc
open IdList Runs State

/-- Every buffer obtained has been given to `kfree` once. -/
def Worker.FreedOnce (w : Worker) : Prop := ∀ b < w.obtained, w.freed.count b = 1

structure Worker.Released (w : Worker) : Prop where
  freed : w.FreedOnce
  unlinked : w.linked = false

/-- What the thread has in hand after `n` full passes of its loop. A return out of the
allocation belongs to `between`, the two other ones to `holding`. -/
inductive Stage (w : Worker) (n : ℕ) : Prop
  | between (hpc : w.pc = .alloc ∨ w.pc = .returned ∧ w.temp1 = none) (hob : w.obtained = n)
      (hl : w.linked = decide (0 < n))
  | fresh (hpc : w.pc = .prepare) (hob : w.obtained = n + 1) (ht : w.temp1 = some n)
  | holding (hpc : w.pc ≠ .alloc ∧ w.pc ≠ .prepare) (hob : w.obtained = n + 1)
      (ht : w.temp1 = some n) (hl : w.linked = true)

/-- Each full pass has freed its own buffer. -/
structure Books (w : Worker) (n : ℕ) : Prop where
  freed : w.freed = (List.range n).reverse
  stage : Stage w n

section
variable {w w' : Worker} {n : ℕ}

theorem books_start : Books .start 0 := ⟨rfl, .between (.inl rfl) rfl rfl⟩

theorem Stage.of_alloc (h : Stage w n) (hpc : w.pc = .alloc) :
    w.obtained = n ∧ w.linked = decide (0 < n) := by
  cases h with
  | between _ hob hl => exact ⟨hob, hl⟩
  | fresh hp => simp [hp] at hpc
  | holding hp => exact (hp.1 hpc).elim

theorem Stage.of_prepare (h : Stage w n) (hpc : w.pc = .prepare) :
    w.obtained = n + 1 ∧ w.temp1 = some n := by
  cases h with
  | between hp => rcases hp with hp | ⟨hp, -⟩ <;> simp [hp] at hpc
  | fresh _ hob ht => exact ⟨hob, ht⟩
  | holding hp => exact (hp.2 hpc).elim

theorem Stage.of_running (h : Stage w n) (hpc : w.pc ∉ [.alloc, .prepare, .returned]) :
    w.obtained = n + 1 ∧ w.temp1 = some n ∧ w.linked = true := by
  cases h with
  | between hp => rcases hp with hp | ⟨hp, -⟩ <;> simp [hp] at hpc
  | fresh hp => simp [hp] at hpc
  | holding _ hob ht hl => exact ⟨hob, ht, hl⟩

/-- Between `prepare_to_wait` and `kfree` nothing is acquired and nothing is released. -/
theorem Books.running (h : Books w n) (hpc : w.pc ∉ [.alloc, .prepare, .returned])
    (hpc' : w'.pc ≠ .alloc ∧ w'.pc ≠ .prepare)
    (hsame : w'.obtained = w.obtained ∧ w'.temp1 = w.temp1 ∧ w'.linked = w.linked ∧
      w'.freed = w.freed) : Books w' n := by
  obtain ⟨hob, ht, hl⟩ := h.stage.of_running hpc
  obtain ⟨hob', ht', hl', hf'⟩ := hsame
  exact ⟨hf'.trans h.freed, .holding hpc' (hob'.trans hob) (ht'.trans ht) (hl'.trans hl)⟩

/-- A wake-up or the stop flag. -/
theorem Books.signalled (h : Books w n) (task : TaskState) (stop : Bool) :
    Books { w with task, stop } n := by
  refine ⟨h.freed, ?_⟩
  cases h.stage with
  | between hpc hob hl => exact .between hpc hob hl
  | fresh hpc hob ht => exact .fresh hpc hob ht
  | holding hpc hob ht hl => exact .holding hpc hob ht hl

theorem WorkerMove.books {ok : Bool} (hm : WorkerMove ok w w') (h : Books w n) :
    ∃ m, Books w' m := by
  cases hm with
  | allocated hpc =>
    obtain ⟨hob, -⟩ := h.stage.of_alloc hpc
    exact ⟨n, h.freed, .fresh rfl (congrArg (· + 1) hob) (congrArg some hob)⟩
  | allocFailed hpc =>
    obtain ⟨hob, hl⟩ := h.stage.of_alloc hpc
    exact ⟨n, h.freed, .between (.inr ⟨rfl, rfl⟩) hob hl⟩
  | prepared hpc =>
    obtain ⟨hob, ht⟩ := h.stage.of_prepare hpc
    exact ⟨n, h.freed, .holding (by simp) hob ht rfl⟩
  | stopSeen hpc | toSchedule hpc | slept hpc | ranOn hpc | woken hpc | stopped hpc | toGet hpc
  | dozed hpc | resleeps hpc =>
    exact ⟨n, h.running (by simp [hpc]) (by simp [hpc]) ⟨rfl, rfl, rfl, rfl⟩⟩
  | reported hpc =>
    -- the end of a pass, and the only place where a buffer is freed
    obtain ⟨hob, ht, hl⟩ := h.stage.of_running (by simp [hpc])
    refine ⟨n + 1, ?_, .between (.inl rfl) hob (by simp [hl])⟩
    simp [ht, h.freed, List.range_succ]

theorem Books.returned (h : Books w n) (hpc : w.pc = .returned) :
    w.obtained = n ∧ w.temp1 = none ∧ w.linked = decide (0 < n) ∨
      w.obtained = n + 1 ∧ w.temp1 = some n ∧ w.linked = true := by
  cases h.stage with
  | between hp hob hl =>
    rcases hp with hp | ⟨-, ht⟩
    · simp [hp] at hpc
    · exact .inl ⟨hob, ht, hl⟩
  | fresh hp => simp [hp] at hpc
  | holding _ hob ht hl => exact .inr ⟨hob, ht, hl⟩

theorem Books.count_freed (h : Books w n) (b : ℕ) :
    w.freed.count b = if b < n then 1 else 0 := by
  rw [h.freed, List.count_reverse]
  split_ifs with hb
  · exact List.count_eq_one_of_mem List.nodup_range (List.mem_range.mpr hb)
  · exact List.count_eq_zero_of_not_mem (mt List.mem_range.mp hb)

theorem Books.freedOnce_iff (h : Books w n) (hpc : w.pc = .returned) :
    w.FreedOnce ↔ w.temp1 = none := by
  rcases h.returned hpc with ⟨hob, ht, -⟩ | ⟨hob, ht, -⟩
  · refine iff_of_true (fun b hb => ?_) ht
    rw [h.count_freed, if_pos (hob ▸ hb)]
  · -- the last buffer is still in `temp1`
    refine iff_of_false (fun hall => ?_) (by simp [ht])
    have hlast := hall n (by omega)
    rw [h.count_freed, if_neg (Nat.lt_irrefl n)] at hlast
    contradiction

theorem Books.released_iff (h : Books w n) (hpc : w.pc = .returned) :
    w.Released ↔ w.obtained = 0 := by
  have hfreed := h.freedOnce_iff hpc
  rcases h.returned hpc with ⟨hob, ht, hl⟩ | ⟨hob, ht, hl⟩
  · constructor
    · rintro ⟨-, hun⟩
      rw [hl] at hun
      have := of_decide_eq_false hun
      omega
    · intro h0
      exact ⟨hfreed.mpr ht, by simp [hl, ← hob, h0]⟩
  · constructor
    · rintro ⟨-, hun⟩
      simp [hl] at hun
    · omega

theorem Trans.books {l : Label} {s t : State} {es es' : List Entry} (htr : Trans s es l t es')
    (h : Books s.worker n) : ∃ m, Books t.worker m := by
  cases htr with
  | worker ht hm => exact hm.books h
  | workerGet ht hpc => exact ⟨n, h.running (by simp [hpc]) (by simp) ⟨rfl, rfl, rfl, rfl⟩⟩
  | @timedOut ret ht hpc =>
    refine ⟨n, h.running (by simp [hpc]) ?_ ⟨rfl, rfl, rfl, rfl⟩⟩
    dsimp only
    split_ifs <;> simp
  | exitStop | exitStopWake | spurious | writeWoken => exact ⟨n, h.signalled _ _⟩
  | registered | notRegistered | threadRun | initFail | initPut | initGet | initFind | initDestroy
  | exitStart | exitDestroy | exitLoopEnd | exitJoin | exitDeregister | writeEnded | writeCopied
  | writeFail | writePut | writeCounted => exact ⟨n, h⟩

/-- A `kmalloc` of `kthread_fn`, with its outcome. -/
def Mallocs (ok : Bool) (l : Label) (s : State) : Prop := l = .worker ok ∧ s.worker.pc = .alloc

instance (ok : Bool) (l : Label) (s : State) : Decidable (Mallocs ok l s) := by
  unfold Mallocs
  cases l with
  | worker b => exact decidable_of_iff (b = ok ∧ s.worker.pc = .alloc) (by simp)
  | _ => exact isFalse (by simp)

theorem Trans.obtained_zero_iff {l : Label} {s t : State} {es es' : List Entry}
    (htr : Trans s es l t es') :
    t.worker.obtained = 0 ↔ s.worker.obtained = 0 ∧ ¬ Mallocs true l s := by
  unfold Mallocs
  cases htr with
  | worker ht hm => cases hm <;> simp [*]
  | workerGet ht hpc => simp [hpc]
  | _ => simp [setStop, wakeUp]

/-- The thread gives up when a `kmalloc` fails; the other returns leave the buffer in `temp1`. -/
theorem Trans.gaveUp_iff {l : Label} {s t : State} {es es' : List Entry}
    (htr : Trans s es l t es') (h : Books s.worker n) :
    ¬ (t.worker.pc = .returned ∧ t.worker.temp1 = none) ↔
      ¬ (s.worker.pc = .returned ∧ s.worker.temp1 = none) ∧ ¬ Mallocs false l s := by
  unfold Mallocs
  cases htr with
  | worker ht hm =>
    cases hm with
    | stopped hpc =>
      obtain ⟨-, htemp, -⟩ := h.stage.of_running (by simp [hpc])
      simp [hpc, htemp]
    | _ hpc => simp [*]
  | workerGet ht hpc => simp [hpc]
  | timedOut ht hpc =>
    obtain ⟨-, htemp, -⟩ := h.stage.of_running (by simp [hpc])
    simp [hpc, htemp]
  | _ => simp [setStop, wakeUp]

def Booked (s : State) : Prop := (∃ es, Represents s.st.heap es) ∧ ∃ n, Books s.worker n

theorem booked_start : Booked .start := ⟨⟨[], represents_init⟩, 0, books_start⟩

/-- A step keeps the books whatever it does to the list. -/
theorem Booked.step {l : Label} {s t : State} (h : Booked s) (hst : step l s = some t) :
    Booked t := by
  obtain ⟨⟨es, hr⟩, n, hb⟩ := h
  obtain ⟨es', hr', htr⟩ := step_trans hr hst
  exact ⟨⟨es', hr'⟩, htr.books hb⟩

theorem booked_of_run {ls : List Label} {s : State} (hs : run Misc.step ls .start = some s) :
    Booked s :=
  (always_of_step (fun _ _ _ h hst => h.step hst) ls booked_start).of_run hs

/-- Nothing was obtained exactly when no `kmalloc` succeeded. -/
theorem obtained_zero_iff {ls : List Label} {s : State} (hs : run Misc.step ls .start = some s) :
    s.worker.obtained = 0 ↔ Along Misc.step (fun l s => ¬ Mallocs true l s) ls .start := by
  have hstep : ∀ l s t, Booked s → Misc.step l s = some t →
      (t.worker.obtained = 0 ↔ s.worker.obtained = 0 ∧ ¬ Mallocs true l s) := by
    rintro l s t ⟨⟨es, hr⟩, -⟩ hst
    obtain ⟨es', -, htr⟩ := step_trans hr hst
    exact htr.obtained_zero_iff
  rw [run_iff_along (fun _ _ _ h hst => h.step hst) hstep booked_start hs]
  exact and_iff_right rfl

/-- A thread that has returned has no buffer in `temp1` exactly when a `kmalloc` failed. -/
theorem gaveUp_iff {ls : List Label} {s : State} (hs : run Misc.step ls .start = some s)
    (hret : s.worker.pc = .returned) : s.worker.temp1 = none ↔
      ¬ Along Misc.step (fun l s => ¬ Mallocs false l s) ls .start := by
  have hstep : ∀ l s t, Booked s → Misc.step l s = some t →
      (¬ (t.worker.pc = .returned ∧ t.worker.temp1 = none) ↔
        ¬ (s.worker.pc = .returned ∧ s.worker.temp1 = none) ∧ ¬ Mallocs false l s) := by
    rintro l s t ⟨⟨es, hr⟩, n, hb⟩ hst
    obtain ⟨es', -, htr⟩ := step_trans hr hst
    exact htr.gaveUp_iff hb
  have hrun := run_iff_along (fun _ _ _ h hst => h.step hst) hstep booked_start hs
  have hfirst : ¬ (State.start.worker.pc = .returned ∧ State.start.worker.temp1 = none) := nofun
  rw [and_iff_right hret, and_iff_right hfirst] at hrun
  rw [← hrun, not_not]

end

/-- `eu_wait` is never taken off `wee_wait`, and only the end of a pass frees a buffer: a
thread that has returned has released everything when none of its `kmalloc` succeeded, and no
buffer is lost when one of them failed. -/
theorem returned_released_iff (ls : List Label) (s : State) (hs : run step ls .start = some s)
    (hret : s.worker.pc = .returned) :
    (s.worker.Released ↔ Along step (fun l s => ¬ Mallocs true l s) ls .start) ∧
      (s.worker.FreedOnce ↔ ¬ Along step (fun l s => ¬ Mallocs false l s) ls .start) := by
  obtain ⟨-, n, hb⟩ := booked_of_run hs
  constructor
  · rw [hb.released_iff hret, obtained_zero_iff hs]
  · rw [hb.freedOnce_iff hret, gaveUp_iff hs hret]

theorem returned_released_firstFailed :
    ∃ s, run step (loaded ++ [.worker false]) .start = some s ∧ s.worker.Released := by
  have hend : ((run step (loaded ++ [.worker false]) .start).map fun s => s.worker.pc) =
      some .returned := by
    decide +kernel
  obtain ⟨s, hs, hpc⟩ := Option.map_eq_some_iff.mp hend
  exact ⟨s, hs, (returned_released_iff _ s hs hpc).1.mpr (by decide +kernel)⟩

/-- The module is loaded and unloaded. The thread has gone to sleep once and is stopped: it
has returned, its buffer is not freed and its entry, which was on its stack, is in `wee_wait`. -/
theorem stopped_worker_keeps :
    ∃ s, run step (loaded ++ List.replicate 4 (.worker true) ++ List.replicate 4 .exit ++
        List.replicate 2 (.worker true) ++ List.replicate 2 .exit) .start = some s ∧
      s.exit = .done ∧ s.worker.pc = .returned ∧ ¬ s.worker.FreedOnce ∧
      s.worker.linked = true := by
  have hend : ((run step (loaded ++ List.replicate 4 (.worker true) ++ List.replicate 4 .exit ++
      List.replicate 2 (.worker true) ++ List.replicate 2 .exit) .start).map
        fun s => (s.exit, s.worker.pc, s.worker.obtained, s.worker.freed, s.worker.linked)) =
          some (.done, .returned, 1, [], true) := by
    decide +kernel
  obtain ⟨s, hs, hw⟩ := Option.map_eq_some_iff.mp hend
  simp only [Prod.mk.injEq] at hw
  obtain ⟨hexit, hpc, hob, hfreed, hl⟩ := hw
  refine ⟨s, hs, hexit, hpc, fun hall => ?_, hl⟩
  have hfirst := hall 0 (by omega)
  simp [hfreed] at hfirst

end Eudyptula.Misc
