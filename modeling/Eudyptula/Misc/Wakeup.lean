import Eudyptula.Misc.Transitions

/-! Wake-ups of the worker. A write makes the worker runnable after it has put its identity
on the list; what matters is where in `kthread_fn` that wake-up lands. -/
namespace Eudyptula.Misc
open IdList Runs State

/-- None of these nodes has been created by a write. -/
def Clean (o : Addr → Bool) (nodes : List Addr) : Prop := ∀ a ∈ nodes, o a = false

/-- Some write stands between its `identity_create` and its `wake_up_process`. -/
def Pending (ws : List WriterPc) : Prop := .count ∈ ws ∨ .wake ∈ ws

def Asleep (w : Worker) : Prop := w.pc = .blocked ∧ w.task = .interruptible

def NoLostWakeup (s : State) : Prop :=
  Asleep s.worker → ¬ Pending s.writers → Clean s.byWrite s.st.heap.nodes

/-- From `prepare_to_wait` to `identity_get`: the statements of `kthread_fn` at which a
wake-up makes the worker look at the list once more. -/
def WorkerPc.receptive : WorkerPc → Bool
  | .testStop | .schedule | .blocked | .recheck | .get => true
  | _ => false

/-- A write that wakes the worker finds one that will look at the list again, or there is
nothing on it to look for, or another write will wake the worker later. -/
def Timely : Label → State → Prop
  | .write k _, s => s.writers[k]? = some .wake →
      s.worker.pc.receptive = true ∨ Clean s.byWrite s.st.heap.nodes ∨
        Pending (s.writers.eraseIdx k)
  | _, _ => True

instance (o : Addr → Bool) (nodes : List Addr) : Decidable (Clean o nodes) :=
  inferInstanceAs (Decidable (∀ a ∈ nodes, o a = false))

instance (ws : List WriterPc) : Decidable (Pending ws) :=
  inferInstanceAs (Decidable (_ ∨ _))

instance : DecidablePred NoLostWakeup := fun s =>
  inferInstanceAs (Decidable ((s.worker.pc = .blocked ∧ s.worker.task = .interruptible) →
    ¬ Pending s.writers → Clean s.byWrite s.st.heap.nodes))

instance : (l : Label) → (s : State) → Decidable (Timely l s)
  | .write _ _, _ => inferInstanceAs (Decidable (_ → _ ∨ _ ∨ _))
  | .init _ _, _ | .exit, _ | .worker _, _ | .timedOut _, _ | .spurious, _ | .writeBegin _, _ =>
    inferInstanceAs (Decidable True)

/-- Nothing on the list, or somebody about to wake the worker up. -/
def Attended (s : State) (es : List Entry) : Prop :=
  Clean s.byWrite (es.map Entry.addr) ∨ Pending s.writers

/-- The invariant: on its way to `schedule()` the worker has nothing to miss, unless it has
been made runnable since `prepare_to_wait`. -/
def Covered (s : State) (es : List Entry) : Prop :=
  match s.worker.pc with
  | .testStop | .schedule | .blocked => Attended s es ∨ s.worker.task = .running
  | .recheck | .get | .returned => True
  | _ => Attended s es

section
variable {s t : State} {es es' : List Entry}

theorem covered_of_attended (h : Attended s es) : Covered s es := by
  unfold Covered
  cases s.worker.pc with
  | testStop | schedule | blocked => exact Or.inl h
  | recheck | get | returned => trivial
  | alloc | prepare | timedPrepare | timedWait | report => exact h

theorem covered_of_receptive (hrec : s.worker.pc.receptive = true)
    (htask : s.worker.task = .running) : Covered s es := by
  unfold Covered
  cases hpc : s.worker.pc with
  | testStop | schedule | blocked => exact Or.inr htask
  | recheck | get | returned => trivial
  | alloc | prepare | timedPrepare | timedWait | report =>
    rw [hpc] at hrec
    contradiction

theorem Covered.mono (h : Covered s es) (hpc : t.worker.pc = s.worker.pc)
    (htask : s.worker.task = .running → t.worker.task = .running)
    (hatt : Attended s es → Attended t es') : Covered t es' := by
  unfold Covered at h ⊢
  rw [hpc]
  cases hp : s.worker.pc <;> simp only [hp] at h ⊢
  case testStop | schedule | blocked => exact h.imp hatt htask
  all_goals exact hatt h

theorem Covered.wakeUp (h : Covered s es) : Covered s.wakeUp es := by
  have htask : s.worker.task = .running → s.wakeUp.worker.task = .running := by
    intro hrun
    simp [State.wakeUp, hrun]
  exact Covered.mono h rfl htask id

theorem Covered.workerMove {ok : Bool} {w : Worker} (h : Covered s es)
    (hm : WorkerMove ok s.worker w) : Covered { s with worker := w } es := by
  unfold Covered at h
  cases hm with
  | allocated hpc | prepared hpc | dozed hpc | resleeps hpc | reported hpc =>
    rw [hpc] at h
    exact covered_of_attended h
  | toSchedule hpc | slept hpc =>
    rw [hpc] at h
    exact h
  | allocFailed | stopSeen | ranOn | woken | stopped | toGet => trivial

theorem clean_cons_update {o : Addr → Bool} {a : Addr} {v : Identity}
    (h : Clean o (es.map Entry.addr)) :
    Clean (Function.update o a false) ((⟨a, v⟩ :: es : List Entry).map Entry.addr) := by
  intro b hb
  by_cases hba : b = a
  · simp [hba]
  · rw [Function.update_of_ne hba]
    exact h b (by simpa [hba] using hb)

theorem Clean.sublist {o : Addr → Bool} {xs ys : List Addr} (h : Clean o ys)
    (hs : xs.Sublist ys) : Clean o xs :=
  fun a ha => h a (hs.mem ha)

theorem Covered.trans {l : Label} (hph : Phase s) (hr : Represents s.st.heap es)
    (h : Covered s es) (hok : Timely l s) (htr : Trans s es l t es') : Covered t es' := by
  cases htr with
  | registered | notRegistered | threadRun | initFail | initFind => exact h
  | initPut => exact h.mono rfl id (Or.imp_left clean_cons_update)
  | initGet | workerGet => exact covered_of_attended (Or.inl (by simp [Clean]))
  | initDestroy | exitDestroy =>
    exact h.mono rfl id (Or.imp_left fun hc => hc.sublist (List.filter_sublist.map _))
  | exitStart | exitLoopEnd | exitStop | exitJoin | exitDeregister => exact h
  | exitStopWake | spurious => exact h.wakeUp
  | worker ht hm => exact h.workerMove hm
  | timedOut ht hpc =>
    unfold Covered at h
    rw [hpc] at h
    exact covered_of_attended h
  | writeEnded => exact h
  | writeCopied => exact h.mono rfl id (Or.imp_right fun hp => by simpa [Pending] using hp)
  | writeFail hk | writePut hk =>
    obtain ⟨hlt, -⟩ := List.getElem?_eq_some_iff.mp hk
    exact covered_of_attended (Or.inr (Or.inl (List.mem_set hlt _)))
  | writeCounted hk =>
    obtain ⟨hlt, -⟩ := List.getElem?_eq_some_iff.mp hk
    exact covered_of_attended (Or.inr (Or.inr (List.mem_set hlt _)))
  | writeWoken hk =>
    rcases hok hk with hrec | hclean | hpend
    -- a worker that has come so far is a thread, so the wake-up reaches it
    · have hthread : s.thread = .task := by
        by_contra hne
        simp [hph.unborn hne, WorkerPc.receptive] at hrec
      have htask : s.wakeUp.worker.task = .running := by simp [State.wakeUp, hthread]
      exact covered_of_receptive hrec htask
    · rw [hr.nodes_eq] at hclean
      exact covered_of_attended (Or.inl hclean)
    · exact covered_of_attended (Or.inr hpend)

end

/-- No wake-up is lost in a run whose wake-ups are all timely. -/
theorem no_lost_wakeup_of_timely {ls : List Label} (hok : Along step Timely ls .start) :
    Always step NoLostWakeup ls .start := by
  have hinv := always_of_trans Covered (Or.inl (by simp [Clean])) Covered.trans hok
  apply hinv.mono
  intro s hs hasleep hnone
  obtain ⟨-, es, hr, hcov⟩ := hs
  unfold Covered at hcov
  rw [hasleep.1] at hcov
  rw [hr.nodes_eq]
  rcases hcov with (hclean | hpend) | hrun
  · exact hclean
  · exact (hnone hpend).elim
  · rw [hasleep.2] at hrun
    contradiction

theorem no_lost_wakeup_sleepThenWrite :
    (run step sleepThenWrite .start).isSome ∧ Along step Timely sleepThenWrite .start ∧
      Always step NoLostWakeup sleepThenWrite .start := by
  have hok : Along step Timely sleepThenWrite .start := by decide +kernel
  exact ⟨by decide +kernel, hok, no_lost_wakeup_of_timely hok⟩

/-- A second write during the timed sleep: its wake-up only makes the worker go back to
that sleep, and the worker then blocks in `schedule()` with the identity on the list. -/
theorem wakeup_lost_in_timed_wait :
    ¬ Always step NoLostWakeup
      (sleepThenWrite ++ List.replicate 4 (.worker true) ++
        [.writeBegin (.byte 75), .write 0 .above, .write 0 .above, .write 0 .above,
          .worker true, .timedOut 0] ++ List.replicate 5 (.worker true)) .start := by
  decide +kernel

end Eudyptula.Misc
