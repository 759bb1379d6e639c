import Eudyptula.Misc.Transitions

/-! The pointer `eudyptula_thread`: when the module hands it to the scheduler, does it refer
to a thread whose function is still running? -/
namespace Eudyptula.Misc
open IdList Runs State

/-- `eudyptula_thread` is a thread, and `kthread_fn` has not returned. -/
def Alive (s : State) : Prop := s.thread = .task ∧ s.worker.pc ≠ .returned

/-- The two calls on `eudyptula_thread`: `wake_up_process` by a write and `kthread_stop`
by `misc_exit`. -/
def CallsValid : Label → State → Prop
  | .write k _, s => s.writers[k]? = some .wake → Alive s
  | .exit, s => s.exit = .stop → Alive s
  | _, _ => True

def ExitPc.beforeStop : ExitPc → Bool
  | .idle | .loop _ | .stop => true
  | _ => false

/-- The thread is created, it gets its memory and no signal, and every write that has been
started calls `wake_up_process` after `kthread_run` and before `kthread_stop`. -/
def Orderly : Label → State → Prop
  | .init ok _, s => s.init.head? = some .kthreadRun → ok = true
  | .worker ok, s => s.worker.pc = .alloc → ok = true
  | .timedOut ret, _ => 0 ≤ ret
  | .write k _, s => s.writers[k]? = some .wake →
      .kthreadRun ∉ s.init ∧ s.exit.beforeStop = true
  | _, _ => True

instance : DecidablePred Alive := fun _ => inferInstanceAs (Decidable (_ ∧ _))

instance : (l : Label) → (s : State) → Decidable (CallsValid l s)
  | .write _ _, _ | .exit, _ => inferInstanceAs (Decidable (_ → _))
  | .init _ _, _ | .worker _, _ | .timedOut _, _ | .spurious, _ | .writeBegin _, _ =>
    inferInstanceAs (Decidable True)

instance : (l : Label) → (s : State) → Decidable (Orderly l s)
  | .init _ _, _ | .worker _, _ => inferInstanceAs (Decidable (_ → _))
  | .timedOut ret, _ => inferInstanceAs (Decidable (0 ≤ ret))
  | .write _ _, _ => inferInstanceAs (Decidable (_ → _ ∧ _))
  | .exit, _ | .spurious, _ | .writeBegin _, _ => inferInstanceAs (Decidable True)

/-- In an orderly run the thread exists from `kthread_run` on, unless the module has not been
loaded at all, and it returns only when it has been told to stop. -/
structure Running (s : State) : Prop where
  thread : s.thread = .task ∨ .kthreadRun ∈ s.init ∨
    (s.init = [] ∧ s.registered = false ∧ s.writers = [] ∧ s.exit = .idle)
  returned : s.worker.pc = .returned → s.worker.stop = true
  stopped : s.worker.stop = true → s.exit.beforeStop = false

section
variable {s t : State} {es es' : List Entry}

theorem running_start : Running .start := ⟨Or.inr (Or.inl (by decide)), nofun, nofun⟩

theorem Running.workerMove {ok : Bool} {w : Worker} (h : Running s)
    (hok : s.worker.pc = .alloc → ok = true) (hm : WorkerMove ok s.worker w) :
    (w.pc = .returned → w.stop = true) ∧ w.stop = s.worker.stop := by
  cases hm with
  | allocFailed hpc hf =>
    have htrue := hok hpc
    rw [hf] at htrue
    contradiction
  | stopped hpc hs => exact ⟨fun _ => hs, rfl⟩
  | resleeps hpc => exact ⟨fun hret => h.returned hret, rfl⟩
  | _ => exact ⟨nofun, rfl⟩

theorem Running.tail (h : Running s) {i : InitInstr} {is : List InitInstr}
    (hi : s.init = i :: is) (hne : i ≠ .kthreadRun) (st : Statics) (o : Addr → Bool) (r : Bool) :
    Running { s with st, byWrite := o, registered := r, init := is } := by
  have hthread : s.thread = .task ∨ .kthreadRun ∈ is := by
    rcases h.thread with ht | hk | hnil
    · exact Or.inl ht
    · rw [hi, List.mem_cons] at hk
      exact Or.inr (hk.resolve_left hne.symm)
    · rw [hi] at hnil
      exact absurd hnil.1 (List.cons_ne_nil i is)
  exact ⟨hthread.imp_right Or.inl, h.returned, h.stopped⟩

/-- Once the device has been registered the third alternative is out. -/
theorem Running.thread_of (h : Running s)
    (hne : s.registered = true ∨ s.writers ≠ [] ∨ s.exit ≠ .idle) :
    s.thread = .task ∨ .kthreadRun ∈ s.init := by
  rcases h.thread with ht | hk | ⟨-, hreg, hw, hidle⟩
  · exact Or.inl ht
  · exact Or.inr hk
  · simp [hreg, hw, hidle] at hne

theorem Running.exitMove (h : Running s) {e : ExitPc} (hne : s.exit ≠ .idle)
    (hstop : s.exit.beforeStop = false → e.beforeStop = false) : Running { s with exit := e } where
  thread := (h.thread_of (Or.inr (Or.inr hne))).imp_right Or.inl
  returned := h.returned
  stopped hs := hstop (h.stopped hs)

theorem Running.writeMove (h : Running s) (hne : s.registered = true ∨ s.writers ≠ [])
    (st : Statics) (o : Addr → Bool) (ws : List WriterPc) :
    Running { s with st, byWrite := o, writers := ws } where
  thread := (h.thread_of (hne.imp_right Or.inl)).imp_right Or.inl
  returned := h.returned
  stopped := h.stopped

theorem writers_ne_nil {k : ℕ} {pc : WriterPc} (hk : s.writers[k]? = some pc) :
    s.writers ≠ [] := by
  intro hnil
  simp [hnil] at hk

theorem Running.trans {l : Label} (hph : Phase s) (h : Running s) (hok : Orderly l s)
    (htr : Trans s es l t es') : Running t := by
  cases htr with
  | registered hi => exact h.tail hi nofun _ _ _
  | notRegistered hi =>
    obtain ⟨hreg, hw⟩ := hph.unregistered (by simp [hi])
    exact ⟨Or.inr (Or.inr ⟨rfl, hreg, hw, hph.idle_of_cons hi⟩), h.returned, h.stopped⟩
  | threadRun hi =>
    have htrue := hok (by simp [hi])
    exact ⟨Or.inl (by simp [htrue]), h.returned, h.stopped⟩
  | initFail hi | initPut hi | initGet hi | initFind hi | initDestroy hi =>
    exact h.tail hi nofun _ _ _
  | exitStart he hi hreg =>
    refine ⟨(h.thread_of (Or.inl hreg)).imp_right Or.inl, h.returned, fun hs => ?_⟩
    have hidle := h.stopped hs
    rw [he] at hidle
    exact hidle
  | @exitDestroy i _ he =>
    have hstop : s.exit.beforeStop = false → (ExitPc.loop (i + 1)).beforeStop = false := by
      rw [he]
      exact id
    exact { h.exitMove (by simp [he]) hstop with }
  | exitLoopEnd he => exact h.exitMove (by simp [he]) (by rw [he]; exact id)
  | exitStop he =>
    refine ⟨(h.thread_of (by simp [he])).imp_right Or.inl, fun hret => ?_, fun _ => rfl⟩
    simp [setStop, h.returned hret]
  | exitStopWake he => exact { h.exitMove (by simp [he]) (fun _ => rfl) with }
  | exitJoin he => exact h.exitMove (by simp [he]) (fun _ => rfl)
  | exitDeregister he =>
    refine ⟨(h.thread_of (by simp [he])).imp_right Or.inl, h.returned, fun _ => rfl⟩
  | worker ht hm =>
    obtain ⟨hret, hstop⟩ := h.workerMove hok hm
    exact ⟨Or.inl ht, hret, fun hs => h.stopped (hstop ▸ hs)⟩
  | workerGet ht => exact ⟨Or.inl ht, nofun, h.stopped⟩
  | timedOut ht =>
    refine ⟨Or.inl ht, ?_, h.stopped⟩
    rw [if_neg (not_lt.mpr hok)]
    exact nofun
  | spurious => exact { h with }
  | writeEnded hreg | writeCopied hreg => exact h.writeMove (Or.inl hreg) _ _ _
  | writeFail hk | writePut hk | writeCounted hk =>
    exact h.writeMove (Or.inr (writers_ne_nil hk)) _ _ _
  | @writeWoken k _ hk =>
    have hmove := h.writeMove (Or.inr (writers_ne_nil hk)) s.st s.byWrite (s.writers.eraseIdx k)
    exact { hmove with }

theorem Running.alive (h : Running s) (hthread : .kthreadRun ∉ s.init)
    (hne : s.writers ≠ [] ∨ s.exit ≠ .idle) (hstop : s.exit.beforeStop = true) : Alive s := by
  constructor
  · exact (h.thread_of (Or.inr hne)).resolve_right hthread
  · intro hret
    have hfalse := h.stopped (h.returned hret)
    rw [hstop] at hfalse
    contradiction

theorem Running.callsValid (hph : Phase s) (h : Running s) {l : Label} (hok : Orderly l s) :
    CallsValid l s := by
  cases l with
  | write k A =>
    intro hk
    obtain ⟨hthread, hstop⟩ := hok hk
    exact h.alive hthread (Or.inl (writers_ne_nil hk)) hstop
  | exit =>
    intro he
    have hne : s.exit ≠ .idle := by simp [he]
    have hinit := hph.loaded hne
    exact h.alive (by simp [hinit]) (Or.inr hne) (by rw [he]; rfl)
  | init | worker | timedOut | spurious | writeBegin => trivial

end

/-- In an orderly run both calls on `eudyptula_thread` get a live thread. -/
theorem thread_calls_valid {ls : List Label} (hok : Along step Orderly ls .start) :
    Along step CallsValid ls .start := by
  have hinv := always_of_trans (fun s _ => Running s) running_start
    (fun hph _ h hl htr => h.trans hph hl htr) hok
  refine hok.of_always ?_ hinv
  intro l s hs hl
  obtain ⟨hph, _, -, hrun⟩ := hs
  exact hrun.callsValid hph hl

theorem thread_calls_valid_loadWriteUnload :
    (run step (sleepThenWrite ++ List.replicate 4 .exit) .start).isSome ∧
      Along step Orderly (sleepThenWrite ++ List.replicate 4 .exit) .start ∧
      Along step CallsValid (sleepThenWrite ++ List.replicate 4 .exit) .start := by
  have hok : Along step Orderly (sleepThenWrite ++ List.replicate 4 .exit) .start := by
    decide +kernel
  exact ⟨by decide +kernel, hok, thread_calls_valid hok⟩

/-- The device is registered before the thread is created: a write that runs in between
calls `wake_up_process` on a null pointer. -/
theorem wakeup_before_kthread_run :
    ¬ Along step CallsValid
      [.init true .above, .writeBegin (.byte 78), .write 0 .above, .write 0 .above,
        .write 0 .above] .start := by
  decide +kernel

end Eudyptula.Misc
