import Mathlib.Data.List.Infix
import Eudyptula.Misc.Lifecycle

/-! Everything one step of the module can do, stated once: the state after the step
together with what has become of the identity list. Invariants are proved by cases on
these transitions and do not look into the step functions. -/
namespace Eudyptula.Misc
open CMem IdList State

/-- Steps of `kthread_fn` that do not touch the list. -/
inductive WorkerMove (ok : Bool) (w : Worker) : Worker → Prop
  | allocated (hpc : w.pc = .alloc) (hok : ok = true) : WorkerMove ok w
      { w with pc := .prepare, obtained := w.obtained + 1, temp1 := some w.obtained }
  | allocFailed (hpc : w.pc = .alloc) (hok : ok = false) :
      WorkerMove ok w { w with pc := .returned, temp1 := none }
  | prepared (hpc : w.pc = .prepare) :
      WorkerMove ok w { w with pc := .testStop, task := .interruptible, linked := true }
  | stopSeen (hpc : w.pc = .testStop) (hs : w.stop = true) :
      WorkerMove ok w { w with pc := .recheck }
  | toSchedule (hpc : w.pc = .testStop) (hs : w.stop = false) :
      WorkerMove ok w { w with pc := .schedule }
  | slept (hpc : w.pc = .schedule) (ht : w.task = .interruptible) :
      WorkerMove ok w { w with pc := .blocked }
  | ranOn (hpc : w.pc = .schedule) (ht : w.task = .running) :
      WorkerMove ok w { w with pc := .recheck }
  | woken (hpc : w.pc = .blocked) (ht : w.task = .running) :
      WorkerMove ok w { w with pc := .recheck }
  | stopped (hpc : w.pc = .recheck) (hs : w.stop = true) :
      WorkerMove ok w { w with pc := .returned }
  | toGet (hpc : w.pc = .recheck) (hs : w.stop = false) :
      WorkerMove ok w { w with pc := .get }
  | dozed (hpc : w.pc = .timedPrepare) :
      WorkerMove ok w { w with pc := .timedWait, task := .interruptible }
  | resleeps (hpc : w.pc = .timedWait) (ht : w.task = .running) :
      WorkerMove ok w { w with task := .interruptible }
  | reported (hpc : w.pc = .report) : WorkerMove ok w { w with
      pc := .alloc, reports := w.reports ++ [w.got.identity], freed := w.temp1.toList ++ w.freed }

/-- `Trans s es l t es'`: with `es` on the list, the step `l` leads from `s` to `t` and
leaves `es'` on it. -/
inductive Trans (s : State) (es : List Entry) : Label → State → List Entry → Prop
  | registered {A is} (hi : s.init = .register :: is) :
      Trans s es (.init true A) { s with registered := true, init := is } es
  | notRegistered {A is} (hi : s.init = .register :: is) :
      Trans s es (.init false A) { s with init := [] } es
  | threadRun {ok A is} (hi : s.init = .kthreadRun :: is) :
      Trans s es (.init ok A) { s with thread := if ok then .task else .err, init := is } es
  | initFail {ok A name id is} (hi : s.init = .create name id :: is) :
      Trans s es (.init ok A) { s with init := is } es
  | initPut {ok A name id is a st} (hi : s.init = .create name id :: is)
      (ha : a ∉ es.map Entry.addr) (hc : st.idCount = s.st.idCount) :
      Trans s es (.init ok A)
        { s with st, byWrite := Function.update s.byWrite a false, init := is }
        (⟨a, ⟨name.bytes, id, false⟩⟩ :: es)
  | initGet {ok A is st} (hi : s.init = .get :: is) (hc : st.idCount = s.st.idCount) :
      Trans s es (.init ok A) { s with st, init := is } []
  | initFind {ok A id is} (hi : s.init = .find id :: is) :
      Trans s es (.init ok A) { s with init := is } es
  | initDestroy {ok A id is st} (hi : s.init = .destroy id :: is) (hc : st.idCount = s.st.idCount) :
      Trans s es (.init ok A) { s with st, init := is } (es.filter fun e => e.val.id != id)
  | exitStart (he : s.exit = .idle) (hi : s.init = []) (hreg : s.registered = true) :
      Trans s es .exit { s with exit := .loop 0 } es
  | exitDestroy {i st} (he : s.exit = .loop i) (hlt : i.signExtend 64 < s.st.idCount)
      (hc : st.idCount = s.st.idCount) :
      Trans s es .exit { s with st, exit := .loop (i + 1) } (es.filter fun e => e.val.id != i)
  | exitLoopEnd {i} (he : s.exit = .loop i) (hge : ¬ i.signExtend 64 < s.st.idCount) :
      Trans s es .exit { s with exit := .stop } es
  | exitStop (he : s.exit = .stop) : Trans s es .exit { s.setStop with exit := .stopWake } es
  | exitStopWake (he : s.exit = .stopWake) : Trans s es .exit { s.wakeUp with exit := .join } es
  | exitJoin (he : s.exit = .join) (hpc : s.worker.pc = .returned) :
      Trans s es .exit { s with exit := .deregister } es
  | exitDeregister (he : s.exit = .deregister) :
      Trans s es .exit { s with registered := false, exit := .done } es
  | worker {ok w} (ht : s.thread = .task) (hm : WorkerMove ok s.worker w) :
      Trans s es (.worker ok) { s with worker := w } es
  | workerGet {ok st} (ht : s.thread = .task) (hpc : s.worker.pc = .get)
      (hc : st.idCount = s.st.idCount)
      (hval : st.idGet.identity = (es.getLast?.map Entry.val).getD s.st.idGet.identity) :
      Trans s es (.worker ok)
        { s with st, worker := { s.worker with pc := .timedPrepare, got := st.idGet } } []
  | timedOut {ret} (ht : s.thread = .task) (hpc : s.worker.pc = .timedWait) :
      Trans s es (.timedOut ret) { s with worker := { s.worker with
        pc := if ret < 0 then .returned else .report, task := .running } } es
  | spurious : Trans s es .spurious s.wakeUp es
  | writeEnded {w st} (hreg : s.registered = true) (hc : st.idCount = s.st.idCount) :
      Trans s es (.writeBegin w) { s with st } es
  | writeCopied {w st} (hreg : s.registered = true) (hc : st.idCount = s.st.idCount) :
      Trans s es (.writeBegin w) { s with st, writers := s.writers ++ [.create] } es
  | writeFail {k A} (hk : s.writers[k]? = some .create) :
      Trans s es (.write k A) { s with writers := s.writers.set k .count } es
  | writePut {k A a v st} (hk : s.writers[k]? = some .create) (ha : a ∉ es.map Entry.addr)
      (hid : v.id = s.st.idCount.setWidth 32) (hc : st.idCount = s.st.idCount) :
      Trans s es (.write k A) { s with
        st, byWrite := Function.update s.byWrite a true, writers := s.writers.set k .count }
        (⟨a, v⟩ :: es)
  | writeCounted {k A} (hk : s.writers[k]? = some .count) :
      Trans s es (.write k A)
        { s with st := writeCount s.st, writers := s.writers.set k .wake } es
  | writeWoken {k A} (hk : s.writers[k]? = some .wake) :
      Trans s es (.write k A) { s.wakeUp with writers := s.writers.eraseIdx k } es

section
variable {s t : State} {es : List Entry}

private theorem workerMove_trans {ok : Bool} {w : Worker} (hr : Represents s.st.heap es)
    (ht : s.thread = .task) (h : some { s with worker := w } = some t)
    (hw : WorkerMove ok s.worker w) :
    ∃ es', Represents t.st.heap es' ∧ Trans s es (.worker ok) t es' := by
  rw [Option.some.injEq] at h
  subst h
  exact ⟨es, hr, .worker ht hw⟩

theorem workerStep_trans {ok : Bool} (hr : Represents s.st.heap es)
    (h : workerStep ok s = some t) :
    ∃ es', Represents t.st.heap es' ∧ Trans s es (.worker ok) t es' := by
  by_cases ht : s.thread = .task
  · unfold workerStep at h
    rw [if_neg (not_not.mpr ht)] at h
    cases hpc : s.worker.pc with
    | alloc =>
      cases ok with
      | true => exact workerMove_trans hr ht (by simpa [hpc] using h) (.allocated hpc rfl)
      | false => exact workerMove_trans hr ht (by simpa [hpc] using h) (.allocFailed hpc rfl)
    | prepare => exact workerMove_trans hr ht (by simpa [hpc] using h) (.prepared hpc)
    | testStop =>
      cases hs : s.worker.stop with
      | true => exact workerMove_trans hr ht (by simpa [hpc, hs, setPc] using h) (.stopSeen hpc hs)
      | false =>
        exact workerMove_trans hr ht (by simpa [hpc, hs, setPc] using h) (.toSchedule hpc hs)
    | schedule =>
      cases hk : s.worker.task with
      | running => exact workerMove_trans hr ht (by simpa [hpc, hk, setPc] using h) (.ranOn hpc hk)
      | interruptible =>
        exact workerMove_trans hr ht (by simpa [hpc, hk, setPc] using h) (.slept hpc hk)
    | blocked =>
      cases hk : s.worker.task with
      | running => exact workerMove_trans hr ht (by simpa [hpc, hk, setPc] using h) (.woken hpc hk)
      | interruptible => simp [hpc, hk] at h
    | recheck =>
      cases hs : s.worker.stop with
      | true => exact workerMove_trans hr ht (by simpa [hpc, hs, setPc] using h) (.stopped hpc hs)
      | false => exact workerMove_trans hr ht (by simpa [hpc, hs, setPc] using h) (.toGet hpc hs)
    | get =>
      obtain ⟨st, hget, hrep, hval, hc, -⟩ := callGet_spec hr
      simp only [hpc, hget, Option.map_some, Option.some.injEq] at h
      subst h
      exact ⟨[], hrep, .workerGet ht hpc hc hval⟩
    | timedPrepare => exact workerMove_trans hr ht (by simpa [hpc] using h) (.dozed hpc)
    | timedWait =>
      cases hk : s.worker.task with
      | running => exact workerMove_trans hr ht (by simpa [hpc, hk] using h) (.resleeps hpc hk)
      | interruptible => simp [hpc, hk] at h
    | report => exact workerMove_trans hr ht (by simpa [hpc] using h) (.reported hpc)
    | returned => simp [hpc] at h
  · simp [workerStep, ht] at h

theorem initStep_trans {ok : Bool} {A : Allocator} (hr : Represents s.st.heap es)
    (h : initStep ok A s = some t) :
    ∃ es', Represents t.st.heap es' ∧ Trans s es (.init ok A) t es' := by
  unfold initStep at h
  cases hi : s.init with
  | nil => simp [hi] at h
  | cons i is =>
    cases i with
    | register =>
      cases ok with
      | true =>
        simp only [hi, if_true, Option.some.injEq] at h
        exact ⟨es, h ▸ hr, h ▸ .registered hi⟩
      | false =>
        simp only [hi, Bool.false_eq_true, if_false, Option.some.injEq] at h
        exact ⟨es, h ▸ hr, h ▸ .notRegistered hi⟩
    | kthreadRun =>
      simp only [hi, Option.some.injEq] at h
      exact ⟨es, h ▸ hr, h ▸ .threadRun hi⟩
    | create name id =>
      simp only [hi, Option.some.injEq] at h
      subst h
      rcases identityCreate_cases A name id hr with ⟨hne, heq⟩ | ⟨h0, a, ha, hrep⟩
      · simp only [noteOrigin, hne, if_false, heq]
        exact ⟨es, hr, .initFail hi⟩
      · have hfirst := hrep.ring.next_head
        simp only [List.map_cons, List.headD_cons] at hfirst
        simp only [noteOrigin, h0, if_true, hfirst]
        exact ⟨_, hrep, .initPut hi ha rfl⟩
    | get =>
      obtain ⟨st, hget, hrep, -, hc, -⟩ := callGet_spec hr
      simp only [hi, InitInstr.exec, hget, Option.map_some, Option.some.injEq] at h
      exact ⟨[], h ▸ hrep, h ▸ .initGet hi hc⟩
    | find id =>
      simp only [hi, InitInstr.exec, identityFind_spec id hr, Option.map_some,
        Option.some.injEq] at h
      exact ⟨es, h ▸ hr, h ▸ .initFind hi⟩
    | destroy id =>
      obtain ⟨st, hd, hrep, -, hc, -⟩ := callDestroy_spec id hr
      simp only [hi, InitInstr.exec, hd, Option.map_some, Option.some.injEq] at h
      subst h
      exact ⟨_, hrep, .initDestroy hi hc⟩

theorem exitStep_trans (hr : Represents s.st.heap es) (h : exitStep s = some t) :
    ∃ es', Represents t.st.heap es' ∧ Trans s es .exit t es' := by
  unfold exitStep at h
  cases he : s.exit with
  | idle =>
    simp only [he] at h
    split_ifs at h with hc
    rw [Option.some.injEq] at h
    exact ⟨es, h ▸ hr, h ▸ .exitStart he hc.1 hc.2⟩
  | loop i =>
    simp only [he] at h
    split_ifs at h with hlt
    · obtain ⟨st, hd, hrep, -, hc, -⟩ := callDestroy_spec i hr
      simp only [hd, Option.map_some, Option.some.injEq] at h
      subst h
      exact ⟨_, hrep, .exitDestroy he hlt hc⟩
    · rw [Option.some.injEq] at h
      exact ⟨es, h ▸ hr, h ▸ .exitLoopEnd he hlt⟩
  | stop =>
    simp only [he, Option.some.injEq] at h
    exact ⟨es, h ▸ hr, h ▸ .exitStop he⟩
  | stopWake =>
    simp only [he, Option.some.injEq] at h
    exact ⟨es, h ▸ hr, h ▸ .exitStopWake he⟩
  | join =>
    simp only [he] at h
    split_ifs at h with hpc
    rw [Option.some.injEq] at h
    exact ⟨es, h ▸ hr, h ▸ .exitJoin he hpc⟩
  | deregister =>
    simp only [he, Option.some.injEq] at h
    exact ⟨es, h ▸ hr, h ▸ .exitDeregister he⟩
  | done => simp [he] at h

theorem writeCopy_statics (w : WriteArgs) (s : Statics) :
    (writeCopy w s).2.heap = s.heap ∧ (writeCopy w s).2.idCount = s.idCount := by
  unfold writeCopy
  dsimp only
  split_ifs <;> exact ⟨rfl, rfl⟩

theorem writeBeginStep_trans {w : WriteArgs} (hr : Represents s.st.heap es)
    (h : writeBeginStep w s = some t) :
    ∃ es', Represents t.st.heap es' ∧ Trans s es (.writeBegin w) t es' := by
  unfold writeBeginStep at h
  split_ifs at h with hg
  obtain ⟨hheap, hcount⟩ := writeCopy_statics w s.st
  rcases hw : writeCopy w s.st with ⟨r | n, st⟩
  all_goals
    rw [hw] at hheap hcount
    simp only [hw, Option.some.injEq] at h
    subst h
  · exact ⟨es, hheap ▸ hr, .writeEnded hg hcount⟩
  · exact ⟨es, hheap ▸ hr, .writeCopied hg hcount⟩

theorem writeStep_trans {k : ℕ} {A : Allocator} (hr : Represents s.st.heap es)
    (h : writeStep k A s = some t) :
    ∃ es', Represents t.st.heap es' ∧ Trans s es (.write k A) t es' := by
  unfold writeStep at h
  rcases hk : s.writers[k]? with _ | _ | _ | _
  · simp [hk] at h
  · simp only [hk, Option.some.injEq] at h
    subst h
    rcases identityCreate_cases A (CStr.read s.st.userInput 0 4096) (s.st.idCount.setWidth 32) hr
      with ⟨hne, heq⟩ | ⟨h0, a, ha, hrep⟩
    · simp only [writeCreate, noteOrigin, hne, if_false, heq]
      exact ⟨es, hr, .writeFail hk⟩
    · have hfirst := hrep.ring.next_head
      simp only [List.map_cons, List.headD_cons] at hfirst
      simp only [writeCreate, noteOrigin, h0, if_true, hfirst]
      exact ⟨_, hrep, .writePut hk ha rfl rfl⟩
  · simp only [hk, Option.some.injEq] at h
    exact ⟨es, h ▸ hr, h ▸ .writeCounted hk⟩
  · simp only [hk, Option.some.injEq] at h
    exact ⟨es, h ▸ hr, h ▸ .writeWoken hk⟩

theorem step_trans {l : Label} (hr : Represents s.st.heap es) (h : step l s = some t) :
    ∃ es', Represents t.st.heap es' ∧ Trans s es l t es' := by
  cases l with
  | init ok A => exact initStep_trans hr h
  | exit => exact exitStep_trans hr h
  | worker ok => exact workerStep_trans hr h
  | timedOut ret =>
    obtain ⟨hg, h⟩ := Option.ite_none_right_eq_some.mp h
    rw [Option.some.injEq] at h
    exact ⟨es, h ▸ hr, h ▸ .timedOut hg.1 hg.2⟩
  | spurious =>
    simp only [step, Option.some.injEq] at h
    exact ⟨es, h ▸ hr, h ▸ .spurious⟩
  | writeBegin w => exact writeBeginStep_trans hr h
  | write k A => exact writeStep_trans hr h

theorem nodup_miscInit : miscInit.Nodup := by decide

/-- What `misc_init` has left to do tells what has happened so far. -/
structure Phase (s : State) : Prop where
  rest : s.init <:+ miscInit
  unborn : s.thread ≠ .task → s.worker.pc = .alloc
  noThread : .kthreadRun ∈ s.init → s.thread = .null
  unregistered : .register ∈ s.init → s.registered = false ∧ s.writers = []
  loaded : s.exit ≠ .idle → s.init = []

theorem phase_start : Phase .start :=
  ⟨List.suffix_refl _, fun _ => rfl, fun _ => rfl, fun _ => ⟨rfl, rfl⟩, fun h => (h rfl).elim⟩

theorem Phase.notMem_tail (h : Phase s) {i : InitInstr} {is : List InitInstr}
    (hi : s.init = i :: is) : i ∉ is := by
  have hnodup := h.rest.sublist.nodup nodup_miscInit
  rw [hi] at hnodup
  exact (List.nodup_cons.mp hnodup).1

/-- The four calls of `identity_create` come before that of `identity_get`. -/
theorem Phase.get_of_create (h : Phase s) {name : CStr} {id : BitVec 32} {is : List InitInstr}
    (hi : s.init = .create name id :: is) : .get ∈ is := by
  have hmem := (List.mem_tails _ _).mpr h.rest
  rw [hi] at hmem
  simp [miscInit] at hmem
  rcases hmem with ⟨-, rfl⟩ | ⟨-, rfl⟩ | ⟨-, rfl⟩ | ⟨-, rfl⟩ <;> simp

theorem Phase.register_notMem (h : Phase s) {i : InitInstr} {is : List InitInstr}
    (hi : s.init = i :: is) : .register ∉ is := by
  have hfirst : ∀ l ∈ miscInit.tails, .register ∉ l.tail := by decide
  have hmem := (List.mem_tails _ _).mpr h.rest
  rw [hi] at hmem
  exact hfirst _ hmem

theorem Phase.idle_of_cons (h : Phase s) {i : InitInstr} {is : List InitInstr}
    (hi : s.init = i :: is) : s.exit = .idle := by
  by_contra hne
  have hnil := h.loaded hne
  rw [hi] at hnil
  contradiction

/-- Statements of `misc_init` other than the first two. -/
theorem Phase.tail (h : Phase s) {i : InitInstr} {is : List InitInstr} (st : Statics)
    (o : Addr → Bool) (hi : s.init = i :: is) : Phase { s with st, byWrite := o, init := is } where
  rest := (List.suffix_cons i is).trans (hi ▸ h.rest)
  unborn := h.unborn
  noThread hk := h.noThread (hi ▸ List.mem_cons_of_mem i hk)
  unregistered hk := h.unregistered (hi ▸ List.mem_cons_of_mem i hk)
  loaded hne := (hne (h.idle_of_cons hi)).elim

theorem Trans.phase {l : Label} {es' : List Entry} (htr : Trans s es l t es') (h : Phase s) :
    Phase t := by
  cases htr with
  | registered hi =>
    have htail := h.notMem_tail hi
    exact { h.tail s.st s.byWrite hi with unregistered := fun hk => (htail hk).elim }
  | notRegistered hi =>
    exact { h with
      rest := List.nil_suffix, noThread := by simp, unregistered := by simp
      loaded := fun _ => rfl }
  | threadRun hi =>
    have htail := h.notMem_tail hi
    have hnull : s.thread = .null := h.noThread (by simp [hi])
    exact { h.tail s.st s.byWrite hi with
      unborn := fun _ => h.unborn (by simp [hnull]), noThread := fun hk => (htail hk).elim }
  | initFail hi | initPut hi | initGet hi | initFind hi | initDestroy hi => exact h.tail _ _ hi
  | exitStart he hi => exact { h with loaded := fun _ => hi }
  | exitDestroy he | exitLoopEnd he | exitStop he | exitStopWake he | exitJoin he =>
    exact { h with loaded := fun _ => h.loaded (by simp [he]) }
  | exitDeregister he =>
    exact { h with
      unregistered := fun hk => ⟨rfl, (h.unregistered hk).2⟩
      loaded := fun _ => h.loaded (by simp [he]) }
  | worker ht | workerGet ht | timedOut ht =>
    exact { h with unborn := fun hne => (hne ht).elim }
  | spurious | writeEnded => exact { h with }
  | writeCopied hreg =>
    exact { h with unregistered := fun hk => by simp [(h.unregistered hk).1] at hreg }
  | writeFail hk | writePut hk | writeCounted hk | writeWoken hk =>
    exact { h with unregistered := fun hm => by simp [(h.unregistered hm).2] at hk }

end

/-- Invariant rule for the runs of the module, with the list and the phase at hand. -/
theorem always_of_trans (Inv : State → List Entry → Prop) {ok : Label → State → Prop}
    (hstart : Inv .start [])
    (hstep : ∀ {s t es es' l}, Phase s → Represents s.st.heap es → Inv s es → ok l s →
      Trans s es l t es' → Inv t es')
    {ls : List Label} (hok : Runs.Along step ok ls .start) :
    Runs.Always step (fun s => Phase s ∧ ∃ es, Represents s.st.heap es ∧ Inv s es) ls .start := by
  refine Runs.always_of_invariant ?_ ⟨phase_start, [], represents_init, hstart⟩ hok
  intro l s t hs hl hst
  obtain ⟨hph, es, hr, hi⟩ := hs
  obtain ⟨es', hr', htr⟩ := step_trans hr hst
  exact ⟨htr.phase hph, es', hr', hstep hph hr hi hl htr⟩

end Eudyptula.Misc
