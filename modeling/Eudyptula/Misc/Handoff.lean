import Eudyptula.Misc.Transitions

/-! Identities on their way from the writes to the reports of the worker, as books kept over the
runs of the module after `misc_init`. A pass of `kthread_fn` begins with its `identity_get`. It
ends with the two `printk` of what that returned, or without them when the timed wait before
them is interrupted. -/
namespace Eudyptula.Misc
open CMem IdList Runs

/-- A pass of the worker: was the list empty, and which identity was printed? -/
structure Pass where
  foundEmpty : Bool
  report : Option Identity
deriving DecidableEq, Repr

/-- The module with what has happened so far: the identities that writes have put on the
list, in this order, whether the pass under way found it empty, and the passes that have ended.
A pass that was under way before is not in the books. -/
structure Handoff where
  s : State
  created : List Identity
  pass : Option Bool
  passes : List Pass

/-- The steps of the writes and of the worker. -/
inductive HandoffStep
  | worker (ok : Bool)
  | timedOut (ret : ℤ)
  | spurious
  | writeBegin (w : WriteArgs)
  | write (k : ℕ) (A : Allocator)

def HandoffStep.label : HandoffStep → Label
  | .worker ok => .worker ok
  | .timedOut ret => .timedOut ret
  | .spurious => .spurious
  | .writeBegin w => .writeBegin w
  | .write k A => .write k A

namespace Handoff

/-- `misc_init` has left `s`; what writes have put on the list until then is on it. -/
def start (s : State) : Handoff := ⟨s, s.st.heap.identities.reverse, none, []⟩

/-- The pass under way ends. -/
def close (q : Handoff) (t : State) (report : Option Identity) : Handoff :=
  { q with s := t, pass := none, passes := q.passes ++ (q.pass.map (⟨·, report⟩)).toList }

/-- The books after a step of the module to `t`. -/
def note (q : Handoff) (t : State) : HandoffStep → Handoff
  | .worker _ =>
    if q.s.worker.pc = .get then { q with s := t, pass := some q.s.st.heap.identities.isEmpty }
    else if q.s.worker.pc = .report then q.close t t.worker.reports.getLast?
    else { q with s := t }
  | .timedOut ret => if ret < 0 then q.close t none else { q with s := t }
  | .write _ _ =>
    let added := t.st.heap.identities.length - q.s.st.heap.identities.length
    { q with s := t, created := q.created ++ (t.st.heap.identities.take added).reverse }
  | .spurious | .writeBegin _ => { q with s := t }

def step (e : HandoffStep) (q : Handoff) : Option Handoff :=
  (Misc.step e.label q.s).map fun t => q.note t e

def reported (q : Handoff) : List Identity := q.passes.filterMap Pass.report

/-- What the pass under way has taken and not yet printed. -/
def inHand (q : Handoff) : List Identity :=
  if q.pass = some false then [q.s.worker.got.identity] else []

/-- Nothing lost, nothing doubled, nothing reordered, nothing made up. -/
structure Faithful (q : Handoff) : Prop where
  conserved : q.created.Perm (q.reported ++ q.inHand ++ q.s.st.heap.identities)
  ordered : (q.reported ++ q.inHand).Sublist q.created
  quiet : ∀ p ∈ q.passes, p.foundEmpty = true → p.report = none

/-- A pass takes one identity at most. One that has taken an identity is not interrupted, and
one that has not is. -/
def OneEach : HandoffStep → Handoff → Prop
  | .worker _, q => (q.s.worker.pc = .get → q.s.st.heap.identities.length ≤ 1) ∧
      (q.s.worker.pc = .report → q.pass ≠ some true)
  | .timedOut ret, q => ret < 0 → q.pass ≠ some false
  | _, _ => True

instance (e : HandoffStep) (q : Handoff) : Decidable (OneEach e q) := by
  cases e <;> unfold OneEach <;> infer_instance

/-- As long as this is so: the reports are the oldest identities created, then comes the one in
hand, and the rest is on the list. -/
structure Tracks (q : Handoff) (es : List Entry) : Prop where
  rep : Represents q.s.st.heap es
  split : q.created = q.reported ++ q.inHand ++ (es.map Entry.val).reverse
  quiet : ∀ p ∈ q.passes, p.foundEmpty = true → p.report = none
  underway : q.pass ≠ none → q.s.worker.pc ∈ [.timedPrepare, .timedWait, .report]

section
variable {q : Handoff} {es : List Entry} {t : State}

theorem Tracks.faithful (h : q.Tracks es) : q.Faithful where
  conserved := by
    rw [h.split, h.rep.identities_eq]
    exact (List.reverse_perm _).append_left _
  ordered := by
    rw [h.split]
    exact List.sublist_append_left _ _
  quiet := h.quiet

theorem tracks_start {s : State} (hr : Represents s.st.heap es) : (start s).Tracks es :=
  ⟨hr, by simp [start, reported, inHand, hr.identities_eq], by simp [start], by simp [start]⟩

/-- No pass is under way at the other statements of `kthread_fn`. -/
theorem Tracks.no_pass (h : q.Tracks es)
    (hpc : q.s.worker.pc ∉ [.timedPrepare, .timedWait, .report]) : q.pass = none := by
  by_contra hne
  exact hpc (h.underway hne)

/-- Steps that neither put an identity on the list nor begin or end a pass. -/
theorem Tracks.keep (h : q.Tracks es) (hr : Represents t.st.heap es)
    (hgot : t.worker.got = q.s.worker.got)
    (hpc : q.pass ≠ none → t.worker.pc ∈ [.timedPrepare, .timedWait, .report]) :
    Tracks { q with s := t } es :=
  ⟨hr, by simpa [reported, inHand, hgot] using h.split, h.quiet, hpc⟩

theorem Tracks.create (h : q.Tracks es) {e : Entry} (hr : Represents t.st.heap (e :: es))
    (hw : t.worker = q.s.worker) (k : ℕ) (A : Allocator) :
    (q.note t (.write k A)).Tracks (e :: es) := by
  refine ⟨hr, ?_, h.quiet, by simpa [note, hw] using h.underway⟩
  simp [note, reported, inHand, hw, hr.identities_eq, h.rep.identities_eq, h.split]

theorem Tracks.noCreate (h : q.Tracks es) (hr : Represents t.st.heap es)
    (hpc : t.worker.pc = q.s.worker.pc) (hgot : t.worker.got = q.s.worker.got) (k : ℕ)
    (A : Allocator) : (q.note t (.write k A)).Tracks es := by
  have hkept := h.keep hr hgot (hpc ▸ h.underway)
  simpa [note, hr.identities_eq, h.rep.identities_eq] using hkept

/-- `identity_get` takes the oldest identity and leaves none. -/
theorem Tracks.get (h : q.Tracks es) (hnone : q.pass = none) (h1 : es.length ≤ 1)
    (hr : Represents t.st.heap []) (hpc : t.worker.pc = .timedPrepare)
    (hgot : ∀ e, es = [e] → t.worker.got.identity = e.val) :
    Tracks { q with s := t, pass := some q.s.st.heap.identities.isEmpty } [] := by
  refine ⟨hr, ?_, h.quiet, by simp [hpc]⟩
  have hsplit := h.split
  rcases Nat.le_one_iff_eq_zero_or_eq_one.mp h1 with h0 | h1
  · obtain rfl := List.length_eq_zero_iff.mp h0
    simpa [reported, inHand, hnone, h.rep.identities_eq] using hsplit
  · obtain ⟨e, rfl⟩ := List.length_eq_one_iff.mp h1
    simpa [reported, inHand, hnone, h.rep.identities_eq, hgot e rfl] using hsplit

/-- The end of a pass leaves nothing in hand. -/
theorem Tracks.close (h : q.Tracks es) {report : Option Identity} (hr : Represents t.st.heap es)
    (htaken : q.pass = some false → report = some q.s.worker.got.identity)
    (hempty : q.pass = some true → report = none) : (q.close t report).Tracks es := by
  have hsplit := h.split
  refine ⟨hr, ?_, ?_, by simp [Handoff.close]⟩
  · rcases hp : q.pass with _ | _ | _
    · simpa [Handoff.close, reported, inHand, hp] using hsplit
    · simpa [Handoff.close, reported, inHand, hp, htaken hp] using hsplit
    · simpa [Handoff.close, reported, inHand, hp, hempty hp] using hsplit
  · intro p hp he
    rcases List.mem_append.mp hp with hp | hp
    · exact h.quiet p hp he
    · obtain ⟨b, hb, rfl⟩ := Option.map_eq_some_iff.mp (Option.mem_toList.mp hp)
      exact hempty (hb.trans (congrArg some he))

/-- A step of `kthread_fn` that is neither its `identity_get` nor its report. -/
theorem Tracks.moved (h : q.Tracks es) {ok : Bool} {w : Worker} (hm : WorkerMove ok q.s.worker w)
    (hpc : q.s.worker.pc ≠ .report) :
    (q.note { q.s with worker := w } (.worker ok)).Tracks es := by
  have hnote : q.s.worker.pc ≠ .get → w.got = q.s.worker.got →
      (q.pass ≠ none → w.pc ∈ [.timedPrepare, .timedWait, .report]) →
      (q.note { q.s with worker := w } (.worker ok)).Tracks es := by
    intro hget hgot hunder
    simp only [note, hget, hpc, if_false]
    exact h.keep h.rep hgot hunder
  cases hm with
  | reported hp => exact absurd hp hpc
  | dozed hp => exact hnote (by simp [hp]) rfl (by simp)
  | resleeps hp => exact hnote (by simp [hp]) rfl (by simp [hp])
  | allocated hp | allocFailed hp | prepared hp | stopSeen hp | toSchedule hp | slept hp | ranOn hp
  | woken hp | stopped hp | toGet hp =>
    exact hnote (by simp [hp]) rfl fun hne => absurd (h.no_pass (by simp [hp])) hne

theorem Tracks.worker {ok : Bool} {es' : List Entry} (h : q.Tracks es)
    (hok : OneEach (.worker ok) q) (hr : Represents t.st.heap es')
    (htr : Trans q.s es (.worker ok) t es') : (q.note t (.worker ok)).Tracks es' := by
  cases htr with
  | @worker _ w ht hm =>
    by_cases hpc : q.s.worker.pc = .report
    · cases hm with
      | reported =>
        simp only [note, hpc, reduceCtorEq, if_false, if_true, List.getLast?_concat]
        exact h.close h.rep (fun _ => rfl) fun hp => absurd hp (hok.2 hpc)
      | _ hp => simp [hp] at hpc
    · exact h.moved hm hpc
  | workerGet ht hpc hc hval =>
    have h1 := hok.1 hpc
    rw [h.rep.identities_eq, List.length_map] at h1
    simp only [note, hpc, if_true]
    exact h.get (h.no_pass (by simp [hpc])) h1 hr rfl fun e he => by simp [hval, he]

theorem Tracks.step {q' : Handoff} {e : HandoffStep} (h : q.Tracks es) (hok : OneEach e q)
    (hstep : step e q = some q') : ∃ es', q'.Tracks es' := by
  obtain ⟨t, hst, rfl⟩ := Option.map_eq_some_iff.mp hstep
  obtain ⟨es', hr, htr⟩ := step_trans h.rep hst
  refine ⟨es', ?_⟩
  cases e with
  | worker ok => exact h.worker hok hr htr
  | timedOut ret =>
    cases htr with
    | timedOut ht hpc =>
      by_cases hret : ret < 0
      · simp only [note, hret, if_true]
        exact h.close h.rep (fun hp => absurd hp (hok hret)) fun _ => rfl
      · simp only [note, hret, if_false]
        exact h.keep h.rep rfl (by simp)
  | spurious =>
    cases htr with
    | spurious => exact h.keep h.rep rfl h.underway
  | writeBegin w =>
    cases htr with
    | writeEnded | writeCopied => exact h.keep hr rfl h.underway
  | write k A =>
    cases htr with
    | writePut => exact h.create hr rfl k A
    | writeFail | writeCounted | writeWoken => exact h.noCreate hr rfl rfl k A

/-- A step that leaves the books right is as `OneEach` has it. -/
theorem Tracks.oneEach {q' : Handoff} {e : HandoffStep} (h : q.Tracks es)
    (hstep : Handoff.step e q = some q') (hf : q'.Faithful) : OneEach e q := by
  obtain ⟨t, hst, rfl⟩ := Option.map_eq_some_iff.mp hstep
  obtain ⟨es', hr, htr⟩ := step_trans h.rep hst
  have hlen := hf.conserved.length_eq
  rw [List.length_append, List.length_append] at hlen
  have hold : q.created.length = q.reported.length + q.inHand.length + es.length := by
    simp [h.split]
    omega
  cases e with
  | worker ok =>
    refine ⟨fun hpc => ?_, fun hpc hp => ?_⟩
    · -- one identity in hand at most, and none on the list
      have hnone := h.no_pass (by simp [hpc])
      cases htr with
      | worker ht hm => cases hm <;> simp_all
      | workerGet =>
        rw [h.rep.identities_eq, List.length_map]
        simp [note, hpc, reported, inHand, hnone, hr.identities_eq] at hlen hold
        split_ifs at hlen <;> simp at hlen <;> omega
    · cases htr with
      | workerGet ht hget => simp [hget] at hpc
      | worker ht hm =>
        cases hm with
        | reported =>
          have hq := hf.quiet ⟨true, some q.s.worker.got.identity⟩
          simp [note, hpc, Handoff.close, hp] at hq
        | _ hp => simp [hp] at hpc
  | timedOut ret =>
    intro hret hp
    cases htr with
    | timedOut ht hpc =>
      simp [note, hret, Handoff.close, reported, inHand, hp, hr.identities_eq] at hlen hold
      omega
  | spurious | writeBegin | write => trivial

theorem Tracks.always_iff (h : q.Tracks es) (steps : List HandoffStep) :
    Always Handoff.step Faithful steps q ↔ Along Handoff.step OneEach steps q := by
  refine always_iff_along_of_inv (fun q (hq : ∃ es, Tracks q es) => ?_) ?_ ?_ ⟨es, h⟩
  · obtain ⟨es, h⟩ := hq
    exact h.faithful
  · rintro e q q' ⟨es, h⟩ hstep hf
    exact h.oneEach hstep hf
  · rintro e q q' ⟨es, h⟩ hok hstep
    exact h.step hok hstep

end
end Handoff

/-- For every interleaving of writes and the worker, from any state that `misc_init` can
leave: the books stay right exactly as long as every pass that takes an identity takes no other
and is not interrupted, and every pass that finds none is. -/
theorem handoff_faithful_iff {s : State} {es : List Entry} (hr : Represents s.st.heap es)
    (steps : List HandoffStep) :
    Always Handoff.step Handoff.Faithful steps (Handoff.start s) ↔
      Along Handoff.step Handoff.OneEach steps (Handoff.start s) :=
  (Handoff.tracks_start hr).always_iff steps

/-- The worker goes to sleep, something else happens, and the worker is woken up and takes what
is on the list. -/
def HandoffStep.takes (meanwhile : List HandoffStep) : List HandoffStep :=
  List.replicate 4 (.worker true) ++ meanwhile ++ [.spurious] ++ List.replicate 4 (.worker true)

/-- A write of one byte, in its steps. -/
def HandoffStep.writes (c : UInt8) : List HandoffStep :=
  [.writeBegin (.byte c), .write 0 .above, .write 0 .above, .write 0 .above]

theorem represents_of_loaded {s : State} (hs : run step loaded .start = some s) :
    ∃ es, Represents s.st.heap es := by
  have halways : Always step (fun s => ∃ es, Represents s.st.heap es) loaded .start := by
    refine always_of_step ?_ loaded ⟨[], represents_init⟩
    rintro l s t ⟨es, hr⟩ hst
    obtain ⟨es', hr', -⟩ := step_trans hr hst
    exact ⟨es', hr'⟩
  exact halways.of_run hs

open HandoffStep in
theorem handoff_faithful_iff_single :
    ∃ s es, run step loaded .start = some s ∧ Represents s.st.heap es ∧
      (run Handoff.step (takes (writes 78) ++ [.timedOut 0, .worker true])
        (Handoff.start s)).isSome ∧
      Always Handoff.step Handoff.Faithful (takes (writes 78) ++ [.timedOut 0, .worker true])
        (Handoff.start s) := by
  have hrun : (run step loaded .start).map (fun s =>
      ((run Handoff.step (takes (writes 78) ++ [.timedOut 0, .worker true])
          (Handoff.start s)).isSome,
        decide (Along Handoff.step Handoff.OneEach
          (takes (writes 78) ++ [.timedOut 0, .worker true]) (Handoff.start s)))) =
      some (true, true) := by
    decide +kernel
  obtain ⟨s, hs, hq⟩ := Option.map_eq_some_iff.mp hrun
  obtain ⟨hsome, hok⟩ := Prod.mk.inj hq
  obtain ⟨es, hr⟩ := represents_of_loaded hs
  exact ⟨s, es, hs, hr, hsome, (handoff_faithful_iff hr _).mpr (of_decide_eq_true hok)⟩

open HandoffStep in
/-- After `misc_init`: of two identities one is lost, the one taken by an interrupted pass is
lost, and a pass that finds none reports one. -/
theorem handoff_loses_identity :
    ∃ s, run step loaded .start = some s ∧
      ∀ steps ∈ [takes (writes 78 ++ writes 75), takes (writes 78) ++ [.timedOut (-ERESTARTSYS)],
          takes [] ++ [.timedOut 0, .worker true]],
        ¬ Always Handoff.step Handoff.Faithful steps (Handoff.start s) := by
  have hrun : (run step loaded .start).map (fun s =>
      [takes (writes 78 ++ writes 75), takes (writes 78) ++ [.timedOut (-ERESTARTSYS)],
        takes [] ++ [.timedOut 0, .worker true]].all fun steps =>
          !decide (Along Handoff.step Handoff.OneEach steps (Handoff.start s))) = some true := by
    decide +kernel
  obtain ⟨s, hs, hall⟩ := Option.map_eq_some_iff.mp hrun
  obtain ⟨es, hr⟩ := represents_of_loaded hs
  refine ⟨s, hs, fun steps hmem hfaithful => ?_⟩
  have hne := List.all_eq_true.mp hall steps hmem
  have hok := ((Handoff.tracks_start hr).always_iff steps).mp hfaithful
  simp [hok] at hne

end Eudyptula.Misc
