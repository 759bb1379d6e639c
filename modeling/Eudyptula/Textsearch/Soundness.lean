import Eudyptula.Textsearch.Registry

/-! What the registry keeps in every interleaving: names are unique and a module with users
stays. That a lookup never meets the entry of a module that is gone rests on the module loader. -/
namespace Eudyptula.Textsearch
open LinkedRing Runs

section
variable {μ ν : Type*} [DecidableEq μ] (ops : μ → TsOps ν)

structure Sound (s : State μ ν) : Prop where
  names : ∀ m m', some m ∈ s.list.nodes → some m' ∈ s.list.nodes →
    (ops m).name = (ops m').name → m = m'
  loaded : ∀ m, some m ∈ s.list.nodes ↔ s.phase m = .live ∨ s.phase m = .going
  refs : ∀ m, s.refs m = s.holders m
  held : ∀ m, 0 < s.refs m → s.phase m = .live
  asked : ∀ c ∈ s.calls, ∀ m, c.pc.holder = some m → (ops m).name = some c.algo

variable {ops} {s t : State μ ν} {m : μ} {k : ℕ} {c : Prepare μ ν} {pc : Pc μ}

/-- One call moves on, with the reference it takes or gives back. -/
theorem Sound.setPc (h : Sound ops s) (hk : s.calls[k]? = some c) (refs : μ → ℕ)
    (hrefs : ∀ m, refs m + (if c.pc.holder = some m then 1 else 0) =
      s.refs m + (if pc.holder = some m then 1 else 0))
    (hheld : ∀ m, pc.holder = some m → s.phase m = .live ∧ (ops m).name = some c.algo) :
    Sound ops ({ s with refs }.setPc k c pc) where
  names := h.names
  loaded := h.loaded
  refs m := by
    have hcount := holders_setPc pc hk m
    have hold := h.refs m
    have hnew := hrefs m
    show refs m = (s.setPc k c pc).holders m
    omega
  held m hm := by
    have hnew := hrefs m
    by_cases hpos : 0 < s.refs m
    · exact h.held m hpos
    · refine (hheld m ?_).1
      by_contra hne
      have hm' : 0 < refs m := hm
      rw [if_neg hne] at hnew
      omega
  asked c' hc' m hm := by
    rcases List.mem_or_eq_of_mem_set hc' with hmem | rfl
    · exact h.asked c' hmem m hm
    · exact (hheld m hm).2

theorem Sound.pos_of_holder (h : Sound ops s) (hk : s.calls[k]? = some c)
    (hm : c.pc.holder = some m) : 0 < s.refs m := by
  rw [h.refs, State.holders, List.countP_pos_iff]
  exact ⟨c, List.mem_of_getElem? hk, by simpa using hm⟩

theorem Sound.setPc_of_holder (h : Sound ops s) (hk : s.calls[k]? = some c)
    (hsame : pc.holder = c.pc.holder) : Sound ops (s.setPc k c pc) := by
  refine h.setPc hk s.refs (fun m => by rw [hsame]) fun m hm => ?_
  have hm' : c.pc.holder = some m := hsame ▸ hm
  exact ⟨h.held m (h.pos_of_holder hk hm'), h.asked c (List.mem_of_getElem? hk) m hm'⟩

theorem Sound.get (h : Sound ops s) (hk : s.calls[k]? = some c) (hold : c.pc.holder = none)
    (hlive : s.phase m = .live) (hname : (ops m).name = some c.algo) :
    Sound ops ((s.get m).setPc k c (.init m)) := by
  refine h.setPc hk _ (fun m' => ?_) fun m' hm' => ?_
  · rw [hold]
    by_cases hm : m' = m
    · simp [hm, Pc.holder]
    · simp [hm, Ne.symm hm, Pc.holder]
  · rw [Pc.holder, Option.some.injEq] at hm'
    exact hm' ▸ ⟨hlive, hname⟩

theorem Sound.put (h : Sound ops s) (hk : s.calls[k]? = some c) (hold : c.pc.holder = some m)
    (hnew : pc.holder = none) : Sound ops ((s.put m).setPc k c pc) := by
  have hpos := h.pos_of_holder hk hold
  refine h.setPc hk _ (fun m' => ?_) (by simp [hnew])
  by_cases hm : m' = m
  · simp only [hm, hold, hnew, Function.update_self, if_true]
    simpa using Nat.sub_add_cancel hpos
  · simp [hm, Ne.symm hm, hold, hnew]

-- The list changes: every lookup watches, and every other call is as it was.
theorem Sound.watch_refs (h : Sound ops s) (f : Reader (Option μ) → Reader (Option μ)) (m : μ) :
    s.refs m = (s.calls.map (Prepare.watch f)).countP fun c => c.pc.holder = some m := by
  rw [holders_watch, h.refs]
  rfl

theorem Sound.watch_asked (h : Sound ops s) (f : Reader (Option μ) → Reader (Option μ)) :
    ∀ c ∈ s.calls.map (Prepare.watch f), ∀ m, c.pc.holder = some m →
      (ops m).name = some c.algo := by
  intro c hc m hm
  obtain ⟨c, hmem, rfl⟩ := List.mem_map.mp hc
  exact h.asked c hmem m (by simpa [Prepare.watch] using hm)

theorem Sound.load (h : Sound ops s) (ha : some m ∉ none :: s.list.nodes)
    (hunnamed : ∀ p ∈ s.list.nodes, nameAt ops p ≠ (ops m).name) :
    Sound ops { s with
      list := s.list.addTail (some m) ha, phase := Function.update s.phase m .live
      calls := s.calls.map (Prepare.watch (Reader.sawAdded (some m))) } where
  names m₁ m₂ h₁ h₂ heq := by
    rw [Ring.mem_addTail, Option.some.injEq] at h₁ h₂
    rcases h₁ with h₁ | rfl <;> rcases h₂ with h₂ | rfl
    · exact h.names m₁ m₂ h₁ h₂ heq
    · exact absurd heq (hunnamed _ h₁)
    · exact absurd heq.symm (hunnamed _ h₂)
    · rfl
  loaded m' := by
    by_cases hm : m' = m
    · simp [hm]
    · simp [hm, h.loaded]
  refs := h.watch_refs _
  asked := h.watch_asked _
  held m' hm' := by
    by_cases hm : m' = m
    · simp [hm]
    · simpa [hm] using h.held m' hm'

theorem Sound.unload (h : Sound ops s) (hlive : s.phase m = .live) (hrefs : s.refs m = 0) :
    Sound ops { s with phase := Function.update s.phase m .going } where
  names := h.names
  loaded m' := by
    by_cases hm : m' = m
    · simp [hm, h.loaded, hlive]
    · simp [hm, h.loaded]
  refs := h.refs
  asked := h.asked
  held m' hm' := by
    have hne : m' ≠ m := by
      rintro rfl
      exact absurd hrefs (Nat.ne_of_gt hm')
    simpa [hne] using h.held m' hm'

theorem Sound.exit (h : Sound ops s) (hgoing : s.phase m = .going) (ha : some m ∈ s.list.nodes) :
    Sound ops { s with
      list := s.list.del (some m) ha, phase := Function.update s.phase m .exited
      calls := s.calls.map (Prepare.watch (Reader.sawRemoved (some m))) } where
  names m₁ m₂ h₁ h₂ heq :=
    h.names m₁ m₂ ((Ring.mem_del ha).mp h₁).2 ((Ring.mem_del ha).mp h₂).2 heq
  loaded m' := by
    by_cases hm : m' = m
    · simp [hm]
    · simp [hm, h.loaded]
  refs := h.watch_refs _
  asked := h.watch_asked _
  held m' hm' := by
    have hlive := h.held m' hm'
    have hne : m' ≠ m := by
      rintro rfl
      simp [hgoing] at hlive
    simpa [hne] using hlive

theorem Sound.free (h : Sound ops s) (hexited : s.phase m = .exited) :
    Sound ops { s with phase := Function.update s.phase m .absent } where
  names := h.names
  loaded m' := by
    by_cases hm : m' = m
    · simp [hm, h.loaded, hexited]
    · simp [hm, h.loaded]
  refs := h.refs
  asked := h.asked
  held m' hm' := by
    have hlive := h.held m' hm'
    have hne : m' ≠ m := by
      rintro rfl
      simp [hexited] at hlive
    simpa [hne] using hlive

theorem Sound.prepare (h : Sound ops s) (hold : c.pc.holder = none) :
    Sound ops { s with calls := s.calls ++ [c] } where
  names := h.names
  loaded := h.loaded
  refs m := by
    have hnone : ([c].countP fun c => c.pc.holder = some m) = 0 := by simp [hold]
    rw [State.holders, List.countP_append, hnone]
    exact h.refs m
  held := h.held
  asked c' hc' m hm := by
    rcases List.mem_append.mp hc' with hmem | hmem
    · exact h.asked c' hmem m hm
    · simp [List.mem_singleton.mp hmem, hold] at hm

theorem sound_start : Sound ops State.start where
  names := by simp [State.start, Ring.empty]
  loaded := by simp [State.start, Ring.empty]
  refs := by simp [State.start, State.holders]
  held := by simp [State.start]
  asked := by simp [State.start]

end

section
variable {μ ν : Type*} [DecidableEq μ] [DecidableEq ν] {ops : μ → TsOps ν} {s t : State μ ν}
  {m : μ} {k : ℕ}

theorem textsearchRegister_ok {l : Ring (Option μ) none} (h : (textsearchRegister ops m l).1 = 0) :
    (∀ p ∈ l.nodes, nameAt ops p ≠ (ops m).name) ∧
      ∃ ha, (textsearchRegister ops m l).2 = l.addTail (some m) ha := by
  unfold textsearchRegister at h ⊢
  split_ifs at h ⊢ with _ hfound
  · simp [EINVAL] at h
  · refine ⟨fun p hp heq => ?_, fresh_of_unnamed ops hfound, rfl⟩
    rw [Ring.search_eq_find?, List.find?_eq_none] at hfound
    exact hfound p hp (by simpa using heq)
  · simp [EEXIST] at h

theorem textsearchUnregister_mem {l : Ring (Option μ) none} (ha : some m ∈ l.nodes) :
    textsearchUnregister m l = (0, l.del (some m) ha) := by
  have hfound : l.search (fun o => o = some m) ≠ none := by
    rw [Ring.search_eq_find?, Ne, List.find?_eq_none]
    intro hnone
    exact hnone _ ha (by simp)
  unfold textsearchUnregister
  rw [dif_pos hfound]

/-- What a step can do. -/
inductive Goes (ops : μ → TsOps ν) (s : State μ ν) : Event μ ν → State μ ν → Prop
  | refused {m : μ} : Goes ops s (.load m) s
  | load {m : μ} (ha : some m ∉ none :: s.list.nodes) : s.phase m = .absent →
      (∀ p ∈ s.list.nodes, nameAt ops p ≠ (ops m).name) →
      Goes ops s (.load m) { s with
        list := s.list.addTail (some m) ha, phase := Function.update s.phase m .live
        calls := s.calls.map (Prepare.watch (Reader.sawAdded (some m))) }
  | unload {m : μ} : s.phase m = .live → s.refs m = 0 →
      Goes ops s (.unload m) { s with phase := Function.update s.phase m .going }
  | exit {m : μ} : s.phase m = .going →
      Goes ops s (.exit m) { s with
        list := (textsearchUnregister m s.list).2, phase := Function.update s.phase m .exited
        calls := s.calls.map (Prepare.watch (Reader.sawRemoved (some m))) }
  | free {m : μ} : s.phase m = .exited →
      Goes ops s (.free m) { s with phase := Function.update s.phase m .absent }
  | invalid {algo len autoload} : Goes ops s (.prepare algo len autoload)
      { s with calls := s.calls ++ [⟨algo, autoload, .failed (-EINVAL)⟩] }
  | prepare {algo len autoload} : Goes ops s (.prepare algo len autoload)
      { s with calls := s.calls ++ [⟨algo, autoload, .lookup (.enter s.list) false⟩] }
  | notFound {k : ℕ} {c d retried} : s.calls[k]? = some c → c.pc = .lookup d retried →
      Goes ops s (.step k) (s.setPc k c (c.notFound retried))
  | oops {k : ℕ} {c d retried} {m : μ} : s.calls[k]? = some c → c.pc = .lookup d retried →
      d.pos = some m → s.phase m = .absent → Goes ops s (.step k) (s.setPc k c .oops)
  | found {k : ℕ} {c d retried} {m : μ} : s.calls[k]? = some c → c.pc = .lookup d retried →
      (ops m).name = some c.algo → s.phase m = .live →
      Goes ops s (.step k) ((s.get m).setPc k c (.init m))
  | next {k : ℕ} {c d retried} {m : μ} : s.calls[k]? = some c → c.pc = .lookup d retried →
      d.pos = some m → (ops m).name ≠ some c.algo →
      Goes ops s (.step k) (s.setPc k c (.lookup (d.advance s.list) retried))
  | again {k : ℕ} {c} : s.calls[k]? = some c → c.pc = .requesting →
      Goes ops s (.step k) (s.setPc k c (.lookup (.enter s.list) true))
  | ready {k : ℕ} {c} {m : μ} : s.calls[k]? = some c → c.pc = .init m →
      Goes ops s (.initialised k 0) (s.setPc k c (.conf m))
  | failed {k : ℕ} {c} {m : μ} {err} : s.calls[k]? = some c → c.pc = .init m →
      Goes ops s (.initialised k err) ((s.put m).setPc k c (.failed err))
  | destroy {k : ℕ} {c} {m : μ} : s.calls[k]? = some c → c.pc = .conf m →
      Goes ops s (.destroy k) ((s.put m).setPc k c .destroyed)

theorem goes_of_advance (hstep : s.advance ops k = some t) : Goes ops s (.step k) t := by
  obtain ⟨c, hk, hnext⟩ := Option.bind_eq_some_iff.mp hstep
  cases hpc : c.pc with
  | lookup d retried =>
    cases hpos : d.pos with
    | none =>
      simp only [hpc, hpos, Option.some.injEq] at hnext
      exact hnext ▸ .notFound hk hpc
    | some m =>
      simp only [hpc, hpos] at hnext
      split_ifs at hnext with habsent hname hlive
      · exact Option.some.inj hnext ▸ .oops hk hpc hpos habsent
      · exact Option.some.inj hnext ▸ .found hk hpc hname hlive
      · exact Option.some.inj hnext ▸ .notFound hk hpc
      · exact Option.some.inj hnext ▸ .next hk hpc hpos hname
  | requesting =>
    simp only [hpc, Option.some.injEq] at hnext
    exact hnext ▸ .again hk hpc
  | init m | conf m | failed err | destroyed | oops => simp [hpc] at hnext

theorem goes_of_step {e : Event μ ν} (hstep : s.step ops e = some t) : Goes ops s e t := by
  cases e with
  | load m =>
    simp only [State.step] at hstep
    split_ifs at hstep with habsent hok
    · obtain ⟨hunnamed, ha, hlist⟩ := textsearchRegister_ok hok
      rw [hlist] at hstep
      exact Option.some.inj hstep ▸ .load ha habsent hunnamed
    · exact Option.some.inj hstep ▸ .refused
  | unload m =>
    simp only [State.step] at hstep
    split_ifs at hstep with hidle
    exact Option.some.inj hstep ▸ .unload hidle.1 hidle.2
  | exit m =>
    simp only [State.step] at hstep
    split_ifs at hstep with hgoing
    exact Option.some.inj hstep ▸ .exit hgoing
  | free m =>
    simp only [State.step] at hstep
    split_ifs at hstep with hexited
    exact Option.some.inj hstep ▸ .free hexited
  | prepare algo len autoload =>
    simp only [State.step] at hstep
    split_ifs at hstep
    · exact Option.some.inj hstep ▸ .invalid
    · exact Option.some.inj hstep ▸ .prepare
  | step k => exact goes_of_advance hstep
  | initialised k err =>
    obtain ⟨c, hk, hnext⟩ := Option.bind_eq_some_iff.mp hstep
    cases hpc : c.pc with
    | init m =>
      simp only [hpc] at hnext
      split_ifs at hnext with herr
      · exact Option.some.inj hnext ▸ herr ▸ .ready hk hpc
      · exact Option.some.inj hnext ▸ .failed hk hpc
    | lookup | requesting | conf | failed | destroyed | oops => simp [hpc] at hnext
  | destroy k =>
    obtain ⟨c, hk, hnext⟩ := Option.bind_eq_some_iff.mp hstep
    cases hpc : c.pc with
    | conf m =>
      simp only [hpc, Option.some.injEq] at hnext
      exact hnext ▸ .destroy hk hpc
    | lookup | requesting | init | failed | destroyed | oops => simp [hpc] at hnext

theorem Sound.step (h : Sound ops s) {e : Event μ ν} (hstep : s.step ops e = some t) :
    Sound ops t := by
  cases goes_of_step hstep with
  | refused => exact h
  | load ha _ hunnamed => exact h.load ha hunnamed
  | unload hlive hrefs => exact h.unload hlive hrefs
  | @exit m hgoing =>
    have ha := (h.loaded m).mpr (Or.inr hgoing)
    rw [textsearchUnregister_mem ha]
    exact h.exit hgoing ha
  | free hexited => exact h.free hexited
  | invalid | prepare => exact h.prepare rfl
  | notFound hk hpc => exact h.setPc_of_holder hk (by rw [notFound_holder, hpc]; rfl)
  | oops hk hpc | next hk hpc | again hk hpc | ready hk hpc =>
    exact h.setPc_of_holder hk (by rw [hpc]; rfl)
  | found hk hpc hname hlive => exact h.get hk (by rw [hpc]; rfl) hlive hname
  | failed hk hpc | destroy hk hpc => exact h.put hk (by rw [hpc]; rfl) rfl

/-- What a step does to the calls: nothing, all lookups watch, one more is made, or one goes
on that has not returned or is the one destroyed. -/
theorem step_calls {e : Event μ ν} (hstep : s.step ops e = some t) :
    t.calls = s.calls ∨ (∃ f, t.calls = s.calls.map (Prepare.watch f)) ∨
      (∃ c, t.calls = s.calls ++ [c]) ∨
      ∃ k c pc, s.calls[k]? = some c ∧ t.calls = s.calls.set k { c with pc } ∧
        (c.pc.settled = false ∨ e = .destroy k) := by
  cases goes_of_step hstep with
  | refused | unload | free => exact Or.inl rfl
  | load | exit => exact Or.inr (Or.inl ⟨_, rfl⟩)
  | invalid | prepare => exact Or.inr (Or.inr (Or.inl ⟨_, rfl⟩))
  | notFound hk hpc | oops hk hpc | found hk hpc | next hk hpc | again hk hpc | ready hk hpc
  | failed hk hpc =>
    exact Or.inr (Or.inr (Or.inr ⟨_, _, _, hk, rfl, Or.inl (by rw [hpc]; rfl)⟩))
  | destroy hk => exact Or.inr (Or.inr (Or.inr ⟨_, _, _, hk, rfl, Or.inr rfl⟩))

/-- A call that has returned stays as it is until its configuration is destroyed. -/
theorem pcAt_step {e : Event μ ν} {pc : Pc μ} (hstep : s.step ops e = some t)
    (hk : s.pcAt k = some pc) (hpc : pc.settled = true) (hne : e ≠ .destroy k) :
    t.pcAt k = some pc := by
  obtain ⟨c, hc, rfl⟩ := Option.map_eq_some_iff.mp hk
  have hlt := (List.getElem?_eq_some_iff.mp hc).1
  unfold State.pcAt
  rcases step_calls hstep with hcalls | ⟨f, hcalls⟩ | ⟨c', hcalls⟩ |
    ⟨k', c', pc', hk', hcalls, hold⟩
  · rw [hcalls, hc]
    rfl
  · rw [hcalls, List.getElem?_map, hc, Option.map_map]
    simp [Prepare.watch, watch_of_settled hpc]
  · rw [hcalls, List.getElem?_append_left hlt, hc]
    rfl
  · have hkk : k' ≠ k := by
      rintro rfl
      obtain rfl := Option.some.inj (hc.symm.trans hk')
      rcases hold with hold | hold
      · simp [hpc] at hold
      · exact hne hold
    rw [hcalls, List.getElem?_set_ne hkk, hc]
    rfl

theorem pcAt_destroy (hstep : s.step ops (.destroy k) = some t) :
    t.pcAt k = some .destroyed ∧ ∃ m, s.pcAt k = some (.conf m) := by
  cases goes_of_step hstep with
  | @destroy _ c m hk hpc =>
    have hlt := (List.getElem?_eq_some_iff.mp hk).1
    refine ⟨?_, m, by simp [State.pcAt, hk, hpc]⟩
    simp [State.pcAt, State.setPc, State.put, hlt]

theorem always_sound (ops : μ → TsOps ν) (es : List (Event μ ν)) :
    Always (State.step ops) (Sound ops) es .start :=
  always_of_step (fun _ _ _ hs ht => hs.step ht) es sound_start

/-- The references of a module are the configurations and the calls that use it. As long as
there is one the module stays, and it is the algorithm that was asked for. -/
theorem users_keep_module (ops : μ → TsOps ν) (es : List (Event μ ν)) :
    Always (State.step ops) (fun s => ∀ m, s.refs m = s.holders m ∧
      ∀ c ∈ s.calls, c.pc.holder = some m → s.phase m = .live ∧
        ∀ m', s.phase m' = .live → ((ops m').name = some c.algo ↔ m' = m)) es .start := by
  refine (always_sound ops es).mono fun s hs m => ⟨hs.refs m, fun c hc hm => ?_⟩
  obtain ⟨k, hk⟩ := List.mem_iff_getElem?.mp hc
  have hlive := hs.held m (hs.pos_of_holder hk hm)
  have hname := hs.asked c hc m hm
  refine ⟨hlive, fun m' hlive' => ⟨fun hname' => ?_, ?_⟩⟩
  · have hin := (hs.loaded m).mpr (Or.inl hlive)
    have hin' := (hs.loaded m').mpr (Or.inl hlive')
    exact hs.names m' m hin' hin (hname'.trans hname.symm)
  · rintro rfl
    exact hname

end

section
variable {μ ν : Type*} (ops : μ → TsOps ν)

/-- A lookup of `algo` is on its way through the list, and the entries removed meanwhile are
still in memory. -/
structure Lookup (list : Ring (Option μ) none) (phase : μ → Phase) (algo : ν)
    (d : Reader (Option μ)) : Prop where
  onTrack : d.OnTrack list fun p => nameAt ops p = some algo
  waiting : ∀ m, some m ∈ d.removed → phase m = .exited

/-- The call has not read freed memory, and its lookup is on its way. -/
structure Spared (list : Ring (Option μ) none) (phase : μ → Phase) (c : Prepare μ ν) : Prop where
  sane : c.pc ≠ .oops
  lookup : ∀ d retried, c.pc = .lookup d retried → Lookup ops list phase c.algo d

variable {ops} {list list' : Ring (Option μ) none} {phase phase' : μ → Phase} {algo : ν}
  {d : Reader (Option μ)} {m : μ} {c : Prepare μ ν}

theorem Lookup.enter (list : Ring (Option μ) none) (phase : μ → Phase) (algo : ν) :
    Lookup ops list phase algo (.enter list) :=
  ⟨Reader.onTrack_enter _ _, by simp [Reader.enter]⟩

theorem Lookup.notMem_removed (h : Lookup ops list phase algo d) (hm : phase m ≠ .exited) :
    some m ∉ d.removed :=
  mt (h.waiting m) hm

theorem Spared.watch {f : Reader (Option μ) → Reader (Option μ)} (h : Spared ops list phase c)
    (hf : ∀ d, Lookup ops list phase c.algo d → Lookup ops list' phase' c.algo (f d)) :
    Spared ops list' phase' (c.watch f) where
  sane := by
    intro hpc
    have hoops := h.sane
    cases hc : c.pc <;> simp_all [Prepare.watch, Pc.watch]
  lookup d retried hd := by
    obtain ⟨d, hpc, rfl⟩ := watch_eq_lookup_iff.mp hd
    exact hf d (h.lookup d retried hpc)

theorem Spared.mono (h : Spared ops list phase c)
    (hf : ∀ d retried, c.pc = .lookup d retried → Lookup ops list phase c.algo d →
      Lookup ops list' phase' c.algo d) : Spared ops list' phase' c :=
  ⟨h.sane, fun d retried hpc => hf d retried hpc (h.lookup d retried hpc)⟩

/-- A call that is through with its lookup. -/
theorem spared_of_not_lookup (hoops : c.pc ≠ .oops) (hpc : ∀ d retried, c.pc ≠ .lookup d retried) :
    Spared ops list phase c :=
  ⟨hoops, fun d retried hd => absurd hd (hpc d retried)⟩

theorem spared_notFound (retried : Bool) :
    Spared ops list phase { c with pc := c.notFound retried } := by
  refine spared_of_not_lookup ?_ (notFound_ne_lookup c retried)
  dsimp only
  unfold Prepare.notFound
  split_ifs <;> nofun

theorem spared_enter (c : Prepare μ ν) (list : Ring (Option μ) none) (phase : μ → Phase)
    (retried : Bool) : Spared ops list phase { c with pc := .lookup (.enter list) retried } where
  sane := nofun
  lookup d b hd := by
    obtain ⟨rfl, -⟩ := Pc.lookup.inj hd
    exact Lookup.enter list phase c.algo

def AllSpared (ops : μ → TsOps ν) (s : State μ ν) : Prop :=
  ∀ c ∈ s.calls, Spared ops s.list s.phase c

theorem AllSpared.setPc {s : State μ ν} {k : ℕ} {pc : Pc μ} (h : AllSpared ops s)
    (hpc : Spared ops s.list s.phase { c with pc }) : AllSpared ops (s.setPc k c pc) := by
  intro c' hc'
  rcases List.mem_or_eq_of_mem_set hc' with hmem | rfl
  · exact h c' hmem
  · exact hpc

theorem AllSpared.add {s : State μ ν} (h : AllSpared ops s) (hc : Spared ops s.list s.phase c) :
    AllSpared ops { s with calls := s.calls ++ [c] } := by
  intro c' hc'
  rcases List.mem_append.mp hc' with hmem | hmem
  · exact h c' hmem
  · exact List.mem_singleton.mp hmem ▸ hc

variable [DecidableEq μ] {s : State μ ν}

/-- The phase of a module changes that no reader has seen leave. -/
theorem Lookup.update (h : Lookup ops list phase algo d) (hm : some m ∉ d.removed) (p : Phase) :
    Lookup ops list (Function.update phase m p) algo d where
  onTrack := h.onTrack
  waiting m' hm' := by
    have hne : m' ≠ m := by
      rintro rfl
      exact hm hm'
    simpa [hne] using h.waiting m' hm'

theorem Lookup.addTail (h : Lookup ops list phase algo d) (habsent : phase m = .absent)
    (ha : some m ∉ none :: list.nodes) :
    Lookup ops (list.addTail (some m) ha) (Function.update phase m .live) algo
      (d.sawAdded (some m)) := by
  have hm := h.notMem_removed (m := m) (by simp [habsent])
  exact ⟨h.onTrack.addTail ha hm, (h.update hm .live).waiting⟩

theorem Lookup.del (h : Lookup ops list phase algo d) (ha : some m ∈ list.nodes) :
    Lookup ops (list.del (some m) ha) (Function.update phase m .exited) algo
      (d.sawRemoved (some m)) where
  onTrack := h.onTrack.del ha
  waiting m' hm' := by
    by_cases hm : m' = m
    · simp [hm]
    · simpa [hm] using h.waiting m' (by simpa [Reader.sawRemoved, hm] using hm')

/-- A reader is at the head, at an entry of the list or at one removed since it entered. -/
theorem Lookup.pos_ne_absent (h : Lookup ops s.list s.phase algo d) (hs : Sound ops s)
    (hpos : d.pos = some m) : s.phase m ≠ .absent := by
  rcases h.onTrack.pos with hhead | hin | hremoved
  · simp [hpos] at hhead
  · rw [hpos, hs.loaded] at hin
    rcases hin with hin | hin <;> simp [hin]
  · rw [hpos] at hremoved
    simp [h.waiting m hremoved]

end

section
variable {μ ν : Type*} [DecidableEq μ] [DecidableEq ν] {ops : μ → TsOps ν} {s t : State μ ν}
  {k : ℕ}

theorem AllSpared.step (h : AllSpared ops s) (hs : Sound ops s) {e : Event μ ν}
    (hgrace : Grace e s) (hstep : s.step ops e = some t) : AllSpared ops t := by
  cases goes_of_step hstep with
  | refused => exact h
  | load ha habsent =>
    intro c hc
    obtain ⟨c, hmem, rfl⟩ := List.mem_map.mp hc
    exact (h c hmem).watch fun d hd => hd.addTail habsent ha
  | unload hlive =>
    refine fun c hc => (h c hc).mono fun d retried _ hd => hd.update ?_ .going
    exact hd.notMem_removed (by simp [hlive])
  | @exit m hgoing =>
    have ha := (hs.loaded m).mpr (Or.inr hgoing)
    rw [textsearchUnregister_mem ha]
    intro c hc
    obtain ⟨c, hmem, rfl⟩ := List.mem_map.mp hc
    exact (h c hmem).watch fun d hd => hd.del ha
  | free =>
    refine fun c hc => (h c hc).mono fun d retried hpc hd => hd.update ?_ .absent
    have hquiet := hgrace c hc
    rwa [hpc] at hquiet
  | invalid => exact h.add (spared_of_not_lookup (by simp) (by simp))
  | @prepare algo len autoload =>
    exact h.add (spared_enter ⟨algo, autoload, .requesting⟩ s.list s.phase false)
  | notFound => exact h.setPc (spared_notFound _)
  | oops hk hpc hpos habsent =>
    have hd := (h _ (List.mem_of_getElem? hk)).lookup _ _ hpc
    exact absurd habsent (hd.pos_ne_absent hs hpos)
  | @next k c d retried m hk hpc hpos hname =>
    have hd := (h c (List.mem_of_getElem? hk)).lookup d retried hpc
    refine h.setPc ⟨by simp, fun d' b hb => ?_⟩
    obtain ⟨rfl, -⟩ := Pc.lookup.inj hb
    refine ⟨hd.onTrack.advance (by simp [hpos]) ?_, hd.waiting⟩
    simpa [hpos, nameAt] using hname
  | @again k c => exact h.setPc (spared_enter c s.list s.phase true)
  | ready => exact h.setPc (spared_of_not_lookup (by simp) (by simp))
  | @found k c d retried m =>
    have hget : AllSpared ops (s.get m) := h
    exact hget.setPc (spared_of_not_lookup (by simp) (by simp))
  | @failed k c m | @destroy k c m =>
    have hput : AllSpared ops (s.put m) := h
    exact hput.setPc (spared_of_not_lookup (by simp) (by simp))

/-- If the module loader waits for a grace period before it frees a module, no lookup reads the
entry of a module that is gone. When a lookup comes to the end of the list, every loaded
algorithm of the name it looks for was registered after it began. -/
theorem lookups_safe (ops : μ → TsOps ν) (es : List (Event μ ν))
    (hgrace : Along (State.step ops) Grace es .start) :
    Always (State.step ops) (fun s => ∀ c ∈ s.calls, c.pc ≠ .oops ∧
      ∀ d retried, c.pc = .lookup d retried →
        (∀ m, d.pos = some m → s.phase m ≠ .absent) ∧
          (d.pos = none → ∀ m, s.phase m = .live → (ops m).name = some c.algo →
            some m ∈ d.added)) es .start := by
  have hspared : Always (State.step ops) (fun s => Sound ops s ∧ AllSpared ops s) es .start := by
    refine always_of_invariant (fun e s t hs he ht => ⟨hs.1.step ht, hs.2.step hs.1 he ht⟩) ?_
      hgrace
    exact ⟨sound_start, by simp [AllSpared, State.start]⟩
  refine hspared.mono fun s hs c hc => ⟨(hs.2 c hc).sane, fun d retried hpc => ?_⟩
  have hd := (hs.2 c hc).lookup d retried hpc
  refine ⟨fun m hpos => hd.pos_ne_absent hs.1 hpos, fun hpos m hlive hname => ?_⟩
  exact hd.onTrack.at_end hpos ((hs.1.loaded m).mpr (Or.inl hlive)) hname

/-- A lookup stands at the entry when its module is unloaded, and has gone on when it is freed;
the module is loaded again. -/
def unloadDuringLookup : List (Event Unit String) :=
  [.load (), .prepare "kmp" 6 false, .unload (), .exit (), .step 0, .free (), .load ()]

theorem lookups_safe_unload :
    (run (State.step fun _ => ⟨some "kmp", true, true, true, true⟩) unloadDuringLookup
      .start).isSome ∧
    Always (State.step fun _ => ⟨some "kmp", true, true, true, true⟩)
      (fun s => ∀ c ∈ s.calls, c.pc ≠ .oops ∧
        ∀ d retried, c.pc = .lookup d retried →
          (∀ m, d.pos = some m → s.phase m ≠ .absent) ∧
            (d.pos = none → ∀ m, s.phase m = .live → some "kmp" = some c.algo →
              some m ∈ d.added)) unloadDuringLookup .start :=
  ⟨by decide +kernel, lookups_safe _ _ (by decide +kernel)⟩

end
end Eudyptula.Textsearch
