import Eudyptula.Netfilter.Hook
import Eudyptula.Textsearch.Soundness

/-! Loading and unloading the packet hook. `conf` comes from the registry of search algorithms,
packets enter the hook at any time while it is registered, and `fini` destroys `conf` before it
takes the hook away. -/
namespace Eudyptula.Netfilter
open Runs Textsearch

/-- Where `init` or `fini` is; `k` is the call of `textsearch_prepare` that `conf` comes from. -/
inductive Stage
  | unloaded
  | preparing (k : ℕ)
  | hooking (k : ℕ)
  | loaded (k : ℕ)
  | unhooking (k : ℕ)
  | draining (k : ℕ)

def Stage.call : Stage → Option ℕ
  | .unloaded => none
  | .preparing k | .hooking k | .loaded k | .unhooking k | .draining k => some k

/-- `packets` are in `eudyptula_hook`; the configurations of the calls `lost` are still there
when the module is not. -/
structure System (μ ν : Type*) where
  ts : State μ ν
  stage : Stage
  packets : ℕ
  lost : List ℕ

/-- `ts` is what the registry, its modules and its other users do. `hooked` is the return of
`nf_register_net_hook`; `unhook` and `drained` are the two halves of `nf_unregister_net_hook`. -/
inductive Step (μ ν : Type*)
  | ts (e : Event μ ν)
  | init
  | prepared
  | hooked (err : ℤ)
  | enter
  | leave
  | destroy
  | unhook
  | drained

section
variable {μ ν : Type*}

/-- Nobody else has the address of `conf`. -/
def System.Foreign (s : System μ ν) : Event μ ν → Prop
  | .destroy k => s.stage.call ≠ some k ∧ k ∉ s.lost
  | _ => True

instance (s : System μ ν) : (e : Event μ ν) → Decidable (s.Foreign e)
  | .destroy k => inferInstanceAs (Decidable (s.stage.call ≠ some k ∧ k ∉ s.lost))
  | .load _ | .unload _ | .exit _ | .free _ | .prepare .. | .step _ | .initialised .. =>
    inferInstanceAs (Decidable True)

variable [DecidableEq μ] [DecidableEq ν] (ops : μ → TsOps ν) (kmp : ν)

def System.step : Step μ ν → System μ ν → Option (System μ ν)
  | .ts e, s => if s.Foreign e then (s.ts.step ops e).map fun ts => { s with ts } else none
  | .init, s => match s.stage with
    | .unloaded => (s.ts.step ops (.prepare kmp conf.pattern.length true)).map fun ts =>
      { s with ts, stage := .preparing s.ts.calls.length }
    | _ => none
  | .prepared, s => match s.stage with
    | .preparing k => match s.ts.pcAt k with
      | some (.conf _) => some { s with stage := .hooking k }
      | some (.failed _) => some { s with stage := .unloaded }
      | _ => none
    | _ => none
  | .hooked err, s => match s.stage with
    | .hooking k =>
      if err = 0 then some { s with stage := .loaded k }
      else some { s with stage := .unloaded, lost := k :: s.lost }
    | _ => none
  | .enter, s => match s.stage with
    | .loaded _ | .unhooking _ => some { s with packets := s.packets + 1 }
    | _ => none
  | .leave, s => if s.packets = 0 then none else some { s with packets := s.packets - 1 }
  | .destroy, s => match s.stage with
    | .loaded k => (s.ts.step ops (.destroy k)).map fun ts => { s with ts, stage := .unhooking k }
    | _ => none
  | .unhook, s => match s.stage with
    | .unhooking k => some { s with stage := .draining k }
    | _ => none
  | .drained, s => match s.stage with
    | .draining _ => if s.packets = 0 then some { s with stage := .unloaded } else none
    | _ => none

def System.start : System μ ν := ⟨.start, .unloaded, 0, []⟩

/-- What each step does, with the condition under which it is taken. -/
inductive Does (s : System μ ν) : Step μ ν → System μ ν → Prop
  | ts {e ts} : s.Foreign e → s.ts.step ops e = some ts → Does s (.ts e) { s with ts }
  | init {ts} : s.stage = .unloaded →
      s.ts.step ops (.prepare kmp conf.pattern.length true) = some ts →
      Does s .init { s with ts, stage := .preparing s.ts.calls.length }
  | prepared {k m} : s.stage = .preparing k → s.ts.pcAt k = some (.conf m) →
      Does s .prepared { s with stage := .hooking k }
  | refused {k} : s.stage = .preparing k → Does s .prepared { s with stage := .unloaded }
  | hooked {k} : s.stage = .hooking k → Does s (.hooked 0) { s with stage := .loaded k }
  | abandoned {k err} : s.stage = .hooking k → err ≠ 0 →
      Does s (.hooked err) { s with stage := .unloaded, lost := k :: s.lost }
  | enter {k} : s.stage = .loaded k → Does s .enter { s with packets := s.packets + 1 }
  | enterLate {k} : s.stage = .unhooking k → Does s .enter { s with packets := s.packets + 1 }
  | leave {n} : s.packets = n + 1 → Does s .leave { s with packets := n }
  | destroy {k ts} : s.stage = .loaded k → s.ts.step ops (.destroy k) = some ts →
      Does s .destroy { s with ts, stage := .unhooking k }
  | unhook {k} : s.stage = .unhooking k → Does s .unhook { s with stage := .draining k }
  | drained {k} : s.stage = .draining k → s.packets = 0 →
      Does s .drained { s with stage := .unloaded }

variable {ops kmp} {s t : System μ ν} {ts : State μ ν} {k : ℕ} {m : μ}

theorem does_of_step {e : Step μ ν} (hstep : s.step ops kmp e = some t) : Does ops kmp s e t := by
  cases e with
  | ts e =>
    simp only [System.step] at hstep
    split_ifs at hstep with hfor
    obtain ⟨ts, hts, rfl⟩ := Option.map_eq_some_iff.mp hstep
    exact .ts hfor hts
  | leave =>
    simp only [System.step] at hstep
    split_ifs at hstep with hzero
    obtain ⟨n, hn⟩ := Nat.exists_eq_succ_of_ne_zero hzero
    rw [hn] at hstep
    exact Option.some.inj hstep ▸ .leave hn
  | init =>
    simp only [System.step] at hstep
    split at hstep
    next hst =>
      obtain ⟨ts, hts, rfl⟩ := Option.map_eq_some_iff.mp hstep
      exact .init hst hts
    next => cases hstep
  | prepared =>
    simp only [System.step] at hstep
    split at hstep
    next k hst =>
      split at hstep
      next m hpc => exact Option.some.inj hstep ▸ .prepared hst hpc
      next => exact Option.some.inj hstep ▸ .refused hst
      next => cases hstep
    next => cases hstep
  | hooked err =>
    simp only [System.step] at hstep
    split at hstep
    next k hst =>
      split_ifs at hstep with herr
      · exact Option.some.inj hstep ▸ herr ▸ .hooked hst
      · exact Option.some.inj hstep ▸ .abandoned hst herr
    next => cases hstep
  | enter =>
    simp only [System.step] at hstep
    split at hstep
    next k hst => exact Option.some.inj hstep ▸ .enter hst
    next k hst => exact Option.some.inj hstep ▸ .enterLate hst
    next => cases hstep
  | destroy =>
    simp only [System.step] at hstep
    split at hstep
    next k hst =>
      obtain ⟨ts, hts, rfl⟩ := Option.map_eq_some_iff.mp hstep
      exact .destroy hst hts
    next => cases hstep
  | unhook =>
    simp only [System.step] at hstep
    split at hstep
    next k hst => exact Option.some.inj hstep ▸ .unhook hst
    next => cases hstep
  | drained =>
    simp only [System.step] at hstep
    split at hstep
    next k hst =>
      split_ifs at hstep with hzero
      exact Option.some.inj hstep ▸ .drained hst hzero
    next => cases hstep

end

section
variable {μ ν : Type*} [DecidableEq μ]

/-- The configuration is there from `textsearch_prepare` on and gone after `destroy`. -/
def Stage.Agrees (ts : State μ ν) : Stage → Prop
  | .unloaded | .preparing _ => True
  | .hooking k | .loaded k => ∃ m, ts.pcAt k = some (.conf m)
  | .unhooking k | .draining k => ts.pcAt k = some .destroyed

def Stage.registered : Stage → Bool
  | .loaded _ | .unhooking _ | .draining _ => true
  | _ => false

structure Inv (ops : μ → TsOps ν) (s : System μ ν) : Prop where
  sound : Sound ops s.ts
  agrees : s.stage.Agrees s.ts
  lost : ∀ k ∈ s.lost, ∃ m, s.ts.pcAt k = some (.conf m)
  own : ∀ k ∈ s.lost, s.stage.call ≠ some k
  idle : 0 < s.packets → s.stage.registered = true

variable {ops : μ → TsOps ν} {s : System μ ν} {k : ℕ}

theorem Inv.lost_lt (h : Inv ops s) (hk : k ∈ s.lost) : k < s.ts.calls.length := by
  obtain ⟨m, hm⟩ := h.lost k hk
  obtain ⟨c, hc, -⟩ := Option.map_eq_some_iff.mp hm
  exact (List.getElem?_eq_some_iff.mp hc).1

theorem Inv.no_packet (h : Inv ops s) (hst : s.stage.registered = false) : s.packets = 0 := by
  by_contra hne
  have hreg := h.idle (Nat.pos_of_ne_zero hne)
  simp [hst] at hreg

/-- The stage changes and the registry does not. -/
theorem Inv.move (h : Inv ops s) {st : Stage}
    (hcall : ∀ k, st.call = some k → s.stage.call = some k)
    (hagrees : st.Agrees s.ts) (hidle : 0 < s.packets → st.registered = true) :
    Inv ops { s with stage := st } :=
  ⟨h.sound, hagrees, h.lost, fun k hk hst => h.own k hk (hcall k hst), hidle⟩

theorem inv_start : Inv ops (System.start : System μ ν) where
  sound := sound_start
  agrees := trivial
  lost := by simp [System.start]
  own := by simp [System.start]
  idle := by simp [System.start]

theorem phase_of_conf {ts : State μ ν} {m : μ} (h : Sound ops ts)
    (hk : ts.pcAt k = some (.conf m)) : ts.phase m = .live := by
  obtain ⟨c, hc, hpc⟩ := Option.map_eq_some_iff.mp hk
  exact h.held m (h.pos_of_holder hc (by rw [hpc]; rfl))

/-- While a packet is in the hook, `conf` is a configuration and its algorithm is loaded. -/
def ConfAlive (s : System μ ν) : Prop :=
  0 < s.packets → ∃ k m, s.stage.call = some k ∧ s.ts.pcAt k = some (.conf m) ∧
    s.ts.phase m = .live

/-- `fini` is called with no packet in the hook, and none comes before the hook is off. -/
def Calm : Step μ ν → System μ ν → Prop
  | .destroy, s => s.packets = 0
  | .enter, s => ∀ k, s.stage ≠ .unhooking k
  | _, _ => True

theorem Inv.confAlive_iff (h : Inv ops s) :
    ConfAlive s ↔ s.packets = 0 ∨ ∃ k, s.stage = .loaded k := by
  have hagrees := h.agrees
  constructor
  · intro halive
    refine or_iff_not_imp_left.mpr fun hne => ?_
    have hpos := Nat.pos_of_ne_zero hne
    have hreg := h.idle hpos
    obtain ⟨k, m, hcall, hm, -⟩ := halive hpos
    cases hst : s.stage with
    | unloaded | preparing | hooking => simp [hst, Stage.registered] at hreg
    | loaded k => exact ⟨k, rfl⟩
    | unhooking k | draining k =>
      rw [hst] at hagrees hcall
      obtain rfl := Option.some.inj hcall
      have hfreed : s.ts.pcAt k = some .destroyed := hagrees
      simp [hfreed] at hm
  · rintro (hzero | ⟨k, hst⟩) hpos
    · omega
    · rw [hst] at hagrees ⊢
      obtain ⟨m, hm⟩ := hagrees
      exact ⟨k, m, rfl, hm, phase_of_conf h.sound hm⟩

variable [DecidableEq ν] {kmp : ν} {t : System μ ν} {ts : State μ ν}

theorem Inv.foreign (h : Inv ops s) {e : Event μ ν} (hfor : s.Foreign e)
    (hts : s.ts.step ops e = some ts) : Inv ops { s with ts } := by
  have hkeep : ∀ k pc, pc.settled = true → (s.stage.call = some k ∨ k ∈ s.lost) →
      s.ts.pcAt k = some pc → ts.pcAt k = some pc := by
    intro k pc hpc hk hat
    refine pcAt_step hts hat hpc ?_
    rintro rfl
    exact hk.elim hfor.1 hfor.2
  refine ⟨h.sound.step hts, ?_, fun k hk => ?_, h.own, h.idle⟩
  · have hagrees := h.agrees
    cases hst : s.stage with
    | unloaded | preparing k => trivial
    | hooking k | loaded k =>
      rw [hst] at hagrees
      obtain ⟨m, hm⟩ := hagrees
      exact ⟨m, hkeep k _ rfl (Or.inl (by rw [hst]; rfl)) hm⟩
    | unhooking k | draining k =>
      rw [hst] at hagrees
      exact hkeep k _ rfl (Or.inl (by rw [hst]; rfl)) hagrees
  · obtain ⟨m, hm⟩ := h.lost k hk
    exact ⟨m, hkeep k _ rfl (Or.inr hk) hm⟩

theorem Inv.step (h : Inv ops s) {e : Step μ ν} (hstep : s.step ops kmp e = some t) :
    Inv ops t := by
  have hagrees := h.agrees
  cases does_of_step hstep with
  | ts hfor hts => exact h.foreign hfor hts
  | init hst hts =>
    -- the number of the new call is not among the lost ones
    have hzero := h.no_packet (by rw [hst]; rfl)
    refine ⟨h.sound.step hts, trivial, fun k hk => ?_, fun k hk heq => ?_, by simp [hzero]⟩
    · obtain ⟨m, hm⟩ := h.lost k hk
      exact ⟨m, pcAt_step hts hm rfl nofun⟩
    · have hlt := h.lost_lt hk
      rw [Stage.call, Option.some.injEq] at heq
      omega
  | prepared hst hm =>
    have hzero := h.no_packet (by rw [hst]; rfl)
    exact h.move (by simp [hst, Stage.call]) ⟨_, hm⟩ (by simp [hzero])
  | refused hst =>
    have hzero := h.no_packet (by rw [hst]; rfl)
    exact h.move nofun trivial (by simp [hzero])
  | hooked hst =>
    rw [hst] at hagrees
    exact h.move (by simp [hst, Stage.call]) hagrees fun _ => rfl
  | @abandoned k err hst herr =>
    have hzero := h.no_packet (by rw [hst]; rfl)
    rw [hst] at hagrees
    refine ⟨h.sound, trivial, ?_, nofun, by simp [hzero]⟩
    simpa using ⟨hagrees, h.lost⟩
  | enter hst | enterLate hst =>
    exact ⟨h.sound, h.agrees, h.lost, h.own, fun _ => by simp only [hst]; rfl⟩
  | leave hn => exact ⟨h.sound, h.agrees, h.lost, h.own, fun _ => h.idle (by omega)⟩
  | @destroy k ts hst hts =>
    have hown : ∀ k' ∈ s.lost, some k ≠ some k' := fun k' hk' => by
      simpa [hst, Stage.call] using h.own k' hk'
    refine ⟨h.sound.step hts, (pcAt_destroy hts).1, fun k' hk' => ?_, hown, fun _ => rfl⟩
    obtain ⟨m, hm⟩ := h.lost k' hk'
    refine ⟨m, pcAt_step hts hm rfl fun heq => hown k' hk' ?_⟩
    rw [Event.destroy.inj heq]
  | unhook hst =>
    rw [hst] at hagrees
    exact h.move (by simp [hst, Stage.call]) hagrees fun _ => rfl
  | drained hst hzero => exact h.move nofun trivial (by simp [hzero])

theorem Inv.confAlive_step_iff (h : Inv ops s) (halive : ConfAlive s) {e : Step μ ν}
    (hstep : s.step ops kmp e = some t) : ConfAlive t ↔ Calm e s := by
  rw [h.confAlive_iff] at halive
  rw [(h.step hstep).confAlive_iff]
  cases does_of_step hstep with
  | ts => exact iff_of_true halive trivial
  | init hst | prepared hst | refused hst | abandoned hst =>
    exact iff_of_true (Or.inl (h.no_packet (by rw [hst]; rfl))) trivial
  | hooked => exact iff_of_true (Or.inr ⟨_, rfl⟩) trivial
  | enter hst => exact iff_of_true (Or.inr ⟨_, hst⟩) (by simp [Calm, hst])
  | enterLate hst => simp [Calm, hst]
  | leave hn => exact iff_of_true (Or.inr (halive.resolve_left (by omega))) trivial
  | destroy => simp [Calm]
  | unhook hst =>
    have hzero := halive.resolve_right (by simp [hst])
    exact iff_of_true (Or.inl hzero) trivial
  | drained _ hzero => exact iff_of_true (Or.inl hzero) trivial

/-- The hook searches with a freed configuration in exactly the runs in which a packet is in it
between the two calls of `fini`. -/
theorem hook_conf_alive_iff (ops : μ → TsOps ν) (kmp : ν) (es : List (Step μ ν)) :
    Always (System.step ops kmp) ConfAlive es .start ↔ Along (System.step ops kmp) Calm es .start :=
  always_iff_along (fun _ _ _ hs ht => hs.step ht)
    (fun _ _ _ hs hP ht => hs.confAlive_step_iff hP ht) inv_start nofun

/-- A packet in the hook when `fini` is called. -/
example : ∃ s, run (System.step (fun _ : Unit => ⟨some "kmp", true, true, true, true⟩) "kmp")
    [.ts (.load ()), .init, .ts (.step 0), .ts (.initialised 0 0), .prepared, .hooked 0, .enter,
      .destroy] .start = some s ∧ s.packets = 1 ∧ (s.ts.pcAt 0).bind Pc.holder = none :=
  ⟨_, rfl, rfl, rfl⟩

theorem Inv.lost_step (h : Inv ops s) {e : Step μ ν} {m : μ} (hk : k ∈ s.lost)
    (hm : s.ts.pcAt k = some (.conf m)) (hstep : s.step ops kmp e = some t) :
    k ∈ t.lost ∧ t.ts.pcAt k = some (.conf m) := by
  cases does_of_step hstep with
  | ts hfor hts =>
    refine ⟨hk, pcAt_step hts hm rfl ?_⟩
    rintro rfl
    exact hfor.2 hk
  | init _ hts => exact ⟨hk, pcAt_step hts hm rfl nofun⟩
  | destroy hst hts =>
    refine ⟨hk, pcAt_step hts hm rfl fun heq => h.own k hk ?_⟩
    rw [hst, ← Event.destroy.inj heq]
    rfl
  | abandoned => exact ⟨List.mem_cons_of_mem _ hk, hm⟩
  | prepared | refused | hooked | enter | enterLate | leave | unhook | drained => exact ⟨hk, hm⟩

/-- When `nf_register_net_hook` fails, `init` leaves its configuration behind, and the
algorithm's module cannot be unloaded any more. -/
theorem lost_conf_pins_module (ops : μ → TsOps ν) (kmp : ν) (es : List (Step μ ν)) :
    Always (System.step ops kmp) (fun s => ∀ k ∈ s.lost, ∃ m, ∀ es',
      Always (System.step ops kmp) (fun t => t.ts.pcAt k = some (.conf m) ∧ t.ts.phase m = .live ∧
        t.ts.step ops (.unload m) = none) es' s) es .start := by
  have halways : Always (System.step ops kmp) (Inv ops) es .start :=
    always_of_step (fun _ _ _ hs ht => hs.step ht) es inv_start
  refine halways.mono fun s hs k hk => ?_
  obtain ⟨m, hm⟩ := hs.lost k hk
  refine ⟨m, fun es' => ?_⟩
  have hlater : Always (System.step ops kmp)
      (fun t => Inv ops t ∧ k ∈ t.lost ∧ t.ts.pcAt k = some (.conf m)) es' s :=
    always_of_step (fun _ _ _ hs ht => ⟨hs.1.step ht, hs.1.lost_step hs.2.1 hs.2.2 ht⟩) es'
      ⟨hs, hk, hm⟩
  refine hlater.mono fun t ht => ?_
  obtain ⟨hinv, -, hm⟩ := ht
  obtain ⟨c, hc, hpc⟩ := Option.map_eq_some_iff.mp hm
  have hpos := hinv.sound.pos_of_holder hc (by rw [hpc]; rfl)
  exact ⟨hm, phase_of_conf hinv.sound hm, by simp [State.step, Nat.ne_of_gt hpos]⟩

end
end Eudyptula.Netfilter
