import Mathlib.Logic.Function.Basic
import Eudyptula.Lib.Runs

/-! Calls of many threads that run under one lock. In every interleaving of their instructions
the calls have the effect and the results of whole calls, one after another in the order in
which they leave the section. -/
namespace Critical
open Function Runs

/-- The instructions between the lock and the unlock. `enter` is where a call starts, and a
step goes on with the call or ends it with a result. -/
structure Body (κ pc σ ρ : Type*) where
  enter : κ → pc
  step : pc → σ → (pc × σ) ⊕ ρ

inductive Phase (κ pc : Type*)
  | idle
  | waiting (call : κ)
  | inside (call : κ) (pos : pc)

/-- `log` lists the calls that are over, each with its thread and its result. -/
structure State (τ κ pc σ ρ : Type*) where
  phase : τ → Phase κ pc
  owner : Option τ
  shared : σ
  log : List (τ × κ × ρ)

inductive Label (τ κ : Type*)
  | call (t : τ) (c : κ)
  | acquire (t : τ)
  | work (t : τ)
  | interrupt (t : τ)

section
variable {τ κ pc σ ρ : Type*}

/-- A thread that waits for the lock may be interrupted; its call is then over without having
done anything. -/
def Body.next [DecidableEq τ] (B : Body κ pc σ ρ) :
    Label τ κ → State τ κ pc σ ρ → Option (State τ κ pc σ ρ)
  | .call t c, x =>
    match x.phase t with
    | .idle => some { x with phase := update x.phase t (.waiting c) }
    | _ => none
  | .acquire t, x =>
    match x.phase t, x.owner with
    | .waiting c, none =>
      some { x with phase := update x.phase t (.inside c (B.enter c)), owner := some t }
    | _, _ => none
  | .work t, x =>
    match x.phase t with
    | .inside c l =>
      match B.step l x.shared with
      | .inl (l, shared) => some { x with phase := update x.phase t (.inside c l), shared }
      | .inr r =>
        some { x with
          phase := update x.phase t .idle, owner := none, log := x.log ++ [(t, c, r)] }
    | _ => none
  | .interrupt t, x =>
    match x.phase t with
    | .waiting _ => some { x with phase := update x.phase t .idle }
    | _ => none

/-- Some instructions of one call, with nothing in between. -/
inductive Body.Goes (B : Body κ pc σ ρ) (l : pc) (s : σ) : pc → σ → Prop
  | start : B.Goes l s l s
  | step {m u n v} (h : B.Goes l s m u) (hstep : B.step m u = .inl (n, v)) : B.Goes l s n v

/-- One call from its start to its end. -/
def Body.Whole (B : Body κ pc σ ρ) (c : κ) (s : σ) (r : ρ) (t : σ) : Prop :=
  ∃ l, B.Goes (B.enter c) s l t ∧ B.step l t = .inr r

/-- The listed calls one after another. -/
inductive Body.Serial (B : Body κ pc σ ρ) (s : σ) : List (τ × κ × ρ) → σ → Prop
  | nil : B.Serial s [] s
  | snoc {log t u v c r} (h : B.Serial s log u) (hcall : B.Whole c u r v) :
      B.Serial s (log ++ [(t, c, r)]) v

def Phase.Outside (ph : Phase κ pc) : Prop := ∀ c l, ph ≠ .inside c l

/-- `u` is the shared state as the calls that are over have left it: nobody is inside, or one
thread is, on its way from `u`. -/
inductive Body.From (B : Body κ pc σ ρ) (u : σ) (x : State τ κ pc σ ρ) : Prop
  | free (howner : x.owner = none) (hshared : x.shared = u) (hout : ∀ t, (x.phase t).Outside)
  | held {t c l} (howner : x.owner = some t) (hin : x.phase t = .inside c l)
      (hgoes : B.Goes (B.enter c) u l x.shared) (hout : ∀ q, q ≠ t → (x.phase q).Outside)

/-- The call of a thread that is not over. -/
def Phase.call : Phase κ pc → Option κ
  | .idle => none
  | .waiting c | .inside c _ => some c

/-- A call that is made meets `Q`. -/
def Label.Makes (Q : κ → Prop) : Label τ κ → Prop
  | .call _ c => Q c
  | _ => True

instance (Q : κ → Prop) [DecidablePred Q] : (l : Label τ κ) → Decidable (l.Makes Q)
  | .call _ c => inferInstanceAs (Decidable (Q c))
  | .acquire _ | .work _ | .interrupt _ => inferInstanceAs (Decidable True)

structure State.CallsMeet (Q : κ → Prop) (x : State τ κ pc σ ρ) : Prop where
  underway : ∀ t c, (x.phase t).call = some c → Q c
  finished : ∀ e ∈ x.log, Q e.2.1

def Body.Serializes (B : Body κ pc σ ρ) (s : σ) (x : State τ κ pc σ ρ) : Prop :=
  ∃ u, B.Serial s x.log u ∧ B.From u x

variable [DecidableEq τ]

/-- What each step does, with the condition under which it is taken. -/
inductive Body.Move (B : Body κ pc σ ρ) (x : State τ κ pc σ ρ) :
    Label τ κ → State τ κ pc σ ρ → Prop
  | call {t c} (ht : x.phase t = .idle) :
      B.Move x (.call t c) { x with phase := update x.phase t (.waiting c) }
  | interrupt {t c} (ht : x.phase t = .waiting c) :
      B.Move x (.interrupt t) { x with phase := update x.phase t .idle }
  | acquire {t c} (ht : x.phase t = .waiting c) (howner : x.owner = none) :
      B.Move x (.acquire t)
        { x with phase := update x.phase t (.inside c (B.enter c)), owner := some t }
  | work {t c l m s} (ht : x.phase t = .inside c l) (hstep : B.step l x.shared = .inl (m, s)) :
      B.Move x (.work t) { x with phase := update x.phase t (.inside c m), shared := s }
  | leave {t c l r} (ht : x.phase t = .inside c l) (hstep : B.step l x.shared = .inr r) :
      B.Move x (.work t) { x with
        phase := update x.phase t .idle, owner := none, log := x.log ++ [(t, c, r)] }

variable {B : Body κ pc σ ρ} {x y : State τ κ pc σ ρ} {s u : σ} {l : Label τ κ}

theorem Body.next_move (h : B.next l x = some y) : B.Move x l y := by
  cases l with
  | call t c =>
    simp only [Body.next] at h
    split at h
    · next hidle =>
      cases h
      exact .call hidle
    · cases h
  | acquire t =>
    simp only [Body.next] at h
    split at h
    · next ht howner =>
      cases h
      exact .acquire ht howner
    · cases h
  | work t =>
    simp only [Body.next] at h
    split at h
    · next c l ht =>
      split at h
      · next hstep =>
        cases h
        exact .work ht hstep
      · next hstep =>
        cases h
        exact .leave ht hstep
    · cases h
  | interrupt t =>
    simp only [Body.next] at h
    split at h
    · next hwait =>
      cases h
      exact .interrupt hwait
    · cases h

theorem outside_update {f : τ → Phase κ pc} {t q : τ} {ph : Phase κ pc} (hq : (f q).Outside)
    (hph : q = t → ph.Outside) : (update f t ph q).Outside := by
  by_cases hqt : q = t
  · subst hqt
    rw [update_self]
    exact hph rfl
  · rwa [update_of_ne hqt]

/-- Whoever is inside has the lock. -/
theorem Body.From.owner_of_inside (hx : B.From u x) {t : τ} {c : κ} {l : pc}
    (ht : x.phase t = .inside c l) : x.owner = some t ∧ B.Goes (B.enter c) u l x.shared ∧
      ∀ q, q ≠ t → (x.phase q).Outside := by
  cases hx with
  | free howner hshared hout => exact absurd ht (hout t c l)
  | @held t' c' l' howner hin hgoes hout =>
    by_cases htt : t = t'
    · subst htt
      rw [ht] at hin
      cases hin
      exact ⟨howner, hgoes, hout⟩
    · exact absurd ht (hout t htt c l)

/-- A thread outside stays outside. -/
theorem Body.From.wait (hx : B.From u x) {t : τ} {ph : Phase κ pc} (ht : (x.phase t).Outside)
    (hph : ph.Outside) : B.From u { x with phase := update x.phase t ph } := by
  cases hx with
  | free howner hshared hout =>
    exact .free howner hshared fun q => outside_update (hout q) fun _ => hph
  | @held t' c l howner hin hgoes hout =>
    have hne : t' ≠ t := by
      rintro rfl
      exact ht c l hin
    refine .held howner ?_ hgoes fun q hq => outside_update (hout q hq) fun _ => hph
    exact (update_of_ne hne _ _).trans hin

theorem Body.Move.serializes (h : B.Move x l y) (hx : B.Serializes s x) : B.Serializes s y := by
  obtain ⟨u, hserial, hfrom⟩ := hx
  cases h with
  | call ht =>
    exact ⟨u, hserial, hfrom.wait (by simp [ht, Phase.Outside]) (by simp [Phase.Outside])⟩
  | interrupt ht =>
    exact ⟨u, hserial, hfrom.wait (by simp [ht, Phase.Outside]) (by simp [Phase.Outside])⟩
  | @acquire t c ht howner =>
    refine ⟨u, hserial, ?_⟩
    cases hfrom with
    | free _ hshared hout =>
      refine .held rfl (update_self _ _ _) (hshared ▸ .start) fun q hq => ?_
      exact outside_update (hout q) fun hqt => absurd hqt hq
    | held howner' =>
      rw [howner] at howner'
      contradiction
  | @work t c l m v ht hstep =>
    obtain ⟨howner, hgoes, hout⟩ := hfrom.owner_of_inside ht
    refine ⟨u, hserial, .held howner (update_self _ _ _) (hgoes.step hstep) fun q hq => ?_⟩
    exact outside_update (hout q hq) fun hqt => absurd hqt hq
  | @leave t c l r ht hstep =>
    obtain ⟨-, hgoes, hout⟩ := hfrom.owner_of_inside ht
    -- the call has run whole from where the calls before it have left the state
    refine ⟨x.shared, hserial.snoc ⟨l, hgoes, hstep⟩, .free rfl rfl fun q => ?_⟩
    by_cases hqt : q = t
    · subst hqt
      simp [Phase.Outside]
    · exact outside_update (hout q hqt) fun h => absurd h hqt

/-- Before the first call. -/
def State.idle (s : σ) : State τ κ pc σ ρ := ⟨fun _ => .idle, none, s, []⟩

/-- In every interleaving. -/
theorem Body.always_serializes (B : Body κ pc σ ρ) (s : σ) (ls : List (Label τ κ)) :
    Always B.next (B.Serializes s) ls (State.idle s) := by
  refine always_of_step (fun l x y hx h => (B.next_move h).serializes hx) ls ?_
  exact ⟨s, .nil, .free rfl rfl fun _ => by simp [State.idle, Phase.Outside]⟩

theorem Body.Move.callsMeet {Q : κ → Prop} (h : B.Move x l y) (hl : l.Makes Q)
    (hx : x.CallsMeet Q) : y.CallsMeet Q := by
  have hother : ∀ t ph, (∀ c, ph.call = some c → Q c) →
      ∀ q c, (update x.phase t ph q).call = some c → Q c := by
    intro t ph hph q c hc
    by_cases hqt : q = t
    · subst hqt
      rw [update_self] at hc
      exact hph c hc
    · rw [update_of_ne hqt] at hc
      exact hx.underway q c hc
  have hold : ∀ t c, (x.phase t).call = some c → ∀ c', some c = some c' → Q c' := by
    rintro t c hc c' ⟨⟩
    exact hx.underway t c hc
  cases h with
  | call ht =>
    refine ⟨hother _ _ ?_, hx.finished⟩
    rintro c ⟨⟩
    exact hl
  | interrupt ht => exact ⟨hother _ _ nofun, hx.finished⟩
  | acquire ht => exact ⟨hother _ _ (hold _ _ (by rw [ht]; rfl)), hx.finished⟩
  | work ht => exact ⟨hother _ _ (hold _ _ (by rw [ht]; rfl)), hx.finished⟩
  | @leave t c _ _ ht =>
    refine ⟨hother _ _ nofun, fun e he => ?_⟩
    rcases List.mem_append.mp he with he | he
    · exact hx.finished e he
    · rw [List.mem_singleton.mp he]
      exact hx.underway t c (by rw [ht]; rfl)

/-- What all calls made have in common the calls under way and those that are over have too. -/
theorem Body.always_callsMeet {Q : κ → Prop} (B : Body κ pc σ ρ) (s : σ) {ls : List (Label τ κ)}
    (hls : Along B.next (fun l _ => l.Makes Q) ls (State.idle s)) :
    Always B.next (State.CallsMeet Q) ls (State.idle s) := by
  refine always_of_invariant (fun l x y hx hl h => (B.next_move h).callsMeet hl hx) ?_ hls
  constructor <;> simp [State.idle, Phase.call]

end
end Critical
