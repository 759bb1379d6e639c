import Mathlib.Data.List.Basic

/-! Runs of a partial step function. A step is a label together with a state in
which it is enabled; `none` is a label that is not enabled. -/
namespace Runs

section
variable {ε σ : Type*} (step : ε → σ → Option σ)

/-- State after the listed steps, when each of them is enabled in turn. -/
def run : List ε → σ → Option σ
  | [], s => some s
  | e :: es, s => (step e s).bind (run es)

/-- `P` holds in every state reached along the listed steps, the first one included. -/
def Always (P : σ → Prop) : List ε → σ → Prop
  | [], s => P s
  | e :: es, s => P s ∧ ∀ t, step e s = some t → Always P es t

/-- Every step that is taken along the list meets `ok` in the state before it. -/
def Along (ok : ε → σ → Prop) : List ε → σ → Prop
  | [], _ => True
  | e :: es, s => ∀ t, step e s = some t → ok e s ∧ Along ok es t

instance decidableAlways (P : σ → Prop) [DecidablePred P] :
    (es : List ε) → (s : σ) → Decidable (Always step P es s)
  | [], s => inferInstanceAs (Decidable (P s))
  | e :: es, s =>
    have := decidableAlways P es
    inferInstanceAs (Decidable (P s ∧ ∀ t ∈ step e s, Always step P es t))

instance decidableAlong (ok : ε → σ → Prop) [∀ e s, Decidable (ok e s)] :
    (es : List ε) → (s : σ) → Decidable (Along step ok es s)
  | [], _ => inferInstanceAs (Decidable True)
  | e :: es, s =>
    have := decidableAlong ok es
    inferInstanceAs (Decidable (∀ t ∈ step e s, ok e s ∧ Along step ok es t))

end

variable {ε σ : Type*} {step : ε → σ → Option σ} {P Inv : σ → Prop} {ok good : ε → σ → Prop}

theorem run_cons_some {e : ε} {es : List ε} {s t : σ} (h : run step (e :: es) s = some t) :
    ∃ u, step e s = some u ∧ run step es u = some t := by
  simpa only [run, Option.bind_eq_some_iff] using h

theorem Always.here {es : List ε} {s : σ} (h : Always step P es s) : P s := by
  cases es with
  | nil => exact h
  | cons e es => exact h.1

theorem Always.of_run {es : List ε} {s t : σ} (h : Always step P es s)
    (hr : run step es s = some t) : P t := by
  induction es generalizing s with
  | nil =>
    cases hr
    exact h
  | cons e es ih =>
    obtain ⟨u, hu, hr⟩ := run_cons_some hr
    exact ih (h.2 u hu) hr

theorem Always.mono {Q : σ → Prop} (hPQ : ∀ s, P s → Q s) {es : List ε} {s : σ}
    (h : Always step P es s) : Always step Q es s := by
  induction es generalizing s with
  | nil => exact hPQ s h
  | cons e es ih => exact ⟨hPQ s h.1, fun t ht => ih (h.2 t ht)⟩

theorem Always.and {Q : σ → Prop} {es : List ε} {s : σ} (hP : Always step P es s)
    (hQ : Always step Q es s) : Always step (fun s => P s ∧ Q s) es s := by
  induction es generalizing s with
  | nil => exact ⟨hP, hQ⟩
  | cons e es ih => exact ⟨⟨hP.1, hQ.1⟩, fun t ht => ih (hP.2 t ht) (hQ.2 t ht)⟩

/-- Invariant rule: what every admitted step preserves holds in every state reached
by admitted steps. -/
theorem always_of_invariant (hstep : ∀ e s t, Inv s → ok e s → step e s = some t → Inv t)
    {es : List ε} {s : σ} (hs : Inv s) (hok : Along step ok es s) : Always step Inv es s := by
  induction es generalizing s with
  | nil => exact hs
  | cons e es ih =>
    refine ⟨hs, fun t ht => ?_⟩
    obtain ⟨he, hes⟩ := hok t ht
    exact ih (hstep e s t hs he ht) hes

/-- Invariant rule without a condition on the steps. -/
theorem always_of_step (hstep : ∀ e s t, Inv s → step e s = some t → Inv t) (es : List ε) {s : σ}
    (hs : Inv s) : Always step Inv es s := by
  induction es generalizing s with
  | nil => exact hs
  | cons e es ih => exact ⟨hs, fun t ht => ih (hstep e s t hs ht)⟩

/-- A property that an invariant gives, and that no step outside a condition keeps, holds along
exactly the runs whose steps all meet the condition, if these steps keep the invariant. -/
theorem always_iff_along_of_inv (hP : ∀ s, Inv s → P s)
    (hok : ∀ e s t, Inv s → step e s = some t → P t → ok e s)
    (hstep : ∀ e s t, Inv s → ok e s → step e s = some t → Inv t) {es : List ε} {s : σ}
    (hs : Inv s) : Always step P es s ↔ Along step ok es s := by
  constructor
  · intro hall
    induction es generalizing s with
    | nil => trivial
    | cons e es ih =>
      intro t ht
      have he := hok e s t hs ht (hall.2 t ht).here
      exact ⟨he, ih (hstep e s t hs he ht) (hall.2 t ht)⟩
  · intro halong
    have hinv : Always step Inv es s := always_of_invariant hstep hs halong
    exact hinv.mono hP

/-- A property that a step keeps exactly when the step meets a condition holds along exactly
the runs whose steps all meet it. -/
theorem always_iff_along (hinv : ∀ e s t, Inv s → step e s = some t → Inv t)
    (hiff : ∀ e s t, Inv s → P s → step e s = some t → (P t ↔ ok e s)) {es : List ε} {s : σ}
    (hs : Inv s) (hP : P s) : Always step P es s ↔ Along step ok es s := by
  let Both := fun s => Inv s ∧ P s
  have hboth : Both s := ⟨hs, hP⟩
  refine always_iff_along_of_inv (fun s (hs : Both s) => hs.2) ?_ ?_ hboth
  · intro e s t hs ht hPt
    exact (hiff e s t hs.1 hs.2 ht).mp hPt
  · intro e s t hs he ht
    exact ⟨hinv e s t hs.1 ht, (hiff e s t hs.1 hs.2 ht).mpr he⟩

/-- A property that a step keeps exactly when it meets a condition, and that no step brings
back, holds after exactly the runs whose steps all meet it. -/
theorem run_iff_along (hinv : ∀ e s t, Inv s → step e s = some t → Inv t)
    (hiff : ∀ e s t, Inv s → step e s = some t → (P t ↔ P s ∧ ok e s)) {es : List ε} {s t : σ}
    (hs : Inv s) (hr : run step es s = some t) : P t ↔ P s ∧ Along step ok es s := by
  induction es generalizing s with
  | nil =>
    cases hr
    exact (and_iff_left trivial).symm
  | cons e es ih =>
    obtain ⟨u, hu, hr⟩ := run_cons_some hr
    rw [ih (hinv e s u hs hu) hr, hiff e s u hs hu, and_assoc]
    simp only [Along, hu, Option.some.injEq, forall_eq']

/-- What the states reached imply about the steps taken from them. -/
theorem Along.of_always (hgood : ∀ e s, P s → ok e s → good e s) {es : List ε} {s : σ}
    (hok : Along step ok es s) (hP : Always step P es s) : Along step good es s := by
  induction es generalizing s with
  | nil => trivial
  | cons e es ih =>
    intro t ht
    obtain ⟨he, hes⟩ := hok t ht
    exact ⟨hgood e s hP.1 he, ih hes (hP.2 t ht)⟩

/-- Two conditions that agree under an invariant which they keep hold along the same runs. -/
theorem along_congr (hiff : ∀ e s, Inv s → (ok e s ↔ good e s))
    (hstep : ∀ e s t, Inv s → good e s → step e s = some t → Inv t) {es : List ε} {s : σ}
    (hs : Inv s) : Along step ok es s ↔ Along step good es s := by
  constructor
  · intro hok
    have hinv : Always step Inv es s := always_of_invariant
      (fun e s t hs he ht => hstep e s t hs ((hiff e s hs).mp he) ht) hs hok
    exact hok.of_always (fun e s hs he => (hiff e s hs).mp he) hinv
  · intro hgood
    have hinv : Always step Inv es s := always_of_invariant hstep hs hgood
    exact hgood.of_always (fun e s hs he => (hiff e s hs).mpr he) hinv

section
variable {τ : Type*} {stepT : ε → τ → Option τ} {R : σ → τ → Prop} {Q : τ → Prop}

/-- Simulation rule: a run of the implementation is one of the specification. -/
theorem run_simulation
    (hsim : ∀ e s t s', R s t → step e s = some s' → ∃ t', stepT e t = some t' ∧ R s' t')
    {es : List ε} {s s' : σ} {t : τ} (hR : R s t) (hr : run step es s = some s') :
    ∃ t', run stepT es t = some t' ∧ R s' t' := by
  induction es generalizing s t with
  | nil =>
    cases hr
    exact ⟨t, rfl, hR⟩
  | cons e es ih =>
    obtain ⟨u, hu, hr⟩ := run_cons_some hr
    obtain ⟨w, hw, hR⟩ := hsim e s t u hR hu
    obtain ⟨t', ht', hR'⟩ := ih hR hr
    exact ⟨t', by rw [run, hw, Option.bind_some, ht'], hR'⟩

end
end Runs
