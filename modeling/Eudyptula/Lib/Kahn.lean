import Mathlib.Algebra.BigOperators.Group.Finset.Piecewise
import Mathlib.Algebra.BigOperators.Ring.Finset
import Mathlib.Algebra.Order.BigOperators.Group.Finset
import Eudyptula.Lib.Diamond

/-! Networks of sequential processes that talk through bounded queues, each queue with one
writer and one reader. Whatever the order in which the processes run, the network does the
same. -/
namespace Kahn
open Function Runs

inductive Op (ι α : Type*)
  | put (c : ι) (v : α)
  | get (c : ι)

/-- What a process is about to do; `pause` is a step of its own. -/
inductive Act (ι α : Type*)
  | op (o : Op ι α)
  | pause
  | halt

section
variable {ι α : Type*} [DecidableEq ι]

/-- The queues after an operation, with the value taken by a `get`. -/
def Op.exec (cap : ℕ) (Q : ι → List α) : Op ι α → Option ((ι → List α) × Option α)
  | .put c v => if (Q c).length < cap then some (update Q c (Q c ++ [v]), none) else none
  | .get c =>
    match Q c with
    | [] => none
    | v :: vs => some (update Q c vs, some v)

def Act.exec (cap : ℕ) (Q : ι → List α) : Act ι α → Option ((ι → List α) × Option α)
  | .op o => o.exec cap Q
  | .pause => some (Q, none)
  | .halt => none

/-- Not at the same end of the same queue. -/
def Op.Apart : Op ι α → Op ι α → Prop
  | .put c _, .put d _ => c ≠ d
  | .get c, .get d => c ≠ d
  | .put _ _, .get _ | .get _, .put _ _ => True

variable {cap : ℕ} {Q Q₁ Q₂ : ι → List α} {r₁ r₂ : Option α}

theorem exec_put_iff {c : ι} {v : α} :
    (Op.put c v).exec cap Q = some (Q₁, r₁) ↔
      (Q c).length < cap ∧ update Q c (Q c ++ [v]) = Q₁ ∧ none = r₁ := by
  simp [Op.exec]

theorem exec_get_iff {c : ι} :
    (Op.get c).exec cap Q = some (Q₁, r₁) ↔
      ∃ v vs, Q c = v :: vs ∧ update Q c vs = Q₁ ∧ some v = r₁ := by
  cases hq : Q c with
  | nil => simp [Op.exec, hq]
  | cons v vs =>
    simp only [Op.exec, hq, Option.some.injEq, Prod.mk.injEq, List.cons.injEq]
    grind

/-- A queue between its two ends: what is put goes behind what is taken. -/
theorem exec_put_get_comm {c d : ι} {v : α} (h₁ : (Op.put c v).exec cap Q = some (Q₁, r₁))
    (h₂ : (Op.get d).exec cap Q = some (Q₂, r₂)) :
    ∃ Q₃, (Op.get d).exec cap Q₁ = some (Q₃, r₂) ∧ (Op.put c v).exec cap Q₂ = some (Q₃, r₁) := by
  obtain ⟨hlen, rfl, rfl⟩ := exec_put_iff.mp h₁
  obtain ⟨w, ws, hq, rfl, rfl⟩ := exec_get_iff.mp h₂
  by_cases hcd : d = c
  · subst hcd
    rw [hq] at hlen
    refine ⟨update Q d (ws ++ [v]), exec_get_iff.mpr ⟨w, ws ++ [v], ?_, ?_, rfl⟩,
      exec_put_iff.mpr ⟨?_, ?_, rfl⟩⟩
    · simp [hq]
    · simp
    · rw [update_self]
      exact Nat.lt_of_succ_lt hlen
    · simp
  · refine ⟨update (update Q c (Q c ++ [v])) d ws, exec_get_iff.mpr ⟨w, ws, ?_, rfl, rfl⟩,
      exec_put_iff.mpr ⟨?_, ?_, rfl⟩⟩
    · rw [update_of_ne hcd, hq]
    · rwa [update_of_ne (Ne.symm hcd)]
    · rw [update_of_ne (Ne.symm hcd), update_comm hcd]

theorem Op.exec_comm {o₁ o₂ : Op ι α} (h : o₁.Apart o₂) (h₁ : o₁.exec cap Q = some (Q₁, r₁))
    (h₂ : o₂.exec cap Q = some (Q₂, r₂)) :
    ∃ Q₃, o₂.exec cap Q₁ = some (Q₃, r₂) ∧ o₁.exec cap Q₂ = some (Q₃, r₁) := by
  cases o₁ with
  | put c v =>
    cases o₂ with
    | put d w =>
      obtain ⟨hc, rfl, rfl⟩ := exec_put_iff.mp h₁
      obtain ⟨hd, rfl, rfl⟩ := exec_put_iff.mp h₂
      refine ⟨update (update Q c (Q c ++ [v])) d (Q d ++ [w]), exec_put_iff.mpr ⟨?_, ?_, rfl⟩,
        exec_put_iff.mpr ⟨?_, ?_, rfl⟩⟩
      · rwa [update_of_ne (Ne.symm h)]
      · rw [update_of_ne (Ne.symm h)]
      · rwa [update_of_ne h]
      · rw [update_of_ne h, update_comm h]
    | get d => exact exec_put_get_comm h₁ h₂
  | get c =>
    cases o₂ with
    | put d w =>
      obtain ⟨Q₃, hget, hput⟩ := exec_put_get_comm h₂ h₁
      exact ⟨Q₃, hput, hget⟩
    | get d =>
      obtain ⟨v, vs, hc, rfl, rfl⟩ := exec_get_iff.mp h₁
      obtain ⟨w, ws, hd, rfl, rfl⟩ := exec_get_iff.mp h₂
      refine ⟨update (update Q c vs) d ws, exec_get_iff.mpr ⟨w, ws, ?_, rfl, rfl⟩,
        exec_get_iff.mpr ⟨v, vs, ?_, ?_, rfl⟩⟩
      · rw [update_of_ne (Ne.symm h), hd]
      · rw [update_of_ne h, hc]
      · rw [update_comm h]

end

/-- `next` is the state after the step, given the value that a `get` has returned. -/
structure Net (π ι α σ : Type*) where
  act : π → σ → Act ι α
  next : π → σ → Option α → σ
  capacity : ℕ
  writer : ι → π
  reader : ι → π
  put_writer : ∀ {p s c v}, act p s = .op (.put c v) → writer c = p
  get_reader : ∀ {p s c}, act p s = .op (.get c) → reader c = p

theorem Net.apart {π ι α σ : Type*} (N : Net π ι α σ) {p q : π} (hpq : p ≠ q) {s t : σ}
    {o₁ o₂ : Op ι α} (h₁ : N.act p s = .op o₁) (h₂ : N.act q t = .op o₂) : o₁.Apart o₂ := by
  cases o₁ with
  | put c v =>
    cases o₂ with
    | put d w =>
      rintro rfl
      exact hpq ((N.put_writer h₁).symm.trans (N.put_writer h₂))
    | get d => trivial
  | get c =>
    cases o₂ with
    | put d w => trivial
    | get d =>
      rintro rfl
      exact hpq ((N.get_reader h₁).symm.trans (N.get_reader h₂))

theorem Net.exec_comm {π ι α σ : Type*} [DecidableEq ι] (N : Net π ι α σ) {p q : π}
    (hpq : p ≠ q) {s t : σ} {Q Q₁ Q₂ : ι → List α}
    {r₁ r₂ : Option α} (h₁ : (N.act p s).exec N.capacity Q = some (Q₁, r₁))
    (h₂ : (N.act q t).exec N.capacity Q = some (Q₂, r₂)) :
    ∃ Q₃, (N.act q t).exec N.capacity Q₁ = some (Q₃, r₂) ∧
      (N.act p s).exec N.capacity Q₂ = some (Q₃, r₁) := by
  cases hp : N.act p s with
  | halt => simp [hp, Act.exec] at h₁
  | pause =>
    rw [hp] at h₁
    cases h₁
    exact ⟨Q₂, h₂, rfl⟩
  | op o₁ =>
    cases hq : N.act q t with
    | halt => simp [hq, Act.exec] at h₂
    | pause =>
      rw [hp] at h₁
      rw [hq] at h₂
      cases h₂
      exact ⟨Q₁, rfl, h₁⟩
    | op o₂ =>
      rw [hp] at h₁
      rw [hq] at h₂
      exact Op.exec_comm (N.apart hpq hp hq) h₁ h₂

structure Config (π ι α σ : Type*) where
  locals : π → σ
  queue : ι → List α

section
variable {π ι α σ : Type*} [DecidableEq π] [DecidableEq ι]

def Net.step (N : Net π ι α σ) (p : π) (x : Config π ι α σ) : Option (Config π ι α σ) :=
  ((N.act p (x.locals p)).exec N.capacity x.queue).map fun (queue, r) =>
    ⟨update x.locals p (N.next p (x.locals p) r), queue⟩

variable {N : Net π ι α σ} {x y : Config π ι α σ} {p q : π}

theorem step_eq_some_iff :
    N.step p x = some y ↔
      ∃ r, (N.act p (x.locals p)).exec N.capacity x.queue = some (y.queue, r) ∧
        update x.locals p (N.next p (x.locals p) r) = y.locals := by
  obtain ⟨locals, queue⟩ := y
  unfold Net.step
  rw [Option.map_eq_some_iff]
  constructor
  · rintro ⟨⟨Q, r⟩, hexec, heq⟩
    cases heq
    exact ⟨r, hexec, rfl⟩
  · rintro ⟨r, hexec, rfl⟩
    exact ⟨(queue, r), hexec, rfl⟩

/-- Two processes that can both move can do so in either order. -/
theorem Net.diamond (N : Net π ι α σ) : Diamond N.step := by
  intro p q x y z hpq hy hz
  obtain ⟨r₁, h₁, hy⟩ := step_eq_some_iff.mp hy
  obtain ⟨r₂, h₂, hz⟩ := step_eq_some_iff.mp hz
  obtain ⟨Q, hq, hp⟩ := N.exec_comm hpq h₁ h₂
  have hyq : y.locals q = x.locals q := by rw [← hy, update_of_ne (Ne.symm hpq)]
  have hzp : z.locals p = x.locals p := by rw [← hz, update_of_ne hpq]
  refine ⟨⟨update y.locals q (N.next q (x.locals q) r₂), Q⟩, step_eq_some_iff.mpr ⟨r₂, ?_, ?_⟩,
    step_eq_some_iff.mpr ⟨r₁, ?_, ?_⟩⟩
  · rwa [hyq]
  · rw [hyq]
  · rwa [hzp]
  · rw [hzp, ← hy, ← hz]
    exact update_comm (Ne.symm hpq) _ _ _

theorem step_locals (h : N.step p x = some y) (q : π) :
    y.locals q = x.locals q ∨ ∃ r, y.locals q = N.next q (x.locals q) r := by
  obtain ⟨r, -, hy⟩ := step_eq_some_iff.mp h
  rw [← hy]
  by_cases hqp : q = p
  · subst hqp
    exact Or.inr ⟨r, update_self q _ x.locals⟩
  · exact Or.inl (update_of_ne hqp _ x.locals)

/-- What the values in each queue and the states of each process are like. -/
structure Typing {π ι α σ : Type*} (N : Net π ι α σ) where
  inQueue : ι → α → Prop
  inState : π → σ → Prop
  put : ∀ {p s c v}, N.act p s = .op (.put c v) → inState p s →
    inQueue c v ∧ inState p (N.next p s none)
  get : ∀ {p s c v}, N.act p s = .op (.get c) → inState p s → inQueue c v →
    inState p (N.next p s (some v))
  pause : ∀ {p s}, N.act p s = .pause → inState p s → inState p (N.next p s none)

structure Typing.Holds (T : Typing N) (x : Config π ι α σ) : Prop where
  locals : ∀ p, T.inState p (x.locals p)
  queue : ∀ c, ∀ v ∈ x.queue c, T.inQueue c v

theorem Typing.Holds.step {T : Typing N} (hx : T.Holds x) (h : N.step p x = some y) :
    T.Holds y := by
  obtain ⟨r, hexec, hlocals⟩ := step_eq_some_iff.mp h
  -- only `p` and the queue of its operation have changed
  have hstate {s : σ} (hs : T.inState p s) : ∀ q, T.inState q (update x.locals p s q) :=
    (forall_update_iff x.locals T.inState).mpr ⟨hs, fun q _ => hx.locals q⟩
  have hqueue {c : ι} {l : List α} (hl : ∀ v ∈ l, T.inQueue c v) :
      ∀ d, ∀ v ∈ update x.queue c l d, T.inQueue d v :=
    (forall_update_iff x.queue fun d l => ∀ v ∈ l, T.inQueue d v).mpr
      ⟨hl, fun d _ => hx.queue d⟩
  cases ha : N.act p (x.locals p) with
  | halt => simp [ha, Act.exec] at hexec
  | pause =>
    rw [ha, Act.exec, Option.some.injEq, Prod.mk.injEq] at hexec
    obtain ⟨hq, rfl⟩ := hexec
    exact ⟨hlocals ▸ hstate (T.pause ha (hx.locals p)), hq ▸ hx.queue⟩
  | op o =>
    rw [ha, Act.exec] at hexec
    cases o with
    | put c v =>
      obtain ⟨-, hq, rfl⟩ := exec_put_iff.mp hexec
      obtain ⟨hv, hnext⟩ := T.put ha (hx.locals p)
      refine ⟨hlocals ▸ hstate hnext, hq ▸ hqueue ?_⟩
      intro w hw
      rcases List.mem_append.mp hw with hw | hw
      · exact hx.queue c w hw
      · rwa [List.mem_singleton.mp hw]
    | get c =>
      obtain ⟨v, vs, hc, hq, rfl⟩ := exec_get_iff.mp hexec
      have hall : ∀ w ∈ v :: vs, T.inQueue c w := hc ▸ hx.queue c
      have hv : T.inQueue c v := hall v List.mem_cons_self
      refine ⟨hlocals ▸ hstate (T.get ha (hx.locals p) hv), hq ▸ hqueue ?_⟩
      exact fun w hw => hall w (List.mem_cons_of_mem v hw)

theorem Typing.Holds.run {T : Typing N} (hx : T.Holds x) {es : List π}
    (h : run N.step es x = some y) : T.Holds y := by
  induction es generalizing x with
  | nil =>
    cases h
    exact hx
  | cons e es ih =>
    obtain ⟨z, hz, h⟩ := run_cons_some h
    exact ih (hx.step hz) h

/-- What every step of a process keeps is kept along the runs of the network. -/
theorem run_locals {R : σ → σ → Prop} (hrefl : ∀ s, R s s)
    (htrans : ∀ {s t u}, R s t → R t u → R s u)
    (hnext : ∀ s r, R s (N.next q s r)) {es : List π} (h : run N.step es x = some y) :
    R (x.locals q) (y.locals q) := by
  induction es generalizing x with
  | nil =>
    cases h
    exact hrefl _
  | cons e es ih =>
    obtain ⟨z, hz, h⟩ := run_cons_some h
    refine htrans ?_ (ih h)
    rcases step_locals hz q with hq | ⟨r, hq⟩ <;> rw [hq]
    · exact hrefl _
    · exact hnext _ r

end

section
variable {β γ : Type*} [DecidableEq β] [Fintype β]

theorem sum_update_eq (f : β → γ → ℤ) (g : β → γ) (a : β) (b : γ) :
    ∑ q, f q (update g a b q) = ∑ q, f q (g q) + f a b - f a (g a) := by
  have hcomp : (fun q => f q (update g a b q)) = update (fun q => f q (g q)) a (f a b) := by
    funext q
    exact apply_update f g a b q
  rw [hcomp, Finset.sum_update_of_mem (Finset.mem_univ a),
    ← Finset.add_sum_erase _ _ (Finset.mem_univ a), Finset.sdiff_singleton_eq_erase]
  omega

end

/-- A weight of the values and of the states of the processes to which no step adds. -/
structure Weight {π ι α σ : Type*} (N : Net π ι α σ) where
  held : π → σ → ℤ
  value : α → ℤ
  put_le : ∀ {p s c v}, N.act p s = .op (.put c v) → held p (N.next p s none) + value v ≤ held p s
  get_le : ∀ {p s c}, N.act p s = .op (.get c) →
    ∀ v, held p (N.next p s (some v)) ≤ held p s + value v
  pause_le : ∀ {p s}, N.act p s = .pause → held p (N.next p s none) ≤ held p s

namespace Weight
variable {π ι α σ : Type*} [Fintype π] [Fintype ι] {N : Net π ι α σ}

def queued (W : Weight N) (l : List α) : ℤ := (l.map W.value).sum

def total (W : Weight N) (x : Config π ι α σ) : ℤ :=
  ∑ p, W.held p (x.locals p) + ∑ c, W.queued (x.queue c)

variable [DecidableEq π] [DecidableEq ι] {W : Weight N} {x y : Config π ι α σ} {p : π}

theorem step_le (h : N.step p x = some y) : W.total y ≤ W.total x := by
  obtain ⟨r, hexec, hlocals⟩ := step_eq_some_iff.mp h
  simp only [total, ← hlocals, sum_update_eq]
  cases ha : N.act p (x.locals p) with
  | halt => simp [ha, Act.exec] at hexec
  | pause =>
    rw [ha, Act.exec, Option.some.injEq, Prod.mk.injEq] at hexec
    obtain ⟨hq, rfl⟩ := hexec
    have hle := W.pause_le ha
    rw [← hq]
    omega
  | op o =>
    rw [ha, Act.exec] at hexec
    cases o with
    | put c v =>
      obtain ⟨-, hq, rfl⟩ := exec_put_iff.mp hexec
      have hle := W.put_le ha
      have hqueue : W.queued (x.queue c ++ [v]) = W.queued (x.queue c) + W.value v := by
        simp [queued]
      rw [← hq, sum_update_eq (fun _ => W.queued), hqueue]
      omega
    | get c =>
      obtain ⟨v, vs, hc, hq, rfl⟩ := exec_get_iff.mp hexec
      have hle := W.get_le ha v
      have hqueue : W.queued (x.queue c) = W.value v + W.queued vs := by
        simp [queued, hc]
      rw [← hq, sum_update_eq (fun _ => W.queued), hqueue]
      omega

theorem run_le {es : List π} (h : run N.step es x = some y) : W.total y ≤ W.total x := by
  induction es generalizing x with
  | nil =>
    cases h
    exact le_refl _
  | cons e es ih =>
    obtain ⟨z, hz, h⟩ := run_cons_some h
    exact (ih h).trans (step_le hz)

end Weight
end Kahn
