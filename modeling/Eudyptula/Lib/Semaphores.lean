import Eudyptula.Lib.Kahn

/-! Processes whose calls are straight-line code over counting semaphores and queues, and the
books that can be kept over them: a quantity that every instruction changes by a fixed amount
is kept by balanced code, whatever the order in which the processes run. -/
namespace Kahn
open Function

/-- A queue given by its laws. It has to keep what is put into it in order up to `cap` elements;
what it does beyond that, and what it gives when it is empty, is left open. `dequeue` may give
no element. -/
structure Fifo (α : Type*) (cap : ℕ) where
  carrier : Type
  zeroed : carrier
  init : carrier → carrier
  enqueue : α → carrier → carrier
  dequeue : carrier → Option α × carrier
  contents : carrier → List α
  contents_init : ∀ q, contents (init q) = []
  contents_enqueue : ∀ q v, (contents q).length < cap → contents (enqueue v q) = contents q ++ [v]
  contents_dequeue : ∀ q v vs, contents q = v :: vs →
    (dequeue q).1 = some v ∧ contents (dequeue q).2 = vs

/-- A list is one. -/
def Fifo.list (α : Type) (cap : ℕ) : Fifo α cap where
  carrier := List α
  zeroed := []
  init _ := []
  enqueue v q := q ++ [v]
  dequeue q := (q.head?, q.tail)
  contents q := q
  contents_init _ := rfl
  contents_enqueue _ _ _ := rfl
  contents_dequeue := by
    rintro q v vs rfl
    exact ⟨rfl, rfl⟩

inductive Instr (κ ι α : Type*)
  | down (s : κ)
  | up (s : κ)
  | enqueue (c : ι) (v : α)
  | dequeue (c : ι)

structure Shared (κ ι β : Type*) where
  sems : κ → ℕ
  queue : ι → β

section
variable {κ ι α : Type*} {cap : ℕ}

/-- The instruction that carries the call out: the others only order it. -/
def Instr.accesses : Instr κ ι α → Bool
  | .enqueue _ _ | .dequeue _ => true
  | .down _ | .up _ => false

/-- The instruction calls its queue where the laws speak. -/
def Instr.Proper (F : Fifo α cap) (x : Shared κ ι F.carrier) : Instr κ ι α → Prop
  | .enqueue c _ => (F.contents (x.queue c)).length < cap
  | .dequeue c => F.contents (x.queue c) ≠ []
  | .down _ | .up _ => True

variable [DecidableEq κ] [DecidableEq ι]

/-- `none` is a `down` that has to wait. -/
def Instr.exec (F : Fifo α cap) (x : Shared κ ι F.carrier) :
    Instr κ ι α → Option (Shared κ ι F.carrier × Option α)
  | .down s =>
    if 0 < x.sems s then some ({ x with sems := update x.sems s (x.sems s - 1) }, none) else none
  | .up s => some ({ x with sems := update x.sems s (x.sems s + 1) }, none)
  | .enqueue c v => some ({ x with queue := update x.queue c (F.enqueue v (x.queue c)) }, none)
  | .dequeue c =>
    let (r, q) := F.dequeue (x.queue c)
    some ({ x with queue := update x.queue c q }, r)

/-- A quantity of the shared state and what each instruction adds to it. -/
structure Account (κ ι : Type*) {α : Type*} {cap : ℕ} [DecidableEq κ] [DecidableEq ι]
    (F : Fifo α cap) where
  level : Shared κ ι F.carrier → ℤ
  gain : Instr κ ι α → ℤ
  exec_level : ∀ {i x y r}, i.Proper F x → i.exec F x = some (y, r) → level y = level x + gain i

/-- What an instruction does to the count of `s`, with `k` for each element of the queue `c`. -/
def Instr.gain (s : κ) (k : ℤ) (c : ι) : Instr κ ι α → ℤ
  | .down t => if t = s then -1 else 0
  | .up t => if t = s then 1 else 0
  | .enqueue d _ => if d = c then k else 0
  | .dequeue d => if d = c then -k else 0

variable {F : Fifo α cap}

theorem exec_gain (s : κ) (k : ℤ) (c : ι) {i : Instr κ ι α} {x y : Shared κ ι F.carrier}
    {r : Option α} (hi : i.Proper F x) (h : i.exec F x = some (y, r)) :
    y.sems s + k * (F.contents (y.queue c)).length =
      x.sems s + k * (F.contents (x.queue c)).length + i.gain s k c := by
  cases i with
  | down t =>
    simp only [Instr.exec] at h
    split_ifs at h with ht
    cases h
    by_cases hts : t = s
    · subst hts
      simp only [Instr.gain, update_self, if_true]
      omega
    · simp [Instr.gain, hts, update_of_ne (Ne.symm hts)]
  | up t =>
    cases h
    by_cases hts : t = s
    · subst hts
      simp only [Instr.gain, update_self, if_true]
      omega
    · simp [Instr.gain, hts, update_of_ne (Ne.symm hts)]
  | enqueue d v =>
    cases h
    by_cases hdc : d = c
    · subst hdc
      simp [Instr.gain, F.contents_enqueue _ v hi, Int.mul_add, Int.add_assoc]
    · simp [Instr.gain, hdc, update_of_ne (Ne.symm hdc)]
  | dequeue d =>
    obtain ⟨v, vs, hq⟩ := List.exists_cons_of_ne_nil hi
    have hrest := (F.contents_dequeue _ v vs hq).2
    cases h
    by_cases hdc : d = c
    · subst hdc
      simp only [Instr.gain, update_self, if_true, hq, hrest, List.length_cons,
        Int.natCast_add, Int.natCast_one, Int.mul_add, Int.mul_one]
      omega
    · simp [Instr.gain, hdc, update_of_ne (Ne.symm hdc)]

def Account.count (s : κ) (k : ℤ) (c : ι) : Account κ ι F where
  level x := x.sems s + k * (F.contents (x.queue c)).length
  gain := Instr.gain s k c
  exec_level := exec_gain s k c

/-- What the rest of a call will still add. -/
def Account.pending (A : Account κ ι F) (code : List (Instr κ ι α)) : ℤ := (code.map A.gain).sum

end

/-- `code` is what is left of the call a process is in. -/
structure Threads (π κ ι α β σ : Type*) where
  locals : π → σ
  code : π → List (Instr κ ι α)
  shared : Shared κ ι β

inductive Label (π : Type*)
  | step (p : π)
  | fault (p : π)

section
variable {π κ ι α : Type*} [DecidableEq π] {body : Op ι α → List (Instr κ ι α)}

/-- Each process is somewhere in the code of a call. -/
def InCalls (body : Op ι α → List (Instr κ ι α)) (code : π → List (Instr κ ι α)) : Prop :=
  ∀ p, code p = [] ∨ ∃ o, code p <:+ body o

theorem InCalls.update {code : π → List (Instr κ ι α)} (h : InCalls body code) {p : π}
    {is : List (Instr κ ι α)} (his : is = [] ∨ ∃ o, is <:+ body o) :
    InCalls body (update code p is) := by
  intro q
  by_cases hqp : q = p
  · subst hqp
    rwa [update_self]
  · rw [update_of_ne hqp]
    exact h q

theorem InCalls.tail {code : π → List (Instr κ ι α)} (h : InCalls body code) {p : π}
    {i : Instr κ ι α} {is : List (Instr κ ι α)} (hc : code p = i :: is) :
    InCalls body (Function.update code p is) := by
  refine h.update (Or.inr ?_)
  rcases h p with hnil | ⟨o, ho⟩
  · simp [hc] at hnil
  · rw [hc] at ho
    exact ⟨o, (List.suffix_cons i is).trans ho⟩

end

section
variable {π κ ι α : Type*} [DecidableEq κ] [DecidableEq ι] {cap : ℕ} {F : Fifo α cap}
  {body : Op ι α → List (Instr κ ι α)}

/-- Code that ends even is never in debt on the way. -/
structure Account.Sound (A : Account κ ι F) (body : Op ι α → List (Instr κ ι α)) : Prop where
  balanced : ∀ o, A.pending (body o) = 0
  solvent : ∀ o is, is <:+ body o → 0 ≤ A.pending is

theorem Account.Sound.pending_nonneg {A : Account κ ι F} {code : π → List (Instr κ ι α)}
    (hA : A.Sound body) (hx : InCalls body code) (p : π) : 0 ≤ A.pending (code p) := by
  rcases hx p with hnil | ⟨o, ho⟩
  · rw [hnil]
    exact le_refl 0
  · exact hA.solvent o _ ho

variable {σ : Type*} [Fintype π] {x : Threads π κ ι α F.carrier σ}

/-- The level once every call that is under way has ended. -/
def Account.total (A : Account κ ι F) (x : Threads π κ ι α F.carrier σ) : ℤ :=
  A.level x.shared + ∑ p, A.pending (x.code p)

/-- What is in the shared state and in one call is within the total. -/
theorem Account.Sound.level_add_pending_le {A : Account κ ι F} (hA : A.Sound body)
    (hx : InCalls body x.code) (p : π) : A.level x.shared + A.pending (x.code p) ≤ A.total x := by
  have hle : A.pending (x.code p) ≤ ∑ q, A.pending (x.code q) :=
    Finset.single_le_sum (fun q _ => hA.pending_nonneg hx q) (Finset.mem_univ p)
  unfold Account.total
  omega

end

section
variable {π κ ι α σ : Type*} [DecidableEq π] [DecidableEq κ] [DecidableEq ι] {cap : ℕ}

/-- One instruction of a process, or a fault: a `down` that is interrupted while it waits ends
the call without a result, and a step outside of a call may fail on its own. -/
def Net.fineStep (N : Net π ι α σ) (F : Fifo α cap) (body : Op ι α → List (Instr κ ι α))
    (fail : π → σ → Option σ) :
    Label π → Threads π κ ι α F.carrier σ → Option (Threads π κ ι α F.carrier σ)
  | .step p, x =>
    match x.code p with
    | [] =>
      match N.act p (x.locals p) with
      | .op o => some { x with code := update x.code p (body o) }
      | .pause => some { x with locals := update x.locals p (N.next p (x.locals p) none) }
      | .halt => none
    | i :: is => (i.exec F x.shared).map fun (shared, r) =>
      { locals := if i.accesses then update x.locals p (N.next p (x.locals p) r) else x.locals
        code := update x.code p is
        shared }
  | .fault p, x =>
    match x.code p with
    | [] => (fail p (x.locals p)).map fun s => { x with locals := update x.locals p s }
    | .down s :: _ =>
      if x.shared.sems s = 0 then
        some { x with
          locals := update x.locals p (N.next p (x.locals p) none)
          code := update x.code p [] }
      else none
    | _ => none

/-- What one step can do. -/
inductive FineMove (N : Net π ι α σ) (F : Fifo α cap) (body : Op ι α → List (Instr κ ι α))
    (fail : π → σ → Option σ) (x : Threads π κ ι α F.carrier σ) :
    Label π → Threads π κ ι α F.carrier σ → Prop
  | call {p o} (hc : x.code p = []) (ha : N.act p (x.locals p) = .op o) :
      FineMove N F body fail x (.step p) { x with code := update x.code p (body o) }
  | pause {p} (hc : x.code p = []) (ha : N.act p (x.locals p) = .pause) :
      FineMove N F body fail x (.step p)
        { x with locals := update x.locals p (N.next p (x.locals p) none) }
  | order {p i is shared r} (hc : x.code p = i :: is) (hi : i.accesses = false)
      (he : i.exec F x.shared = some (shared, r)) :
      FineMove N F body fail x (.step p)
        { locals := x.locals, code := update x.code p is, shared }
  | access {p i is shared r} (hc : x.code p = i :: is) (hi : i.accesses = true)
      (he : i.exec F x.shared = some (shared, r)) :
      FineMove N F body fail x (.step p)
        { locals := update x.locals p (N.next p (x.locals p) r)
          code := update x.code p is
          shared }
  | fail {p s} (hc : x.code p = []) (hf : fail p (x.locals p) = some s) :
      FineMove N F body fail x (.fault p) { x with locals := update x.locals p s }
  | interrupted {p s is} (hc : x.code p = .down s :: is) (hs : x.shared.sems s = 0) :
      FineMove N F body fail x (.fault p)
        { x with
          locals := update x.locals p (N.next p (x.locals p) none)
          code := update x.code p [] }

variable {N : Net π ι α σ} {F : Fifo α cap} {body : Op ι α → List (Instr κ ι α)}
  {fail : π → σ → Option σ} {x y : Threads π κ ι α F.carrier σ} {l : Label π}

theorem fineStep_move (h : N.fineStep F body fail l x = some y) : FineMove N F body fail x l y := by
  cases l with
  | step p =>
    cases hc : x.code p with
    | nil =>
      simp only [Net.fineStep, hc] at h
      split at h
      · cases h
        exact .call hc ‹_›
      · cases h
        exact .pause hc ‹_›
      · cases h
    | cons i is =>
      simp only [Net.fineStep, hc, Option.map_eq_some_iff] at h
      obtain ⟨⟨shared, r⟩, he, rfl⟩ := h
      cases hi : i.accesses with
      | false => exact .order hc hi he
      | true => exact .access hc hi he
  | fault p =>
    simp only [Net.fineStep] at h
    split at h
    · obtain ⟨s, hf, rfl⟩ := Option.map_eq_some_iff.mp h
      exact .fail ‹_› hf
    · split_ifs at h with hs
      cases h
      exact .interrupted ‹_› hs
    · cases h

theorem FineMove.code_of_ne {p q : π} (h : FineMove N F body fail x (.step p) y) (hq : q ≠ p) :
    y.code q = x.code q := by
  cases h with
  | call | order | access => exact update_of_ne hq _ _
  | pause => rfl

theorem FineMove.inCalls (h : FineMove N F body fail x l y) (hx : InCalls body x.code) :
    InCalls body y.code := by
  cases h with
  | call hc ha => exact hx.update (Or.inr ⟨_, List.suffix_refl _⟩)
  | pause | fail => exact hx
  | order hc hi he | access hc hi he => exact hx.tail hc
  | interrupted hc hs => exact hx.update (Or.inl rfl)

namespace Account
variable [Fintype π] {A : Account κ ι F}

theorem total_exec {p : π} {i : Instr κ ι α} {is : List (Instr κ ι α)}
    {shared : Shared κ ι F.carrier} {r : Option α} (hc : x.code p = i :: is)
    (hi : i.Proper F x.shared) (he : i.exec F x.shared = some (shared, r)) (locals : π → σ) :
    A.total { locals, code := update x.code p is, shared } = A.total x := by
  have hp : A.pending (x.code p) = A.gain i + A.pending is := by
    rw [hc]
    rfl
  simp only [total, sum_update_eq (fun _ => A.pending), A.exec_level hi he, hp]
  omega

theorem Sound.total_step (hA : A.Sound body) {p : π} (h : FineMove N F body fail x (.step p) y)
    (hproper : ∀ i is, x.code p = i :: is → i.Proper F x.shared) : A.total y = A.total x := by
  cases h with
  | call hc ha =>
    simp only [total, sum_update_eq (fun _ => A.pending), hc, hA.balanced]
    simp [pending]
  | pause => rfl
  | order hc hi he | access hc hi he => exact total_exec hc (hproper _ _ hc) he _

theorem Sound.total_fault (hA : A.Sound body) (hx : InCalls body x.code) {p : π}
    (h : FineMove N F body fail x (.fault p) y) : A.total y ≤ A.total x := by
  cases h with
  | fail => exact le_refl _
  | interrupted hc hs =>
    have hp := hA.pending_nonneg hx p
    simp only [total, sum_update_eq (fun _ => A.pending)]
    have hnil : A.pending [] = 0 := rfl
    omega

theorem Sound.total_move (hA : A.Sound body) (hx : InCalls body x.code)
    (h : FineMove N F body fail x l y)
    (hproper : ∀ p i is, x.code p = i :: is → i.Proper F x.shared) : A.total y ≤ A.total x := by
  cases l with
  | step p => exact (hA.total_step h (hproper p)).le
  | fault p => exact hA.total_fault hx h

/-- The same with two calls. -/
theorem Sound.level_add_two_le (hA : A.Sound body) (hx : InCalls body x.code) {p q : π}
    (hpq : p ≠ q) :
    A.level x.shared + A.pending (x.code p) + A.pending (x.code q) ≤ A.total x := by
  have hle : ∑ r ∈ {p, q}, A.pending (x.code r) ≤ ∑ r, A.pending (x.code r) :=
    Finset.sum_le_sum_of_subset_of_nonneg (Finset.subset_univ _)
      fun r _ _ => hA.pending_nonneg hx r
  rw [Finset.sum_pair hpq] at hle
  unfold total
  omega

end Account
end
end Kahn
