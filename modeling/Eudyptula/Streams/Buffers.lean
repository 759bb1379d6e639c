import Eudyptula.Streams.Threads

/-! The calls `put` and `get` on the three semaphores of a stream, for any network of threads.
The buffers stay within their bounds whatever is interrupted, and while nothing is, each call
is one operation on the queue. -/
namespace Eudyptula.Streams
open Function Kahn Runs

section
variable {ι α : Type*}

def get (c : ι) : List (Instr (ι × Sem) ι α) :=
  [.down (c, .full), .down (c, .mutex), .dequeue c, .up (c, .mutex), .up (c, .empty)]

def put (c : ι) (value : α) : List (Instr (ι × Sem) ι α) :=
  [.down (c, .empty), .down (c, .mutex), .enqueue c value, .up (c, .mutex), .up (c, .full)]

def call : Op ι α → List (Instr (ι × Sem) ι α)
  | .put c value => put c value
  | .get c => get c

/-- The thread has taken the mutex of the stream and has still to give it back. -/
def Holds (c : ι) (code : List (Instr (ι × Sem) ι α)) : Prop :=
  .up (c, .mutex) ∈ code ∧ .down (c, .mutex) ∉ code

theorem suffix_call {o : Op ι α} {code : List (Instr (ι × Sem) ι α)} (h : code <:+ call o) :
    code = [] ∨ code = call o ∨ code = (call o).drop 1 ∨ code = (call o).drop 2 ∨
      code = (call o).drop 3 ∨ code = (call o).drop 4 := by
  cases o <;> simp only [call, put, get, List.suffix_cons_iff, List.suffix_nil] at h ⊢ <;> tauto

/-- A call accesses the queue once, and waits for nothing after it. -/
theorem access_once {o : Op ι α} {i : Instr (ι × Sem) ι α} {is : List (Instr (ι × Sem) ι α)}
    (h : i :: is <:+ call o) (hi : i.accesses = true) :
    i :: is = (call o).drop 2 ∧ ∀ j ∈ is, j.accesses = false := by
  rcases suffix_call h with hc | hc | hc | hc | hc | hc
  · contradiction
  all_goals
    cases o <;> cases hc <;> simp_all [Instr.accesses, call, put, get]

theorem access_after_down {o : Op ι α} {s : ι × Sem} {is : List (Instr (ι × Sem) ι α)}
    (h : .down s :: is <:+ call o) : ∃ i ∈ is, i.accesses = true := by
  rcases suffix_call h with hc | hc | hc | hc | hc | hc
  · contradiction
  all_goals
    cases o <;> cases hc <;> simp [Instr.accesses]

/-- How far a thread is in a call: the instructions since the call, or with a minus sign those
that are left once the queue has been accessed. -/
def spent (code : List (Instr (ι × Sem) ι α)) : ℤ :=
  if code.any Instr.accesses then 6 - code.length else -code.length

theorem spent_le (code : List (Instr (ι × Sem) ι α)) : spent code ≤ 5 := by
  cases code with
  | nil => simp [spent]
  | cons i is =>
    simp only [spent, List.length_cons]
    split_ifs <;> omega

theorem spent_order {i : Instr (ι × Sem) ι α} {is : List (Instr (ι × Sem) ι α)}
    (hi : i.accesses = false) : spent (i :: is) + 1 = spent is := by
  simp only [spent, List.any_cons, hi, Bool.false_or, List.length_cons]
  split_ifs <;> push_cast <;> omega

theorem spent_access {o : Op ι α} {i : Instr (ι × Sem) ι α} {is : List (Instr (ι × Sem) ι α)}
    (h : i :: is <:+ call o) (hi : i.accesses = true) : spent (i :: is) + 1 = 6 + spent is := by
  obtain ⟨hcall, -⟩ := access_once h hi
  cases o <;> cases hcall <;> simp [spent, Instr.accesses]

end

section
variable {ι α : Type*} [DecidableEq ι] {cap : ℕ} {F : Fifo α cap}

/-- What an element of the buffer is worth to the books of a semaphore. -/
def Sem.weight : Sem → ℤ
  | .empty => 1
  | .full => -1
  | .mutex => 0

def books (F : Fifo α cap) (s : Sem) (c : ι) : Account (ι × Sem) ι F := .count (c, s) s.weight c

theorem books_level (s : Sem) (c : ι) (x : Shared (ι × Sem) ι F.carrier) :
    (books F s c).level x = x.sems (c, s) + s.weight * (F.contents (x.queue c)).length := rfl

theorem books_sound (s : Sem) (c : ι) : (books F s c).Sound call where
  balanced o := by
    cases s <;> rcases o with ⟨d, v⟩ | d <;> by_cases hd : d = c <;>
      simp [books, Sem.weight, call, put, get, Account.pending, Account.count, Instr.gain, hd]
  solvent o is h := by
    rcases suffix_call h with rfl | rfl | rfl | rfl | rfl | rfl <;> cases s <;>
      rcases o with ⟨d, v⟩ | d <;> by_cases hd : d = c <;>
      simp [books, Sem.weight, call, put, get, Account.pending, Account.count, Instr.gain, hd]

theorem pending_dequeue {o : Op ι α} {c : ι} {is : List (Instr (ι × Sem) ι α)}
    (h : .dequeue c :: is <:+ call o) : (books F .full c).pending (.dequeue c :: is) = 1 := by
  rw [(access_once h rfl).1]
  obtain ⟨heq, -⟩ := access_once h rfl
  cases o <;> cases heq
  simp [books, Sem.weight, call, get, Account.pending, Account.count, Instr.gain]

theorem pending_enqueue {o : Op ι α} {c : ι} {v : α} {is : List (Instr (ι × Sem) ι α)}
    (h : .enqueue c v :: is <:+ call o) :
    (books F .empty c).pending (.enqueue c v :: is) = 1 := by
  rw [(access_once h rfl).1]
  obtain ⟨heq, -⟩ := access_once h rfl
  cases o <;> cases heq
  simp [books, Sem.weight, call, put, Account.pending, Account.count, Instr.gain]

theorem pending_holds {o : Op ι α} {c : ι} {code : List (Instr (ι × Sem) ι α)}
    (h : code <:+ call o) (hc : Holds c code) : (books F .mutex c).pending code = 1 := by
  rcases suffix_call h with rfl | rfl | rfl | rfl | rfl | rfl <;> rcases o with ⟨d, v⟩ | d <;>
    simp_all [Holds, books, Sem.weight, call, put, get, Account.pending, Account.count, Instr.gain]

theorem pending_mutex_zero (o : Op ι α) (c : ι) :
    (books F .mutex c).pending ((call o).drop 1) = 0 := by
  rcases o with ⟨d, v⟩ | d <;> by_cases hd : d = c <;>
    simp [books, Sem.weight, call, put, get, Account.pending, Account.count, Instr.gain, hd]

end

section
variable {π ι α σ : Type*} {cap : ℕ} {F : Fifo α cap}

abbrev State (π ι σ : Type*) {α : Type*} {cap : ℕ} (F : Fifo α cap) :=
  Threads π (ι × Sem) ι α F.carrier σ

/-- A thread that has still to access the queue of its call is where it made the call. -/
def InStep (N : Net π ι α σ) (x : State π ι σ F) : Prop :=
  ∀ p, x.code p = [] ∨
    ∃ o, x.code p <:+ call o ∧ (∀ i ∈ x.code p, i.accesses = true → N.act p (x.locals p) = .op o)

/-- The semaphores as `init_stream` leaves them. -/
def quota (capacity : ℕ) : Sem → ℤ
  | .empty => capacity
  | .full => 0
  | .mutex => 1

variable {N : Net π ι α σ} {x y : State π ι σ F} {p : π}

theorem InStep.inCalls (h : InStep N x) : InCalls call x.code := by
  intro p
  rcases h p with hnil | ⟨o, ho, -⟩
  · exact Or.inl hnil
  · exact Or.inr ⟨o, ho⟩

theorem InStep.suffix (h : InStep N x) {i : Instr (ι × Sem) ι α}
    {is : List (Instr (ι × Sem) ι α)} (hc : x.code p = i :: is) :
    ∃ o, i :: is <:+ call o ∧
      ∀ j ∈ i :: is, j.accesses = true → N.act p (x.locals p) = .op o := by
  rcases h p with hnil | hcall
  · simp [hnil] at hc
  · rwa [hc] at hcall

theorem InStep.act_of_down (h : InStep N x) {s : ι × Sem} {is : List (Instr (ι × Sem) ι α)}
    (hc : x.code p = .down s :: is) : ∃ o, N.act p (x.locals p) = .op o := by
  obtain ⟨o, ho, hact⟩ := h.suffix hc
  obtain ⟨i, hi, hacc⟩ := access_after_down ho
  exact ⟨o, hact i (List.mem_cons_of_mem _ hi) hacc⟩

/-- A step of `p` keeps the others in step. -/
theorem InStep.of_others (h : InStep N x) (hl : ∀ q, q ≠ p → y.locals q = x.locals q)
    (hc : ∀ q, q ≠ p → y.code q = x.code q)
    (hp : y.code p = [] ∨ ∃ o, y.code p <:+ call o ∧
      (∀ i ∈ y.code p, i.accesses = true → N.act p (y.locals p) = .op o)) : InStep N y := by
  intro q
  by_cases hqp : q = p
  · subst hqp
    exact hp
  · rw [hc q hqp, hl q hqp]
    exact h q

/-- The queues and the threads without the semaphores. -/
def abstract (x : State π ι σ F) : Config π ι α σ :=
  ⟨x.locals, fun c => F.contents (x.shared.queue c)⟩

variable [DecidableEq ι]

theorem InStep.holds_pending (hx : InStep N x) {c : ι} (hp : Holds c (x.code p)) :
    (books F .mutex c).pending (x.code p) = 1 := by
  rcases hx p with hnil | ⟨o, ho, -⟩
  · simp [Holds, hnil] at hp
  · exact pending_holds ho hp

theorem exec_order {i : Instr (ι × Sem) ι α} {s t : Shared (ι × Sem) ι F.carrier} {r : Option α}
    (hi : i.accesses = false) (h : i.exec F s = some (t, r)) : t.queue = s.queue := by
  cases i with
  | down k =>
    simp only [Instr.exec] at h
    split_ifs at h
    cases h
    rfl
  | up k =>
    cases h
    rfl
  | enqueue | dequeue => simp [Instr.accesses] at hi

end

section
variable {π ι α σ : Type*} [DecidableEq π] [DecidableEq ι] {N : Net π ι α σ} {cap : ℕ}
  {F : Fifo α cap} {fail : π → σ → Option σ} {x y : State π ι σ F} {l : Label π}

theorem FineMove.inStep (h : FineMove N F call fail x l y) (hx : InStep N x) : InStep N y := by
  cases h with
  | @call p o hc ha =>
    refine hx.of_others (p := p) (fun _ _ => rfl) (fun q hq => update_of_ne hq _ _) (Or.inr ?_)
    exact ⟨o, by simp, fun _ _ _ => ha⟩
  | @pause p hc ha | @fail p _ hc hf =>
    exact hx.of_others (p := p) (fun q hq => update_of_ne hq _ _) (fun _ _ => rfl) (Or.inl hc)
  | @order p i is _ _ hc hi he =>
    obtain ⟨o, ho, hact⟩ := hx.suffix hc
    refine hx.of_others (p := p) (fun _ _ => rfl) (fun q hq => update_of_ne hq _ _) (Or.inr ?_)
    simp only [update_self]
    exact ⟨o, (List.suffix_cons i is).trans ho, fun j hj => hact j (List.mem_cons_of_mem i hj)⟩
  | @access p i is _ _ hc hi he =>
    obtain ⟨o, ho, -⟩ := hx.suffix hc
    have hlast := (access_once ho hi).2
    refine hx.of_others (p := p) (fun q hq => update_of_ne hq _ _)
      (fun q hq => update_of_ne hq _ _) (Or.inr ?_)
    simp only [update_self]
    exact ⟨o, (List.suffix_cons i is).trans ho, fun j hj hacc => by simp [hlast j hj] at hacc⟩
  | @interrupted p s is hc hs =>
    exact hx.of_others (p := p) (fun q hq => update_of_ne hq _ _)
      (fun q hq => update_of_ne hq _ _) (Or.inl (update_self _ _ _))

/-- The runs in which nothing is interrupted and no allocation fails. -/
def smoothStep (N : Net π ι α σ) (F : Fifo α cap) (p : π) (x : State π ι σ F) :
    Option (State π ι σ F) :=
  N.fineStep F call (fun _ _ => none) (.step p) x

/-- Only a `down` can wait. -/
theorem waits_at_down (h : Stuck (smoothStep N F) x) {p : π} {i : Instr (ι × Sem) ι α}
    {is : List (Instr (ι × Sem) ι α)} (hc : x.code p = i :: is) :
    ∃ s, i = .down s ∧ x.shared.sems s = 0 := by
  have hnone : i.exec F x.shared = none := by
    have hp := h p
    simp only [smoothStep, Net.fineStep, hc, Option.map_eq_none_iff] at hp
    exact hp
  cases i with
  | down s => exact ⟨s, rfl, by simpa [Instr.exec] using hnone⟩
  | up s => simp [Instr.exec] at hnone
  | enqueue c v => simp [Instr.exec] at hnone
  | dequeue c => simp [Instr.exec] at hnone

end

section
variable {π ι α σ : Type*} [DecidableEq ι] [Fintype π] {N : Net π ι α σ} {F : Fifo α N.capacity}
  {x y : State π ι σ F} {p : π}

/-- The books of every stream stay within what it started with. -/
structure Bounded (N : Net π ι α σ) (F : Fifo α N.capacity) (x : State π ι σ F) : Prop where
  inStep : InStep N x
  within : ∀ s c, (books F s c).total x ≤ quota N.capacity s

theorem Bounded.length_le (hx : Bounded N F x) (c : ι) :
    (F.contents (x.shared.queue c)).length ≤ N.capacity := by
  have hle := (books_sound .empty c).level_add_pending_le hx.inStep.inCalls (N.writer c)
  have hpos := (books_sound (F := F) .empty c).pending_nonneg hx.inStep.inCalls (N.writer c)
  have hquota := hx.within .empty c
  simp only [books_level, Sem.weight, quota] at hle hquota
  omega

theorem Bounded.of_dequeue (hx : Bounded N F x) {c : ι} {is : List (Instr (ι × Sem) ι α)}
    (hc : x.code p = .dequeue c :: is) : F.contents (x.shared.queue c) ≠ [] := by
  obtain ⟨o, ho, -⟩ := hx.inStep.suffix hc
  have hle := (books_sound .full c).level_add_pending_le hx.inStep.inCalls p
  rw [hc, pending_dequeue ho] at hle
  have hquota := hx.within .full c
  intro hnil
  simp only [books_level, Sem.weight, quota, hnil, List.length_nil] at hle hquota
  omega

theorem Bounded.of_enqueue (hx : Bounded N F x) {c : ι} {v : α} {is : List (Instr (ι × Sem) ι α)}
    (hc : x.code p = .enqueue c v :: is) :
    (F.contents (x.shared.queue c)).length < N.capacity := by
  obtain ⟨o, ho, -⟩ := hx.inStep.suffix hc
  have hle := (books_sound .empty c).level_add_pending_le hx.inStep.inCalls p
  rw [hc, pending_enqueue ho] at hle
  have hquota := hx.within .empty c
  simp only [books_level, Sem.weight, quota] at hle hquota
  omega

/-- The semaphores see to it that a queue is called only where its laws speak. -/
theorem Bounded.proper (hx : Bounded N F x) (p : π) (i : Instr (ι × Sem) ι α)
    (is : List (Instr (ι × Sem) ι α)) (hc : x.code p = i :: is) : i.Proper F x.shared := by
  cases i with
  | down | up => trivial
  | enqueue c v => exact hx.of_enqueue hc
  | dequeue c => exact hx.of_dequeue hc

/-- The access to the queue is the operation of the call. -/
theorem Bounded.exec_access (hx : Bounded N F x) {i : Instr (ι × Sem) ι α}
    {is : List (Instr (ι × Sem) ι α)} {t : Shared (ι × Sem) ι F.carrier} {r : Option α}
    (hc : x.code p = i :: is) (hi : i.accesses = true) (he : i.exec F x.shared = some (t, r)) :
    (N.act p (x.locals p)).exec N.capacity (fun c => F.contents (x.shared.queue c)) =
      some (fun c => F.contents (t.queue c), r) := by
  obtain ⟨o, ho, hact⟩ := hx.inStep.suffix hc
  rw [hact i List.mem_cons_self hi, Act.exec]
  have hcall := (access_once ho hi).1
  cases o with
  | put c v =>
    cases hcall
    cases he
    have hroom := hx.of_enqueue hc
    refine exec_put_iff.mpr ⟨hroom, ?_, rfl⟩
    rw [← F.contents_enqueue _ v hroom]
    exact (comp_update F.contents x.shared.queue c _).symm
  | get c =>
    cases hcall
    obtain ⟨v, vs, hq⟩ := List.exists_cons_of_ne_nil (hx.of_dequeue hc)
    obtain ⟨hfirst, hrest⟩ := F.contents_dequeue _ v vs hq
    cases he
    refine exec_get_iff.mpr ⟨v, vs, hq, ?_, hfirst.symm⟩
    rw [← hrest]
    exact (comp_update F.contents x.shared.queue c _).symm

/-- While nothing is interrupted the books are exact. -/
structure Exact (N : Net π ι α σ) (F : Fifo α N.capacity) (x : State π ι σ F) : Prop where
  inStep : InStep N x
  total_eq : ∀ s c, (books F s c).total x = quota N.capacity s

theorem Exact.bounded (hx : Exact N F x) : Bounded N F x where
  inStep := hx.inStep
  within s c := (hx.total_eq s c).le

variable [DecidableEq π] {fail : π → σ → Option σ} {l : Label π}

theorem Bounded.move (hx : Bounded N F x) (h : FineMove N F call fail x l y) : Bounded N F y where
  inStep := FineMove.inStep h hx.inStep
  within s c :=
    ((books_sound s c).total_move hx.inStep.inCalls h hx.proper).trans (hx.within s c)

theorem Bounded.mutex_unique (hx : Bounded N F x) {c : ι} {p q : π} (hp : Holds c (x.code p))
    (hq : Holds c (x.code q)) : p = q := by
  by_contra hpq
  have hle := (books_sound (F := F) .mutex c).level_add_two_le hx.inStep.inCalls hpq
  rw [hx.inStep.holds_pending hp, hx.inStep.holds_pending hq] at hle
  have hquota := hx.within .mutex c
  simp only [books_level, Sem.weight, quota] at hle hquota
  omega

/-- One instruction of a thread is one step of the network, or none. -/
theorem Bounded.refines (hx : Bounded N F x) (h : FineMove N F call fail x (.step p) y) :
    ∃ ds : List π, run N.step ds (abstract x) = some (abstract y) ∧
      spent (x.code p) + 1 ≤ 6 * ds.count p + spent (y.code p) := by
  cases h with
  | @call _ o hc ha =>
    refine ⟨[], rfl, ?_⟩
    simp only [update_self, hc]
    cases o <;> simp [spent, call, put, get, Instr.accesses]
  | pause hc ha =>
    refine ⟨[p], ?_, ?_⟩
    · rw [run_singleton, step_eq_some_iff]
      exact ⟨none, by rw [abstract, ha]; rfl, rfl⟩
    · simp only [List.count_singleton_self]
      omega
  | order hc hi he =>
    refine ⟨[], ?_, ?_⟩
    · simp [run, abstract, exec_order hi he]
    · simp [hc, spent_order hi]
  | access hc hi he =>
    obtain ⟨o, ho, -⟩ := hx.inStep.suffix hc
    refine ⟨[p], ?_, ?_⟩
    · rw [run_singleton, step_eq_some_iff]
      exact ⟨_, hx.exec_access hc hi he, rfl⟩
    · have hspent := spent_access ho hi
      simp only [hc, update_self, List.count_singleton_self]
      omega

theorem Exact.step (hx : Exact N F x) (h : smoothStep N F p x = some y) : Exact N F y where
  inStep := FineMove.inStep (fineStep_move h) hx.inStep
  total_eq s c :=
    ((books_sound s c).total_step (fineStep_move h) (hx.bounded.proper p)).trans (hx.total_eq s c)

/-- A run of the threads is a run of the network. -/
theorem Exact.run (hx : Exact N F x) {es : List π} (h : run (smoothStep N F) es x = some y) :
    Exact N F y ∧ ∃ ds, run N.step ds (abstract x) = some (abstract y) ∧
      ∀ p, es.count p + spent (x.code p) ≤ 6 * ds.count p + spent (y.code p) := by
  induction es generalizing x with
  | nil =>
    cases h
    exact ⟨hx, [], rfl, fun p => by simp⟩
  | cons e es ih =>
    obtain ⟨z, hz, h⟩ := run_cons_some h
    obtain ⟨hy, ds, hds, hcount⟩ := ih (hx.step hz) h
    refine ⟨hy, ?_⟩
    obtain ⟨d, hrun, hspent⟩ := hx.bounded.refines (fineStep_move hz)
    refine ⟨d ++ ds, by rw [run_append, hrun]; exact hds, fun p => ?_⟩
    have hp := hcount p
    rw [List.count_append]
    by_cases hpe : p = e
    · subst hpe
      rw [List.count_cons_self]
      omega
    · rw [List.count_cons_of_ne (Ne.symm hpe)]
      have hcode := (fineStep_move hz).code_of_ne hpe
      rw [hcode] at hp
      omega

/-- A thread that waits does so before its access, for one of the first two semaphores. -/
theorem Exact.waits (hx : Exact N F x) (h : Stuck (smoothStep N F) x) (p : π) :
    x.code p = [] ∨ ∃ o, N.act p (x.locals p) = .op o ∧
      (x.code p = call o ∨ x.code p = (call o).drop 1) := by
  rcases hx.inStep p with hnil | ⟨o, ho, hact⟩
  · exact Or.inl hnil
  rcases suffix_call ho with hc | hc | hc | hc | hc | hc
  · exact Or.inl hc
  · refine Or.inr ⟨o, ?_, Or.inl hc⟩
    cases o <;> simp_all [call, put, get, Instr.accesses]
  · refine Or.inr ⟨o, ?_, Or.inr hc⟩
    cases o <;> simp_all [call, put, get, Instr.accesses]
  -- past the second `down` nothing is waited for
  all_goals
    exfalso
    cases o <;> obtain ⟨s, hs, -⟩ := waits_at_down h hc <;> cases hs

theorem Exact.mutex_free (hx : Exact N F x) (h : Stuck (smoothStep N F) x) (c : ι) :
    x.shared.sems (c, .mutex) = 1 := by
  have hzero : ∀ p, (books F .mutex c).pending (x.code p) = 0 := by
    intro p
    rcases hx.waits h p with hc | ⟨o, -, hc | hc⟩ <;> rw [hc]
    · rfl
    · exact (books_sound .mutex c).balanced o
    · exact pending_mutex_zero o c
  have htotal := hx.total_eq .mutex c
  simp only [Account.total, hzero, Finset.sum_const_zero, books_level, Sem.weight, quota] at htotal
  omega

/-- So it waits for the first one, for room or for a token. -/
theorem Exact.waits_first (hx : Exact N F x) (h : Stuck (smoothStep N F) x) (p : π) :
    x.code p = [] ∨ ∃ o, N.act p (x.locals p) = .op o ∧ x.code p = call o := by
  rcases hx.waits h p with hc | ⟨o, ha, hc | hc⟩
  · exact Or.inl hc
  · exact Or.inr ⟨o, ha, hc⟩
  · exfalso
    cases o <;>
      · obtain ⟨s, hs, hzero⟩ := waits_at_down h hc
        cases hs
        rw [hx.mutex_free h] at hzero
        contradiction

theorem Exact.level_stuck (hx : Exact N F x) (h : Stuck (smoothStep N F) x) (s : Sem) (c : ι) :
    x.shared.sems (c, s) + s.weight * (F.contents (x.shared.queue c)).length =
      quota N.capacity s := by
  have hzero : ∀ p, (books F s c).pending (x.code p) = 0 := by
    intro p
    rcases hx.waits_first h p with hc | ⟨o, -, hc⟩ <;> rw [hc]
    · rfl
    · exact (books_sound s c).balanced o
  have htotal := hx.total_eq s c
  simpa only [Account.total, hzero, Finset.sum_const_zero, books_level, add_zero] using htotal

/-- The semaphores add no deadlock to the network. -/
theorem Exact.abstract_stuck (hx : Exact N F x) (h : Stuck (smoothStep N F) x) :
    Stuck N.step (abstract x) := by
  intro p
  have hexec : (N.act p (x.locals p)).exec N.capacity
      (fun c => F.contents (x.shared.queue c)) = none := by
    rcases hx.waits_first h p with hc | ⟨o, ha, hc⟩
    · have hp := h p
      simp only [smoothStep, Net.fineStep, hc] at hp
      split at hp
      · cases hp
      · cases hp
      · next ha => rw [ha, Act.exec]
    · rw [ha]
      cases o with
      | put c v =>
        obtain ⟨s, hs, hzero⟩ := waits_at_down h hc
        cases hs
        have hlevel := hx.level_stuck h .empty c
        rw [hzero] at hlevel
        simp only [Sem.weight, quota] at hlevel
        simp only [Act.exec, Op.exec]
        exact if_neg (by omega)
      | get c =>
        obtain ⟨s, hs, hzero⟩ := waits_at_down h hc
        cases hs
        have hlevel := hx.level_stuck h .full c
        rw [hzero] at hlevel
        simp only [Sem.weight, quota] at hlevel
        have hnil : F.contents (x.shared.queue c) = [] := List.length_eq_zero_iff.mp (by omega)
        simp [Act.exec, Op.exec, hnil]
  simp only [Net.step, abstract, hexec, Option.map_none]

end
end Eudyptula.Streams
