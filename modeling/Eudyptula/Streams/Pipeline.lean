import Eudyptula.Streams.Buffers

/-! Runs of the six threads, in every order and with every queue that keeps its laws. -/
namespace Eudyptula.Streams
open Function Kahn Runs

/-- What `queue_a.h` may be. -/
abbrev Queue := Fifo Cell network.capacity

abbrev Module (F : Queue) := State ThreadId StreamId Local F

/-- The threads as `init_module` wakes them up. -/
def start (F : Queue) : Module F where
  locals := entry
  code _ := []
  shared :=
    let g := initModule F.init (loaded F.zeroed)
    { sems := fun (c, s) => (g.stream c).sems s
      queue := fun c => (g.stream c).buffer }

/-- An instruction of a thread, a `down` that is interrupted or a `vmalloc` that fails. -/
def threadStep (F : Queue) : Label ThreadId → Module F → Option (Module F) :=
  network.fineStep F call fail

/-- The network at the start. -/
def initial : Config ThreadId StreamId Cell Local := ⟨entry, fun _ => []⟩

variable {F : Queue}

theorem start_queue (c : StreamId) : (start F).shared.queue c = F.init F.zeroed := by
  cases c <;> rfl

theorem abstract_start : abstract (start F) = initial := by
  simp only [abstract, start_queue, F.contents_init]
  rfl

theorem start_exact : Exact network F (start F) where
  inStep _ := Or.inl rfl
  total_eq s c := by
    have hpending : ∑ p, (books F s c).pending ((start F).code p) = 0 := rfl
    rw [Account.total, hpending, books_level, start_queue, F.contents_init]
    cases s <;> cases c <;> rfl

/-- The buffers keep to their size and the calls of the queue to its laws, and the mutex of a
stream excludes. -/
structure Safe (x : Module F) : Prop where
  length_le : ∀ c, (F.contents (x.shared.queue c)).length ≤ bufferSize
  proper : ∀ p i is, x.code p = i :: is → i.Proper F x.shared
  mutex_unique : ∀ c p q, Holds c (x.code p) → Holds c (x.code q) → p = q

theorem buffers_safe (F : Queue) (es : List (Label ThreadId)) :
    Always (threadStep F) Safe es (start F) := by
  have hinv : Always (threadStep F) (Bounded network F) es (start F) :=
    always_of_step (fun _ _ _ hx h => hx.move (fineStep_move h)) es start_exact.bounded
  refine hinv.mono fun x hx => ⟨hx.length_le, hx.proper, ?_⟩
  intro c p q hp hq
  exact hx.mutex_unique hp hq

/-- The threads in turn. -/
def rounds (n : ℕ) : List ThreadId :=
  (List.replicate n [.suc1, .suc2, .tms1, .tms2, .mrg, .cons]).flatten

/-- Where the network stops when the threads run in turn. -/
def final : Config ThreadId StreamId Cell Local := drive network.step (rounds 75) initial

theorem final_run :
    ∃ es, es.Sublist (rounds 75) ∧ run network.step es initial = some final :=
  drive_run (rounds 75) initial

theorem final_stuck : Stuck network.step final := by
  have hnone : ∀ p, (network.step p final).isNone := by decide +kernel
  exact fun p => Option.isNone_iff_eq_none.mp (hnone p)

def freed : Local → List Cell
  | .consGet _ freed | .consPrint _ _ freed | .returned freed | .oops freed => freed
  | _ => []

def printed (x : Module F) : List (BitVec 32) := (freed (x.locals .cons)).map Cell.value

theorem final_returned :
    final.locals .cons = .returned (freed (final.locals .cons)) ∧
      (freed (final.locals .cons)).map Cell.value = [3, 5, 6, 9, 10, 12, 15, 15, 18, 20] ∧
      ∀ c, (final.queue c).length = bufferSize := by
  decide +kernel

theorem freed_next (p : ThreadId) (s : Local) (r : Option Cell) :
    freed s <+: freed (next p s r) := by
  cases s with
  | consGet i freed => cases r <;> exact List.prefix_refl freed
  | consPrint i value freed =>
    simp only [next]
    split_ifs <;> exact List.prefix_append freed [value]
  | returned freed | oops freed => exact List.prefix_refl freed
  | _ => exact List.nil_prefix

/-- Without interruptions every run goes on to the same end. -/
theorem smooth_completes {es : List ThreadId} {y : Module F}
    (h : run (smoothStep network F) es (start F) = some y) :
    ∃ rest, run network.step rest (abstract y) = some final := by
  obtain ⟨-, ds, hds, -⟩ := start_exact.run h
  rw [abstract_start] at hds
  obtain ⟨full, -, hfull⟩ := final_run
  obtain ⟨rest, hrest, -⟩ := network.diamond.complete final_stuck hfull hds
  exact ⟨rest, hrest⟩

theorem count_le {es : List ThreadId} {y : Module F}
    (h : run (smoothStep network F) es (start F) = some y) (p : ThreadId) : es.count p ≤ 455 := by
  obtain ⟨-, ds, hds, hcount⟩ := start_exact.run h
  rw [abstract_start] at hds
  obtain ⟨full, hsub, hfull⟩ := final_run
  have hle := network.diamond.count_le final_stuck hfull hds p
  have hfull := hsub.count_le p
  have hrounds : (rounds 75).count p = 75 := by
    cases p <;> decide +kernel
  have hspent := spent_le (y.code p)
  have hp := hcount p
  have hstart : spent ((start F).code p) = 0 := rfl
  omega

theorem length_le {es : List ThreadId} {y : Module F}
    (h : run (smoothStep network F) es (start F) = some y) : es.length ≤ 6 * 455 := by
  have hsum : ∑ p, es.count p = es.length := by
    have hcard := Multiset.sum_count_eq_card (s := Finset.univ) (m := (es : Multiset ThreadId))
      fun p _ => Finset.mem_univ p
    simpa only [Multiset.coe_count, Multiset.coe_card] using hcard
  have hle : ∑ p, es.count p ≤ ∑ _p : ThreadId, 455 :=
    Finset.sum_le_sum fun p _ => count_le h p
  have hconst : ∑ _p : ThreadId, 455 = 6 * 455 := rfl
  omega

theorem smooth_continues {es : List ThreadId} {y : Module F}
    (h : run (smoothStep network F) es (start F) = some y) :
    ∃ rest z, run (smoothStep network F) rest y = some z ∧ Stuck (smoothStep network F) z := by
  refine exists_stuck (n := 6 * 455) fun rest z hz => ?_
  have hrun : run (smoothStep network F) (es ++ rest) (start F) = some z := by
    rw [run_append, h]
    exact hz
  have hlen := length_le hrun
  rw [List.length_append] at hlen
  omega

/-- A run in which the first number is printed. -/
def firstNumber : List ThreadId :=
  List.replicate 8 .suc1 ++ List.replicate 8 .suc2 ++ List.replicate 14 .tms1 ++
    List.replicate 14 .tms2 ++ List.replicate 19 .mrg ++ List.replicate 7 .cons

/-- With a list for the queue. -/
theorem run_firstNumber :
    ∃ y, run (smoothStep network (.list Cell _)) firstNumber (start (.list Cell _)) = some y ∧
      printed y = [3] :=
  Option.map_eq_some_iff.mp (by decide +kernel)

/-- The order in which the threads run cannot be seen in the output. -/
theorem printed_prefix (F : Queue) (es : List ThreadId) (y : Module F)
    (h : run (smoothStep network F) es (start F) = some y) :
    printed y <+: [3, 5, 6, 9, 10, 12, 15, 15, 18, 20] := by
  obtain ⟨rest, hrest⟩ := smooth_completes h
  have hfreed : freed (y.locals .cons) <+: freed (final.locals .cons) :=
    run_locals (R := fun s t => freed s <+: freed t) (fun _ => List.prefix_refl _)
      (fun hst htu => hst.trans htu) (fun s r => freed_next .cons s r) hrest
  rw [← final_returned.2.1]
  exact hfreed.map Cell.value

theorem printed_prefix_firstNumber :
    ∃ y : Module (.list Cell _), printed y = [3] ∧
      printed y <+: [3, 5, 6, 9, 10, 12, 15, 15, 18, 20] := by
  obtain ⟨y, hy, hprinted⟩ := run_firstNumber
  exact ⟨y, hprinted, printed_prefix _ firstNumber y hy⟩

/-- Every run is bounded and goes on until nothing can move; then the consumer has returned, the
output is complete and the five buffers are full. -/
theorem runs_end (F : Queue) (es : List ThreadId) (y : Module F)
    (h : run (smoothStep network F) es (start F) = some y) :
    (∀ p, es.count p ≤ 455) ∧
      (∃ rest z, run (smoothStep network F) rest y = some z ∧ Stuck (smoothStep network F) z) ∧
      (Stuck (smoothStep network F) y →
        y.locals .cons = .returned (freed (y.locals .cons)) ∧
          printed y = [3, 5, 6, 9, 10, 12, 15, 15, 18, 20] ∧
          ∀ c, (F.contents (y.shared.queue c)).length = bufferSize) := by
  refine ⟨count_le h, smooth_continues h, fun hstuck => ?_⟩
  obtain ⟨hy, ds, hds, -⟩ := start_exact.run h
  rw [abstract_start] at hds
  obtain ⟨full, -, hfull⟩ := final_run
  have hend := network.diamond.stuck_eq final_stuck hfull (hy.abstract_stuck hstuck) hds
  have hlocals : y.locals = final.locals := congrArg Config.locals hend
  have hqueue : ∀ c, F.contents (y.shared.queue c) = final.queue c := fun c =>
    congrFun (congrArg Config.queue hend) c
  simp only [printed, hlocals, hqueue]
  exact final_returned

/-- The run is short, it goes on, and where it ends everything is printed. -/
theorem runs_end_firstNumber :
    ∃ y : Module (.list Cell _), printed y = [3] ∧ (∀ p, firstNumber.count p ≤ 455) ∧
      ∃ rest z, run (smoothStep network _) rest y = some z ∧ Stuck (smoothStep network _) z ∧
        z.locals .cons = .returned (freed (z.locals .cons)) ∧
        printed z = [3, 5, 6, 9, 10, 12, 15, 15, 18, 20] ∧
        ∀ c, ((Fifo.list Cell _).contents (z.shared.queue c)).length = bufferSize := by
  obtain ⟨y, hy, hprinted⟩ := run_firstNumber
  obtain ⟨hcount, ⟨rest, z, hz, hstuck⟩, -⟩ := runs_end _ firstNumber y hy
  have hrun : run (smoothStep network (.list Cell _)) (firstNumber ++ rest)
      (start (.list Cell _)) = some z := by
    rw [run_append, hy]
    exact hz
  exact ⟨y, hprinted, hcount, rest, z, hz, hstuck, (runs_end _ _ z hrun).2.2 hstuck⟩

end Eudyptula.Streams
