import Eudyptula.Lib.RcuRing
import Eudyptula.Lib.Runs

/-! The registry of search algorithms: modules register their operations and are unloaded
again, while `textsearch_prepare` looks algorithms up without a lock and takes a reference to
the module of the one it finds. -/
namespace Eudyptula.Textsearch
open LinkedRing Runs

def ENOENT : ℤ := 2
def EEXIST : ℤ := 17
def EINVAL : ℤ := 22

/-- `struct ts_ops`; of the callbacks only whether they are set is looked at. -/
structure TsOps (ν : Type*) where
  name : Option ν
  find : Bool
  init : Bool
  getPattern : Bool
  getPatternLen : Bool

/-- A module's text is there unless it is `absent`. From `going` on, `try_module_get` fails;
an `exited` module has left `ts_ops`. -/
inductive Phase
  | absent
  | live
  | going
  | exited
deriving DecidableEq

/-- Where a call of `textsearch_prepare` is; `conf` is what it returns, with `conf->ops`, and
`oops` a lookup that has read an entry in freed memory. -/
inductive Pc (μ : Type*)
  | lookup (d : Reader (Option μ)) (retried : Bool)
  | requesting
  | init (m : μ)
  | conf (m : μ)
  | failed (err : ℤ)
  | destroyed
  | oops

structure Prepare (μ ν : Type*) where
  algo : ν
  autoload : Bool
  pc : Pc μ

/-- Every algorithm is a module with one `struct ts_ops`. The address `none` is the head of the
list, `some m` the entry of `m`. -/
structure State (μ ν : Type*) where
  list : Ring (Option μ) none
  phase : μ → Phase
  refs : μ → ℕ
  calls : List (Prepare μ ν)

inductive Event (μ ν : Type*)
  | load (m : μ)
  | unload (m : μ)
  | exit (m : μ)
  | free (m : μ)
  | prepare (algo : ν) (len : ℕ) (autoload : Bool)
  | step (k : ℕ)
  | initialised (k : ℕ) (err : ℤ)
  | destroy (k : ℕ)

section
variable {μ ν : Type*}

def Pc.holder : Pc μ → Option μ
  | .init m | .conf m => some m
  | _ => none

def Pc.watch (f : Reader (Option μ) → Reader (Option μ)) : Pc μ → Pc μ
  | .lookup d retried => .lookup (f d) retried
  | pc => pc

def Prepare.watch (f : Reader (Option μ) → Reader (Option μ)) (c : Prepare μ ν) : Prepare μ ν :=
  { c with pc := c.pc.watch f }

/-- `lookup_ts_algo` returns NULL. -/
def Prepare.notFound (c : Prepare μ ν) (retried : Bool) : Pc μ :=
  if c.autoload && !retried then .requesting else .failed (-ENOENT)

def Pc.removed : Pc μ → List (Option μ)
  | .lookup d _ => d.removed
  | _ => []

/-- No reader that was under way when the entry was removed is left. -/
def State.Quiescent (s : State μ ν) (m : μ) : Prop := ∀ c ∈ s.calls, some m ∉ c.pc.removed

/-- The module loader waits for a grace period before it frees a module. -/
def Grace : Event μ ν → State μ ν → Prop
  | .free m, s => s.Quiescent m
  | _, _ => True

def State.pcAt (s : State μ ν) (k : ℕ) : Option (Pc μ) := s.calls[k]?.map Prepare.pc

/-- The call has returned. -/
def Pc.settled : Pc μ → Bool
  | .conf _ | .failed _ | .destroyed => true
  | _ => false

def nameAt (ops : μ → TsOps ν) (p : Option μ) : Option ν := p.bind fun m => (ops m).name

@[simp] theorem holder_watch (f : Reader (Option μ) → Reader (Option μ)) (pc : Pc μ) :
    (pc.watch f).holder = pc.holder := by
  cases pc <;> rfl

theorem watch_eq_lookup_iff {f : Reader (Option μ) → Reader (Option μ)} {pc : Pc μ}
    {d : Reader (Option μ)} {retried : Bool} :
    pc.watch f = .lookup d retried ↔ ∃ d₀, pc = .lookup d₀ retried ∧ f d₀ = d := by
  cases pc <;> simp [Pc.watch, and_comm]

theorem watch_of_settled {pc : Pc μ} (hpc : pc.settled = true)
    (f : Reader (Option μ) → Reader (Option μ)) : pc.watch f = pc := by
  cases pc <;> simp_all [Pc.settled, Pc.watch]

theorem notFound_holder (c : Prepare μ ν) (retried : Bool) :
    (c.notFound retried).holder = none := by
  unfold Prepare.notFound
  split_ifs <;> rfl

theorem notFound_ne_lookup (c : Prepare μ ν) (retried : Bool) (d : Reader (Option μ)) (b : Bool) :
    c.notFound retried ≠ .lookup d b := by
  unfold Prepare.notFound
  split_ifs <;> nofun

variable [DecidableEq μ]

instance (s : State μ ν) (m : μ) : Decidable (s.Quiescent m) :=
  inferInstanceAs (Decidable (∀ c ∈ s.calls, some m ∉ c.pc.removed))

instance (e : Event μ ν) (s : State μ ν) : Decidable (Grace e s) := by
  cases e <;> unfold Grace <;> infer_instance

def State.holders (s : State μ ν) (m : μ) : ℕ := s.calls.countP fun c => c.pc.holder = some m

def State.setPc (s : State μ ν) (k : ℕ) (c : Prepare μ ν) (pc : Pc μ) : State μ ν :=
  { s with calls := s.calls.set k { c with pc } }

def State.get (s : State μ ν) (m : μ) : State μ ν :=
  { s with refs := Function.update s.refs m (s.refs m + 1) }

def State.put (s : State μ ν) (m : μ) : State μ ν :=
  { s with refs := Function.update s.refs m (s.refs m - 1) }

theorem holders_setPc {s : State μ ν} {k : ℕ} {c : Prepare μ ν} (pc : Pc μ)
    (hk : s.calls[k]? = some c) (m : μ) :
    (s.setPc k c pc).holders m + (if c.pc.holder = some m then 1 else 0) =
      s.holders m + (if pc.holder = some m then 1 else 0) := by
  obtain ⟨hlt, hc⟩ := List.getElem?_eq_some_iff.mp hk
  have hle := List.boole_getElem_le_countP (p := fun c : Prepare μ ν => c.pc.holder = some m) hlt
  unfold State.setPc State.holders
  rw [List.countP_set hlt]
  simp only [hc, decide_eq_true_eq] at hle ⊢
  omega

theorem holders_watch (f : Reader (Option μ) → Reader (Option μ)) (cs : List (Prepare μ ν))
    (m : μ) : (cs.map (Prepare.watch f)).countP (fun c => c.pc.holder = some m) =
      cs.countP fun c => c.pc.holder = some m := by
  rw [List.countP_map]
  simp [Function.comp_def, Prepare.watch]

variable [DecidableEq ν] (ops : μ → TsOps ν)

theorem fresh_of_unnamed {l : Ring (Option μ) none} {m : μ}
    (h : l.search (fun o => nameAt ops o = (ops m).name) = none) : some m ∉ none :: l.nodes := by
  rw [Ring.search_eq_find?, List.find?_eq_none] at h
  intro hmem
  rcases List.mem_cons.mp hmem with hm | hm
  · cases hm
  · exact h _ hm (by simp [nameAt])

def textsearchRegister (m : μ) (l : Ring (Option μ) none) : ℤ × Ring (Option μ) none :=
  if (ops m).name = none ∨ (ops m).find = false ∨ (ops m).init = false ∨
      (ops m).getPattern = false ∨ (ops m).getPatternLen = false then (-EINVAL, l)
  else if h : l.search (fun o => nameAt ops o = (ops m).name) = none then
    (0, l.addTail (some m) (fresh_of_unnamed ops h))
  else (-EEXIST, l)

def textsearchUnregister (m : μ) (l : Ring (Option μ) none) : ℤ × Ring (Option μ) none :=
  if h : l.search (fun o => o = some m) ≠ none then (0, l.del (some m) (by
    obtain ⟨o, ho⟩ := Option.ne_none_iff_exists'.mp h
    rw [Ring.search_eq_find?] at ho
    have heq := List.find?_some ho
    simp only [decide_eq_true_eq] at heq
    exact heq ▸ List.mem_of_find?_eq_some ho))
  else (-ENOENT, l)

/-- One step of a call under way: one entry of the list in `lookup_ts_algo`, or the second
lookup after `request_module`. -/
def State.advance (s : State μ ν) (k : ℕ) : Option (State μ ν) :=
  s.calls[k]?.bind fun c => match c.pc with
    | .lookup d retried => match d.pos with
      | none => some (s.setPc k c (c.notFound retried))
      | some m =>
        if s.phase m = .absent then some (s.setPc k c .oops)
        else if (ops m).name = some c.algo then
          if s.phase m = .live then some ((s.get m).setPc k c (.init m))
          else some (s.setPc k c (c.notFound retried))
        else some (s.setPc k c (.lookup (d.advance s.list) retried))
    | .requesting => some (s.setPc k c (.lookup (.enter s.list) true))
    | _ => none

def State.step : Event μ ν → State μ ν → Option (State μ ν)
  | .load m, s =>
    if s.phase m = .absent then
      let (err, list) := textsearchRegister ops m s.list
      if err = 0 then
        some { s with
          list, phase := Function.update s.phase m .live
          calls := s.calls.map (Prepare.watch (Reader.sawAdded (some m))) }
      else some s
    else none
  | .unload m, s =>
    if s.phase m = .live ∧ s.refs m = 0 then
      some { s with phase := Function.update s.phase m .going }
    else none
  | .exit m, s =>
    if s.phase m = .going then
      some { s with
        list := (textsearchUnregister m s.list).2
        phase := Function.update s.phase m .exited
        calls := s.calls.map (Prepare.watch (Reader.sawRemoved (some m))) }
    else none
  | .free m, s =>
    if s.phase m = .exited then
      some { s with phase := Function.update s.phase m .absent }
    else none
  | .prepare algo len autoload, s =>
    let pc := if len = 0 then .failed (-EINVAL) else .lookup (.enter s.list) false
    some { s with calls := s.calls ++ [⟨algo, autoload, pc⟩] }
  | .step k, s => s.advance ops k
  | .initialised k err, s => s.calls[k]?.bind fun c => match c.pc with
    | .init m =>
      if err = 0 then some (s.setPc k c (.conf m)) else some ((s.put m).setPc k c (.failed err))
    | _ => none
  | .destroy k, s => s.calls[k]?.bind fun c => match c.pc with
    | .conf m => some ((s.put m).setPc k c .destroyed)
    | _ => none

def State.start : State μ ν := ⟨.empty none, fun _ => .absent, fun _ => 0, []⟩

end
end Eudyptula.Textsearch
