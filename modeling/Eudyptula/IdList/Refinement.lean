import Eudyptula.IdList.Store

/-! The identity store as an abstract list. Calls on the linked cells are compared with
calls on a list of entries; the abstract call is told which cell the allocator handed
out, and nothing else about memory. -/
namespace Eudyptula.IdList
open CMem

/-- A call, with the allocator as it behaves at this call. -/
inductive Call
  | create (A : Allocator) (name : CStr) (id : BitVec 32)
  | find (id : BitVec 32)
  | destroy (id : BitVec 32)

inductive Reply
  | code (r : ℤ)
  | entry (p : Option Addr)
  | done
deriving DecidableEq, Repr

def Call.exec : Call → Heap → Option (Reply × Heap)
  | .create A name id, h =>
    some (.code (identityCreate A name id h).1, (identityCreate A name id h).2)
  | .find id, h => (identityFind .stale id h).map fun p => (.entry p, h)
  | .destroy id, h => (identityDestroy .stale id h).map fun h' => (.done, h')

/-- The cell that the allocator would hand out to this call. -/
def Call.cell : Call → Heap → Option Addr
  | .create A _ _, h => (A.kmalloc h).map Cell.addr
  | _, _ => none

def Call.spec : Call → Option Addr → List Entry → Reply × List Entry
  | .create _ name id, some a, es =>
    if name.bytes.length ≤ 19 then (.code 0, ⟨a, ⟨name.bytes, id, false⟩⟩ :: es)
    else (.code (-ENOMEM), es)
  | .create _ _ _, none, es => (.code (-ENOMEM), es)
  | .find id, _, es => (.entry ((es.find? fun e => e.val.id == id).map Entry.addr), es)
  | .destroy id, _, es => (.done, es.filter fun e => e.val.id != id)

/-- Calls one after the other, with the cell offered to each and its reply. -/
def execAll : List Call → Heap → Option (List (Option Addr × Reply) × Heap)
  | [], h => some ([], h)
  | c :: cs, h => (c.exec h).bind fun (r, h') =>
      (execAll cs h').map fun (log, h'') => ((c.cell h, r) :: log, h'')

def specAll : List (Call × Option Addr) → List Entry → List Reply × List Entry
  | [], es => ([], es)
  | (c, a) :: cs, es =>
    let (r, es') := c.spec a es
    let (rs, es'') := specAll cs es'
    (r :: rs, es'')

theorem Call.exec_simulates (c : Call) {h : Heap} {es : List Entry} (hr : Represents h es) :
    ∃ h', c.exec h = some ((c.spec (c.cell h) es).1, h') ∧
      Represents h' (c.spec (c.cell h) es).2 := by
  cases c with
  | create A name id =>
    refine ⟨(identityCreate A name id h).2, ?_⟩
    cases hc : A.kmalloc h with
    | none =>
      have hf := identityCreate_fail (A := A) (h := h) id (Or.inr hc : 19 < name.bytes.length ∨ _)
      simp [Call.exec, Call.cell, Call.spec, hc, hf, hr]
    | some c =>
      by_cases hn : name.bytes.length ≤ 19
      · obtain ⟨h0, hrep⟩ := identityCreate_ok id hr hn hc
        simp [Call.exec, Call.cell, Call.spec, hc, hn, h0, hrep]
      · have hf := identityCreate_fail (A := A) (h := h) id (Or.inl (not_le.mp hn))
        simp [Call.exec, Call.cell, Call.spec, hc, hn, hf, hr]
  | find id => exact ⟨h, by simp [Call.exec, Call.spec, identityFind_spec id hr], hr⟩
  | destroy id =>
    obtain ⟨h', hd, hrep⟩ := identityDestroy_spec id hr
    exact ⟨h', by simp [Call.exec, Call.spec, hd], hrep⟩

theorem execAll_simulates (cs : List Call) {h : Heap} {es : List Entry} (hr : Represents h es) :
    ∃ log h' es', execAll cs h = some (log, h') ∧ log.length = cs.length ∧
      specAll (cs.zip (log.map Prod.fst)) es = (log.map Prod.snd, es') ∧ Represents h' es' := by
  induction cs generalizing h es with
  | nil => exact ⟨[], h, es, rfl, rfl, rfl, hr⟩
  | cons c cs ih =>
    obtain ⟨h₁, hexec, hr₁⟩ := c.exec_simulates hr
    obtain ⟨log, h', es', hall, hlen, hspec, hr'⟩ := ih hr₁
    refine ⟨(c.cell h, (c.spec (c.cell h) es).1) :: log, h', es', ?_, ?_, ?_, hr'⟩
    · simp [execAll, hexec, hall]
    · simp [hlen]
    · simp [specAll, hspec]

/-- Every history of calls goes through on the linked cells, replies as on the abstract
list and leaves a well-formed ring of exactly that list; a create that fails leaves the
memory as it was. -/
theorem identity_store_refines (cs : List Call) :
    ∃ log h es, execAll cs .init = some (log, h) ∧ log.length = cs.length ∧
      specAll (cs.zip (log.map Prod.fst)) [] = (log.map Prod.snd, es) ∧ Represents h es ∧
      ∀ A name id, (identityCreate A name id h).1 ≠ 0 → (identityCreate A name id h).2 = h := by
  obtain ⟨log, h, es, hall, hlen, hspec, hr⟩ := execAll_simulates cs represents_init
  refine ⟨log, h, es, hall, hlen, hspec, hr, ?_⟩
  intro A name id hne
  rcases identityCreate_cases A name id hr with ⟨-, hsame⟩ | ⟨h0, -⟩
  · exact hsame
  · exact absurd h0 hne

end Eudyptula.IdList
