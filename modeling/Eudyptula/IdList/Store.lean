import Eudyptula.IdList.Heap
import Mathlib.Data.List.Find

/-! The functions on `my_id_list`. `kll.c` of Task_12 (`kmalloc`) and of Task_13
(`kmem_cache_alloc`) and `misc_dev.c` of Task_18 have the same `identity_create`,
`identity_find` and `identity_destroy` up to the name of the allocator, which is a
parameter here; `identity_get` is Task_18's own. A traversal returns `none` when it reads
a cell it may not read, frees a cell twice or is not back at the head after one round per
cell in use. -/
namespace Eudyptula.IdList
open CMem LinkedRing

def identityCreate (A : Allocator) (name : CStr) (id : BitVec 32) (h : Heap) : ℤ × Heap :=
  if name.bytes.length + 1 > 20 then (-ENOMEM, h)
  else
    match A.kmalloc h with
    | none => (-ENOMEM, h)
    | some c =>
      let tempId : Node := ⟨strcpy c.node.name name, id, false⟩
      (0, ((h.alloc c).setNode c.addr tempId).listAdd c.addr)

def identityFind (m : FreedRead) (id : BitVec 32) (h : Heap) : Option (Option Addr) :=
  (h.next m myIdList).bind fun first =>
    findEntry (fun a => h.next m a) (fun a => (h.get m a).map fun n => n.id == id) myIdList
      (h.live.length + 1) first

def destroyBody (m : FreedRead) (id : BitVec 32) (a : Addr) (h : Heap) : Option Heap :=
  (h.get m a).bind fun n =>
    if n.id = id then (h.listDelEntry m a).bind (Heap.kfree a) else some h

def identityDestroy (m : FreedRead) (id : BitVec 32) (h : Heap) : Option Heap :=
  (h.next m myIdList).bind fun first =>
    forEach (Heap.next m) (destroyBody m id) myIdList (h.live.length + 1) first h

def getBody (m : FreedRead) (a : Addr) (s : Node × Heap) : Option (Node × Heap) :=
  (s.2.get m a).bind fun n =>
    ((s.2.listDelEntry m a).bind (Heap.kfree a)).map fun h => (n, h)

/-- `idGet` is the static copy, which keeps its value from call to call. -/
def identityGet (m : FreedRead) (idGet : Node) (h : Heap) : Option (Node × Heap) :=
  (h.next m myIdList).bind fun first =>
    forEach (fun a s => Heap.next m a s.2) (getBody m) myIdList (h.live.length + 1) first (idGet, h)

section
variable {h : Heap} {es : List Entry} {A : Allocator} {name : CStr}

theorem identityCreate_ok (id : BitVec 32) (hr : Represents h es)
    (hn : name.bytes.length ≤ 19) {c : Cell} (hc : A.kmalloc h = some c) :
    (identityCreate A name id h).1 = 0 ∧
      Represents (identityCreate A name id h).2 (⟨c.addr, ⟨name.bytes, id, false⟩⟩ :: es) := by
  have hlen : ¬ name.bytes.length + 1 > 20 := by omega
  have hname : cstr (strcpy c.node.name name) 0 20 = name.bytes := cstr_strcpy _ (by omega)
  have hins := hr.insert ⟨strcpy c.node.name name, id, false⟩ (A.fresh h c hc)
  simp only [Node.identity, hname] at hins
  unfold identityCreate
  rw [if_neg hlen, hc]
  exact ⟨rfl, hins⟩

theorem identityCreate_fail (id : BitVec 32) (hf : 19 < name.bytes.length ∨ A.kmalloc h = none) :
    identityCreate A name id h = (-ENOMEM, h) := by
  unfold identityCreate
  split_ifs with hlen
  · rfl
  · rw [hf.resolve_left (by omega)]

theorem identityCreate_cases (A : Allocator) (name : CStr) (id : BitVec 32)
    (hr : Represents h es) :
    ((identityCreate A name id h).1 ≠ 0 ∧ (identityCreate A name id h).2 = h) ∨
      ((identityCreate A name id h).1 = 0 ∧ ∃ a, a ∉ es.map Entry.addr ∧
        Represents (identityCreate A name id h).2 (⟨a, ⟨name.bytes, id, false⟩⟩ :: es)) := by
  by_cases hf : 19 < name.bytes.length ∨ A.kmalloc h = none
  · rw [identityCreate_fail id hf]
    exact Or.inl ⟨show -ENOMEM ≠ 0 by decide, rfl⟩
  · rw [not_or, not_lt, ← ne_eq, Option.ne_none_iff_exists'] at hf
    obtain ⟨hn, c, hc⟩ := hf
    obtain ⟨h0, hrep⟩ := identityCreate_ok id hr hn hc
    have hfresh := (A.fresh h c hc).1
    rw [hr.live.mem_iff] at hfresh
    exact Or.inr ⟨h0, c.addr, hfresh, hrep⟩

theorem Represents.id_eq (hr : Represents h es) {e : Entry} (he : e ∈ es) :
    (h.node e.addr).id = e.val.id := by
  rw [← hr.vals e he]
  rfl

theorem identityFind_spec (id : BitVec 32) (hr : Represents h es) :
    identityFind .stale id h = some ((es.find? fun e => e.val.id == id).map Entry.addr) := by
  have hfind : findEntry (fun a => h.next .stale a)
      (fun a => (h.get .stale a).map fun n => n.id == id) myIdList (h.live.length + 1)
      ((es.map Entry.addr).headD myIdList) =
      some ((es.map Entry.addr).find? fun a => (h.node a).id == id) := by
    apply findEntry_eq_find? (fun p hp => hr.ring.ne_head hp)
    · intro pre p post he
      have hring := hr.ring
      rw [he] at hring
      simp [hring.next_mid]
    · simp
    · simp [hr.length_live]
  have hsame : (es.find? fun e => (h.node e.addr).id == id) = es.find? fun e => e.val.id == id :=
    List.find?_congr fun e he => by rw [hr.id_eq he]
  unfold identityFind
  rw [Heap.next_stale, Option.bind_some, hr.ring.next_head, hfind, List.find?_map]
  exact congrArg (fun o => some (Option.map Entry.addr o)) hsame

/-- Adjacent matches and matches at either end included: what was visited has been
filtered, what is still to be visited is unchanged. -/
theorem identityDestroy_spec (id : BitVec 32) (hr : Represents h es) :
    ∃ h', identityDestroy .stale id h = some h' ∧
      Represents h' (es.filter fun e => e.val.id != id) := by
  let I : List Entry → List Entry → Heap → Prop := fun seen rest t =>
    Represents t ((seen.filter fun e => e.val.id != id) ++ rest)
  have hround : ∀ seen e rest t, I seen (e :: rest) t → e.addr ≠ myIdList ∧
      ∃ t', destroyBody .stale id e.addr t = some t' ∧
        t'.next .stale e.addr = some ((rest.map Entry.addr).headD myIdList) ∧
        I (seen ++ [e]) rest t' := by
    intro seen e rest t ht
    refine ⟨ht.ring.ne_head (by simp), ?_⟩
    have hid := ht.id_eq (e := e) (by simp)
    by_cases hm : e.val.id = id
    -- the step to the next entry reads a link of the cell just freed
    · obtain ⟨t', hfree, ht', -, hnext⟩ := ht.remove
      exact ⟨t', by simp [destroyBody, hid, hm, hfree], by simp [hnext], by simpa [I, hm] using ht'⟩
    · have hring := ht.ring
      rw [List.map_append, List.map_cons] at hring
      exact ⟨t, by simp [destroyBody, hid, hm], by simp [hring.next_mid], by simpa [I, hm] using ht⟩
  have hstart : I [] es h := hr
  obtain ⟨h', hrun, hrep⟩ := forEach_rule hround hstart (Nat.lt_succ_self _)
  refine ⟨h', ?_, by simpa [I] using hrep⟩
  unfold identityDestroy
  rwa [Heap.next_stale, Option.bind_some, hr.ring.next_head, hr.length_live]

/-- Every entry is unlinked and freed; the copy of the one visited last, the oldest, is
what is returned, and an empty list returns the copy of an earlier call. -/
theorem identityGet_spec (hr : Represents h es) (g : Node) :
    ∃ g' h', identityGet .stale g h = some (g', h') ∧ Represents h' [] ∧
      g'.identity = (es.getLast?.map Entry.val).getD g.identity := by
  let I : List Entry → List Entry → Node × Heap → Prop := fun seen rest s =>
    Represents s.2 rest ∧ s.1.identity = (seen.getLast?.map Entry.val).getD g.identity
  have hround : ∀ seen e rest s, I seen (e :: rest) s → e.addr ≠ myIdList ∧
      ∃ s', getBody .stale e.addr s = some s' ∧
        s'.2.next .stale e.addr = some ((rest.map Entry.addr).headD myIdList) ∧
        I (seen ++ [e]) rest s' := by
    rintro seen e rest ⟨n, t⟩ ⟨ht, -⟩
    refine ⟨ht.ring.ne_head (by simp), ?_⟩
    obtain ⟨t', hfree, ht', -, hnext⟩ := (show Represents t ([] ++ e :: rest) from ht).remove
    refine ⟨(t.node e.addr, t'), by simp [getBody, hfree], by simp [hnext], ht', ?_⟩
    simp [ht.vals e]
  have hstart : I [] es (g, h) := ⟨hr, rfl⟩
  have hloop : ∃ s, forEach (fun a s => Heap.next .stale a s.2) (getBody .stale) myIdList
      (es.length + 1) ((es.map Entry.addr).headD myIdList) (g, h) = some s ∧ I es [] s :=
    forEach_rule hround hstart (Nat.lt_succ_self _)
  obtain ⟨⟨g', h'⟩, hrun, hrep, hval⟩ := hloop
  refine ⟨g', h', ?_, hrep, hval⟩
  unfold identityGet
  rwa [Heap.next_stale, Option.bind_some, hr.ring.next_head, hr.length_live]

end

end Eudyptula.IdList
