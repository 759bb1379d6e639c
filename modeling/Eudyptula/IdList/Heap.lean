import Eudyptula.Lib.CMem
import Eudyptula.Lib.LinkedRing
import Mathlib.Data.List.Perm.Basic

/-! The memory under `my_id_list`: identity cells with their links, the allocator and
what a well-formed list is. A freed cell keeps its contents until it is handed out
again; whether code may still look at it is a parameter of every read. -/
namespace Eudyptula.IdList
open CMem LinkedRing

abbrev Addr := ℕ

def myIdList : Addr := 0

/-- The fields of `struct identity` apart from its links. -/
structure Node where
  name : Bytes
  id : BitVec 32
  busy : Bool

/-- The value of an identity; its name is what `%s` prints. -/
structure Identity where
  name : List UInt8
  id : BitVec 32
  busy : Bool
deriving DecidableEq, Repr

def Node.identity (n : Node) : Identity := ⟨cstr n.name 0 20, n.id, n.busy⟩

inductive FreedRead
  | stale
  | faults
deriving DecidableEq, Repr

/-- Links and cells of all addresses. Allocations are numbered: `serial` tells which
allocation the cell at an address belongs to, and `frees` lists the numbers of the cells
given back, latest first. -/
structure Heap where
  links : Links Addr
  node : Addr → Node
  live : List Addr
  serial : Addr → ℕ
  allocs : ℕ
  frees : List ℕ

def Node.zero : Node := ⟨fun _ => 0, 0, false⟩

/-- `LIST_HEAD(my_id_list)` before the first allocation. -/
def Heap.init : Heap where
  links := ⟨fun _ => myIdList, fun _ => myIdList⟩
  node := fun _ => .zero
  live := []
  serial := fun _ => 0
  allocs := 0
  frees := []

/-- A cell as the allocator hands it out, with whatever it held before. -/
structure Cell where
  addr : Addr
  node : Node
  next : Addr
  prev : Addr

/-- One call of the allocator: it may fail, and it never hands out a cell in use. -/
structure Allocator where
  kmalloc : Heap → Option Cell
  fresh : ∀ h c, kmalloc h = some c → c.addr ∉ h.live ∧ c.addr ≠ myIdList

private theorem le_foldr_max {a : ℕ} {l : List ℕ} (ha : a ∈ l) : a ≤ l.foldr max 0 := by
  induction l with
  | nil => simp at ha
  | cons b l ih =>
    rcases List.mem_cons.mp ha with rfl | ha
    · exact Nat.le_max_left _ _
    · exact (ih ha).trans (Nat.le_max_right _ _)

/-- Always the first address above those in use, with cleared contents. -/
def Allocator.above : Allocator where
  kmalloc h := some ⟨h.live.foldr max 0 + 1, .zero, 0, 0⟩
  fresh h c hc := by
    obtain rfl := Option.some.inj hc
    exact ⟨fun ha => Nat.not_succ_le_self _ (le_foldr_max ha), Nat.succ_ne_zero _⟩

namespace Heap

def readable (m : FreedRead) (a : Addr) (h : Heap) : Bool :=
  m == .stale || a == myIdList || h.live.contains a

def next (m : FreedRead) (a : Addr) (h : Heap) : Option Addr :=
  if h.readable m a then some (h.links.next a) else none

def get (m : FreedRead) (a : Addr) (h : Heap) : Option Node :=
  if h.readable m a then some (h.node a) else none

def alloc (c : Cell) (h : Heap) : Heap where
  links := ⟨Function.update h.links.next c.addr c.next, Function.update h.links.prev c.addr c.prev⟩
  node := Function.update h.node c.addr c.node
  live := c.addr :: h.live
  serial := Function.update h.serial c.addr h.allocs
  allocs := h.allocs + 1
  frees := h.frees

/-- Giving back a cell that is not in use is an error. -/
def kfree (a : Addr) (h : Heap) : Option Heap :=
  if h.live.contains a then
    some { h with live := h.live.erase a, frees := h.serial a :: h.frees }
  else none

def setNode (a : Addr) (n : Node) (h : Heap) : Heap :=
  { h with node := Function.update h.node a n }

def listAdd (a : Addr) (h : Heap) : Heap :=
  { h with links := h.links.listAdd a myIdList }

/-- The entry and both neighbours are accessed. -/
def listDelEntry (m : FreedRead) (a : Addr) (h : Heap) : Option Heap :=
  if h.readable m a && h.readable m (h.links.prev a) && h.readable m (h.links.next a) then
    some { h with links := h.links.listDelEntry a }
  else none

/-- The nodes met from `a` on, for at most `n` of them. -/
def walk (h : Heap) : ℕ → Addr → List Addr
  | 0, _ => []
  | n + 1, a => if a = myIdList then [] else a :: walk h n (h.links.next a)

def nodes (h : Heap) : List Addr := h.walk h.live.length (h.links.next myIdList)

/-- The identities on the list, the latest first. -/
def identities (h : Heap) : List Identity := h.nodes.map fun a => (h.node a).identity

@[simp] theorem readable_stale (a : Addr) (h : Heap) : h.readable .stale a = true := by
  simp [readable]

@[simp] theorem next_stale (a : Addr) (h : Heap) : h.next .stale a = some (h.links.next a) := by
  simp [next]

@[simp] theorem get_stale (a : Addr) (h : Heap) : h.get .stale a = some (h.node a) := by
  simp [get]

@[simp] theorem listDelEntry_stale (a : Addr) (h : Heap) :
    h.listDelEntry .stale a = some { h with links := h.links.listDelEntry a } := by
  simp [listDelEntry]

end Heap

structure Entry where
  addr : Addr
  val : Identity
deriving DecidableEq, Repr

/-- The heap holds the list `es`: its nodes form the ring of `my_id_list`, they are the
cells in use, and every allocation was freed once or is in use. -/
structure Represents (h : Heap) (es : List Entry) : Prop where
  ring : IsRing h.links myIdList (es.map Entry.addr)
  live : h.live.Perm (es.map Entry.addr)
  vals : ∀ e ∈ es, (h.node e.addr).identity = e.val
  accounted : (h.frees ++ h.live.map h.serial).Perm (List.range h.allocs)

theorem represents_init : Represents .init [] where
  ring := isRing_nil_init
  live := .refl _
  vals := by simp
  accounted := .refl _

section
variable {h : Heap} {es : List Entry}

theorem Represents.mem_live (hr : Represents h es) {a : Addr} :
    a ∈ h.live ↔ ∃ e ∈ es, e.addr = a := by
  rw [hr.live.mem_iff, List.mem_map]

theorem Represents.length_live (hr : Represents h es) : h.live.length = es.length := by
  rw [hr.live.length_eq, List.length_map]

private theorem walk_eq (hr : Represents h es) (pre post : List Addr)
    (he : es.map Entry.addr = pre ++ post) :
    h.walk post.length (post.headD myIdList) = post := by
  induction post generalizing pre with
  | nil => rfl
  | cons p post ih =>
    have hring := hr.ring
    rw [he] at hring
    have hp : p ≠ myIdList := hring.ne_head (by simp)
    have hrest := ih (pre ++ [p]) (by simp [he])
    simp only [List.length_cons, List.headD_cons, Heap.walk, hp, if_false, hring.next_mid, hrest]

theorem Represents.nodes_eq (hr : Represents h es) : h.nodes = es.map Entry.addr := by
  have := walk_eq hr [] (es.map Entry.addr) rfl
  rwa [List.length_map, ← hr.length_live, ← hr.ring.next_head] at this

theorem Represents.identities_eq (hr : Represents h es) :
    h.identities = es.map Entry.val := by
  rw [Heap.identities, hr.nodes_eq, List.map_map]
  exact List.map_congr_left hr.vals

theorem Represents.insert (hr : Represents h es) {c : Cell} (n : Node)
    (hc : c.addr ∉ h.live ∧ c.addr ≠ myIdList) :
    Represents (((h.alloc c).setNode c.addr n).listAdd c.addr) (⟨c.addr, n.identity⟩ :: es) := by
  have hnew : ∀ e ∈ es, e.addr ≠ c.addr := by
    intro e he hea
    exact hc.1 (hr.mem_live.mpr ⟨e, he, hea⟩)
  refine ⟨?_, ?_, ?_, ?_⟩
  · have hring : c.addr ∉ myIdList :: es.map Entry.addr := by
      simp only [List.mem_cons, List.mem_map, not_or, not_exists, not_and]
      exact ⟨hc.2, hnew⟩
    have hold : IsRing (h.alloc c).links myIdList (es.map Entry.addr) := by
      refine hr.ring.congr fun x hx => ?_
      have hxc : x ≠ c.addr := fun he => hring (he ▸ hx)
      exact ⟨Function.update_of_ne hxc _ _, Function.update_of_ne hxc _ _⟩
    exact hold.listAdd hring
  · exact hr.live.cons c.addr
  · intro e he
    rcases List.mem_cons.mp he with rfl | he
    · simp [Heap.alloc, Heap.setNode, Heap.listAdd]
    · simp [Heap.alloc, Heap.setNode, Heap.listAdd, hnew e he, hr.vals e he]
  · have hserial : h.live.map (Function.update h.serial c.addr h.allocs) = h.live.map h.serial := by
      apply List.map_congr_left
      intro a ha
      have hac : a ≠ c.addr := fun he => hc.1 (he ▸ ha)
      exact Function.update_of_ne hac _ _
    change (h.frees ++ (c.addr :: h.live).map (Function.update h.serial c.addr h.allocs)).Perm
      (List.range (h.allocs + 1))
    rw [List.map_cons, hserial, Function.update_self, List.range_succ]
    calc h.frees ++ h.allocs :: h.live.map h.serial
      _ |>.Perm (h.allocs :: (h.frees ++ h.live.map h.serial)) := List.perm_middle
      _ |>.Perm (h.allocs :: List.range h.allocs) := hr.accounted.cons _
      _ |>.Perm (List.range h.allocs ++ [h.allocs]) := (List.perm_append_singleton _ _).symm

/-- Unlinking and freeing one node. Its own links survive. -/
theorem Represents.remove {pre post : List Entry} {e : Entry}
    (hr : Represents h (pre ++ e :: post)) :
    ∃ h', Heap.kfree e.addr { h with links := h.links.listDelEntry e.addr } = some h' ∧
      Represents h' (pre ++ post) ∧ h'.node = h.node ∧
      h'.links.next e.addr = (post.map Entry.addr).headD myIdList := by
  have hring := hr.ring
  rw [List.map_append, List.map_cons] at hring
  have hlive : e.addr ∈ h.live := hr.mem_live.mpr ⟨e, by simp, rfl⟩
  have hcut : h.live.Perm (e.addr :: h.live.erase e.addr) := List.perm_cons_erase hlive
  refine ⟨_, if_pos (List.contains_iff_mem.mpr hlive), ⟨?_, ?_, ?_, ?_⟩, rfl, ?_⟩
  · rw [List.map_append]
    exact hring.listDelEntry
  · have hp := hcut.symm.trans hr.live
    rw [List.map_append, List.map_cons] at hp
    rw [List.map_append]
    exact (hp.trans List.perm_middle).cons_inv
  · intro x hx
    exact hr.vals x (by simp only [List.mem_append, List.mem_cons] at hx ⊢; tauto)
  · have hs := hcut.map h.serial
    rw [List.map_cons] at hs
    calc (h.serial e.addr :: h.frees) ++ (h.live.erase e.addr).map h.serial
      _ |>.Perm (h.frees ++ h.serial e.addr :: (h.live.erase e.addr).map h.serial) :=
          List.perm_middle.symm
      _ |>.Perm (h.frees ++ h.live.map h.serial) := hs.symm.append_left _
      _ |>.Perm (List.range h.allocs) := hr.accounted
  · exact hring.listDelEntry_next

end

end Eudyptula.IdList
