import Eudyptula.IdList.Store

/-! `linked_list_init` of Task_12 and Task_13 with whatever its allocations give. Task_12's
returns no value; Task_13's first makes the cache that `linked_list_exit` destroys again. -/
namespace Eudyptula.IdList
open CMem

/-- A call of `identity_create`, with the allocator as it behaves at this call. -/
structure Creation where
  alloc : Allocator
  name : CStr
  id : BitVec 32

/-- The calls one after another, with what they return. -/
def createAll : List Creation → Heap → List ℤ × Heap
  | [], h => ([], h)
  | c :: cs, h =>
    let (r, h) := identityCreate c.alloc c.name c.id h
    let (rs, h) := createAll cs h
    (r :: rs, h)

def destroyAll : List (BitVec 32) → Heap → Option Heap
  | [], h => some h
  | id :: ids, h => (identityDestroy .stale id h).bind (destroyAll ids)

/-- The bytes of a string literal. -/
def literal (cs : List Char) : List UInt8 := cs.map Char.toUInt8

def creations (A : Fin 4 → Allocator) : List Creation :=
  [⟨A 0, ⟨literal ['A', 'l', 'i', 'c', 'e'], by decide⟩, 1⟩,
    ⟨A 1, ⟨literal ['B', 'o', 'b'], by decide⟩, 2⟩,
    ⟨A 2, ⟨literal ['D', 'a', 'v', 'e'], by decide⟩, 3⟩,
    ⟨A 3, ⟨literal ['G', 'e', 'n', 'a'], by decide⟩, 4⟩]

/-- What the function has done when it returns. `id3` is the entry whose name it prints; when
there is none, `pr_debug` is given a null pointer and prints that. -/
structure Outcome where
  codes : List ℤ
  id3 : Option Identity
  id42 : Option Addr
  heap : Heap

/-- From the first `identity_create` on. -/
def linkedListInit (A : Fin 4 → Allocator) (h : Heap) : Option Outcome :=
  let (codes, h) := createAll (creations A) h
  (identityFind .stale 3 h).bind fun id3 =>
    (identityFind .stale 42 h).bind fun id42 =>
      (destroyAll [2, 1, 10, 42, 3] h).map fun left =>
        ⟨codes, id3.map fun a => (h.node a).identity, id42, left⟩

/-- The values of the identities whose creation has returned 0. -/
def created (cs : List Creation) (codes : List ℤ) : List Identity :=
  (cs.zip codes).filterMap fun (c, r) => if r = 0 then some ⟨c.name.bytes, c.id, false⟩ else none

section
variable {h : Heap} {es : List Entry}

/-- The latest is in front. -/
theorem createAll_represents (cs : List Creation) (hr : Represents h es) :
    ∃ new, Represents (createAll cs h).2 (new ++ es) ∧
      new.map Entry.val = (created cs (createAll cs h).1).reverse := by
  induction cs generalizing h es with
  | nil => exact ⟨[], hr, rfl⟩
  | cons c cs ih =>
    rcases identityCreate_cases c.alloc c.name c.id hr with ⟨hne, hsame⟩ | ⟨hzero, a, -, hrep⟩
    · obtain ⟨new, hnew, hvals⟩ := ih hr
      refine ⟨new, by simpa [createAll, hsame] using hnew, ?_⟩
      simp [createAll, created, hne, hsame, hvals]
    · obtain ⟨new, hnew, hvals⟩ := ih hrep
      refine ⟨new ++ [⟨a, ⟨c.name.bytes, c.id, false⟩⟩], by simpa [createAll] using hnew, ?_⟩
      simp [createAll, created, hzero, hvals]

theorem destroyAll_represents (ids : List (BitVec 32)) (hr : Represents h es) :
    ∃ h', destroyAll ids h = some h' ∧
      Represents h' (es.filter fun e => e.val.id ∉ ids) := by
  induction ids generalizing h es with
  | nil => exact ⟨h, rfl, by simpa using hr⟩
  | cons id ids ih =>
    obtain ⟨h₁, hdestroy, hr₁⟩ := identityDestroy_spec id hr
    obtain ⟨h', hrest, hr'⟩ := ih hr₁
    refine ⟨h', by simp [destroyAll, hdestroy, hrest], ?_⟩
    have hfilter : (es.filter fun e => e.val.id ∉ id :: ids) =
        (es.filter fun e => e.val.id != id).filter fun e => e.val.id ∉ ids := by
      rw [List.filter_filter]
      refine List.filter_congr fun e _ => ?_
      by_cases he : e.val.id = id <;> simp [he]
    rwa [hfilter]

end

theorem createAll_length (cs : List Creation) (h : Heap) :
    (createAll cs h).1.length = cs.length := by
  induction cs generalizing h with
  | nil => rfl
  | cons c cs ih => simp [createAll, ih]

/-- `identity_find` gives the entry with what it holds. -/
theorem Represents.find_val {h : Heap} {es : List Entry} (hr : Represents h es) (id : BitVec 32) :
    ((es.find? fun e => e.val.id == id).map Entry.addr).map (fun a => (h.node a).identity) =
      (es.map Entry.val).find? fun v => v.id == id := by
  rw [List.find?_map, Option.map_map]
  cases hfind : es.find? fun e => e.val.id == id with
  | none => simp [Function.comp_def, hfind]
  | some e => simp [Function.comp_def, hfind, hr.vals e (List.mem_of_find?_eq_some hfind)]

section
variable (A : Fin 4 → Allocator) (r₀ r₁ r₂ r₃ : ℤ)

theorem created_three :
    ((created (creations A) [r₀, r₁, r₂, r₃]).reverse.find? fun v => v.id == 3) =
      if r₂ = 0 then some ⟨[68, 97, 118, 101], 3, false⟩ else none := by
  have hdave : literal ['D', 'a', 'v', 'e'] = [68, 97, 118, 101] := by decide
  by_cases h₀ : r₀ = 0 <;> by_cases h₁ : r₁ = 0 <;> by_cases h₂ : r₂ = 0 <;>
    by_cases h₃ : r₃ = 0 <;> simp [created, creations, hdave, h₀, h₁, h₂, h₃]

theorem created_fortyTwo :
    ((created (creations A) [r₀, r₁, r₂, r₃]).reverse.find? fun v => v.id == 42) = none := by
  by_cases h₀ : r₀ = 0 <;> by_cases h₁ : r₁ = 0 <;> by_cases h₂ : r₂ = 0 <;>
    by_cases h₃ : r₃ = 0 <;> simp [created, creations, h₀, h₁, h₂, h₃]

theorem created_left :
    ((created (creations A) [r₀, r₁, r₂, r₃]).reverse.filter fun v =>
      v.id ∉ ([2, 1, 10, 42, 3] : List (BitVec 32))) =
      if r₃ = 0 then [⟨[71, 101, 110, 97], 4, false⟩] else [] := by
  have hgena : literal ['G', 'e', 'n', 'a'] = [71, 101, 110, 97] := by decide
  by_cases h₀ : r₀ = 0 <;> by_cases h₁ : r₁ = 0 <;> by_cases h₂ : r₂ = 0 <;>
    by_cases h₃ : r₃ = 0 <;> simp [created, creations, hgena, h₀, h₁, h₂, h₃]

end

/-- Whatever the four allocations give, the function returns. It has found "Dave" exactly when
the third creation went through. The list is then "Gena" alone if the fourth did, and empty
otherwise; the cells on the list are the ones that `linked_list_exit` leaves in use. -/
theorem init_leaves_gena (A : Fin 4 → Allocator) :
    ∃ o, linkedListInit A .init = some o ∧
      o.id3 = (if o.codes[2]? = some 0 then some ⟨[68, 97, 118, 101], 3, false⟩ else none) ∧
      o.id42 = none ∧
      o.heap.identities =
        (if o.codes[3]? = some 0 then [⟨[71, 101, 110, 97], 4, false⟩] else []) ∧
      o.heap.live.Perm o.heap.nodes := by
  obtain ⟨new, hnew, hvals⟩ := createAll_represents (creations A) represents_init
  obtain ⟨r₀, r₁, r₂, r₃, hcodes⟩ := List.length_eq_four.mp (createAll_length (creations A) .init)
  rw [List.append_nil] at hnew
  rw [hcodes] at hvals
  obtain ⟨left, hdestroy, hrep⟩ := destroyAll_represents [2, 1, 10, 42, 3] hnew
  have hid3 := hnew.find_val 3
  rw [hvals, created_three] at hid3
  have hid42 : (new.find? fun e => e.val.id == 42).map Entry.addr = none := by
    have hval := hnew.find_val 42
    rwa [hvals, created_fortyTwo, Option.map_eq_none_iff] at hval
  unfold linkedListInit
  simp only [identityFind_spec _ hnew, hcodes, hdestroy, Option.bind_some, Option.map_some]
  refine ⟨_, rfl, by simpa using hid3, hid42, ?_, by rw [hrep.nodes_eq]; exact hrep.live⟩
  have hleft := created_left A r₀ r₁ r₂ r₃
  rw [← hvals, List.filter_map] at hleft
  rw [hrep.identities_eq]
  simpa [Function.comp_def] using hleft

end Eudyptula.IdList
