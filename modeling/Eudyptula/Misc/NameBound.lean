import Eudyptula.Misc.WriteResult

/-! The bound on a name. `simple_dev_write` clamps at 19, `identity_create` checks against 20
and copies into `name[20]`; between them stands `user_input`, of which only the first 19 bytes
are ever written. -/
namespace Eudyptula.Misc
open CMem IdList Runs

def callStep (c : Allocator × WriteArgs) (s : Statics) : Option Statics :=
  some (simpleDevWrite c.1 c.2 s).2.2

/-- The string that `identity_create` gets: its length check does not reject it, so nothing
but `kmalloc` makes the call fail, and `strcpy` with the NUL stays inside `name[20]`. -/
structure NameFits (A : Allocator) (s : Statics) : Prop where
  short : (CStr.read s.userInput 0 4096).bytes.length ≤ 19
  accepted : (writeCreate A s).1 = 0 ↔ (A.kmalloc s.heap).isSome
  inside : ∀ (name : Bytes) (k : ℕ), 20 ≤ k →
    strcpy name (CStr.read s.userInput 0 4096) k = name k

/-- The tail of `user_input` is zero, and so every call that may come next is bounded: its
offset, the name it passes on after its copy, and the name that a writer whose copy is already
done passes on now. -/
structure NameBound (s : Statics) : Prop where
  zeros : ∀ k, 19 ≤ k → k < 4096 → s.userInput k = 0
  offset : ∀ A w, (simpleDevWrite A w s).2.1 ≤ 19 ∨ (simpleDevWrite A w s).2.1 = w.fPos
  next : ∀ A w, NameFits A (writeCopy w s).2
  now : ∀ A, NameFits A s

section
variable {s : Statics}

theorem Sane.nameFits (hs : Sane s) (A : Allocator) : NameFits A s := by
  have hshort := hs.name_length
  refine ⟨hshort, ?_, ?_⟩
  · obtain ⟨es, hr⟩ := hs.heap
    change (identityCreate A _ (s.idCount.setWidth 32) s.heap).1 = 0 ↔ _
    cases hc : A.kmalloc s.heap with
    | none =>
      rw [identityCreate_fail _ (.inr hc)]
      exact iff_of_false (show (-ENOMEM : ℤ) ≠ 0 by decide) (by simp)
    | some c => exact iff_of_true (identityCreate_ok _ hr hshort hc).1 rfl
  · intro name k hk
    refine store_outside (.inr ?_)
    rw [List.length_append, List.length_singleton]
    omega

/-- The offset goes to the end of what was copied, which is 19 at most, or stays. -/
theorem offset_le (A : Allocator) (w : WriteArgs) (s : Statics) :
    (simpleDevWrite A w s).2.1 ≤ 19 ∨ (simpleDevWrite A w s).2.1 = w.fPos := by
  by_cases hp : 19 ≤ w.fPos
  · rw [write_past A s hp]
    exact .inr rfl
  · have hlt := Nat.lt_of_not_le hp
    by_cases hf : Faults w
    · rw [write_faulted A s hlt hf]
      exact .inr rfl
    · have hclamp : w.fPos + clamped w ≤ 19 := by
        unfold clamped
        omega
      rw [write_copied A s hlt hf]
      exact .inl hclamp

theorem Sane.nameBound (hs : Sane s) : NameBound s where
  zeros k hk _ := hs.zeros k hk
  offset A w := offset_le A w s
  next A _ := hs.copy.nameFits A
  now A := hs.nameFits A

end

/-- From every state of every run of the module, in particular from that of a module just
loaded, along every sequence of calls, whatever they copy and whatever the allocator does. -/
theorem names_bounded (ls : List Label) (s : State) (hs : run step ls .start = some s)
    (calls : List (Allocator × WriteArgs)) : Always callStep NameBound calls s.st := by
  have hstep : ∀ (c : Allocator × WriteArgs) (u v : Statics), Sane u → callStep c u = some v →
      Sane v := by
    intro c u v hu huv
    cases huv
    exact hu.call c.1 c.2
  exact (always_of_step hstep calls (sane_of_run hs)).mono fun _ hu => hu.nameBound

theorem names_bounded_loaded :
    ∃ s, run step loaded .start = some s ∧
      Always callStep NameBound [(.above, .byte 78), (noMemory, .byte 75)] s.st := by
  obtain ⟨s, hs⟩ := Option.isSome_iff_exists.mp
    (show (run step loaded .start).isSome by decide +kernel)
  exact ⟨s, hs, names_bounded loaded s hs _⟩

end Eudyptula.Misc
