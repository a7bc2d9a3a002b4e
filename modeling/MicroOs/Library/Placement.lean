import Mathlib.Data.List.Perm.Basic

/-! # Items kept in exactly one of several lists

Every item is in one of the lists, at one position. Moving an item from one list to another keeps that.
-/

namespace MicroOs

open Function

variable {κ ν : Type*}

/-- Every item is in exactly one of the lists, once. -/
structure Placement (contents : κ → List ν) : Prop where
  nodup : ∀ k, (contents k).Nodup
  existsUnique : ∀ a, ∃! k, a ∈ contents k

namespace Placement

variable {contents contents' : κ → List ν} {a : ν}

theorem unique (placed : Placement contents) {i j : κ} (here : a ∈ contents i) (there : a ∈ contents j) : i = j :=
  (placed.existsUnique a).unique here there

theorem perm (placed : Placement contents) (same : ∀ k, (contents' k).Perm (contents k)) : Placement contents' where
  nodup k := (same k).nodup_iff.2 (placed.nodup k)
  existsUnique a := by
    have members : ∀ k, a ∈ contents' k ↔ a ∈ contents k := fun k => (same k).mem_iff
    simpa only [members] using placed.existsUnique a

/-- Item `a` moves from the list `source` to the list `target`. -/
theorem move (placed : Placement contents) {source target : κ} (distinct : source ≠ target)
    (taken : (contents source).Perm (a :: contents' source)) (put : (contents' target).Perm (a :: contents target))
    (same : ∀ k, k ≠ source → k ≠ target → contents' k = contents k) : Placement contents' := by
  have old : a ∈ contents source := taken.mem_iff.2 List.mem_cons_self
  have absent : a ∉ contents target := fun inside => distinct (placed.unique old inside)
  obtain ⟨gone, restNodup⟩ := List.nodup_cons.1 (taken.nodup_iff.1 (placed.nodup source))
  refine ⟨?_, ?_⟩
  · intro k
    rcases eq_or_ne k target with rfl | notTarget
    · exact put.nodup_iff.2 (List.nodup_cons.2 ⟨absent, placed.nodup k⟩)
    · rcases eq_or_ne k source with rfl | notSource
      · exact restNodup
      · exact same k notSource notTarget ▸ placed.nodup k
  · intro b
    rcases eq_or_ne b a with rfl | other
    · refine ⟨target, put.mem_iff.2 List.mem_cons_self, ?_⟩
      intro k inside
      by_contra notTarget
      rcases eq_or_ne k source with rfl | notSource
      · exact gone inside
      · exact notSource (placed.unique (same k notSource notTarget ▸ inside) old)
    · have members (k : κ) : b ∈ contents' k ↔ b ∈ contents k := by
        rcases eq_or_ne k target with rfl | notTarget
        · simp [put.mem_iff, other]
        · rcases eq_or_ne k source with rfl | notSource
          · simp [taken.mem_iff, other]
          · rw [same k notSource notTarget]
      simpa only [members] using placed.existsUnique b

end Placement

structure Separate (contents : κ → List ν) : Prop where
  nodup : ∀ k, (contents k).Nodup
  unique : ∀ {i j a}, a ∈ contents i → a ∈ contents j → i = j

namespace Separate

variable {contents contents' : κ → List ν} {a : ν}

theorem sublist (separate : Separate contents) (fewer : ∀ k, (contents' k).Sublist (contents k)) :
    Separate contents' where
  nodup k := (separate.nodup k).sublist (fewer k)
  unique inside inside' := separate.unique ((fewer _).subset inside) ((fewer _).subset inside')

theorem insert [DecidableEq κ] (separate : Separate contents) (k : κ) (new : ∀ j, a ∉ contents j) :
    Separate (update contents k (a :: contents k)) := by
  have inside : ∀ {j b}, b ∈ update contents k (a :: contents k) j → b = a ∧ j = k ∨ b ∈ contents j := by
    intro j b member
    by_cases same : j = k
    · subst same
      simpa using member
    · exact .inr (by simpa [same] using member)
  refine ⟨?_, ?_⟩
  · intro j
    by_cases same : j = k
    · subst same
      rw [update_self]
      exact List.nodup_cons.2 ⟨new j, separate.nodup j⟩
    · rw [update_of_ne same]
      exact separate.nodup j
  · intro i j b here there
    rcases inside here with ⟨rfl, rfl⟩ | old
    · rcases inside there with ⟨-, same⟩ | old
      · exact same.symm
      · exact absurd old (new j)
    · rcases inside there with ⟨rfl, -⟩ | old'
      · exact absurd old (new i)
      · exact separate.unique old old'

end Separate

end MicroOs
