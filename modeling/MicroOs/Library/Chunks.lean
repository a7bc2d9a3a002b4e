import Mathlib.Data.List.Basic

/-! # Chunks laid out one after another

A store is filled from the front: chunks are placed in increasing order, and the gaps between them and behind the last
one hold a blank value. What the store holds at a position is then what a search through the chunks finds there.
-/

namespace MicroOs

open List

variable {i : ℕ}

/-- A stretch of values and the position of the first one. -/
structure Chunk (α : Type*) where
  start : ℕ
  length : ℕ
  content : ℕ → α

variable {α : Type*} {blank : α} {chunks : List (Chunk α)} {chunk : Chunk α} {store store' : ℕ → α}
  {bound bound' : ℕ}

namespace Chunk

def finish (chunk : Chunk α) : ℕ := chunk.start + chunk.length

def Covers (chunk : Chunk α) (i : ℕ) : Prop := chunk.start ≤ i ∧ i < chunk.finish

instance (chunk : Chunk α) (i : ℕ) : Decidable (chunk.Covers i) := inferInstanceAs (Decidable (_ ∧ _))

/-- The value of the chunk that covers a position, or a blank. -/
def lookup (blank : α) (chunks : List (Chunk α)) (i : ℕ) : α :=
  match chunks.find? fun chunk => chunk.Covers i with
  | some chunk => chunk.content (i - chunk.start)
  | none => blank

theorem lookup_blank (outside : ∀ chunk ∈ chunks, ¬chunk.Covers i) : lookup blank chunks i = blank := by
  have absent : (chunks.find? fun chunk => chunk.Covers i) = none := by
    simpa using outside
  rw [lookup, absent]

theorem lookup_append_left (outside : ¬chunk.Covers i) :
    lookup blank (chunks ++ [chunk]) i = lookup blank chunks i := by
  have same : ((chunks ++ [chunk]).find? fun chunk => chunk.Covers i) = chunks.find? fun chunk => chunk.Covers i := by
    simp [outside]
  rw [lookup, lookup, same]

theorem lookup_append_right (outside : ∀ chunk ∈ chunks, ¬chunk.Covers i) (inside : chunk.Covers i) :
    lookup blank (chunks ++ [chunk]) i = chunk.content (i - chunk.start) := by
  have absent : (chunks.find? fun chunk => chunk.Covers i) = none := by
    simpa using outside
  have found : ((chunks ++ [chunk]).find? fun chunk => chunk.Covers i) = some chunk := by
    simp [absent, inside]
  rw [lookup, found]

theorem lookup_of_mem (ordered : chunks.Pairwise fun first second => first.finish ≤ second.start)
    (member : chunk ∈ chunks) (covers : chunk.Covers i) : lookup blank chunks i = chunk.content (i - chunk.start) := by
  induction chunks with
  | nil => cases member
  | cons head tail ih =>
    obtain ⟨before, rest⟩ := pairwise_cons.mp ordered
    rcases mem_cons.mp member with rfl | later
    · simp [lookup, covers]
    · have apart : ¬head.Covers i := by
        intro other
        have := before chunk later
        have := other.2
        have := covers.1
        omega
      have same : lookup blank (head :: tail) i = lookup blank tail i := by
        simp [lookup, apart]
      rw [same, ih rest later]

end Chunk

/-- The first `bound` values of the store are those of the chunks, with blanks between them. -/
structure Laid (blank : α) (chunks : List (Chunk α)) (bound : ℕ) (store : ℕ → α) : Prop where
  ordered : chunks.Pairwise fun first second => first.finish ≤ second.start
  bounded : ∀ chunk ∈ chunks, chunk.finish ≤ bound
  contents : ∀ i < bound, store i = Chunk.lookup blank chunks i

namespace Laid

theorem nil : Laid blank [] 0 store := by
  refine ⟨List.Pairwise.nil, ?_, ?_⟩
  · intro chunk member
    cases member
  · intro i inside
    omega

section

variable (laid : Laid blank chunks bound store)
include laid

theorem congr (same : ∀ i < bound, store' i = store i) : Laid blank chunks bound store' :=
  ⟨laid.ordered, laid.bounded, fun i inside => (same i inside).trans (laid.contents i inside)⟩

theorem outside (behind : bound ≤ i) : ∀ chunk ∈ chunks, ¬chunk.Covers i := by
  intro chunk member covers
  have := laid.bounded chunk member
  have := covers.2
  omega

theorem pad (longer : bound ≤ bound')
    (same : ∀ i < bound, store' i = store i) (blanks : ∀ i, bound ≤ i → i < bound' → store' i = blank) :
    Laid blank chunks bound' store' := by
  refine ⟨laid.ordered, fun chunk member => Nat.le_trans (laid.bounded chunk member) longer, ?_⟩
  intro i inside
  rcases Nat.lt_or_ge i bound with before | behind
  · exact (same i before).trans (laid.contents i before)
  · rw [blanks i behind inside, Chunk.lookup_blank (laid.outside behind)]

theorem append (here : chunk.start = bound)
    (same : ∀ i < bound, store' i = store i) (placed : ∀ j < chunk.length, store' (chunk.start + j) = chunk.content j) :
    Laid blank (chunks ++ [chunk]) chunk.finish store' := by
  subst here
  refine ⟨?_, ?_, ?_⟩
  · rw [pairwise_append]
    refine ⟨laid.ordered, pairwise_singleton _ _, ?_⟩
    intro first member second last
    rw [mem_singleton.mp last]
    exact laid.bounded first member
  · intro other member
    rcases mem_append.mp member with before | last
    · exact Nat.le_trans (laid.bounded other before) (Nat.le_add_right _ _)
    · obtain rfl := mem_singleton.mp last
      exact Nat.le_refl _
  · intro i inside
    rcases Nat.lt_or_ge i chunk.start with before | behind
    · rw [same i before, laid.contents i before, Chunk.lookup_append_left]
      intro covers
      exact absurd covers.1 (by omega)
    · rw [Chunk.lookup_append_right (laid.outside behind) ⟨behind, inside⟩]
      have at' := placed (i - chunk.start) (by rw [Chunk.finish] at inside; omega)
      rwa [Nat.add_sub_cancel' behind] at at'

theorem content (member : chunk ∈ chunks) {j : ℕ} (inside : j < chunk.length) :
    store (chunk.start + j) = chunk.content j := by
  have covers : chunk.Covers (chunk.start + j) := ⟨by omega, by rw [Chunk.finish]; omega⟩
  have below : chunk.start + j < bound := by
    have := laid.bounded chunk member
    have := covers.2
    omega
  rw [laid.contents _ below, Chunk.lookup_of_mem laid.ordered member covers, Nat.add_sub_cancel_left]

end

end Laid

end MicroOs
