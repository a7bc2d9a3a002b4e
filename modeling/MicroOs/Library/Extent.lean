import Mathlib.Algebra.Order.Ring.Nat

/-! # Cached lengths of maximal intervals

A predicate on positions divides them into maximal intervals. A table may cache at a position how far the predicate
holds from there on. After a change of the predicate on one interval, only the positions before it can be wrong, and
only those from which the predicate holds all the way to the change: a loop that walks back from the change settles
them.
-/

namespace MicroOs

variable {P Q starts : ℕ → Prop} {start length count d i j total : ℕ} {value : ℕ → ℕ}

/-- The predicate holds at `length` positions from `start` on and not at the next one. -/
structure Extent (P : ℕ → Prop) (start length : ℕ) : Prop where
  within : ∀ k, start ≤ k → k < start + length → P k
  stops : ¬P (start + length)

namespace Extent

theorem empty (stops : ¬P start) : Extent P start 0 := ⟨fun _ _ _ => by omega, stops⟩

theorem extend (before : ∀ k, start ≤ k → k < start + count → P k) (extent : Extent P (start + count) length) :
    Extent P start (count + length) := by
  refine ⟨?_, ?_⟩
  · intro k lower upper
    rcases Nat.lt_or_ge k (start + count) with first | second
    · exact before k lower first
    · exact extent.within k second (by omega)
  · rw [← Nat.add_assoc]
    exact extent.stops

section

variable (extent : Extent P start length)
include extent

theorem pos (holds : P start) : 0 < length := by
  by_contra none
  obtain rfl : length = 0 := by omega
  exact extent.stops holds

theorem le_of_not (later : start ≤ d) (fails : ¬P d) : start + length ≤ d := by
  by_contra inside
  exact fails (extent.within d later (by omega))

theorem congr (agree : ∀ k, start ≤ k → k ≤ start + length → (P k ↔ Q k)) : Extent Q start length := by
  refine ⟨?_, ?_⟩
  · intro k lower upper
    exact (agree k lower (by omega)).1 (extent.within k lower upper)
  · exact fun holds => extent.stops ((agree _ (by omega) le_rfl).2 holds)

/-- A change of the predicate between `i` and `j` matters only to positions from which it holds up to `i`. -/
theorem outside (agree : ∀ k, k < i ∨ j ≤ k → (P k ↔ Q k))
    (away : j ≤ start ∨ ∃ d, start ≤ d ∧ d < i ∧ ¬Q d) : Extent Q start length := by
  apply extent.congr
  intro k lower upper
  rcases away with after | ⟨d, later, before, fails⟩
  · exact agree k (.inr (by omega))
  · have short := extent.le_of_not later fun holds => fails ((agree d (.inl before)).1 holds)
    exact agree k (.inl (by omega))

end

end Extent

/-- The cached lengths are right from `i` on, and before it where the interval ends before `i`. -/
def Settled (P starts : ℕ → Prop) (value : ℕ → ℕ) (i : ℕ) : Prop :=
  ∀ c, starts c → (i ≤ c ∨ ∃ d, c ≤ d ∧ d < i ∧ ¬P d) → Extent P c (value c)

namespace Settled

/-- One step back, to the only position between `j` and `i` where a length is cached. -/
theorem back (settled : Settled P starts value i) (extent : Extent P (j + count) total) (here : i = j + count)
    (holds : ∀ k, j ≤ k → k < j + count → P k) (only : ∀ c, starts c → j ≤ c → c < i → c = j) :
    Settled P starts (Function.update value j (count + total)) j := by
  intro c begins reach
  by_cases same : c = j
  · subst same
    rw [Function.update_self]
    exact extent.extend holds
  · rw [Function.update_of_ne same]
    apply settled c begins
    rcases reach with after | ⟨d, later, before, fails⟩
    · left
      by_contra inside
      exact same (only c begins after (by omega))
    · exact .inr ⟨d, later, by omega, fails⟩

/-- The walk is over where the predicate fails just before, or nothing is before. -/
theorem done (settled : Settled P starts value i) (edge : i = 0 ∨ ¬P (i - 1)) {c : ℕ} (begins : starts c) :
    Extent P c (value c) := by
  apply settled c begins
  rcases Nat.lt_or_ge c i with before | after
  · right
    rcases edge with rfl | fails
    · omega
    · exact ⟨i - 1, by omega, by omega, fails⟩
  · exact .inl after

end Settled

end MicroOs
