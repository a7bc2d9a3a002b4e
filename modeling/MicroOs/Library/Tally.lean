import Mathlib.Algebra.BigOperators.Group.Finset.Piecewise
import Mathlib.Algebra.Order.BigOperators.Group.Finset
import Mathlib.Algebra.Order.Ring.Int

/-! # Accounts over threads

Every point of a program carries a weight. Any number of threads may be at points, as long as only finitely many are at
points with a weight; the account is the sum of their weights. A step that moves one thread changes the account by the
difference of two weights, whatever the other threads do.
-/

namespace MicroOs

open Finset Function

variable {ι π : Type*} {pc : ι → π} {weight weight' : π → ℤ} {total total' : ℤ}

/-- The weights of all threads add up to `total`. -/
def Tally (weight : π → ℤ) (total : ℤ) (pc : ι → π) : Prop :=
  ∃ threads : Finset ι, (∀ t, t ∉ threads → weight (pc t) = 0) ∧ ∑ t ∈ threads, weight (pc t) = total

namespace Tally

theorem zero (none : ∀ t, weight (pc t) = 0) : Tally weight 0 pc := ⟨∅, fun t _ => none t, rfl⟩

theorem of_eq (tally : Tally weight total pc) (same : total = total') : Tally weight total' pc := same ▸ tally

theorem congr {pc' : ι → π} (tally : Tally weight total pc) (same : ∀ t, weight' (pc' t) = weight (pc t)) :
    Tally weight' total pc' := by
  obtain ⟨threads, none, sum⟩ := tally
  refine ⟨threads, fun t outside => (same t).trans (none t outside), ?_⟩
  rw [← sum]
  exact sum_congr rfl fun t _ => same t

variable [DecidableEq ι]

theorem extend (tally : Tally weight total pc) (more : Finset ι) :
    ∃ threads, more ⊆ threads ∧ (∀ t, t ∉ threads → weight (pc t) = 0) ∧ ∑ t ∈ threads, weight (pc t) = total := by
  obtain ⟨threads, none, sum⟩ := tally
  refine ⟨threads ∪ more, subset_union_right, ?_, ?_⟩
  · intro t outside
    exact none t fun inside => outside (mem_union_left _ inside)
  · rw [← sum]
    refine (sum_subset subset_union_left ?_).symm
    intro t _ outside
    exact none t outside

/-- A thread moves, and only it feels a change of the weights. -/
theorem move {t : ι} {p : π} (tally : Tally weight total pc) (others : ∀ u, u ≠ t → weight' (pc u) = weight (pc u)) :
    Tally weight' (total + weight' p - weight (pc t)) (update pc t p) := by
  obtain ⟨threads, listed, none, sum⟩ := tally.extend {t}
  have member : t ∈ threads := singleton_subset_iff.1 listed
  refine ⟨threads, ?_, ?_⟩
  · intro u outside
    have other : u ≠ t := fun same => outside (same ▸ member)
    rw [update_of_ne other, others u other, none u outside]
  · have rest : ∑ u ∈ threads.erase t, weight' (update pc t p u) = ∑ u ∈ threads.erase t, weight (pc u) := by
      refine sum_congr rfl ?_
      intro u erased
      have other := ne_of_mem_erase erased
      rw [update_of_ne other, others u other]
    have after := add_sum_erase threads (fun u => weight' (update pc t p u)) member
    have before := add_sum_erase threads (fun u => weight (pc u)) member
    simp only [update_self] at after
    omega

theorem le (tally : Tally weight total pc) (tally' : Tally weight' total' pc)
    (smaller : ∀ t, weight (pc t) ≤ weight' (pc t)) : total ≤ total' := by
  obtain ⟨threads, none, sum⟩ := tally
  obtain ⟨threads', listed, none', sum'⟩ := tally'.extend threads
  have same : ∑ t ∈ threads', weight (pc t) = total := by
    rw [← sum]
    refine (sum_subset listed ?_).symm
    intro t _ outside
    exact none t outside
  rw [← same, ← sum']
  exact sum_le_sum fun t _ => smaller t

theorem unique (tally : Tally weight total pc) (tally' : Tally weight total' pc) : total = total' :=
  le_antisymm (tally.le tally' fun _ => le_rfl) (tally'.le tally fun _ => le_rfl)

/-- Where there are no debts, no one has more than the account. -/
theorem weight_le (tally : Tally weight total pc) (credit : ∀ t, 0 ≤ weight (pc t)) (t : ι) :
    weight (pc t) ≤ total := by
  obtain ⟨threads, listed, _, sum⟩ := tally.extend {t}
  rw [← sum]
  exact single_le_sum (fun u _ => credit u) (singleton_subset_iff.1 listed)

theorem le_card [Fintype ι] (tally : Tally weight total pc) (small : ∀ t, weight (pc t) ≤ 1) :
    total ≤ Fintype.card ι := by
  obtain ⟨threads, listed, _, sum⟩ := tally.extend univ
  rw [univ_subset_iff.1 listed] at sum
  have bound := sum_le_sum fun u (_ : u ∈ univ) => small u
  simpa [sum] using bound

/-- An account in which every thread has a weight of 1 at most, and the weights add up to the number of threads. -/
theorem all_one [Fintype ι] (tally : Tally weight (Fintype.card ι) pc) (small : ∀ t, weight (pc t) ≤ 1) (t : ι) :
    weight (pc t) = 1 := by
  obtain ⟨threads, listed, _, sum⟩ := tally.extend univ
  rw [univ_subset_iff.1 listed] at sum
  have all : ∑ u : ι, weight (pc u) = ∑ _u : ι, 1 := by
    rw [sum]
    simp
  exact (sum_eq_sum_iff_of_le fun u _ => small u).1 all t (mem_univ t)

/-- The threads of a list that have weight 1, where no other thread has any. -/
theorem length {queue : List ι} (nodup : queue.Nodup) (one : ∀ t ∈ queue, weight (pc t) = 1)
    (none : ∀ t, t ∉ queue → weight (pc t) = 0) : Tally weight queue.length pc := by
  refine ⟨queue.toFinset, ?_, ?_⟩
  · intro t outside
    exact none t (by simpa using outside)
  · have ones : ∑ t ∈ queue.toFinset, weight (pc t) = ∑ t ∈ queue.toFinset, 1 := by
      refine sum_congr rfl ?_
      intro t listed
      exact one t (by simpa using listed)
    rw [ones, sum_const, List.toFinset_card_of_nodup nodup]
    simp

end Tally

end MicroOs
