import Mathlib.Algebra.Order.Ring.Int
import Mathlib.Data.Nat.Count

/-! # Chains of records

Records lie one behind the other, and each one says how long it is. The places of the records are found by adding up the
lengths, which need not be right: a length of 0 makes the chain stay where it is. A search walks along the chain up to a
limit and looks for the record that has a given number among those of one kind.
-/

namespace MicroOs.RecordChain

/-- Where record `k` is, with the length that stands at each place. -/
def place (len : ℕ → ℕ) : ℕ → ℕ
  | 0 => 0
  | k + 1 => place len k + len (place len k)

variable {len len' : ℕ → ℕ} {kind kind' : ℕ → Prop} [DecidablePred kind] [DecidablePred kind']

theorem place_succ (len : ℕ → ℕ) (k : ℕ) : place len (k + 1) = place len k + len (place len k) := rfl

/-- The number of records of a kind in front of record `k`. -/
def before (len : ℕ → ℕ) (kind : ℕ → Prop) [DecidablePred kind] (k : ℕ) : ℕ :=
  Nat.count (fun j => kind (place len j)) k

theorem before_succ_of_kind {k : ℕ} (here : kind (place len k)) : before len kind (k + 1) = before len kind k + 1 := by
  rw [before, Nat.count_succ, if_pos here]
  rfl

theorem before_succ_of_not {k : ℕ} (other : ¬kind (place len k)) : before len kind (k + 1) = before len kind k := by
  rw [before, Nat.count_succ, if_neg other]
  rfl

theorem before_mono {j k : ℕ} (le : j ≤ k) : before len kind j ≤ before len kind k := Nat.count_monotone _ le

theorem before_eq_zero_iff {k : ℕ} : before len kind k = 0 ↔ ∀ j < k, ¬kind (place len j) := by
  rw [before, Nat.count_iff_forall_not]

theorem exists_number {index k : ℕ} (less : index < before len kind k) :
    ∃ j < k, kind (place len j) ∧ before len kind j = index := by
  induction k with
  | zero => exact absurd less (Nat.not_lt_zero index)
  | succ k ih =>
    by_cases here : kind (place len k)
    · rw [before_succ_of_kind here] at less
      rcases (Nat.le_of_lt_succ less).eq_or_lt with same | less
      · exact ⟨k, Nat.lt_succ_self k, here, same.symm⟩
      · obtain ⟨j, before, found⟩ := ih less
        exact ⟨j, Nat.lt_succ_of_lt before, found⟩
    · rw [before_succ_of_not here] at less
      obtain ⟨j, before, found⟩ := ih less
      exact ⟨j, Nat.lt_succ_of_lt before, found⟩

/-- A search for number `index` of its kind ends at record `k`: with it, or without one if the next would lie behind
the limit. -/
def Ends (len : ℕ → ℕ) (kind : ℕ → Prop) [DecidablePred kind] (limit : ℤ) (index k : ℕ) : Option ℕ → Prop
  | some found => found = place len k ∧ kind found ∧ before len kind k = index
  | none => limit ≤ place len (k + 1) ∧ before len kind (k + 1) ≤ index

variable {limit : ℤ} {index k : ℕ} {r : Option ℕ}

theorem Ends.before_le (ends : Ends len kind limit index k r) : before len kind k ≤ index := by
  cases r with
  | none => exact (before_mono (Nat.le_succ k)).trans ends.2
  | some found => exact ends.2.2.le

/-- A record of the kind with the number asked for is the one that is found. -/
theorem Ends.found_of_kind (ends : Ends len kind limit index k r) (here : kind (place len k))
    (number : before len kind k = index) : r = some (place len k) := by
  cases r with
  | none =>
    have more := ends.2
    rw [before_succ_of_kind here] at more
    omega
  | some found => rw [ends.1]

section Congr

variable (sameLen : ∀ p : ℕ, (p : ℤ) + 1 < limit → len p = len' p)

include sameLen

theorem place_congr (inside : ∀ j < k, (place len j : ℤ) + 1 < limit) : place len k = place len' k := by
  induction k with
  | zero => rfl
  | succ k ih =>
    have here := ih fun j less => inside j (by omega)
    rw [place_succ, place_succ, sameLen _ (inside k (Nat.lt_succ_self k)), here]

theorem before_congr (sameKind : ∀ p : ℕ, (p : ℤ) + 1 < limit → (kind p ↔ kind' p))
    (inside : ∀ j < k, (place len j : ℤ) + 1 < limit) : before len kind k = before len' kind' k := by
  induction k with
  | zero => rfl
  | succ k ih =>
    have earlier : ∀ j < k, (place len j : ℤ) + 1 < limit := fun j less => inside j (by omega)
    have same : kind (place len k) ↔ kind' (place len' k) := by
      rw [← place_congr sameLen earlier]
      exact sameKind _ (inside k (Nat.lt_succ_self k))
    by_cases here : kind (place len k)
    · rw [before_succ_of_kind here, before_succ_of_kind (same.1 here), ih earlier]
    · rw [before_succ_of_not here, before_succ_of_not (mt same.2 here), ih earlier]

theorem Ends.congr (sameKind : ∀ p : ℕ, (p : ℤ) + 1 < limit → (kind p ↔ kind' p))
    (inside : ∀ j ≤ k, (place len j : ℤ) + 1 < limit) (ends : Ends len kind limit index k r) :
    Ends len' kind' limit index k r := by
  have samePlace := place_congr sameLen fun j (less : j < k + 1) => inside j (by omega)
  have sameBefore := before_congr sameLen sameKind fun j (less : j < k + 1) => inside j (by omega)
  cases r with
  | none => exact ⟨samePlace ▸ ends.1, sameBefore ▸ ends.2⟩
  | some found =>
    obtain ⟨rfl, here, number⟩ := ends
    refine ⟨place_congr sameLen fun j less => inside j less.le, (sameKind _ (inside k le_rfl)).1 here, ?_⟩
    rw [← before_congr sameLen sameKind fun j less => inside j less.le]
    exact number

end Congr

theorem place_mono (len : ℕ → ℕ) : Monotone (place len) := monotone_nat_of_le_succ fun _ => Nat.le_add_right _ _

/-- Without a length of 0 below the limit, the records that begin there lie at places of their own. -/
theorem place_lt_place (positive : ∀ j, (place len j : ℤ) < limit → 0 < len (place len j)) {j k : ℕ} (less : j < k)
    (inside : (place len j : ℤ) < limit) : place len j < place len k := by
  have grows : place len j < place len (j + 1) := by
    exact Nat.lt_add_of_pos_right (positive j inside)
  exact grows.trans_le (place_mono len less)

theorem place_injective (positive : ∀ j, (place len j : ℤ) < limit → 0 < len (place len j)) {j k : ℕ}
    (insideJ : (place len j : ℤ) < limit) (insideK : (place len k : ℤ) < limit) (same : place len j = place len k) :
    j = k := by
  rcases lt_trichotomy j k with less | eq | more
  · exact absurd same (place_lt_place positive less insideJ).ne
  · exact eq
  · exact absurd same (place_lt_place positive more insideK).ne'

end MicroOs.RecordChain
