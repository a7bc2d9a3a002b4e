import Mathlib.Data.BitVec

/-! # Flag words and aligned bases

A machine word that packs an aligned base address above a field of flag bits is taken apart with
two masks. The lemmas reduce both halves to plain facts: the upper half is a rounded-down natural
number, and a flag test reads one bit. Widths and positions are arbitrary.
-/

namespace MicroOs.BitMask

open BitVec

variable {w : ℕ}

/-- All bits from position `n` upward. -/
def highMask (w n : ℕ) : BitVec w := allOnes w <<< n

/-- C's truth value of `word & flag`. -/
def hasFlag (word flag : BitVec w) : Bool := (word &&& flag) != 0#w

@[simp, grind =] theorem getLsbD_highMask (n i : ℕ) :
    (highMask w n).getLsbD i = (decide (n ≤ i) && decide (i < w)) := by
  simp only [highMask, getLsbD_shiftLeft, getLsbD_allOnes]
  grind

theorem and_highMask (x : BitVec w) (n : ℕ) : x &&& highMask w n = (x >>> n) <<< n := by
  apply eq_of_getLsbD_eq
  intro i bound
  simp only [getLsbD_and, getLsbD_highMask]
  by_cases low : n ≤ i
  · simp [low, bound]
  · simp [low]

/-- Masking with the upper bits rounds down to a multiple of `2 ^ n`. -/
theorem toNat_and_highMask (x : BitVec w) (n : ℕ) : (x &&& highMask w n).toNat = x.toNat / 2 ^ n * 2 ^ n := by
  rw [and_highMask, toNat_shiftLeft, toNat_ushiftRight, Nat.shiftLeft_eq, Nat.shiftRight_eq_div_pow]
  exact Nat.mod_eq_of_lt (lt_of_le_of_lt (Nat.div_mul_le_self _ _) x.isLt)

theorem hasFlag_twoPow (x : BitVec w) {i : ℕ} (bound : i < w) : hasFlag x (twoPow w i) = x.getLsbD i := by
  rw [hasFlag, and_twoPow]
  cases bit : x.getLsbD i with
  | false => simp
  | true =>
    have nonzero : twoPow w i ≠ 0#w := by
      intro zero
      have atBit := congrArg (fun y => getLsbD y i) zero
      simp [bound] at atBit
    simpa using nonzero

/-- The word with base `base` above position `n` and flags `flags` below it. -/
def pack (n : ℕ) (base flags : BitVec w) : BitVec w :=
  (base &&& highMask w n) ||| (flags &&& ~~~highMask w n)

@[simp, grind =] theorem getLsbD_pack (n : ℕ) (base flags : BitVec w) (i : ℕ) :
    (pack n base flags).getLsbD i = if n ≤ i then base.getLsbD i else flags.getLsbD i := by
  by_cases bound : i < w
  · simp only [pack, getLsbD_or, getLsbD_and, getLsbD_not, getLsbD_highMask]
    by_cases high : n ≤ i <;> simp [bound, high]
  · have large : w ≤ i := by omega
    simp [getLsbD_of_ge _ _ large]

theorem pack_and_highMask (n : ℕ) (base flags : BitVec w) :
    pack n base flags &&& highMask w n = base &&& highMask w n := by
  apply eq_of_getLsbD_eq
  intro i bound
  by_cases high : n ≤ i <;> simp [high]

theorem toNat_pack_and_highMask (n : ℕ) (base flags : BitVec w) :
    (pack n base flags &&& highMask w n).toNat = base.toNat / 2 ^ n * 2 ^ n := by
  rw [pack_and_highMask, toNat_and_highMask]

theorem hasFlag_pack {n i : ℕ} (low : i < n) (bound : i < w) (base flags : BitVec w) :
    hasFlag (pack n base flags) (twoPow w i) = flags.getLsbD i := by
  rw [hasFlag_twoPow _ bound, getLsbD_pack, if_neg (by omega)]

end MicroOs.BitMask
