import Mathlib.Algebra.Order.Ring.Int

/-! # The 32-bit integers of the C code

Values of type `int` are kept as integers and taken back into their range after each operation; values of type `size_t`
are kept as natural numbers.
-/

namespace MicroOs

def wrap (x : ℤ) : ℤ := x.bmod (2 ^ 32)

def sizeT (x : ℤ) : ℕ := (x % 2 ^ 32).toNat

theorem wrap_of_int {x : ℤ} (lower : -2 ^ 31 ≤ x) (upper : x < 2 ^ 31) : wrap x = x := by
  apply Int.bmod_eq_of_le
  · omega
  · omega

theorem wrap_natCast {count : ℕ} (small : count < 2 ^ 31) : wrap (count : ℤ) = count :=
  wrap_of_int (by omega) (by omega)

theorem wrap_wrap_add (x y : ℤ) : wrap (wrap x + y) = wrap (x + y) := Int.bmod_add_bmod

theorem wrap_add_wrap (x y : ℤ) : wrap (x + wrap y) = wrap (x + y) := Int.add_bmod_bmod

theorem wrap_natCast_eq_iff {count : ℕ} (below : count < 2 ^ 32) : wrap (count : ℤ) = count ↔ count < 2 ^ 31 := by
  refine ⟨fun same => ?_, wrap_natCast⟩
  have upper : wrap (count : ℤ) < (2 ^ 32 + 1) / 2 := Int.bmod_lt (by decide)
  omega

end MicroOs
