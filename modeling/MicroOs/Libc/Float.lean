import MicroOs.Libc.Decimal

/-! # Printing floating-point values

`fmt_float` splits the magnitude of a value at the point, rounds the fraction to as many digits as the precision asks
for, and writes exponent, fraction, point and whole part into a buffer from right to left.

The fraction is rounded on its own. One that is rounded up to the next whole number is written with a digit too many
and nothing is carried, with precision 0 it even brings a point with it, and a whole part of zero is written only in
front of a point.
-/

namespace MicroOs.Libc

open List Option

section Rounding

variable {v : ℚ≥0} {p : ℕ}

/-- Rounding half up is taking the whole part of the value and one half. -/
theorem fracpart_eq (small : v < 2 ^ 64) : fracpart v = some ⌊v + 1 / 2⌋₊ := by
  have whole : (⌊v⌋₊ : ℚ≥0) ≤ v := Nat.floor_le zero_le
  have lower : (⌊v⌋₊ : ℚ) ≤ v := by exact_mod_cast whole
  have upper : (v : ℚ) < ⌊v⌋₊ + 1 := by exact_mod_cast Nat.lt_floor_add_one v
  have half : 1 / 2 ≤ v - ⌊v⌋₊ ↔ (⌊v⌋₊ : ℚ) + 1 / 2 ≤ v := by
    rw [le_tsub_iff_left whole]
    rfl
  have rounded : ⌊v + 1 / 2⌋₊ = if 1 / 2 ≤ v - ⌊v⌋₊ then ⌊v⌋₊ + 1 else ⌊v⌋₊ := by
    rw [Nat.floor_eq_iff zero_le, ← NNRat.coe_le_coe, ← NNRat.coe_lt_coe]
    simp only [half]
    split
    all_goals
      push_cast
      constructor <;> linarith
  rw [rounded, fracpart, toUintmax, if_pos small]
  rfl

theorem fractionMul_eq (small : p ≤ 9) : fractionMul 10 p = 10 ^ p := by
  interval_cases p <;> rfl

theorem fraction_lt (v : ℚ≥0) (p : ℕ) : (v - ⌊v⌋₊) * (10 ^ p : ℕ) < 10 ^ p := by
  have lower : (⌊v⌋₊ : ℚ≥0) ≤ v := Nat.floor_le zero_le
  have below : v - ⌊v⌋₊ < 1 := (tsub_lt_iff_left lower).mpr (Nat.lt_floor_add_one v)
  have positive : (0 : ℚ≥0) < 10 ^ p := by positivity
  calc (v - ⌊v⌋₊) * (10 ^ p : ℕ) = (v - ⌊v⌋₊) * 10 ^ p := by push_cast; rfl
    _ < 1 * 10 ^ p := mul_lt_mul_of_pos_right below positive
    _ = 10 ^ p := one_mul _

theorem floor_scaled (v : ℚ≥0) (p : ℕ) :
    ⌊v * 10 ^ p + 1 / 2⌋₊ = ⌊v⌋₊ * 10 ^ p + ⌊(v - ⌊v⌋₊) * (10 ^ p : ℕ) + 1 / 2⌋₊ := by
  have lower : (⌊v⌋₊ : ℚ≥0) ≤ v := Nat.floor_le zero_le
  have parts : v * 10 ^ p + 1 / 2 = (v - ⌊v⌋₊) * (10 ^ p : ℕ) + 1 / 2 + (⌊v⌋₊ * 10 ^ p : ℕ) := by
    conv_lhs => rw [← tsub_add_cancel_of_le lower]
    push_cast
    ring
  rw [parts, Nat.floor_add_natCast zero_le, Nat.add_comm]

end Rounding

def Digits (text : List Byte) : Prop := ∀ ch ∈ text, isdigit ch = true

/-- The text of a number with `p` digits after the point, counted in units of the last one. -/
def FixedPoint (text : List Byte) (p value : ℕ) : Prop :=
  ∃ whole frac, text = whole ++ (if p = 0 then [] else ascii '.' :: frac) ∧ whole ≠ [] ∧ Digits whole ∧ Digits frac ∧
    frac.length = p ∧ numeral 10 (whole ++ frac) = value

def wholeText (whole : ℕ) : List Byte := if whole = 0 then [ascii '0'] else inttodigits whole 10 lowerhex

def fracText (p frac : ℕ) : List Byte :=
  replicate (p - (inttodigits frac 10 lowerhex).length) (ascii '0') ++ inttodigits frac 10 lowerhex

section Text

variable {num p whole frac : ℕ}

theorem digits_inttodigits (small : num < 2 ^ 64) : Digits (inttodigits num 10 lowerhex) :=
  isdigit_decimalDigits (show (num : ℤ).natAbs < 2 ^ 64 from small)

theorem digits_wholeText (small : whole < 2 ^ 64) : Digits (wholeText whole) := by
  unfold wholeText
  split
  · unfold Digits
    decide
  · exact digits_inttodigits small

theorem wholeText_ne_nil (small : whole < 2 ^ 64) : wholeText whole ≠ [] := by
  unfold wholeText
  split
  · decide
  · next nonzero =>
    rwa [ne_eq, inttodigits_eq_nil_iff (by decide) small]

theorem numeral_wholeText (small : whole < 2 ^ 64) : numeral 10 (wholeText whole) = whole := by
  unfold wholeText
  split
  · next zero =>
    rw [zero]
    decide
  · exact numeral_inttodigits spells_lowerhex (by decide) (by decide) small

theorem digits_fracText (small : frac < 2 ^ 64) : Digits (fracText p frac) := by
  intro ch member
  rcases mem_append.mp member with zero | digit
  · rw [eq_of_mem_replicate zero]
    decide
  · exact digits_inttodigits small ch digit

theorem numeral_fracText (small : frac < 2 ^ 64) : numeral 10 (fracText p frac) = frac := by
  rw [fracText, numeral_zeros]
  exact numeral_inttodigits spells_lowerhex (by decide) (by decide) small

/-- A fraction has the digits that are asked for unless it is rounded up to the next whole number. -/
theorem length_fracText_eq_iff (small : frac < 2 ^ 64) : (fracText p frac).length = p ↔ frac < 10 ^ p := by
  have digits : (inttodigits frac 10 lowerhex).length ≤ p ↔ frac < 10 ^ p := by
    rw [inttodigits_eq (by decide) small, length_reverse, length_map, Nat.digits_length_le_iff (by decide)]
  rw [fracText, length_append, length_replicate]
  omega

theorem numeral_append (base : ℕ) (upper lower : List Byte) :
    numeral base (upper ++ lower) = numeral base upper * base ^ lower.length + numeral base lower := by
  simp only [numeral, reverse_append, map_append, Nat.ofDigits_append, length_map, length_reverse]
  ring

theorem dropWhile_digits_point {text rest : List Byte} (digits : Digits text) :
    (text ++ ascii '.' :: rest).dropWhile isdigit = ascii '.' :: rest := by
  rw [dropWhile_append_of_pos digits, dropWhile_cons_of_neg (by decide)]

theorem pointText_point (small : whole < 2 ^ 64) (point : frac ≠ 0 ∨ p ≠ 0) :
    pointText 10 p false whole frac [] = wholeText whole ++ ascii '.' :: fracText p frac := by
  have chosen : frac ≠ 0 ∨ p ≠ 0 ∨ false = true := by tauto
  simp only [pointText, append_nil, if_pos chosen, wholeText]
  by_cases zero : whole = 0
  · subst zero
    rfl
  · have nonempty : inttodigits whole 10 lowerhex ≠ [] := by rwa [ne_eq, inttodigits_eq_nil_iff (by decide) small]
    obtain ⟨ch, rest, same⟩ := exists_cons_of_ne_nil nonempty
    have digit : isdigit ch = true := digits_inttodigits small ch (by simp [same])
    have other : ch ≠ ascii '.' := by
      rintro rfl
      exact absurd digit (by decide)
    simp [same, zero, other, fracText]

theorem pointText_plain (small : whole < 2 ^ 64) : pointText 10 0 false whole 0 [] = inttodigits whole 10 lowerhex := by
  have other : (inttodigits whole 10 lowerhex).head? ≠ some (ascii '.') := by
    intro head
    have digit := digits_inttodigits small _ (mem_of_mem_head? head)
    exact absurd digit (by decide)
  have none : inttodigits 0 10 lowerhex = [] := rfl
  simp [pointText, none, other]

/-- The text is that of the value exactly if the fraction stays below one and a whole part that stands alone is not
zero. -/
theorem fixedPoint_pointText_iff (wholeSmall : whole < 2 ^ 64) (fracSmall : frac < 2 ^ 64) :
    FixedPoint (pointText 10 p false whole frac []) p (whole * 10 ^ p + frac) ↔
      (p = 0 → 1 ≤ whole) ∧ frac < 10 ^ p := by
  constructor
  · rintro ⟨whole', frac', text, nonempty, wholeDigits, fracDigits, length, -⟩
    rcases Nat.eq_zero_or_pos p with rfl | positive
    · rw [if_pos rfl, append_nil] at text
      rcases Nat.eq_zero_or_pos frac with rfl | rounded
      · rw [pointText_plain wholeSmall] at text
        rw [← text, ne_eq, inttodigits_eq_nil_iff (by decide) wholeSmall] at nonempty
        omega
      · -- the point that comes with the fraction is not a digit
        rw [pointText_point wholeSmall (by omega)] at text
        have point := wholeDigits (ascii '.') (by simp [← text])
        exact absurd point (by decide)
    · rw [pointText_point wholeSmall (by omega), if_neg (by omega)] at text
      have behind := congrArg (dropWhile isdigit) text
      rw [dropWhile_digits_point (digits_wholeText wholeSmall), dropWhile_digits_point wholeDigits,
        cons.injEq] at behind
      rw [← behind.2, length_fracText_eq_iff fracSmall] at length
      exact ⟨by omega, length⟩
  · rintro ⟨shown, below⟩
    rcases Nat.eq_zero_or_pos p with rfl | positive
    · obtain rfl : frac = 0 := by simpa using below
      refine ⟨inttodigits whole 10 lowerhex, [], ?_, ?_, digits_inttodigits wholeSmall, ?_, rfl, ?_⟩
      · rw [pointText_plain wholeSmall, if_pos rfl, append_nil]
      · rw [ne_eq, inttodigits_eq_nil_iff (by decide) wholeSmall]
        omega
      · exact forall_mem_nil _
      · rw [append_nil, numeral_inttodigits spells_lowerhex (by decide) (by decide) wholeSmall]
        omega
    · have length := (length_fracText_eq_iff fracSmall).mpr below
      refine ⟨wholeText whole, fracText p frac, ?_, wholeText_ne_nil wholeSmall, digits_wholeText wholeSmall,
        digits_fracText fracSmall, length, ?_⟩
      · rw [pointText_point wholeSmall (by omega), if_neg (by omega)]
      · rw [numeral_append, numeral_wholeText wholeSmall, numeral_fracText fracSmall, length]

end Text

def fixedFormat (p : Fin 10) : List Byte := [ascii '%', ascii '.', digitChar p, ascii 'f']

def printFixed (memory : Memory) (args : ℕ) (p : Fin 10) (v : ℚ≥0) : Option (List Byte) := do
  let (spec, _) ← parseSpec (fixedFormat p)
  let (spec, args) := adjustWidth memory spec args
  let (spec, _) := adjustPrecision memory spec args
  fmtFloat spec (.finite false v)

def fixedSpec (p : Fin 10) : FmtSpec := { start := fixedFormat p, len := 4, precision := p, specifier := ascii 'f' }

section Fixed

variable {memory : Memory} {args : ℕ} {p : Fin 10} {v : ℚ≥0}

theorem parseSpec_fixed (p : Fin 10) :
    parseSpec (fixedFormat p) = some ({ fixedSpec p with width := wpUnspecified }, []) := by
  decide +revert

theorem adjust_fixed : adjustWidth memory { fixedSpec p with width := wpUnspecified } args = (fixedSpec p, args) ∧
    adjustPrecision memory (fixedSpec p) args = (fixedSpec p, args) := by
  have number : (fixedSpec p).precision ≠ wpStar := by
    change ((p : ℕ) : ℤ) ≠ -2
    omega
  have positive : ¬(fixedSpec p).precision < 0 := by
    change ¬((p : ℕ) : ℤ) < 0
    omega
  refine ⟨rfl, ?_⟩
  simp [adjustPrecision, number, positive]

theorem printFixed_eq : printFixed memory args p v = fmtFloat (fixedSpec p) (.finite false v) := by
  simp only [printFixed, parseSpec_fixed, bind_eq_bind, bind_some, adjust_fixed]

/-- The text is what `vfprintf` prints if the value is its argument, as a `double`. -/
theorem vfprintf_fixed {text : List Byte} (double : doubleAt memory args = .finite false v)
    (printed : printFixed memory args p v = some text) : vfprintf memory (fixedFormat p) args = (text, .done) := by
  have converted : convert memory (fixedSpec p) args = .ok (text, args + 8) := by
    have specifier : (fixedSpec p).specifier = ascii 'f' := rfl
    have pulled : floatArg memory (fixedSpec p) args = .ok (.finite false v, args + 8) := by
      rw [← double]
      rfl
    rw [printFixed_eq] at printed
    simp [convert, specifier, ascii, pulled, printed]
  have round : vfprintfLoop memory 4 (fixedFormat p) args = (text ++ [], .done) :=
    vfprintfLoop_round (by simp [fixedFormat]) (parseSpec_fixed p) adjust_fixed.1 adjust_fixed.2 converted
  rw [append_nil] at round
  exact round

theorem roundedFraction_le (v : ℚ≥0) (p : ℕ) : roundedFraction v p ≤ 10 ^ p := by
  have below := fraction_lt v p
  have less : (v - ⌊v⌋₊) * (10 ^ p : ℕ) + 1 / 2 < (10 ^ p + 1 : ℕ) := by
    push_cast at below ⊢
    exact add_lt_add below (by norm_num [← NNRat.coe_lt_coe])
  have := (Nat.floor_lt zero_le).mpr less
  unfold roundedFraction
  omega

theorem unit_lt (p : Fin 10) : 10 ^ (p : ℕ) < 2 ^ 64 := by decide +revert

theorem length_pointText_le {whole frac : ℕ} (wholeSmall : whole < 2 ^ 64) (fracSmall : frac < 2 ^ 64) (p : Fin 10) :
    (pointText 10 p false whole frac []).length < floatBufSize := by
  have wholeDigits : (inttodigits whole 10 lowerhex).length ≤ 64 := inttodigits_length_le (by decide) wholeSmall
  have fracDigits : (inttodigits frac 10 lowerhex).length ≤ 64 := inttodigits_length_le (by decide) fracSmall
  simp only [pointText, floatBufSize]
  split_ifs <;> simp only [length_append, length_cons, length_replicate, length_nil] <;> omega

theorem fmtStrVal_fixed {text : List Byte} (short : text.length < floatBufSize) :
    fmtStrVal (fixedSpec p) [] 0 text intMax = text := by
  unfold floatBufSize at short
  rw [fmtStrVal_digits (show (fixedSpec p).width = (0 : ℕ) from rfl) (by decide) (by simp; omega)]
  simp [fieldText]

theorem fmtFloat_fixed (small : v < 2 ^ 63) :
    fmtFloat (fixedSpec p) (.finite false v) = some (pointText 10 p false ⌊v⌋₊ (roundedFraction v p) []) := by
  have fits : v < 2 ^ 64 := lt_trans small (by norm_num [← NNRat.coe_lt_coe])
  have precision : (fixedSpec p).precision ≠ wpUnspecified := by
    change ((p : ℕ) : ℤ) ≠ -1
    omega
  have count : (fixedSpec p).precision.toNat = p := Int.toNat_natCast _
  have form : floatForm (fixedSpec p).specifier = {} := by
    rfl
  have sign : signstr false (fixedSpec p) = [] := rfl
  have whole : toUintmax v = some ⌊v⌋₊ := if_pos fits
  have below : (v - ⌊v⌋₊) * (10 ^ (p : ℕ) : ℕ) < 2 ^ 64 := by
    apply lt_trans (fraction_lt v p)
    exact_mod_cast unit_lt p
  have rounded : fracpart ((v - ⌊v⌋₊) * (10 ^ (p : ℕ) : ℕ)) = some (roundedFraction v p) := fracpart_eq below
  have wholeSmall : ⌊v⌋₊ < 2 ^ 64 := (Nat.floor_lt zero_le).mpr (by exact_mod_cast fits)
  have fracSmall := (roundedFraction_le v p).trans_lt (unit_lt p)
  have short := length_pointText_le wholeSmall fracSmall p
  have mul := fractionMul_eq (Nat.le_of_lt_succ p.isLt)
  have plain : (fixedSpec p).zero = false := rfl
  have alt : (fixedSpec p).alt = false := rfl
  simp only [fmtFloat, if_neg precision, form, sign, count, mul, whole, plain, alt, bind_eq_bind,
    bind_some, rounded, map_nil, append_nil, Bool.false_eq_true, if_false]
  rw [if_pos short, fmtStrVal_fixed short]

end Fixed

/-- A value is printed as the nearest multiple of a unit of its last digit exactly if its fraction is not rounded up
to one and, with no digits after the point, it is at least one. -/
theorem fixed_point_rounds_iff {v : ℚ≥0} (small : v < 2 ^ 63) (p : Fin 10) (memory : Memory) (args : ℕ) :
    (∃ text, printFixed memory args p v = some text ∧ FixedPoint text p ⌊v * 10 ^ (p : ℕ) + 1 / 2⌋₊) ↔
      (p = 0 → 1 ≤ v) ∧ (v - ⌊v⌋₊) * 10 ^ (p : ℕ) + 1 / 2 < 10 ^ (p : ℕ) := by
  have wholeSmall : ⌊v⌋₊ < 2 ^ 64 := by
    have := (Nat.floor_lt (zero_le (a := v))).mpr (show v < (2 ^ 63 : ℕ) by exact_mod_cast small)
    omega
  have fracSmall := (roundedFraction_le v p).trans_lt (unit_lt p)
  have shown : (p = 0 → 1 ≤ v) ↔ ((p : ℕ) = 0 → 1 ≤ ⌊v⌋₊) := by
    rw [Nat.one_le_floor_iff, Fin.val_eq_zero_iff]
  have below : (v - ⌊v⌋₊) * 10 ^ (p : ℕ) + 1 / 2 < 10 ^ (p : ℕ) ↔ roundedFraction v p < 10 ^ (p : ℕ) := by
    rw [roundedFraction, Nat.floor_lt zero_le]
    push_cast
    rfl
  rw [shown, below, ← fixedPoint_pointText_iff wholeSmall fracSmall, printFixed_eq, fmtFloat_fixed small, floor_scaled]
  simp only [some.injEq, exists_eq_left']
  rfl

/-- Two and a half is printed as it is. -/
theorem fixed_point_two_and_half :
    ∃ text, printFixed (fun _ => 0) 0 1 (5 / 2) = some text ∧ FixedPoint text 1 ⌊(5 / 2 : ℚ≥0) * 10 ^ 1 + 1 / 2⌋₊ :=
  (fixed_point_rounds_iff (by decide +kernel) 1 (fun _ => 0) 0).mpr ⟨by decide, by decide +kernel⟩

/-- One digit of 0.99 is printed as `0.10`, where it is 1.0. -/
theorem fixed_point_loses_carry :
    (99 / 100 : ℚ≥0) < 2 ^ 63 ∧ printFixed (fun _ => 0) 0 1 (99 / 100) = some (['0', '.', '1', '0'].map ascii) ∧
      ⌊(99 / 100 : ℚ≥0) * 10 ^ 1 + 1 / 2⌋₊ = 10 ∧ ¬FixedPoint (['0', '.', '1', '0'].map ascii) 1 10 := by
  refine ⟨by decide +kernel, by decide +kernel, by decide +kernel, ?_⟩
  rintro ⟨whole, frac, text, -, digits, -, length, -⟩
  have behind := congrArg (dropWhile isdigit) text
  rw [if_neg (by decide), dropWhile_digits_point digits] at behind
  have two : frac = [ascii '1', ascii '0'] := (cons.inj behind).2.symm
  rw [two] at length
  exact absurd length (by decide)

end MicroOs.Libc
