import Mathlib.Data.Nat.Digits.Lemmas
import MicroOs.Libc.WellFormed

/-! # Fields of digits

`inttodigits` writes the digits of a number from right to left and none for zero. `fmt_signed` and `fmt_unsigned` put
zeros in front of them twice, for the precision and for a field that is filled with zeros, and `fmt_str_val` works the
padding out once more from the lengths it is given. As long as the lengths stay in the range of an `int` the three
computations agree, and a field is spaces, a prefix, zeros, digits and spaces.
-/

namespace MicroOs.Libc

open List

def digitOf (ch : Byte) : ℕ :=
  if isdigit ch then ch.toNat - 0x30 else if 0x61 ≤ ch.toNat then ch.toNat - 0x61 + 10 else ch.toNat - 0x41 + 10

/-- The number that digits denote, the most significant one first. -/
def numeral (base : ℕ) (digits : List Byte) : ℕ := Nat.ofDigits base (digits.reverse.map digitOf)

def charOf (digitset : List Char) (digit : ℕ) : Byte := ascii (digitset.getD digit '0')

/-- The characters of a digit set stand for their positions. -/
def Spells (digitset : List Char) : Prop := ∀ digit < 16, digitOf (charOf digitset digit) = digit

theorem spells_lowerhex : Spells lowerhex := by
  unfold Spells
  decide

theorem spells_upperhex : Spells upperhex := by
  unfold Spells
  decide

section Digits

variable {base num : ℕ} {digitset : List Char}

theorem inttodigitsLoop_eq (large : 1 < base) (fuel : ℕ) (digits : List Byte) (small : num < base ^ fuel) :
    inttodigitsLoop base digitset fuel num digits =
      ((Nat.digits base num).map (charOf digitset)).reverse ++ digits := by
  induction fuel generalizing num digits with
  | zero =>
    obtain rfl : num = 0 := by simpa using small
    simp [inttodigitsLoop]
  | succ fuel ih =>
    rw [inttodigitsLoop]
    split_ifs with zero
    · subst zero
      simp
    · have less : num / base < base ^ fuel := Nat.div_lt_of_lt_mul (by rwa [← pow_succ'])
      rw [ih _ less, Nat.digits_def' large (Nat.pos_of_ne_zero zero), map_cons, reverse_cons, append_assoc]
      rfl

theorem inttodigits_eq (large : 1 < base) (small : num < 2 ^ 64) :
    inttodigits num base digitset = ((Nat.digits base num).map (charOf digitset)).reverse := by
  have bound : num < base ^ 64 := lt_of_lt_of_le small (Nat.pow_le_pow_left large 64)
  rw [inttodigits, inttodigitsLoop_eq large 64 [] bound, append_nil]

theorem inttodigits_length_le (large : 1 < base) (small : num < 2 ^ 64) :
    (inttodigits num base digitset).length ≤ 64 := by
  rw [inttodigits_eq large small, length_reverse, length_map, Nat.digits_length_le_iff large]
  exact lt_of_lt_of_le small (Nat.pow_le_pow_left large 64)

theorem numeral_inttodigits (spells : Spells digitset) (large : 1 < base) (hex : base ≤ 16) (small : num < 2 ^ 64) :
    numeral base (inttodigits num base digitset) = num := by
  rw [numeral, inttodigits_eq large small, reverse_reverse, map_map]
  have same : (Nat.digits base num).map (digitOf ∘ charOf digitset) = Nat.digits base num := by
    conv_rhs => rw [← map_id (Nat.digits base num)]
    apply map_congr_left
    intro digit member
    exact spells digit (lt_of_lt_of_le (Nat.digits_lt_base large member) hex)
  rw [same, Nat.ofDigits_digits]

theorem inttodigits_eq_nil_iff (large : 1 < base) (small : num < 2 ^ 64) :
    inttodigits num base digitset = [] ↔ num = 0 := by
  rw [inttodigits_eq large small, reverse_eq_nil_iff, map_eq_nil_iff, Nat.digits_eq_nil_iff_eq_zero]

/-- No digits are written in front of the first one that counts. -/
theorem inttodigits_head (spells : Spells digitset) (large : 1 < base) (hex : base ≤ 16) (small : num < 2 ^ 64) :
    (inttodigits num base digitset).head? ≠ some (ascii '0') := by
  rw [inttodigits_eq large small, head?_reverse, getLast?_map]
  intro leads
  obtain ⟨digit, last, zero⟩ := Option.map_eq_some_iff.mp leads
  have nonempty : Nat.digits base num ≠ [] := by
    intro empty
    simp [empty] at last
  have member := mem_of_getLast? last
  have value : digit = 0 := by
    rw [← spells digit (lt_of_lt_of_le (Nat.digits_lt_base large member) hex), zero]
    decide
  rw [getLast?_eq_some_getLast nonempty, Option.some.injEq, value] at last
  exact Nat.getLast_digit_ne_zero base (Nat.digits_ne_nil_iff_ne_zero.mp nonempty) last

theorem mem_inttodigits (large : 1 < base) (small : num < 2 ^ 64) {ch : Byte}
    (member : ch ∈ inttodigits num base digitset) : ∃ digit < base, ch = charOf digitset digit := by
  rw [inttodigits_eq large small, mem_reverse, mem_map] at member
  obtain ⟨digit, inside, rfl⟩ := member
  exact ⟨digit, Nat.digits_lt_base large inside, rfl⟩

end Digits

/-- A field: spaces, a prefix, zeros, digits and spaces. -/
def fieldText (before : ℕ) (pre : List Byte) (zeros : ℕ) (digits : List Byte) (after : ℕ) : List Byte :=
  replicate before (ascii ' ') ++ pre ++ replicate zeros (ascii '0') ++ digits ++
    replicate after (ascii ' ')

theorem length_fieldText (before : ℕ) (pre : List Byte) (zeros : ℕ) (digits : List Byte) (after : ℕ) :
    (fieldText before pre zeros digits after).length =
      before + pre.length + zeros + digits.length + after := by
  simp only [fieldText, length_append, length_replicate]

theorem fpad_ite (ch : Byte) {count : ℕ} (small : count < 2 ^ 31) (P : Prop) [Decidable P] :
    (if count ≠ 0 ∧ P then fpad ch (wrap count) else []) = replicate (if P then count else 0) ch := by
  rw [wrap_natCast small, fpad]
  by_cases zero : count = 0
  · simp [zero]
  · simp only [zero, ne_eq, not_false_eq_true, true_and]
    split <;> rfl

variable {spec : FmtSpec} {pre digits : List Byte} {zeropad width : ℕ}

theorem fmtStrVal_digits (asked : spec.width = width) (narrow : width < 2 ^ 31)
    (small : pre.length + zeropad + digits.length < 2 ^ 31) :
    fmtStrVal spec pre zeropad digits intMax =
      fieldText (if spec.left = false then width - (pre.length + zeropad + digits.length) else 0) pre zeropad digits
        (if spec.left = true then width - (pre.length + zeropad + digits.length) else 0) := by
  have limit : wrap (intMax : ℤ) = intMax := wrap_natCast (by decide)
  have len : sizeT (strlen pre + zeropad + min (strlen digits) (wrap intMax)) =
      pre.length + zeropad + digits.length := by
    rw [strlen, strlen, wrap_natCast (by omega), wrap_natCast (by omega), limit]
    unfold sizeT intMax
    omega
  have size : sizeT (width : ℤ) = width := by
    unfold sizeT
    omega
  generalize total : pre.length + zeropad + digits.length = taken at len small ⊢
  have pad : (if taken < width then sizeT ((width : ℤ) - taken) else 0) = width - taken := by
    unfold sizeT
    split <;> omega
  have whole : fputs pre = pre := take_of_length_le (by omega)
  have all : fputsn digits intMax = digits := take_of_length_le (by unfold intMax; omega)
  have zeros := fpad_ite (ascii '0') (show zeropad < 2 ^ 31 by omega) True
  simp only [and_true] at zeros
  simp only [fmtStrVal, len, asked, size, pad, whole, all, zeros]
  rw [fpad_ite _ (by omega), fpad_ite _ (by omega)]
  rfl

/-- The zeros of a field, and the spaces that are left to put. -/
def fieldZeros (spec : FmtSpec) (zeropad len width : ℕ) : ℕ := if spec.zero then zeropad + (width - len) else zeropad

def fieldPad (spec : FmtSpec) (len width : ℕ) : ℕ := if spec.zero then 0 else width - len

theorem fmtDigits_eq (asked : spec.width = width) (narrow : width < 2 ^ 31)
    (small : pre.length + zeropad + digits.length < 2 ^ 31) :
    fmtDigits spec pre digits zeropad =
      let len := pre.length + zeropad + digits.length
      fieldText (if spec.left = false then fieldPad spec len width else 0) pre (fieldZeros spec zeropad len width)
        digits (if spec.left = true then fieldPad spec len width else 0) := by
  have len : wrap (strlen pre + zeropad + digits.length) = (pre.length + zeropad + digits.length : ℕ) := by
    rw [strlen, wrap_natCast (by omega)]
    exact_mod_cast wrap_natCast small
  simp only [fmtDigits, len, asked]
  generalize total : pre.length + zeropad + digits.length = taken at small
  have zeros : (if (taken : ℤ) < width ∧ spec.zero = true then wrap (zeropad + wrap ((width : ℤ) - taken))
      else (zeropad : ℤ)) = (fieldZeros spec zeropad taken width : ℕ) := by
    unfold fieldZeros
    by_cases fill : spec.zero = true
    · simp only [fill, and_true, if_true]
      split
      · have rest : wrap ((width : ℤ) - taken) = (width : ℤ) - taken := wrap_of_int (by omega) (by omega)
        rw [wrap_of_int (by omega) (by omega)]
        omega
      · omega
    · simp [fill]
  have bound : fieldZeros spec zeropad taken width < 2 ^ 31 := by
    unfold fieldZeros
    split <;> omega
  have size : sizeT (fieldZeros spec zeropad taken width : ℤ) = fieldZeros spec zeropad taken width := by
    unfold sizeT
    omega
  have fits : pre.length + fieldZeros spec zeropad taken width + digits.length < 2 ^ 31 := by
    unfold fieldZeros
    split <;> omega
  rw [zeros, size, fmtStrVal_digits asked narrow fits]
  have pad : width - (pre.length + fieldZeros spec zeropad taken width + digits.length) =
      fieldPad spec taken width := by
    unfold fieldZeros fieldPad
    split <;> omega
  rw [pad]

theorem length_fmtDigits {precision : ℕ} (asked : spec.width = width) (narrow : width < 2 ^ 31)
    (small : pre.length + max precision digits.length < 2 ^ 31) :
    (fmtDigits spec pre digits (precision - digits.length : ℕ)).length =
      max width (pre.length + max precision digits.length) := by
  rw [fmtDigits_eq asked narrow (by omega), length_fieldText]
  unfold fieldZeros fieldPad
  cases spec.left <;> cases spec.zero <;> simp <;> omega

/-- The least number of digits, one unless the precision says otherwise. -/
def fieldPrecision (spec : FmtSpec) : ℕ := if spec.precision = wpUnspecified then 1 else spec.precision.toNat

/-- The precision of a conversion once its arguments are pulled. -/
def PrecisionBelow (spec : FmtSpec) (bound : ℕ) : Prop :=
  spec.precision = wpUnspecified ∨ 0 ≤ spec.precision ∧ spec.precision < bound

theorem precisionZeros_eq {digitct : ℕ} (known : PrecisionBelow spec (2 ^ 31)) (few : digitct < 2 ^ 31) :
    precisionZeros spec digitct = (fieldPrecision spec - digitct : ℕ) := by
  unfold precisionZeros fieldPrecision
  rcases known with unspecified | ⟨lower, upper⟩
  · simp only
    split
    · rw [wrap_of_int (by omega) (by omega)]
      omega
    · omega
  · have given : spec.precision ≠ wpUnspecified := by
      unfold wpUnspecified
      omega
    simp only [given, if_false]
    split
    · rw [wrap_of_int (by omega) (by omega)]
      omega
    · omega

namespace Conversion

def base : Conversion → ℕ
  | .b | .B => 2
  | .o => 8
  | .x | .X => 16
  | _ => 10

def digitset : Conversion → List Char
  | .X => upperhex
  | _ => lowerhex

/-- The prefix that `#` selects. An octal number gets a zero unless it has one. -/
def alternative (conversion : Conversion) (precision digitct : ℕ) : List Byte :=
  match conversion with
  | .b => [ascii '0', ascii 'b']
  | .B => [ascii '0', ascii 'B']
  | .x => [ascii '0', ascii 'x']
  | .X => [ascii '0', ascii 'X']
  | .o => if precision ≤ digitct then [ascii '0'] else []
  | _ => []

theorem base_bounds (conversion : Conversion) : 1 < conversion.base ∧ conversion.base ≤ 16 := by
  cases conversion <;> decide

theorem spells_digitset (conversion : Conversion) : Spells conversion.digitset := by
  cases conversion with
  | X => exact spells_upperhex
  | _ => exact spells_lowerhex

end Conversion

structure UnsignedField (conversion : Conversion) (spec : FmtSpec) (uval : ℕ) (text pre digits : List Byte)
    (before zeros after : ℕ) : Prop where
  text_eq : text = fieldText before pre zeros digits after
  right : spec.left = true → before = 0
  left : spec.left = false → after = 0
  filled : spec.zero = true → before = 0 ∧ after = 0
  prefix_eq : pre = if spec.alt then conversion.alternative (fieldPrecision spec) digits.length else []
  alphabet : ∀ ch ∈ digits, ∃ digit < conversion.base, ch = charOf conversion.digitset digit
  leads : digits.head? ≠ some (ascii '0')
  value : numeral conversion.base digits = uval
  length : text.length = max spec.width.toNat (pre.length + max (fieldPrecision spec) digits.length)

theorem fmtUnsigned_conversion {conversion : Conversion} (named : spec.specifier = ascii conversion.char) (uval : ℕ) :
    fmtUnsigned spec uval =
      let digits := inttodigits uval conversion.base conversion.digitset
      let zeropad := precisionZeros spec digits.length
      fmtDigits spec (if spec.alt then altPrefix spec.specifier digits zeropad else []) digits zeropad := by
  have base : unsignedBase spec.specifier = conversion.base := by
    rw [named]
    cases conversion <;> rfl
  have digitset : (if spec.specifier = ascii 'X' then upperhex else lowerhex) = conversion.digitset := by
    rw [named]
    cases conversion <;> rfl
  simp [fmtUnsigned, base, digitset]

theorem altPrefix_eq (conversion : Conversion) (leads : digits.head? ≠ some (ascii '0')) {precision : ℕ} :
    altPrefix (ascii conversion.char) digits (precision - digits.length : ℕ) =
      conversion.alternative precision digits.length := by
  have zero : ((precision - digits.length : ℕ) : ℤ) = 0 ↔ precision ≤ digits.length := by omega
  cases conversion with
  | o =>
    simp only [altPrefix, zero, leads, ne_eq, not_false_eq_true, and_true]
    rfl
  | _ => rfl

theorem length_alternative_le (conversion : Conversion) (precision digitct : ℕ) :
    (conversion.alternative precision digitct).length ≤ 2 := by
  unfold Conversion.alternative
  split
  all_goals first | decide | (split <;> decide)

/-- The field of an unsigned number is laid out as its flags, width and precision ask. -/
theorem unsigned_field_layout {conversion : Conversion}
    (named : spec.specifier = ascii conversion.char) (positive : 0 ≤ spec.width) (narrow : spec.width < 2 ^ 30)
    (precise : PrecisionBelow spec (2 ^ 30)) (uval : BitVec 64) :
    ∃ pre digits before zeros after,
      UnsignedField conversion spec uval.toNat (fmtUnsigned spec uval.toNat) pre digits before zeros after := by
  obtain ⟨large, hex⟩ := conversion.base_bounds
  have spells := conversion.spells_digitset
  have small := uval.isLt
  have few : (inttodigits uval.toNat conversion.base conversion.digitset).length ≤ 64 :=
    inttodigits_length_le large small
  have leads := inttodigits_head spells large hex small
  obtain ⟨width, asked⟩ := Int.eq_ofNat_of_zero_le positive
  have known : PrecisionBelow spec (2 ^ 31) := by
    unfold PrecisionBelow at *
    omega
  have bound : fieldPrecision spec < 2 ^ 30 := by
    unfold fieldPrecision PrecisionBelow wpUnspecified at *
    split <;> omega
  rw [fmtUnsigned_conversion named]
  generalize same : inttodigits uval.toNat conversion.base conversion.digitset = digits at few leads
  have zeros : precisionZeros spec digits.length = (fieldPrecision spec - digits.length : ℕ) :=
    precisionZeros_eq known (by omega)
  have selected : (if spec.alt then altPrefix spec.specifier digits (fieldPrecision spec - digits.length : ℕ) else []) =
      if spec.alt then conversion.alternative (fieldPrecision spec) digits.length else [] := by
    rw [named, altPrefix_eq conversion leads]
  simp only [zeros, selected]
  generalize chosen : (if spec.alt then conversion.alternative (fieldPrecision spec) digits.length else []) = pre
  have short : pre.length ≤ 2 := by
    rw [← chosen]
    split
    · exact length_alternative_le ..
    · decide
  have length : (fmtDigits spec pre digits (fieldPrecision spec - digits.length : ℕ)).length =
      max width (pre.length + max (fieldPrecision spec) digits.length) := length_fmtDigits asked (by omega) (by omega)
  rw [fmtDigits_eq asked (by omega) (by omega)] at length ⊢
  refine ⟨pre, digits, _, _, _, ⟨rfl, ?_, ?_, ?_, chosen.symm, ?_, leads, ?_, ?_⟩⟩
  · intro left
    simp [left]
  · intro right
    simp [right]
  · intro fill
    simp [fieldPad, fill]
  · intro ch member
    exact mem_inttodigits large small (same ▸ member)
  · rw [← same]
    exact numeral_inttodigits spells large hex small
  · rw [length, asked]
    rfl

def octalSpec : FmtSpec := { start := [], alt := true, width := 8, precision := 3, specifier := ascii 'o' }

/-- Three digits of 8 start with a zero, so there is no prefix. -/
theorem unsigned_field_octal :
    fmtUnsigned octalSpec 8 = [' ', ' ', ' ', ' ', ' ', '0', '1', '0'].map ascii ∧
      ∃ pre digits before zeros after,
        UnsignedField .o octalSpec 8 (fmtUnsigned octalSpec 8) pre digits before zeros after := by
  have field : ∃ pre digits before zeros after, UnsignedField .o octalSpec (8 : BitVec 64).toNat
      (fmtUnsigned octalSpec (8 : BitVec 64).toNat) pre digits before zeros after :=
    unsigned_field_layout rfl (by decide) (by decide) (.inr (by decide)) 8
  exact ⟨by decide, field⟩

end MicroOs.Libc
