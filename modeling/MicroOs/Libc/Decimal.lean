import MicroOs.Libc.Bounded
import MicroOs.Libc.Fields

/-! # Decimal numbers printed and read back

`atoi` skips white space, takes one sign and reads digits, all in `int` arithmetic. What `%d` prints is a field of
digits behind a sign, and whatever flags, width and precision do to the field, the reader finds the sign and the digits
in it: a space for a sign counts as white space, zeros do not change the value, and the empty digits of a zero with
precision 0 are read as zero. The digits of the least `int` are out of range, and so is the value with its sign taken
off; both wrap around to the same number.
-/

namespace MicroOs.Libc

open List

def isspace (ch : Byte) : Bool := ([0x20, 0x09, 0x0a, 0x0d, 0x0c, 0x0b] : List Byte).contains ch

def atoi (s : List Byte) : ℤ :=
  let s := s.dropWhile isspace
  let isnegative := s.head? = some (ascii '-')
  let s := if s.head? = some (ascii '+') ∨ s.head? = some (ascii '-') then s.tail else s
  let n := intOfDigits (s.takeWhile isdigit)
  if isnegative then wrap (-n) else n

theorem numeral_concat (base : ℕ) (digits : List Byte) (ch : Byte) :
    numeral base (digits ++ [ch]) = numeral base digits * base + digitOf ch := by
  simp only [numeral, reverse_append, reverse_singleton, singleton_append, map_cons, Nat.ofDigits_cons]
  ring

theorem numeral_zeros (base zeros : ℕ) (digits : List Byte) :
    numeral base (replicate zeros (ascii '0') ++ digits) = numeral base digits := by
  have zero : digitOf (ascii '0') = 0 := by decide
  simp [numeral, zero]

theorem digitValue_eq {ch : Byte} (digit : isdigit ch = true) : digitValue ch = digitOf ch := by
  have lower : 0x30 ≤ ch.toNat := by
    simp only [isdigit, Bool.and_eq_true, decide_eq_true_eq] at digit
    exact digit.1
  rw [digitOf, if_pos digit, digitValue]
  omega

theorem intOfDigits_eq {digits : List Byte} (all : ∀ ch ∈ digits, isdigit ch = true) :
    intOfDigits digits = wrap (numeral 10 digits) := by
  induction digits using reverseRecOn with
  | nil => rfl
  | append_singleton digits ch ih =>
    have before := ih fun ch member => all ch (mem_append_left _ member)
    have last := digitValue_eq (all ch (by simp))
    rw [numeral_concat, intOfDigits, foldl_append]
    change wrap (wrap (intOfDigits digits * 10) + digitValue ch) = _
    rw [before, last]
    simp only [wrap, Int.bmod_mul_bmod, Int.bmod_add_bmod]
    rfl

section Reading

variable {number : List Byte}

theorem dropWhile_spaces (before : ℕ) (rest : List Byte) :
    (replicate before (ascii ' ') ++ rest).dropWhile isspace = rest.dropWhile isspace := by
  rw [dropWhile_append_of_pos]
  intro ch member
  rw [eq_of_mem_replicate member]
  decide

theorem isdigit_not_isspace {ch : Byte} (digit : isdigit ch = true) :
    isspace ch = false ∧ ch ≠ ascii '+' ∧ ch ≠ ascii '-' := by
  revert ch
  decide

section

variable (all : ∀ ch ∈ number, isdigit ch = true)
include all

theorem takeWhile_number (after : ℕ) : (number ++ replicate after (ascii ' ')).takeWhile isdigit = number := by
  have stops : (replicate after (ascii ' ')).takeWhile isdigit = [] := by
    cases after <;> rfl
  rw [takeWhile_append_of_pos all, stops, append_nil]

theorem dropWhile_number (after : ℕ) : ∃ left, (number ++ replicate after (ascii ' ')).dropWhile isspace =
      number ++ replicate left (ascii ' ') := by
  cases number with
  | nil =>
    refine ⟨0, ?_⟩
    have dropped := dropWhile_spaces after []
    simpa using dropped
  | cons ch number =>
    refine ⟨after, ?_⟩
    have digit := isdigit_not_isspace (all ch (by simp))
    rw [cons_append, dropWhile_cons_of_neg (by simp [digit.1])]

theorem head_number (after : ℕ) : (number ++ replicate after (ascii ' ')).head? ≠ some (ascii '+') ∧
      (number ++ replicate after (ascii ' ')).head? ≠ some (ascii '-') := by
  cases number with
  | nil =>
    have space : ascii ' ' ≠ ascii '+' ∧ ascii ' ' ≠ ascii '-' := by decide
    cases after with
    | zero => exact ⟨by decide, by decide⟩
    | succ after => simpa [replicate_succ] using space
  | cons ch number =>
    have digit := isdigit_not_isspace (all ch (by simp))
    simpa using digit.2

theorem atoi_number (before after : ℕ) :
    atoi (replicate before (ascii ' ') ++ (number ++ replicate after (ascii ' '))) = wrap (numeral 10 number) := by
  obtain ⟨left, found⟩ := dropWhile_number all after
  obtain ⟨noPlus, noMinus⟩ := head_number all left
  simp only [atoi, dropWhile_spaces, found, noPlus, noMinus, or_self, if_false, takeWhile_number all,
    intOfDigits_eq all]

end

theorem dropWhile_sign {sign : Byte} (ends : isspace sign = false) (before : ℕ) (rest : List Byte) :
    (replicate before (ascii ' ') ++ sign :: rest).dropWhile isspace = sign :: rest := by
  rw [dropWhile_spaces, dropWhile_cons_of_neg (by simp [ends])]

theorem atoi_plus (all : ∀ ch ∈ number, isdigit ch = true) (before after : ℕ) :
    atoi (replicate before (ascii ' ') ++ ascii '+' :: (number ++ replicate after (ascii ' '))) =
      wrap (numeral 10 number) := by
  have other : ascii '+' ≠ ascii '-' := by decide
  have visible : isspace (ascii '+') = false := by decide
  simp [atoi, dropWhile_sign visible, other, tail_cons, takeWhile_number all, intOfDigits_eq all]

theorem atoi_minus (all : ∀ ch ∈ number, isdigit ch = true) (before after : ℕ) :
    atoi (replicate before (ascii ' ') ++ ascii '-' :: (number ++ replicate after (ascii ' '))) =
      wrap (-numeral 10 number) := by
  simp only [atoi, dropWhile_sign (show isspace (ascii '-') = false by decide), head?_cons, or_true, if_true,
    tail_cons, takeWhile_number all, intOfDigits_eq all]
  simp [wrap]

/-- Whatever stands in front of the digits, and however many zeros, the reader gets the number and its sign. -/
theorem atoi_fieldText (spec : FmtSpec) (isneg : Bool) (all : ∀ ch ∈ number, isdigit ch = true)
    (before zeros after : ℕ) :
    atoi (fieldText before (signstr isneg spec) zeros number after) =
      wrap (if isneg then -numeral 10 number else numeral 10 number) := by
  have digits : ∀ ch ∈ replicate zeros (ascii '0') ++ number, isdigit ch = true := by
    intro ch member
    rcases mem_append.mp member with zero | digit
    · rw [eq_of_mem_replicate zero]
      decide
    · exact all ch digit
  have value := numeral_zeros 10 zeros number
  simp only [fieldText, append_assoc]
  rw [← append_assoc (replicate zeros (ascii '0'))]
  unfold signstr
  split_ifs with negative plus space
  · rw [singleton_append, atoi_minus digits, value]
  · rw [singleton_append, atoi_plus digits, value]
  · -- the space is one more of those in front
    have spaces := atoi_number digits (before + 1) after
    rwa [replicate_succ', append_assoc, value] at spaces
  · rw [nil_append, atoi_number digits, value]

end Reading

section Signed

variable {spec : FmtSpec} {val : ℤ} {width : ℕ}

def decimalDigits (val : ℤ) : List Byte := inttodigits val.natAbs 10 lowerhex

theorem isdigit_decimalDigits (small : val.natAbs < 2 ^ 64) : ∀ ch ∈ decimalDigits val, isdigit ch = true := by
  have known : ∀ digit < 10, isdigit (charOf lowerhex digit) = true := by decide
  intro ch member
  obtain ⟨digit, less, rfl⟩ := mem_inttodigits (by decide) small member
  exact known digit less

theorem numeral_decimalDigits (small : val.natAbs < 2 ^ 64) : numeral 10 (decimalDigits val) = val.natAbs :=
  numeral_inttodigits spells_lowerhex (by decide) (by decide) small

def signedLength (spec : FmtSpec) (val : ℤ) : ℕ :=
  max spec.width.toNat ((signstr (val < 0) spec).length + max (fieldPrecision spec) (decimalDigits val).length)

theorem fmtSigned_field (positive : 0 ≤ spec.width) (precise : PrecisionBelow spec (2 ^ 31))
    (fits : signedLength spec val < 2 ^ 31) :
    (fmtSigned spec val).length = signedLength spec val ∧ ∃ before zeros after, fmtSigned spec val =
      fieldText before (signstr (val < 0) spec) zeros (decimalDigits val) after := by
  obtain ⟨width, asked⟩ := Int.eq_ofNat_of_zero_le positive
  have length : signedLength spec val =
      max width ((signstr (val < 0) spec).length + max (fieldPrecision spec) (decimalDigits val).length) := by
    rw [signedLength, asked, Int.toNat_natCast]
  rw [length] at fits ⊢
  have zeros : precisionZeros spec (decimalDigits val).length =
      (fieldPrecision spec - (decimalDigits val).length : ℕ) :=
    precisionZeros_eq precise (by omega)
  have printed : fmtSigned spec val = fmtDigits spec (signstr (val < 0) spec) (decimalDigits val)
      (fieldPrecision spec - (decimalDigits val).length : ℕ) := by
    rw [← zeros]
    rfl
  rw [printed]
  refine ⟨length_fmtDigits asked (by omega) (by omega), ?_⟩
  rw [fmtDigits_eq asked (by omega) (by omega)]
  exact ⟨_, _, _, rfl⟩

theorem atoi_fmtSigned (positive : 0 ≤ spec.width) (precise : PrecisionBelow spec (2 ^ 31))
    (fits : signedLength spec val < 2 ^ 31) (lower : -2 ^ 31 ≤ val) (upper : val < 2 ^ 31) :
    atoi (fmtSigned spec val) = val := by
  have small : val.natAbs < 2 ^ 64 := by omega
  obtain ⟨-, before, zeros, after, field⟩ := fmtSigned_field positive precise fits
  rw [field, atoi_fieldText _ _ (isdigit_decimalDigits small), numeral_decimalDigits small]
  have value : (if decide (val < 0) = true then -(val.natAbs : ℤ) else val.natAbs) = val := by
    simp only [decide_eq_true_eq]
    split <;> omega
  rw [value, wrap_of_int lower upper]

theorem fmtSigned_ne_zero (positive : 0 ≤ spec.width) (precise : PrecisionBelow spec (2 ^ 31))
    (small : val.natAbs < 2 ^ 64) (fits : signedLength spec val < 2 ^ 31) : ∀ ch ∈ fmtSigned spec val, ch ≠ 0 := by
  obtain ⟨-, before, zeros, after, field⟩ := fmtSigned_field positive precise fits
  have digits : ∀ ch ∈ decimalDigits val, ch ≠ 0 := by
    rintro ch member rfl
    have digit := isdigit_decimalDigits small _ member
    exact absurd digit (by decide)
  have sign : ∀ ch ∈ signstr (val < 0) spec, ch ≠ 0 := by
    unfold signstr
    split_ifs <;> decide
  have space : ascii ' ' ≠ 0 := by decide
  have zero : ascii '0' ≠ 0 := by decide
  intro ch member
  rw [field] at member
  simp only [fieldText] at member
  grind

end Signed

namespace Directive

variable (d : Directive) (memory : Memory) (args : ℕ)

/-- The field width that is asked for. A negative argument asks for a field that is filled up on the right. -/
def nominalWidth : ℤ :=
  match d.width with
  | none => 0
  | some .star => (memory.readWord args).toInt
  | some (.number first digits) => numeral 10 ((first :: digits).map digitChar)

/-- The precision that is asked for. A negative argument asks for none. -/
def nominalPrecision : Option ℕ :=
  match d.precision with
  | none => none
  | some none => some 0
  | some (some .star) => if (memory.readWord args).toInt < 0 then none else some (memory.readWord args).toInt.toNat
  | some (some (.number first digits)) => some (numeral 10 ((first :: digits).map digitChar))

/-- The place of the next argument, behind that of the width. -/
def afterWidth : ℕ :=
  match d.width with
  | some .star => args + 4
  | _ => args

def afterPrecision : ℕ :=
  match d.precision with
  | some (some .star) => args + 4
  | _ => args

/-- The place of the argument that is printed. -/
def valueAt : ℕ := d.afterPrecision (d.afterWidth args)

/-- The parts of a conversion once its width and precision are known. -/
def adjusted (start : List Byte) (width : ℤ) (precision : Option ℕ) : FmtSpec :=
  { d.spec start with
    left := d.flags.contains .left || width < 0
    width := width.natAbs
    precision := precision.elim wpUnspecified (↑) }

end Directive

theorem intOfDigits_small {digits : List (Fin 10)} (small : numeral 10 (digits.map digitChar) < 2 ^ 31) :
    intOfDigits (digits.map digitChar) = numeral 10 (digits.map digitChar) := by
  have all : ∀ ch ∈ digits.map digitChar, isdigit ch = true := by
    intro ch member
    obtain ⟨digit, -, rfl⟩ := mem_map.mp member
    exact isdigit_digitChar digit
  rw [intOfDigits_eq all, wrap_natCast small]

section Adjusting

variable {d : Directive} {spec : FmtSpec} {memory : Memory} {args : ℕ}

theorem adjustWidth_pulled {width : ℤ} {args' : ℕ} (small : width.natAbs < 2 ^ 31)
    (pulled : (if (if spec.width = wpUnspecified then 0 else spec.width) = wpStar then
      ((memory.readWord args).toInt, args + 4) else (if spec.width = wpUnspecified then 0 else spec.width, args)) =
      (width, args')) :
    adjustWidth memory spec args = ({ spec with left := spec.left || width < 0, width := width.natAbs }, args') := by
  simp only [adjustWidth, pulled]
  split
  · next negative =>
    have opposite : (width.natAbs : ℤ) = -width := by omega
    rw [wrap_of_int (by omega) (by omega), opposite]
    simp [negative]
  · next positive =>
    have same : (width.natAbs : ℤ) = width := by omega
    rw [same]
    simp [positive]

theorem adjustWidth_nominal (written : spec.width = d.width.elim wpUnspecified Field.value)
    (small : (d.nominalWidth memory args).natAbs < 2 ^ 31) :
    adjustWidth memory spec args =
      ({ spec with
        left := spec.left || d.nominalWidth memory args < 0
        width := (d.nominalWidth memory args).natAbs }, d.afterWidth args) := by
  apply adjustWidth_pulled small
  unfold Directive.nominalWidth Directive.afterWidth at *
  generalize d.width = field at *
  rcases field with _ | _ | ⟨first, digits⟩
  · rw [written]
    rfl
  · rw [written]
    rfl
  · have value : spec.width = numeral 10 ((first :: digits).map digitChar) := by
      rw [written]
      exact intOfDigits_small small
    have given : spec.width ≠ wpUnspecified := by
      unfold wpUnspecified
      omega
    have number : spec.width ≠ wpStar := by
      unfold wpStar
      omega
    rw [if_neg given, if_neg number, value]

theorem adjustPrecision_nominal (written : spec.precision = d.precisionValue)
    (small : (d.nominalPrecision memory args).getD 1 < 2 ^ 31) :
    adjustPrecision memory spec args =
      ({ spec with precision := (d.nominalPrecision memory args).elim wpUnspecified (↑) }, d.afterPrecision args) := by
  unfold Directive.precisionValue at written
  unfold Directive.nominalPrecision Directive.afterPrecision at *
  unfold adjustPrecision
  generalize d.precision = field at *
  rcases field with _ | _ | _ | ⟨first, digits⟩
  · rw [written]
    rfl
  · rw [written]
    rfl
  · have star : spec.precision = wpStar := written
    simp only [star]
    by_cases negative : (memory.readWord args).toInt < 0
    · simp [negative]
    · have same : ((memory.readWord args).toInt.toNat : ℤ) = (memory.readWord args).toInt := by omega
      simp [negative, same]
  · have value : Field.value (.number first digits) = numeral 10 ((first :: digits).map digitChar) :=
      intOfDigits_small small
    have given : (numeral 10 ((first :: digits).map digitChar) : ℤ) ≠ wpUnspecified := by
      unfold wpUnspecified
      omega
    have number : (numeral 10 ((first :: digits).map digitChar) : ℤ) ≠ wpStar := by
      unfold wpStar
      omega
    have positive : ¬(numeral 10 ((first :: digits).map digitChar) : ℤ) < 0 := by omega
    simp only [Option.elim_some, value, given] at written
    simp only [written, number, if_false, positive, Option.elim_some]

end Adjusting

section Reading

variable {memory : Memory} {chars : List Byte}

theorem bytesAt_eq {p fuel : ℕ} (enough : chars.length < fuel) (printed : ∀ ch ∈ chars, ch ≠ 0)
    (stored : ∀ i (inside : i < chars.length), memory (p + i) = chars[i])
    (ends : memory (p + chars.length) = 0) : bytesAt memory fuel p = chars := by
  induction fuel generalizing chars p with
  | zero => cases enough
  | succ fuel ih =>
    cases chars with
    | nil =>
      exact if_pos ends
    | cons ch chars =>
      have first : memory p = ch := stored 0 (by simp)
      have rest : bytesAt memory fuel (p + 1) = chars := by
        apply ih
        · simpa using enough
        · intro ch member
          exact printed ch (mem_cons_of_mem _ member)
        · intro i inside
          have next := stored (i + 1) (by simpa using inside)
          rwa [show p + (i + 1) = p + 1 + i by omega] at next
        · rwa [length_cons, show p + (chars.length + 1) = p + 1 + chars.length by omega] at ends
      rw [bytesAt, first, if_neg (printed ch (mem_cons_self ..)), rest]

/-- The memory after the stores of a call. -/
def Output.applied (o : Output) (memory : Memory) : Memory := fun address =>
  if address < 2 ^ 32 then (o.stored (BitVec.ofNat 32 address)).getD (memory address) else memory address

/-- A call whose output fits leaves it in the buffer as a string. -/
theorem stringAt_vsnprintf {buf n : BitVec 32} {format : List Byte} {args : ℕ}
    (text : vfprintf memory format args = (chars, .done)) (printed : ∀ ch ∈ chars, ch ≠ 0) (here : buf ≠ 0)
    (object : buf.toNat + n.toNat < 2 ^ 32) (size : n.toNat < 2 ^ 31) (fits : chars.length < n.toNat) :
    ∃ o, vsnprintf memory buf n format args = some (o, (chars.length : ℤ)) ∧
      stringAt (o.applied memory) buf = chars := by
  have done : (vfprintf memory format args).2 = .done := by rw [text]
  have full : (vfprintf memory format args).1 = chars := by rw [text]
  have call : vsnprintf memory buf n format args = _ := vsnprintf_done done (by rw [full]; omega)
  rw [full] at call
  refine ⟨_, call, ?_⟩
  have stored (address : BitVec 32) : (terminate (Libc.printed memory buf n format args) buf n chars.length).stored
      address = boundedOutput chars buf.toNat n.toNat address.toNat := by
    have bytes := bounded_buffer here object (by rw [full]; omega) address
    rwa [full] at bytes
  rw [stringAt, if_neg here]
  apply bytesAt_eq (by omega) printed
  · intro i inside
    have place : (BitVec.ofNat 32 (buf.toNat + i)).toNat = buf.toNat + i := Nat.mod_eq_of_lt (by omega)
    rw [Output.applied, if_pos (by omega), stored, place, boundedOutput, if_neg (by omega), if_pos (by omega)]
    simp [inside]
  · have place : (BitVec.ofNat 32 (buf.toNat + chars.length)).toNat = buf.toNat + chars.length :=
      Nat.mod_eq_of_lt (by omega)
    rw [Output.applied, if_pos (by omega), stored, boundedOutput, if_neg (by omega), if_neg (by omega),
      if_pos (by omega)]
    rfl

end Reading

/-- The length of a decimal conversion: the field width, or the sign with the digits of the value or of the
precision. -/
def Directive.fieldLength (d : Directive) (width : ℤ) (precision : Option ℕ) (val : ℤ) : ℕ :=
  max width.natAbs ((if val < 0 ∨ .plus ∈ d.flags ∨ .space ∈ d.flags then 1 else 0) +
    max (precision.getD 1) (Nat.digits 10 val.natAbs).length)

section RoundTrip

variable {d : Directive} {memory : Memory} {args : ℕ} {width val : ℤ} {precision : Option ℕ} (start : List Byte)

theorem signedLength_adjusted (small : val.natAbs < 2 ^ 64) :
    signedLength (d.adjusted start width precision) val = d.fieldLength width precision val := by
  have sign : (signstr (val < 0) (d.adjusted start width precision)).length =
      if val < 0 ∨ .plus ∈ d.flags ∨ .space ∈ d.flags then 1 else 0 := by
    simp only [signstr, Directive.adjusted, Directive.spec, decide_eq_true_eq]
    split_ifs with negative plus space
    all_goals grind
  have precise : fieldPrecision (d.adjusted start width precision) = precision.getD 1 := by
    cases precision with
    | none => rfl
    | some count =>
      have given : (count : ℤ) ≠ wpUnspecified := by
        unfold wpUnspecified
        omega
      exact if_neg given
  have digits : (decimalDigits val).length = (Nat.digits 10 val.natAbs).length := by
    rw [decimalDigits, inttodigits_eq (by decide) small, length_reverse, length_map]
  rw [signedLength, sign, precise, digits]
  rfl

theorem precisionBelow_adjusted (small : precision.getD 1 < 2 ^ 31) :
    PrecisionBelow (d.adjusted start width precision) (2 ^ 31) := by
  cases precision with
  | none => exact .inl rfl
  | some count => exact .inr ⟨Int.natCast_nonneg count, Int.ofNat_lt.mpr small⟩

theorem convert_decimal {spec : FmtSpec} (specifier : spec.specifier = ascii 'd') (lenmod : spec.lenmod = .none) :
    convert memory spec args = .ok (fmtSigned spec (memory.readWord args).toInt, args + 4) := by
  simp [convert, specifier, signedArg, lenmod, ascii]

theorem vfprintf_decimal (decimal : d.conversion = .d) (plain : d.length = .none)
    (asked : d.nominalWidth memory args = width) (digits : d.nominalPrecision memory (d.afterWidth args) = precision)
    (narrow : width.natAbs < 2 ^ 31) (precise : precision.getD 1 < 2 ^ 31) :
    vfprintf memory d.text args =
      (fmtSigned (d.adjusted d.text width precision) (memory.readWord (d.valueAt args)).toInt, .done) := by
  subst asked digits
  have read : parseSpec d.text = some (d.spec d.text, []) := by
    have parsed := parseSpec_directive d []
    rwa [append_nil] at parsed
  generalize same : d.adjusted d.text (d.nominalWidth memory args)
    (d.nominalPrecision memory (d.afterWidth args)) = spec
  have adjusted₁ : adjustWidth memory (d.spec d.text) args = _ := adjustWidth_nominal rfl narrow
  have adjusted₂ : adjustPrecision memory { d.spec d.text with
      left := (d.spec d.text).left || d.nominalWidth memory args < 0
      width := (d.nominalWidth memory args).natAbs } (d.afterWidth args) = (spec, d.valueAt args) := by
    rw [← same]
    exact adjustPrecision_nominal rfl precise
  have specifier : spec.specifier = ascii 'd' := by
    rw [← same]
    exact congrArg (ascii ∘ Conversion.char) decimal
  have lenmod : spec.lenmod = .none := by
    rw [← same]
    exact congrArg Length.lenmod plain
  have goes : d.text ≠ [] := cons_ne_nil _ _
  have length : d.text.length = d.text.tail.length + 1 := rfl
  rw [vfprintf, length, vfprintfLoop_round goes read adjusted₁ adjusted₂ (convert_decimal specifier lenmod)]
  simp [vfprintfLoop]

end RoundTrip

/-- An `int` is read back from the text of a `%d` conversion, with any flags, width and precision that fit the
buffer. -/
theorem atoi_vsnprintf {d : Directive} (decimal : d.conversion = .d) (plain : d.length = .none) {memory : Memory}
    {args : ℕ} {n buf bufsz : BitVec 32} (passed : memory.readWord (d.valueAt args) = n) (here : buf ≠ 0)
    (object : buf.toNat + bufsz.toNat < 2 ^ 32) (size : bufsz.toNat < 2 ^ 31) {len : ℕ}
    (field : d.fieldLength (d.nominalWidth memory args) (d.nominalPrecision memory (d.afterWidth args)) n.toInt = len)
    (fits : len < bufsz.toNat) :
    ∃ o, vsnprintf memory buf bufsz d.text args = some (o, (len : ℤ)) ∧
      atoi (stringAt (o.applied memory) buf) = n.toInt := by
  have lower : -2 ^ 31 ≤ n.toInt := n.le_toInt
  have upper : n.toInt < 2 ^ 31 := n.toInt_lt
  have small : n.toInt.natAbs < 2 ^ 64 := by omega
  generalize asked : d.nominalWidth memory args = width at field
  generalize digits : d.nominalPrecision memory (d.afterWidth args) = precision at field
  have total : signedLength (d.adjusted d.text width precision) n.toInt = len := by
    rw [signedLength_adjusted d.text small, field]
  have short : signedLength (d.adjusted d.text width precision) n.toInt < 2 ^ 31 := by omega
  have bounds : width.natAbs < 2 ^ 31 ∧ precision.getD 1 < 2 ^ 31 := by
    unfold Directive.fieldLength at field
    omega
  have positive : 0 ≤ (d.adjusted d.text width precision).width := Int.natCast_nonneg _
  have precise : PrecisionBelow (d.adjusted d.text width precision) (2 ^ 31) := precisionBelow_adjusted d.text bounds.2
  have text := vfprintf_decimal decimal plain asked digits bounds.1 bounds.2
  rw [passed] at text
  have length := (fmtSigned_field positive precise short).1
  rw [total] at length
  obtain ⟨o, call, string⟩ := stringAt_vsnprintf text (fmtSigned_ne_zero positive precise small short) here object size
    (by omega)
  rw [length] at call
  refine ⟨o, call, ?_⟩
  rw [string]
  exact atoi_fmtSigned positive precise short lower upper

/-- The least `int`, whose opposite is out of range, is read back from the twelve characters of `%+012d`. -/
theorem atoi_vsnprintf_least :
    ∃ o, vsnprintf (fun address => if address = 3 then 0x80 else 0) 0x1000 13
        ({ Directive.padded 1 [2] (by decide) with flags := [.plus, .zero] } : Directive).text 0 =
      some (o, ((12 : ℕ) : ℤ)) ∧
      atoi (stringAt (o.applied fun address => if address = 3 then 0x80 else 0) 0x1000) = (0x80000000#32).toInt :=
  atoi_vsnprintf rfl rfl (by decide) (by decide) (by decide) (by decide) (by decide) (by decide)

end MicroOs.Libc
