import MicroOs.Libc.Format

/-! # Well-formed formats

A conversion is written as flags, a field width, a precision, a length modifier and the character that names it, all
but the last optional. The parser takes each written conversion back to its parts, so a format made of text, `%%` and
supported conversions is read to its end without an error, whatever the arguments are.
-/

namespace MicroOs.Libc

open List

variable {fmt rest : List Byte}

inductive Flag
  | left | plus | space | alt | zero
deriving DecidableEq

def Flag.char : Flag → Char
  | .left => '-'
  | .plus => '+'
  | .space => ' '
  | .alt => '#'
  | .zero => '0'

def digitChar (digit : Fin 10) : Byte := BitVec.ofNat 8 (0x30 + digit)

/-- A width or a precision: in an argument, or written in decimal. -/
inductive Field
  | star
  | number (first : Fin 10) (digits : List (Fin 10))

inductive Length
  | none | hh | h | l | ll | j | z | t
  | w (bits : List (Fin 10))
  | wf (bits : List (Fin 10))

inductive Conversion
  | c | s | d | i | b | B | o | x | X | u | p
deriving DecidableEq

def Field.text : Field → List Byte
  | .star => [ascii '*']
  | .number first digits => digitChar first :: digits.map digitChar

def Length.letters : Length → List Char
  | .none => []
  | .hh => ['h', 'h']
  | .h => ['h']
  | .l => ['l']
  | .ll => ['l', 'l']
  | .j => ['j']
  | .z => ['z']
  | .t => ['t']
  | .w _ => ['w']
  | .wf _ => ['w', 'f']

/-- The width in bits that follows some of them. -/
def Length.bits : Length → List (Fin 10)
  | .w bits | .wf bits => bits
  | _ => []

def Length.text (length : Length) : List Byte := length.letters.map ascii ++ length.bits.map digitChar

def Conversion.char : Conversion → Char
  | .c => 'c'
  | .s => 's'
  | .d => 'd'
  | .i => 'i'
  | .b => 'b'
  | .B => 'B'
  | .o => 'o'
  | .x => 'x'
  | .X => 'X'
  | .u => 'u'
  | .p => 'p'

/-- A conversion as it stands in a format. A zero before the width is a flag; characters, strings and pointers have
no length modifier. -/
structure Directive where
  flags : List Flag
  width : Option Field
  width_leads : ∀ digits, width ≠ some (.number 0 digits)
  precision : Option (Option Field)
  length : Length
  conversion : Conversion
  unmodified : conversion = .c ∨ conversion = .s ∨ conversion = .p → length = .none

namespace Directive

def precisionText (d : Directive) : List Byte :=
  match d.precision with
  | none => []
  | some field => ascii '.' :: (field.elim [] Field.text)

def text (d : Directive) : List Byte :=
  ascii '%' :: (d.flags.map (ascii ·.char) ++ (d.width.elim [] Field.text ++ (d.precisionText ++
    (d.length.text ++ [ascii d.conversion.char]))))

end Directive

/-- Formats of text, `%%` and supported conversions. Text ends at the next `%` or with the format. -/
inductive WellFormed : List Byte → Prop
  | nil : WellFormed []
  | text {chars rest : List Byte} (printed : chars ≠ []) (plain : ∀ ch ∈ chars, ch ≠ ascii '%' ∧ ch ≠ 0)
      (ends : rest = [] ∨ rest.head? = some (ascii '%')) (more : WellFormed rest) : WellFormed (chars ++ rest)
  | percent {rest : List Byte} (more : WellFormed rest) : WellFormed (ascii '%' :: ascii '%' :: rest)
  | directive {rest : List Byte} (d : Directive) (more : WellFormed rest) : WellFormed (d.text ++ rest)

def isFlag (ch : Byte) : Bool := (['-', '+', ' ', '#', '0'].map ascii).contains ch

/-- A character that neither goes on with a width or a precision nor starts one. -/
def endsField (ch : Byte) : Bool := !isFlag ch && !isdigit ch && ch ≠ ascii '*'

/-- A character at which no length modifier starts or goes on. -/
def endsLength (ch : Byte) : Bool := !(['h', 'l', 'j', 'z', 't', 'w', 'f', 'L', 'H', 'D'].map ascii).contains ch

theorem isdigit_digitChar (digit : Fin 10) : isdigit (digitChar digit) = true := by
  revert digit
  decide

theorem endsLength_digitChar (digit : Fin 10) : endsLength (digitChar digit) = true := by
  revert digit
  decide

theorem isFlag_digitChar {digit : Fin 10} (leads : digit ≠ 0) : isFlag (digitChar digit) = false := by
  revert digit
  decide

def Flag.set (spec : FmtSpec) : Flag → FmtSpec
  | .left => { spec with left := true }
  | .plus => { spec with plus := true }
  | .space => { spec with space := true }
  | .alt => { spec with alt := true }
  | .zero => { spec with zero := true }

theorem parseFlags_flags (flags : List Flag) {ch : Byte} (tail : List Byte) (other : isFlag ch = false) :
    ∀ spec, parseFlags spec (flags.map (ascii ·.char) ++ ch :: tail) = (flags.foldl Flag.set spec, ch :: tail) := by
  induction flags with
  | nil =>
    intro spec
    simp only [isFlag, contains_eq_mem, map_cons, mem_cons,
      decide_eq_false_iff_not, not_or] at other
    simp [parseFlags, other]
  | cons flag flags ih =>
    intro spec
    cases flag with
    | left => exact ih { spec with left := true }
    | plus => exact ih { spec with plus := true }
    | space => exact ih { spec with space := true }
    | alt => exact ih { spec with alt := true }
    | zero => exact ih { spec with zero := true }

theorem foldl_set (flags : List Flag) (spec : FmtSpec) :
    flags.foldl Flag.set spec =
      { spec with
        left := spec.left || flags.contains .left
        plus := spec.plus || flags.contains .plus
        space := spec.space || flags.contains .space
        alt := spec.alt || flags.contains .alt
        zero := spec.zero || flags.contains .zero } := by
  induction flags generalizing spec with
  | nil => simp
  | cons flag flags ih =>
    rw [foldl_cons, ih]
    cases flag <;> simp [Flag.set]

section Digits

variable {tail : List Byte} {ch : Byte}

theorem takeWhile_digits (digits : List (Fin 10)) (stops : isdigit ch = false) :
    (digits.map digitChar ++ ch :: tail).takeWhile isdigit = digits.map digitChar := by
  rw [takeWhile_append_of_pos]
  · simp [stops]
  · simp [isdigit_digitChar]

theorem dropWhile_digits (digits : List (Fin 10)) (stops : isdigit ch = false) :
    (digits.map digitChar ++ ch :: tail).dropWhile isdigit = ch :: tail := by
  rw [dropWhile_append_of_pos]
  · simp [stops]
  · simp [isdigit_digitChar]

end Digits

theorem endsField.parts {ch : Byte} (ends : endsField ch = true) :
    isFlag ch = false ∧ isdigit ch = false ∧ ch ≠ ascii '*' := by
  simpa [endsField, and_assoc] using ends

def Field.value : Field → ℤ
  | .star => wpStar
  | .number first digits => intOfDigits ((first :: digits).map digitChar)

theorem parseWidthPrecision_field (field : Option Field) {ch : Byte} (tail : List Byte) (ends : endsField ch = true) :
    parseWidthPrecision (field.elim [] Field.text ++ ch :: tail) =
      (field.elim wpUnspecified Field.value, ch :: tail) := by
  obtain ⟨-, notDigit, notStar⟩ := endsField.parts ends
  match field with
  | none => simp [parseWidthPrecision, notDigit, notStar]
  | some .star => rfl
  | some (.number first digits) =>
    have digit : digitChar first ≠ ascii '*' := by
      revert first
      decide
    have taken : (digitChar first :: (digits.map digitChar ++ ch :: tail)).takeWhile isdigit =
        (first :: digits).map digitChar := takeWhile_digits (first :: digits) notDigit
    have rest : (digitChar first :: (digits.map digitChar ++ ch :: tail)).dropWhile isdigit = ch :: tail :=
      dropWhile_digits (first :: digits) notDigit
    simp [parseWidthPrecision, Field.text, Field.value, digit, taken, rest]

def Directive.precisionValue (d : Directive) : ℤ :=
  match d.precision with
  | none => wpUnspecified
  | some field =>
    if field.elim wpUnspecified Field.value = wpUnspecified then 0 else field.elim wpUnspecified Field.value

theorem parsePrecision_precision (d : Directive) {ch : Byte} (tail : List Byte) (ends : endsField ch = true)
    (noPeriod : ch ≠ ascii '.') : parsePrecision (d.precisionText ++ ch :: tail) = (d.precisionValue, ch :: tail) := by
  unfold Directive.precisionText Directive.precisionValue
  match d.precision with
  | none => simp [parsePrecision, noPeriod]
  | some field =>
    have read := parseWidthPrecision_field field tail ends
    simp [parsePrecision, read]

def Length.lenmod : Length → LenMod
  | .none => .none
  | .hh => .char
  | .h => .short
  | .l => .long
  | .ll => .longLong
  | .j => .max
  | .z => .size
  | .t => .ptrdiff
  | .w _ => .fixed
  | .wf _ => .fast

theorem lenmodMap_letters (length : Length) {ch : Byte} (tail : List Byte) (ends : endsLength ch = true) :
    lenmodMap.foldl LenModMapping.apply (.none, length.letters.map ascii ++ ch :: tail) =
      (length.lenmod, ch :: tail) := by
  simp [endsLength, ascii] at ends
  cases length <;> simp [lenmodMap, LenModMapping.apply, Length.letters, Length.lenmod, ascii, ends]

theorem lenmodMap_length (length : Length) {ch : Byte} (tail : List Byte) (ends : endsLength ch = true) :
    lenmodMap.foldl LenModMapping.apply (.none, length.text ++ ch :: tail) =
      (length.lenmod, length.bits.map digitChar ++ ch :: tail) := by
  rw [Length.text, append_assoc]
  cases length.bits with
  | nil => exact lenmodMap_letters length tail ends
  | cons digit bits => exact lenmodMap_letters length _ (endsLength_digitChar digit)

theorem parseLenmod_length (spec : FmtSpec) (length : Length) {ch : Byte} (tail : List Byte)
    (ends : endsLength ch = true) (notDigit : isdigit ch = false) :
    parseLenmod spec (length.text ++ ch :: tail) =
      ({ spec with lenmod := length.lenmod, lenbits := sizeOfDigits (length.bits.map digitChar) }, ch :: tail) := by
  simp only [parseLenmod, lenmodMap_length length tail ends]
  split
  · rw [takeWhile_digits length.bits notDigit, dropWhile_digits length.bits notDigit]
  · next other =>
    have none : length.bits = [] := by cases length <;> simp_all [Length.lenmod, Length.bits]
    rw [none]
    rfl

namespace Conversion

theorem endsLength_char (conversion : Conversion) : endsLength (ascii conversion.char) = true := by
  cases conversion <;> decide

theorem endsField_char (conversion : Conversion) : endsField (ascii conversion.char) = true := by
  cases conversion <;> decide

theorem char_ne_period (conversion : Conversion) : ascii conversion.char ≠ ascii '.' := by
  cases conversion <;> decide

end Conversion

theorem Length.head_text (length : Length) (conversion : Conversion) (rest : List Byte) :
    ∃ ch tail, length.text ++ ascii conversion.char :: rest = ch :: tail ∧ endsField ch = true ∧ ch ≠ ascii '.' := by
  cases length with
  | none => exact ⟨_, _, rfl, conversion.endsField_char, conversion.char_ne_period⟩
  | _ => exact ⟨_, _, rfl, by decide, by decide⟩

theorem Directive.head_precisionText (d : Directive) {ch : Byte} (tail : List Byte) (ends : endsField ch = true) :
    ∃ ch' tail', d.precisionText ++ ch :: tail = ch' :: tail' ∧ endsField ch' = true := by
  unfold Directive.precisionText
  cases d.precision with
  | none => exact ⟨_, _, rfl, ends⟩
  | some field => exact ⟨_, _, rfl, by decide⟩

theorem Directive.head_width (d : Directive) {ch : Byte} (tail : List Byte) (ends : endsField ch = true) :
    ∃ ch' tail', d.width.elim [] Field.text ++ ch :: tail = ch' :: tail' ∧ isFlag ch' = false := by
  match d.width, d.width_leads with
  | none, _ => exact ⟨_, _, rfl, (endsField.parts ends).1⟩
  | some .star, _ => exact ⟨_, _, rfl, by decide⟩
  | some (.number first digits), leads =>
    refine ⟨_, _, rfl, isFlag_digitChar ?_⟩
    rintro rfl
    exact leads digits rfl

/-- The parts of a conversion that stands at the start of a format. -/
def Directive.spec (d : Directive) (start : List Byte) : FmtSpec where
  start
  len := d.text.length
  left := d.flags.contains .left
  plus := d.flags.contains .plus
  space := d.flags.contains .space
  alt := d.flags.contains .alt
  zero := d.flags.contains .zero
  width := d.width.elim wpUnspecified Field.value
  precision := d.precisionValue
  lenmod := d.length.lenmod
  lenbits := sizeOfDigits (d.length.bits.map digitChar)
  specifier := ascii d.conversion.char

/-- The parser takes a conversion to its parts and goes on behind it. -/
theorem parseSpec_directive (d : Directive) (rest : List Byte) :
    parseSpec (d.text ++ rest) = some (d.spec (d.text ++ rest), rest) := by
  obtain ⟨ch₃, tail₃, after₃, ends₃, noPeriod⟩ := d.length.head_text d.conversion rest
  obtain ⟨ch₂, tail₂, after₂, ends₂⟩ := d.head_precisionText tail₃ ends₃
  obtain ⟨ch₁, tail₁, after₁, other⟩ := d.head_width tail₂ ends₂
  have text : d.text ++ rest = ascii '%' :: (d.flags.map (ascii ·.char) ++ ch₁ :: tail₁) := by
    simp [Directive.text, after₃, after₂, after₁]
  have flags := parseFlags_flags d.flags tail₁ other { start := d.text ++ rest }
  have width := parseWidthPrecision_field d.width tail₂ ends₂
  have precision := parsePrecision_precision d tail₃ ends₃ noPeriod
  have lenmod (spec : FmtSpec) := parseLenmod_length spec d.length rest d.conversion.endsLength_char
    (endsField.parts d.conversion.endsField_char).2.1
  rw [after₁] at width
  rw [after₂] at precision
  simp only [after₃] at lenmod
  rw [foldl_set] at flags
  have len : (d.text ++ rest).length - rest.length = d.text.length := by simp
  have tail : (d.text ++ rest).tail = d.flags.map (ascii ·.char) ++ ch₁ :: tail₁ := by rw [text, tail_cons]
  simp only [parseSpec, ne_eq, tail, flags, width, precision, lenmod, len, Bool.false_or]
  rfl

/-- The conversions for which an argument is pulled and printed. -/
structure Supported (spec : FmtSpec) : Prop where
  conversion : ∃ conversion : Conversion, spec.specifier = ascii conversion.char ∧
    (conversion = .c ∨ conversion = .s → spec.lenmod = .none)
  integer : spec.lenmod ∉ [.longDouble, .decimal32, .decimal64, .decimal128]

variable {memory : Memory} {spec : FmtSpec} {args : ℕ}

theorem adjustWidth_eq : ∃ left width args', adjustWidth memory spec args = ({ spec with left, width }, args') := by
  unfold adjustWidth
  extract_lets width
  generalize (if width = wpStar then ((memory.readWord args).toInt, args + 4) else (width, args)) = pulled
  dsimp only
  split
  all_goals exact ⟨_, _, _, rfl⟩

theorem adjustPrecision_eq :
    ∃ precision args', adjustPrecision memory spec args = ({ spec with precision }, args') := ⟨_, _, rfl⟩

theorem signedArg_isSome (integer : spec.lenmod ∉ [.longDouble, .decimal32, .decimal64, .decimal128]) :
    (signedArg memory spec args).isSome := by
  unfold signedArg
  split <;> grind

theorem unsignedArg_isSome (integer : spec.lenmod ∉ [.longDouble, .decimal32, .decimal64, .decimal128]) :
    (unsignedArg memory spec args).isSome := by
  unfold unsignedArg
  split <;> grind

theorem convert_supported (supported : Supported spec) : ∃ printed, convert memory spec args = .ok printed := by
  obtain ⟨⟨conversion, specifier, unmodified⟩, integer⟩ := supported
  obtain ⟨signed, pulledSigned⟩ : ∃ pulled, signedArg memory spec args = some pulled :=
    Option.isSome_iff_exists.mp (signedArg_isSome integer)
  obtain ⟨unsigned, pulledUnsigned⟩ : ∃ pulled, unsignedArg memory spec args = some pulled :=
    Option.isSome_iff_exists.mp (unsignedArg_isSome integer)
  cases conversion <;> simp_all [convert, Conversion.char, ascii]

/-- A piece is printed whatever its width and precision turn out to be. -/
def Prints (memory : Memory) (spec : FmtSpec) : Prop :=
  ∀ left width precision args, ∃ printed,
    convert memory { spec with left, width, precision } args = .ok printed

/-- One round of the loop over the format. -/
theorem vfprintfLoop_round {fuel args₁ args₂ args₃ : ℕ} {chars : List Byte} {spec₁ spec₂ : FmtSpec}
    (goes : fmt ≠ []) (read : parseSpec fmt = some (spec, rest))
    (adjusted₁ : adjustWidth memory spec args = (spec₁, args₁))
    (adjusted₂ : adjustPrecision memory spec₁ args₁ = (spec₂, args₂))
    (printed : convert memory spec₂ args₂ = .ok (chars, args₃)) :
    vfprintfLoop memory (fuel + 1) fmt args =
      (chars ++ (vfprintfLoop memory fuel rest args₃).1, (vfprintfLoop memory fuel rest args₃).2) := by
  obtain ⟨ch, fmt, rfl⟩ := exists_cons_of_ne_nil goes
  simp [vfprintfLoop, read, adjusted₁, adjusted₂, printed]

theorem vfprintfLoop_piece {fuel : ℕ} (goes : fmt ≠ [])
    (read : parseSpec fmt = some (spec, rest)) (prints : Prints memory spec) :
    ∃ args', (vfprintfLoop memory (fuel + 1) fmt args).2 = (vfprintfLoop memory fuel rest args').2 := by
  obtain ⟨left, width, args₁, adjusted₁⟩ : ∃ left width args₁, adjustWidth memory spec args =
    ({ spec with left, width }, args₁) := adjustWidth_eq
  obtain ⟨precision, args₂, adjusted₂⟩ : ∃ precision args₂, adjustPrecision memory { spec with left, width } args₁ =
    ({ spec with left, width, precision }, args₂) := adjustPrecision_eq
  obtain ⟨⟨chars, args₃⟩, printed⟩ := prints left width precision args₂
  refine ⟨args₃, ?_⟩
  rw [vfprintfLoop_round goes read adjusted₁ adjusted₂ printed]

theorem Supported.prints (supported : Supported spec) : Prints memory spec := by
  intro left width precision args
  apply convert_supported
  exact ⟨supported.conversion, supported.integer⟩

/-- The call comes to the end of a format, given at least a round for each character. -/
def Ends (memory : Memory) (fmt : List Byte) : Prop :=
  ∀ fuel args, fmt.length ≤ fuel → (vfprintfLoop memory fuel fmt args).2 = .done

theorem Ends.piece (read : parseSpec fmt = some (spec, rest)) (prints : Prints memory spec)
    (shorter : rest.length < fmt.length) (more : Ends memory rest) : Ends memory fmt := by
  intro fuel args enough
  obtain ⟨fuel, rfl⟩ := Nat.exists_eq_succ_of_ne_zero (by omega : fuel ≠ 0)
  have goes : fmt ≠ [] := ne_nil_of_length_pos (by omega)
  obtain ⟨args', same⟩ : ∃ args', (vfprintfLoop memory (fuel + 1) fmt args).2 =
    (vfprintfLoop memory fuel rest args').2 := vfprintfLoop_piece goes read prints
  rw [same]
  exact more fuel args' (by omega)

theorem parseSpec_text {chars : List Byte} (printed : chars ≠ []) (plain : ∀ ch ∈ chars, ch ≠ ascii '%')
    (ends : rest = [] ∨ rest.head? = some (ascii '%')) :
    parseSpec (chars ++ rest) = some ({ start := chars ++ rest, len := chars.length }, rest) := by
  have head : (chars ++ rest).head? ≠ some (ascii '%') := by
    obtain ⟨ch, more, rfl⟩ := exists_cons_of_ne_nil printed
    simpa using plain ch (mem_cons_self ..)
  have stops : rest.takeWhile (· ≠ ascii '%') = [] ∧ rest.dropWhile (· ≠ ascii '%') = rest := by
    cases rest with
    | nil => exact ⟨rfl, rfl⟩
    | cons ch rest => simp_all
  have all : ∀ ch ∈ chars, decide (ch ≠ ascii '%') = true := fun ch member => decide_eq_true (plain ch member)
  simp only [parseSpec, head, ne_eq, not_false_eq_true, if_true]
  rw [takeWhile_append_of_pos all, dropWhile_append_of_pos all, stops.1, stops.2, append_nil]

theorem parseSpec_percent (rest : List Byte) :
    ∃ spec, parseSpec (ascii '%' :: ascii '%' :: rest) = some (spec, rest) ∧ spec.specifier = ascii '%' ∧
      spec.len = 2 := by
  refine ⟨_, rfl, rfl, ?_⟩
  simp only [length_cons]
  omega

theorem prints_percent (percent : spec.specifier = ascii '%') (two : spec.len = 2) : Prints memory spec := by
  intro left width precision args
  refine ⟨([ascii '%'], args), ?_⟩
  simp [convert, percent, two, ascii]

theorem Directive.supported (d : Directive) (specifier : spec.specifier = ascii d.conversion.char)
    (lenmod : spec.lenmod = d.length.lenmod) : Supported spec := by
  refine ⟨⟨d.conversion, specifier, ?_⟩, ?_⟩
  · intro named
    have none : d.length = .none := d.unmodified (by tauto)
    rw [lenmod, none]
    rfl
  · rw [lenmod]
    cases d.length <;> simp [Length.lenmod]

/-- A well-formed format is read to its end, whatever the arguments are. -/
theorem WellFormed.ends (wellFormed : WellFormed fmt) : Ends memory fmt := by
  induction wellFormed with
  | nil =>
    intro fuel args _
    cases fuel <;> rfl
  | @text chars rest printed plain ends more ih =>
    refine Ends.piece (parseSpec_text printed (fun ch member => (plain ch member).1) ends)
      (fun _ _ _ _ => ⟨_, rfl⟩) ?_ ih
    have := length_pos_iff.mpr printed
    rw [length_append]
    omega
  | @percent rest more ih =>
    obtain ⟨spec, read, specifier, two⟩ := parseSpec_percent rest
    exact Ends.piece read (prints_percent specifier two) (by grind) ih
  | @directive rest d more ih =>
    refine Ends.piece (parseSpec_directive d rest) (d.supported rfl rfl).prints ?_ ih
    simp only [Directive.text, length_append, length_cons]
    omega

theorem WellFormed.done (wellFormed : WellFormed fmt) (memory : Memory) (args : ℕ) :
    (vfprintf memory fmt args).2 = .done :=
  wellFormed.ends fmt.length args (Nat.le_refl _)

end MicroOs.Libc
