import MicroOs.Libc.Decimal

/-! # Arguments and length modifiers

On the i386 a caller leaves the arguments of a call next to each other on the stack: a word for each value that fits
one, which everything shorter is promoted to, and two words for `long long`, `intmax_t` and the integers of more than
32 bits that `w` and `wf` name. `vfprintf` finds an argument behind the one it pulled before, so a conversion that
takes another number of words than its caller passed leaves every later conversion with the wrong argument.

The loop over a format is followed round by round here, with the place of the arguments before and after each round.
The signed conversions take one word for a width of 33 to 64 bits, and all others take what is passed.
-/

namespace MicroOs.Libc

open List

variable {items : List Item} {rest : List Byte} {after : ℕ}

/-- What one round of the loop prints, and where its arguments start and end. -/
structure Round where
  chars : List Byte
  before : ℕ
  after : ℕ
deriving DecidableEq

/-- The width and the precision of a conversion, with the place of its argument. -/
def adjust (memory : Memory) (spec : FmtSpec) (args : ℕ) : FmtSpec × ℕ :=
  let (spec, args) := adjustWidth memory spec args
  adjustPrecision memory spec args

/-- One round of the loop, with the rest of the format. -/
def oneRound (memory : Memory) (fmt : List Byte) (args : ℕ) : Except Status (Round × List Byte) :=
  match parseSpec fmt with
  | none => .error .stuck
  | some (spec, rest) =>
    let (spec, next) := adjust memory spec args
    match convert memory spec next with
    | .error status => .error status
    | .ok (chars, after) => .ok (⟨chars, args, after⟩, rest)

/-- The rounds of a call, and how it ends. -/
def rounds (memory : Memory) : ℕ → List Byte → ℕ → List Round × Status
  | _, [], _ => ([], .done)
  | 0, _ :: _, _ => ([], .stuck)
  | fuel + 1, ch :: fmt, args =>
    match oneRound memory (ch :: fmt) args with
    | .error status => ([], status)
    | .ok (round, rest) =>
      let (more, status) := rounds memory fuel rest round.after
      (round :: more, status)

variable {fmt chars : List Byte}

section

variable {memory : Memory}

/-- The loop prints what its rounds print. -/
theorem vfprintfLoop_eq_rounds (fuel : ℕ) (fmt : List Byte) (args : ℕ) :
    vfprintfLoop memory fuel fmt args =
      ((rounds memory fuel fmt args).1.flatMap Round.chars, (rounds memory fuel fmt args).2) := by
  induction fuel generalizing fmt args with
  | zero => cases fmt <;> rfl
  | succ fuel ih =>
    cases fmt with
    | nil => rfl
    | cons ch fmt =>
      simp only [vfprintfLoop, rounds, oneRound, adjust]
      cases parseSpec (ch :: fmt) with
      | none => rfl
      | some read =>
        dsimp only
        cases convert memory _ _ with
        | error status => rfl
        | ok printed => simp only [ih, flatMap_cons]

theorem rounds_cons {fuel : ℕ} {args : ℕ} {round : Round} (goes : fmt ≠ [])
    (once : oneRound memory fmt args = .ok (round, rest)) :
    rounds memory (fuel + 1) fmt args =
      (round :: (rounds memory fuel rest round.after).1, (rounds memory fuel rest round.after).2) := by
  obtain ⟨ch, fmt, rfl⟩ := exists_cons_of_ne_nil goes
  simp [rounds, once]

end

/-- The bits of the argument that a length modifier denotes, once it is promoted. -/
def Length.size : Length → ℕ
  | .ll | .j => 64
  | .w bits | .wf bits => if numeral 10 (bits.map digitChar) ≤ 32 then 32 else 64
  | _ => 32

def Length.IsFixed (length : Length) : Prop := length.lenmod = .fixed ∨ length.lenmod = .fast

/-- The numbers that are written in a conversion are values of type `int`. -/
def Field.InRange : Field → Prop
  | .star => True
  | .number first digits => numeral 10 ((first :: digits).map digitChar) < 2 ^ 31

def Field.pulled (field : Field) (word : BitVec 32) : List (BitVec 32) :=
  match field with
  | .star => [word]
  | .number _ _ => []

/-- The words of a value, the least significant one first. -/
def wordsOf {size : ℕ} (value : BitVec size) : List (BitVec 32) :=
  (range (size / 32)).map fun i => value.extractLsb' (32 * i) 32

/-- An integer conversion with what is passed for it: a width and a precision for its stars, and a value of the size
of its length modifier. -/
structure Passed where
  directive : Directive
  integer : directive.conversion ∉ [.c, .s, .p]
  bits : numeral 10 (directive.length.bits.map digitChar) ≤ 64
  widthInRange : ∀ field, directive.width = some field → field.InRange
  precisionInRange : ∀ field, directive.precision = some (some field) → field.InRange
  width : BitVec 32
  precision : BitVec 32
  value : BitVec directive.length.size

namespace Passed

def Signed (passed : Passed) : Prop := passed.directive.conversion = .d ∨ passed.directive.conversion = .i

instance (passed : Passed) : Decidable passed.Signed := inferInstanceAs (Decidable (_ ∨ _))

def stars (passed : Passed) : List (BitVec 32) :=
  passed.directive.width.elim [] (·.pulled passed.width) ++
    passed.directive.precision.join.elim [] (·.pulled passed.precision)

def words (passed : Passed) : List (BitVec 32) := passed.stars ++ wordsOf passed.value

/-- The text of the value, in a field whose width and precision are known. -/
def print (passed : Passed) (spec : FmtSpec) : List Byte :=
  if passed.Signed then fmtSigned spec passed.value.toInt else fmtUnsigned spec passed.value.toNat

/-- A signed conversion for which two words are passed under a fixed width. -/
def Narrowed (passed : Passed) : Prop :=
  passed.Signed ∧ passed.directive.length.IsFixed ∧ passed.directive.length.size = 64

end Passed

/-- A piece of a format: text, `%%` or an integer conversion. -/
inductive Item
  | literal (chars : List Byte) (printed : chars ≠ []) (plain : ∀ ch ∈ chars, ch ≠ ascii '%' ∧ ch ≠ 0)
  | percent
  | conversion (passed : Passed)

namespace Item

def text : Item → List Byte
  | .literal chars _ _ => chars
  | .percent => [ascii '%', ascii '%']
  | .conversion passed => passed.directive.text

def words : Item → List (BitVec 32)
  | .conversion passed => passed.words
  | _ => []

def Narrowed : Item → Prop
  | .conversion passed => passed.Narrowed
  | _ => False

/-- Two stretches of text next to each other are one. -/
def Apart : Item → Item → Prop
  | .literal .., .literal .. => False
  | _, _ => True

/-- What is printed for an item whose arguments start at `args`. -/
def printed (item : Item) (memory : Memory) (start : List Byte) (args : ℕ) : List Byte :=
  match item with
  | .literal chars _ _ => chars
  | .percent => [ascii '%']
  | .conversion passed => passed.print (adjust memory (passed.directive.spec start) args).1

end Item

def format (items : List Item) : List Byte := items.flatMap Item.text

/-- Each item takes its own words and prints its own value. -/
def ownRounds (memory : Memory) : List Item → ℕ → List Round
  | [], _ => []
  | item :: items, args =>
    let after := args + 4 * item.words.length
    ⟨item.printed memory (format (item :: items)) args, args, after⟩ :: ownRounds memory items after

/-- Words that lie next to each other. -/
def LaidOut (memory : Memory) : ℕ → List (BitVec 32) → Prop
  | _, [] => True
  | args, word :: words => memory.readWord args = word ∧ LaidOut memory (args + 4) words

theorem laidOut_append {memory : Memory} (words more : List (BitVec 32)) (args : ℕ) :
    LaidOut memory args (words ++ more) ↔
      LaidOut memory args words ∧ LaidOut memory (args + 4 * words.length) more := by
  induction words generalizing args with
  | nil => simp [LaidOut]
  | cons word words ih =>
    have place : args + 4 + 4 * words.length = args + 4 * (words.length + 1) := by omega
    simp [LaidOut, ih, place, and_assoc]

section Pulling

variable {memory : Memory} {spec : FmtSpec} {args : ℕ}

theorem Field.value_eq_wpStar_iff {field : Field} (inRange : field.InRange) : field.value = wpStar ↔ field = .star := by
  cases field with
  | star => exact iff_of_true rfl rfl
  | number first digits =>
    have value : (Field.number first digits).value = _ := intOfDigits_small inRange
    constructor
    · intro negative
      unfold wpStar at negative
      omega
    · intro other
      cases other

theorem adjustWidth_next : (adjustWidth memory spec args).2 = if spec.width = wpStar then args + 4 else args := by
  have other : (0 : ℤ) ≠ wpStar := by decide
  unfold adjustWidth
  by_cases unspecified : spec.width = wpUnspecified
  · have number : wpUnspecified ≠ wpStar := by decide
    simp [unspecified, other, number]
  · simp only
    split_ifs <;> rfl

theorem adjustPrecision_next :
    (adjustPrecision memory spec args).2 = if spec.precision = wpStar then args + 4 else args := by
  unfold adjustPrecision
  split_ifs <;> rfl

theorem Field.next_eq {field : Field} (inRange : field.InRange) (word : BitVec 32) (args : ℕ) :
    (if field.value = wpStar then args + 4 else args) = args + 4 * (field.pulled word).length := by
  cases field with
  | star => rfl
  | number first digits => exact if_neg ((Field.value_eq_wpStar_iff inRange).not.mpr (by simp))

theorem Passed.width_next (passed : Passed) (args : ℕ) :
    (if passed.directive.width.elim wpUnspecified Field.value = wpStar then args + 4 else args) =
      args + 4 * (passed.directive.width.elim [] (·.pulled passed.width)).length := by
  rcases named : passed.directive.width with _ | field
  · rfl
  · exact Field.next_eq (passed.widthInRange field named) passed.width args

theorem Passed.precision_next (passed : Passed) (args : ℕ) :
    (if passed.directive.precisionValue = wpStar then args + 4 else args) =
      args + 4 * (passed.directive.precision.join.elim [] (·.pulled passed.precision)).length := by
  unfold Directive.precisionValue
  rcases named : passed.directive.precision with _ | _ | field
  · rfl
  · rfl
  · -- a period alone is no star
    have same : (if field.value = wpUnspecified then 0 else field.value) = wpStar ↔ field.value = wpStar := by
      unfold wpUnspecified wpStar
      split <;> omega
    exact (if_congr same rfl rfl).trans (Field.next_eq (passed.precisionInRange field named) passed.precision args)

theorem adjust_passed (memory : Memory) (passed : Passed) (start : List Byte) (args : ℕ) :
    ∃ left width precision, adjust memory (passed.directive.spec start) args =
      ({ passed.directive.spec start with left, width, precision }, args + 4 * passed.stars.length) := by
  obtain ⟨left, width, next, adjusted⟩ : ∃ left width next, adjustWidth memory (passed.directive.spec start) args =
    ({ passed.directive.spec start with left, width }, next) := adjustWidth_eq
  obtain ⟨precision, after, adjusted'⟩ : ∃ precision after,
    adjustPrecision memory { passed.directive.spec start with left, width } next =
      ({ passed.directive.spec start with left, width, precision }, after) := adjustPrecision_eq
  have behindWidth : next = args + 4 * (passed.directive.width.elim [] (·.pulled passed.width)).length := by
    rw [← passed.width_next]
    exact (congrArg Prod.snd adjusted).symm.trans adjustWidth_next
  have behindPrecision : after =
      next + 4 * (passed.directive.precision.join.elim [] (·.pulled passed.precision)).length := by
    rw [← passed.precision_next]
    exact (congrArg Prod.snd adjusted').symm.trans adjustPrecision_next
  have place : after = args + 4 * passed.stars.length := by
    rw [Passed.stars, length_append]
    omega
  refine ⟨left, width, precision, ?_⟩
  rw [adjust, adjusted, ← place]
  exact adjusted'

end Pulling

section Values

variable {memory : Memory} {spec : FmtSpec} {args size : ℕ}

theorem wordsOf_word (value : BitVec size) (narrow : size = 32) :
    ∃ word, wordsOf value = [word] ∧ word.toInt = value.toInt ∧ word.toNat = value.toNat := by
  subst narrow
  refine ⟨value, ?_, rfl, rfl⟩
  simp [wordsOf]

theorem wordsOf_wide (value : BitVec size) (wide : size = 64) :
    ∃ low high, wordsOf value = [low, high] ∧ (high ++ low : BitVec 64).toInt = value.toInt ∧
      (high ++ low : BitVec 64).toNat = value.toNat := by
  subst wide
  have whole : value.extractLsb' 32 32 ++ value.extractLsb' 0 32 = value := by
    ext i inside
    grind
  refine ⟨value.extractLsb' 0 32, value.extractLsb' 32 32, rfl, ?_, ?_⟩
  · rw [whole]
  · rw [whole]

theorem sizeOfDigits_eq (digits : List (Fin 10)) :
    sizeOfDigits (digits.map digitChar) = numeral 10 (digits.map digitChar) % 2 ^ 32 := by
  induction digits using reverseRecOn with
  | nil => rfl
  | append_singleton digits digit ih =>
    have last := digitValue_eq (isdigit_digitChar digit)
    rw [map_append, map_singleton, numeral_concat, sizeOfDigits, foldl_append]
    change sizeT (sizeOfDigits (digits.map digitChar) * 10 + digitValue (digitChar digit)) = _
    unfold sizeT
    omega

theorem Length.size_cases (length : Length) : length.size = 32 ∨ length.size = 64 := by
  unfold Length.size
  split
  · exact .inr rfl
  · exact .inr rfl
  · split
    · exact .inl rfl
    · exact .inr rfl
  · split
    · exact .inl rfl
    · exact .inr rfl
  · exact .inl rfl

/-- What the parser makes of a length. -/
structure Modified (spec : FmtSpec) (length : Length) : Prop where
  lenmod : spec.lenmod = length.lenmod
  lenbits : spec.lenbits = numeral 10 (length.bits.map digitChar)
  bits : spec.lenbits ≤ 64

variable {length : Length} {value : BitVec length.size}

section

variable (modified : Modified spec length)
include modified

theorem signedArg_word (one : length.size = 32 ∨ length.IsFixed) :
    signedArg memory spec args = some ((memory.readWord args).toInt, args + 4) := by
  obtain ⟨lenmod, -, bits⟩ := modified
  cases length <;> simp_all [signedArg, Length.lenmod, Length.size, Length.IsFixed]

theorem signedArg_wide (wide : length.size = 64) (letters : ¬length.IsFixed) :
    signedArg memory spec args = some ((wideArg memory args).toInt, args + 8) := by
  obtain ⟨lenmod, -, -⟩ := modified
  cases length <;> simp_all [signedArg, Length.lenmod, Length.size, Length.IsFixed]

theorem unsignedArg_word (narrow : length.size = 32) :
    unsignedArg memory spec args = some ((memory.readWord args).toNat, args + 4) := by
  obtain ⟨lenmod, lenbits, -⟩ := modified
  cases length <;> simp_all [unsignedArg, Length.lenmod, Length.size, Length.bits]

theorem unsignedArg_wide (wide : length.size = 64) :
    unsignedArg memory spec args = some ((wideArg memory args).toNat, args + 8) := by
  obtain ⟨lenmod, lenbits, -⟩ := modified
  cases length <;> simp_all [unsignedArg, Length.lenmod, Length.size, Length.bits]

end

theorem read_word (narrow : length.size = 32) (laid : LaidOut memory args (wordsOf value)) :
    (memory.readWord args).toInt = value.toInt ∧ (memory.readWord args).toNat = value.toNat ∧
      (wordsOf value).length = 1 := by
  obtain ⟨word, words, signed, unsigned⟩ := wordsOf_word value narrow
  rw [words] at laid ⊢
  rw [laid.1]
  exact ⟨signed, unsigned, rfl⟩

theorem read_wide (wide : length.size = 64) (laid : LaidOut memory args (wordsOf value)) :
    (wideArg memory args).toInt = value.toInt ∧ (wideArg memory args).toNat = value.toNat ∧
      (wordsOf value).length = 2 := by
  obtain ⟨low, high, words, signed, unsigned⟩ := wordsOf_wide value wide
  rw [words] at laid ⊢
  rw [wideArg, laid.1, laid.2.1]
  exact ⟨signed, unsigned, rfl⟩

theorem signedArg_own (modified : Modified spec length) (whole : ¬(length.IsFixed ∧ length.size = 64))
    (laid : LaidOut memory args (wordsOf value)) :
    signedArg memory spec args = some (value.toInt, args + 4 * (wordsOf value).length) := by
  rcases length.size_cases with narrow | wide
  · obtain ⟨signed, -, count⟩ := read_word narrow laid
    rw [signedArg_word modified (.inl narrow), signed, count]
  · obtain ⟨signed, -, count⟩ := read_wide wide laid
    rw [signedArg_wide modified wide (fun fixed => whole ⟨fixed, wide⟩), signed, count]

theorem unsignedArg_own (modified : Modified spec length) (laid : LaidOut memory args (wordsOf value)) :
    unsignedArg memory spec args = some (value.toNat, args + 4 * (wordsOf value).length) := by
  rcases length.size_cases with narrow | wide
  · obtain ⟨-, unsigned, count⟩ := read_word narrow laid
    rw [unsignedArg_word modified narrow, unsigned, count]
  · obtain ⟨-, unsigned, count⟩ := read_wide wide laid
    rw [unsignedArg_wide modified wide, unsigned, count]

end Values

section OneRound

variable {memory : Memory} {spec : FmtSpec} {args : ℕ} {conversion : Conversion}

theorem convert_signed (signed : conversion = .d ∨ conversion = .i) (named : spec.specifier = ascii conversion.char)
    {val : ℤ} (pulled : signedArg memory spec args = some (val, after)) :
    convert memory spec args = .ok (fmtSigned spec val, after) := by
  rcases signed with rfl | rfl
  all_goals simp [convert, named, pulled, Conversion.char, ascii]

theorem convert_unsigned (integer : conversion ∉ [.c, .s, .p]) (unsigned : ¬(conversion = .d ∨ conversion = .i))
    (named : spec.specifier = ascii conversion.char) {uval : ℕ}
    (pulled : unsignedArg memory spec args = some (uval, after)) :
    convert memory spec args = .ok (fmtUnsigned spec uval, after) := by
  cases conversion <;> simp_all [convert, Conversion.char, ascii]

theorem Passed.modified (passed : Passed) (start : List Byte) (left : Bool) (width precision : ℤ) :
    Modified { passed.directive.spec start with left, width, precision } passed.directive.length := by
  have lenbits : (passed.directive.spec start).lenbits = numeral 10 (passed.directive.length.bits.map digitChar) := by
    have few := passed.bits
    change sizeOfDigits (passed.directive.length.bits.map digitChar) = _
    rw [sizeOfDigits_eq]
    omega
  exact ⟨rfl, lenbits, le_of_eq_of_le lenbits passed.bits⟩

theorem oneRound_ok {next : ℕ} {spec' : FmtSpec}
    (read : parseSpec fmt = some (spec, rest)) (adjusted : adjust memory spec args = (spec', next))
    (printed : convert memory spec' next = .ok (chars, after)) :
    oneRound memory fmt args = .ok (⟨chars, args, after⟩, rest) := by
  simp [oneRound, read, adjusted, printed]

theorem oneRound_passed {passed : Passed} (whole : ¬passed.Narrowed) (laid : LaidOut memory args passed.words)
    (rest : List Byte) :
    oneRound memory (passed.directive.text ++ rest) args =
      .ok (⟨passed.print (adjust memory (passed.directive.spec (passed.directive.text ++ rest)) args).1, args,
        args + 4 * passed.words.length⟩, rest) := by
  obtain ⟨left, width, precision, adjusted⟩ := adjust_passed memory passed (passed.directive.text ++ rest) args
  have modified := passed.modified (passed.directive.text ++ rest) left width precision
  have value := ((laidOut_append _ _ _).mp laid).2
  have place : args + 4 * passed.stars.length + 4 * (wordsOf passed.value).length = args + 4 * passed.words.length := by
    rw [Passed.words, length_append]
    omega
  apply oneRound_ok (parseSpec_directive passed.directive rest) adjusted
  rw [adjusted, Passed.print, ← place]
  split
  · next signed =>
    exact convert_signed signed rfl (signedArg_own modified (fun narrowed => whole ⟨signed, narrowed⟩) value)
  · next unsigned => exact convert_unsigned passed.integer unsigned rfl (unsignedArg_own modified value)

theorem oneRound_narrowed {passed : Passed} (narrowed : passed.Narrowed) (rest : List Byte) :
    ∃ chars after, oneRound memory (passed.directive.text ++ rest) args = .ok (⟨chars, args, after⟩, rest) ∧
      after + 4 = args + 4 * passed.words.length := by
  obtain ⟨left, width, precision, adjusted⟩ := adjust_passed memory passed (passed.directive.text ++ rest) args
  have modified := passed.modified (passed.directive.text ++ rest) left width precision
  obtain ⟨signed, fixed, wide⟩ := narrowed
  obtain ⟨low, high, words, -⟩ := wordsOf_wide passed.value wide
  have pulled : signedArg memory _ (args + 4 * passed.stars.length) = _ := signedArg_word modified (.inr fixed)
  refine ⟨_, _, oneRound_ok (parseSpec_directive passed.directive rest) adjusted (convert_signed signed rfl pulled), ?_⟩
  rw [Passed.words, words, length_append]
  simp only [length_cons, length_nil]
  omega

theorem oneRound_literal (printed : chars ≠ []) (plain : ∀ ch ∈ chars, ch ≠ ascii '%' ∧ ch ≠ 0)
    (ends : rest = [] ∨ rest.head? = some (ascii '%')) :
    oneRound memory (chars ++ rest) args = .ok (⟨chars, args, args⟩, rest) := by
  refine oneRound_ok (parseSpec_text printed (fun ch member => (plain ch member).1) ends) rfl ?_
  have whole : fputsn (chars ++ rest) chars.length = chars := take_left ..
  exact congrArg (fun text => Except.ok (text, args)) whole

theorem oneRound_percent (rest : List Byte) :
    oneRound memory (ascii '%' :: ascii '%' :: rest) args = .ok (⟨[ascii '%'], args, args⟩, rest) := by
  have two : rest.length + 1 + 1 - rest.length = 2 := by omega
  refine oneRound_ok rfl rfl ?_
  simp [convert, two, ascii]

theorem head_format {item : Item} (spaced : (item :: items).IsChain Item.Apart)
    (literal : ∃ chars printed plain, item = .literal chars printed plain) :
    format items = [] ∨ (format items).head? = some (ascii '%') := by
  obtain ⟨chars, printed, plain, rfl⟩ := literal
  cases items with
  | nil => exact .inl rfl
  | cons next items =>
    right
    cases next with
    | literal => exact absurd (isChain_cons_cons.mp spaced).1 (by simp [Item.Apart])
    | percent => rfl
    | conversion passed => rfl

/-- An item that is not narrowed takes its own words and prints its own value. -/
theorem oneRound_item {item : Item} (whole : ¬item.Narrowed)
    (spaced : (item :: items).IsChain Item.Apart) (laid : LaidOut memory args item.words) :
    oneRound memory (format (item :: items)) args =
      .ok (⟨item.printed memory (format (item :: items)) args, args, args + 4 * item.words.length⟩, format items) := by
  cases item with
  | literal chars printed plain => exact oneRound_literal printed plain (head_format spaced ⟨_, _, _, rfl⟩)
  | percent => exact oneRound_percent _
  | conversion passed => exact oneRound_passed whole laid _

end OneRound

theorem Item.text_ne_nil (item : Item) : item.text ≠ [] := by
  cases item with
  | literal chars printed _ => exact printed
  | percent | conversion passed => exact cons_ne_nil _ _

/-- Each round of a call takes the words of its own item and prints its value. -/
def ArgumentsMatch (memory : Memory) (items : List Item) (args : ℕ) : Prop :=
  rounds memory (format items).length (format items) args = (ownRounds memory items args, .done)

theorem rounds_eq_ownRounds_iff {memory : Memory} (spaced : items.IsChain Item.Apart) {args : ℕ}
    (laid : LaidOut memory args (items.flatMap Item.words)) {fuel : ℕ} (enough : (format items).length ≤ fuel) :
    rounds memory fuel (format items) args = (ownRounds memory items args, .done) ↔ ∀ item ∈ items, ¬item.Narrowed := by
  induction items generalizing args fuel with
  | nil => cases fuel <;> simp [format, rounds, ownRounds]
  | cons item items ih =>
    have goes : format (item :: items) ≠ [] := by simp [format, item.text_ne_nil]
    have shorter : (format items).length < (format (item :: items)).length := by
      have := length_pos_iff.mpr item.text_ne_nil
      simp only [format, flatMap_cons, length_append]
      omega
    obtain ⟨fuel, rfl⟩ := Nat.exists_eq_succ_of_ne_zero (by omega : fuel ≠ 0)
    rw [flatMap_cons, laidOut_append] at laid
    rw [forall_mem_cons]
    by_cases narrowed : item.Narrowed
    · -- the place of the next argument is off by a word
      refine iff_of_false ?_ (fun whole => whole.1 narrowed)
      obtain ⟨passed, rfl⟩ : ∃ passed, item = .conversion passed := by
        cases item with
        | conversion passed => exact ⟨passed, rfl⟩
        | literal | percent => exact narrowed.elim
      obtain ⟨chars, after, once, short⟩ : ∃ chars after,
        oneRound memory (format (.conversion passed :: items)) args = .ok (⟨chars, args, after⟩, format items) ∧
          after + 4 = args + 4 * passed.words.length := oneRound_narrowed narrowed _
      rw [rounds_cons goes once]
      intro same
      have round := (cons.inj (Prod.mk.inj same).1).1
      have : after = args + 4 * passed.words.length := congrArg Round.after round
      omega
    · have rest := ih spaced.tail laid.2 (show (format items).length ≤ fuel by omega)
      rw [rounds_cons goes (oneRound_item narrowed spaced laid.1), ← rest]
      simp [ownRounds, narrowed, Prod.ext_iff]

/-- Then the whole call prints the values one after another. -/
theorem ArgumentsMatch.vfprintf_eq {memory : Memory} {args : ℕ} (fits : ArgumentsMatch memory items args) :
    vfprintf memory (format items) args = ((ownRounds memory items args).flatMap Round.chars, .done) := by
  rw [vfprintf, vfprintfLoop_eq_rounds, fits]

/-- A format takes and prints what is passed for it exactly if it has no signed conversion of 33 to 64 bits under a
fixed width. -/
theorem arguments_match_iff {memory : Memory} {items : List Item} (spaced : items.IsChain Item.Apart) {args : ℕ}
    (laid : LaidOut memory args (items.flatMap Item.words)) :
    ArgumentsMatch memory items args ↔ ∀ item ∈ items, ¬item.Narrowed :=
  rounds_eq_ownRounds_iff spaced laid (Nat.le_refl _)

theorem Conversion.unmodified_of_integer {conversion : Conversion} (integer : conversion ∉ [.c, .s, .p])
    (length : Length) : conversion = .c ∨ conversion = .s ∨ conversion = .p → length = .none := by
  intro other
  exact absurd other (by simpa using integer)

theorem none_width_leads (digits : List (Fin 10)) : none ≠ some (Field.number 0 digits) := nofun

theorem none_inRange (field : Field) (absent : none = some field) : field.InRange := nomatch absent

theorem none_precisionInRange (field : Field) (absent : none = some (some field)) : field.InRange := nomatch absent

def Passed.plain (conversion : Conversion) (integer : conversion ∉ [.c, .s, .p]) (length : Length)
    (bits : numeral 10 (length.bits.map digitChar) ≤ 64) (value : BitVec length.size) : Passed where
  directive := {
    flags := [], width := none, width_leads := none_width_leads, precision := none, length, conversion,
    unmodified := Conversion.unmodified_of_integer integer length }
  integer
  bits
  widthInRange := none_inRange
  precisionInRange := none_precisionInRange
  width := 0
  precision := 0
  value

def threeWords : Memory := fun address => if address = 0 then 1 else if address = 8 then 7 else 0

def matchedCall : List Item :=
  [.conversion (.plain .u (by decide) .ll (by decide) (1 : BitVec 64)),
    .conversion (.plain .d (by decide) .none (by decide) (7 : BitVec 32))]

theorem arguments_match_long_long : ArgumentsMatch threeWords matchedCall 0 := by
  refine (arguments_match_iff (by simp [matchedCall, Item.Apart]) ?_).mpr ?_
  · exact ⟨by decide, by decide, by decide, trivial⟩
  · simp [matchedCall, Item.Narrowed, Passed.Narrowed, Passed.plain, Length.IsFixed, Length.lenmod]

/-- A signed conversion with a length modifier, and `%d` for the value 7. -/
def signedCall (length : Length) (bits : numeral 10 (length.bits.map digitChar) ≤ 64) (value : BitVec length.size) :
    List Item :=
  [.conversion (.plain .d (by decide) length bits value),
    .conversion (.plain .d (by decide) .none (by decide) (7 : BitVec 32))]

/-- In the call `printf("%w64d%d", (int64_t) 1, 7)` the second conversion prints the upper half of the first
argument. -/
theorem arguments_narrowed : ∃ items, items = signedCall (.w [6, 4]) (by decide) (1 : BitVec 64) ∧
    items.IsChain Item.Apart ∧ LaidOut threeWords 0 (items.flatMap Item.words) ∧
      vfprintf threeWords (format items) 0 = ([ascii '1', ascii '0'], .done) ∧ ¬ArgumentsMatch threeWords items 0 := by
  refine ⟨_, rfl, by simp [signedCall, Item.Apart], ⟨by decide, by decide, by decide, trivial⟩, by decide, ?_⟩
  unfold ArgumentsMatch
  decide

end MicroOs.Libc
