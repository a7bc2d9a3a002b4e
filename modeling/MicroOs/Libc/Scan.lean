import MicroOs.Library.ReadTrace
import MicroOs.Libc.Bounded

/-! # Where a format is read

The parser walks through the format with a pointer. Each of its loops stops at the terminator, since no character that
lets it go on is zero, and a length modifier of two letters is looked for only behind its first letter. The last step of
a conversion takes a character whatever it is: of a conversion that is cut off by the end of the format it takes the
terminator, and the pointer is left behind it. The loop of `vfprintf` prints what there is of the conversion and reads
on from there.

The parser is given here on memory, with every byte it reads, and refines the one on lists, which has no result for a
conversion that is cut off.
-/

namespace MicroOs.Libc

open Reading List

variable {specifier : Byte} {fuel : ℕ}

section Parser

variable (memory : Memory)

/-- No loop inside a string has more rounds than there are addresses. -/
def loopBound : ℕ := 2 ^ 32

def parseFlagsAt : ℕ → FmtSpec → ℕ → Reading ℕ (FmtSpec × ℕ)
  | 0, _, _ => never
  | fuel + 1, spec, fmt => do
    let ch ← read memory fmt
    if ch = ascii '-' then parseFlagsAt fuel { spec with left := true } (fmt + 1)
    else if ch = ascii '+' then parseFlagsAt fuel { spec with plus := true } (fmt + 1)
    else if ch = ascii ' ' then parseFlagsAt fuel { spec with space := true } (fmt + 1)
    else if ch = ascii '#' then parseFlagsAt fuel { spec with alt := true } (fmt + 1)
    else if ch = ascii '0' then parseFlagsAt fuel { spec with zero := true } (fmt + 1)
    else return (spec, fmt)

def digitsAt : ℕ → ℕ → Reading ℕ (List Byte × ℕ)
  | 0, _ => never
  | fuel + 1, fmt => do
    let ch ← read memory fmt
    if isdigit ch then
      let (digits, fmt) ← digitsAt fuel (fmt + 1)
      return (ch :: digits, fmt)
    else return ([], fmt)

def parseWidthPrecisionAt (fmt : ℕ) : Reading ℕ (ℤ × ℕ) := do
  let ch ← read memory fmt
  if ch = ascii '*' then return (wpStar, fmt + 1)
  else
    let (digits, fmt) ← digitsAt memory loopBound fmt
    return (if digits = [] then wpUnspecified else intOfDigits digits, fmt)

def LenModMapping.applyAt (state : LenMod × ℕ) (map : LenModMapping) : Reading ℕ (LenMod × ℕ) := do
  let ch ← read memory state.2
  if ch = ascii map.ch0 then
    match map.ch1 with
    | none => return (map.lm0, state.2 + 1)
    | some ch1 => do
      let next ← read memory (state.2 + 1)
      return if next = ascii ch1 then (map.lm1, state.2 + 2) else (map.lm0, state.2 + 1)
  else return state

def parseLenmodAt (spec : FmtSpec) (fmt : ℕ) : Reading ℕ (FmtSpec × ℕ) := do
  let (lenmod, fmt) ← lenmodMap.foldlM (LenModMapping.applyAt memory) (.none, fmt)
  if lenmod = .fixed ∨ lenmod = .fast then
    let (digits, fmt) ← digitsAt memory loopBound fmt
    return ({ spec with lenmod, lenbits := sizeOfDigits digits }, fmt)
  else return ({ spec with lenmod, lenbits := 0 }, fmt)

def parsePrecisionAt (fmt : ℕ) : Reading ℕ (ℤ × ℕ) := do
  let ch ← read memory fmt
  if ch = ascii '.' then
    let (precision, fmt) ← parseWidthPrecisionAt memory (fmt + 1)
    return (if precision = wpUnspecified then 0 else precision, fmt)
  else return (wpUnspecified, fmt)

def textLengthAt : ℕ → ℕ → Reading ℕ ℕ
  | 0, _ => never
  | fuel + 1, fmt => do
    let ch ← read memory fmt
    if ch ≠ 0 ∧ ch ≠ ascii '%' then
      let len ← textLengthAt fuel (fmt + 1)
      return len + 1
    else return 0

/-- The next piece of a format, from its start, and the pointer behind it. -/
def parseSpecAt (fmt : ℕ) : Reading ℕ (FmtSpec × ℕ) := do
  let ch ← read memory fmt
  if ch ≠ ascii '%' then
    let len ← textLengthAt memory loopBound fmt
    return ({ start := [], len }, fmt + len)
  else
    let (spec, next) ← parseFlagsAt memory loopBound { start := [] } (fmt + 1)
    let (width, next) ← parseWidthPrecisionAt memory next
    let (precision, next) ← parsePrecisionAt memory next
    let (spec, next) ← parseLenmodAt memory { spec with width, precision } next
    let specifier ← read memory next
    return ({ spec with specifier, len := next + 1 - fmt }, next + 1)

/-- Printing a stretch of the format reads it once more. -/
def fputsnAt : ℕ → ℕ → Reading ℕ Unit
  | 0, _ => return
  | n + 1, str => do
    let ch ← read memory str
    if ch = 0 then return else fputsnAt n (str + 1)

/-- The pieces at which a call returns, with the code. -/
def conversionError (spec : FmtSpec) : Option ℤ :=
  if spec.specifier = 0 then none
  else if spec.specifier = ascii '%' then if spec.len ≠ 2 then some (-einval) else none
  else if (['c', 's'].map ascii).contains spec.specifier then
    if spec.lenmod ≠ .none then some (-eunimplemented) else none
  else if (['d', 'i', 'b', 'B', 'o', 'x', 'X', 'u'].map ascii).contains spec.specifier then
    match spec.lenmod with
    | .longDouble | .decimal32 | .decimal64 | .decimal128 => some (-einval)
    | _ => none
  else if spec.specifier = ascii 'p' then none
  else if (['f', 'F', 'e', 'E', 'a', 'A'].map ascii).contains spec.specifier then
    match spec.lenmod with
    | .none | .long | .longDouble => none
    | .decimal32 | .decimal64 | .decimal128 => some (-eunimplemented)
    | _ => some (-einval)
  else some (-eunimplemented)

/-- The loop over the format, with what it reads of it. -/
def vfprintfScan : ℕ → ℕ → Reading ℕ Status
  | 0, _ => never
  | fuel + 1, format => do
    let ch ← read memory format
    if ch = 0 then return .done
    else
      let (spec, next) ← parseSpecAt memory format
      match conversionError spec with
      | some code => return .failed code
      | none => do
        if spec.specifier = 0 then fputsnAt memory spec.len format
        vfprintfScan fuel next

end Parser

/-- A string lies in memory with its terminator at `stop`. -/
def EndsAt (memory : Memory) (stop : ℕ) : List Byte → Prop
  | [] => memory stop = 0
  | ch :: s => ch ≠ 0 ∧ s.length < stop ∧ memory (stop - (s.length + 1)) = ch ∧ EndsAt memory stop s

section Strings

variable {memory : Memory} {stop : ℕ} {s rest : List Byte} {ch : Byte}

theorem EndsAt.of_suffix (holds : EndsAt memory stop s) (suffix : rest <:+ s) : EndsAt memory stop rest := by
  induction s with
  | nil =>
    obtain rfl := suffix_nil.mp suffix
    exact holds
  | cons ch s ih =>
    rcases suffix_cons_iff.mp suffix with rfl | shorter
    · exact holds
    · exact ih holds.2.2.2 shorter

theorem EndsAt.length_le (holds : EndsAt memory stop s) : s.length ≤ stop := by
  cases s with
  | nil => exact Nat.zero_le _
  | cons ch s => exact holds.2.1

theorem EndsAt.first (holds : EndsAt memory stop s) : memory (stop - s.length) = s.headD 0 := by
  cases s with
  | nil => exact holds
  | cons ch s => exact holds.2.2.1

theorem EndsAt.next (holds : EndsAt memory stop (ch :: s)) : stop - (ch :: s).length + 1 = stop - s.length := by
  have := holds.2.1
  rw [length_cons]
  omega

theorem EndsAt.read (holds : EndsAt memory stop s) :
    Returns (Reading.read memory (stop - s.length)) (· ≤ stop) (s.headD 0) := by
  rw [← holds.first]
  exact returns_read memory (Nat.sub_le ..)

end Strings

/-- A parser on memory does what one on lists does, and reads nothing behind the terminator. -/
def Refines {α : Type} (memory : Memory) (parserAt : ℕ → Reading ℕ (α × ℕ)) (parser : List Byte → α × List Byte) :
    Prop :=
  ∀ stop s, EndsAt memory stop s → s.length < loopBound →
    Returns (parserAt (stop - s.length)) (· ≤ stop) ((parser s).1, stop - (parser s).2.length) ∧ (parser s).2 <:+ s

section Refinement

variable {memory : Memory} {stop : ℕ} {s : List Byte}

def flagOf (ch : Byte) : Option Flag :=
  if ch = ascii '-' then some .left
  else if ch = ascii '+' then some .plus
  else if ch = ascii ' ' then some .space
  else if ch = ascii '#' then some .alt
  else if ch = ascii '0' then some .zero
  else none

theorem parseFlags_cons (spec : FmtSpec) (ch : Byte) (s : List Byte) :
    parseFlags spec (ch :: s) =
      match flagOf ch with
      | some flag => parseFlags (flag.set spec) s
      | none => (spec, ch :: s) := by
  simp only [parseFlags, flagOf]
  split_ifs <;> rfl

theorem parseFlagsAt_succ (fuel : ℕ) (spec : FmtSpec) (fmt : ℕ) :
    parseFlagsAt memory (fuel + 1) spec fmt = (read memory fmt >>= fun ch =>
      match flagOf ch with
      | some flag => parseFlagsAt memory fuel (flag.set spec) (fmt + 1)
      | none => pure (spec, fmt)) := by
  simp only [parseFlagsAt, flagOf]
  congr 1
  funext ch
  split_ifs <;> rfl

theorem parseFlagsAt_returns (holds : EndsAt memory stop s) (enough : s.length < fuel) (spec : FmtSpec) :
    Returns (parseFlagsAt memory fuel spec (stop - s.length)) (· ≤ stop)
      ((parseFlags spec s).1, stop - (parseFlags spec s).2.length) := by
  induction fuel generalizing s spec with
  | zero => cases enough
  | succ fuel ih =>
    cases s with
    | nil =>
      exact holds.read.bind (returns_pure _)
    | cons ch s =>
      rw [length_cons] at enough
      have fewer : s.length < fuel := by omega
      rw [parseFlagsAt_succ, parseFlags_cons]
      apply holds.read.bind
      simp only [headD_cons, holds.next]
      cases flagOf ch with
      | some flag => exact ih holds.2.2.2 fewer (flag.set spec)
      | none => exact returns_pure _

theorem parseFlags_suffix (spec : FmtSpec) (s : List Byte) : (parseFlags spec s).2 <:+ s := by
  induction s generalizing spec with
  | nil => exact suffix_rfl
  | cons ch s ih =>
    rw [parseFlags_cons]
    cases flagOf ch with
    | some flag => exact (ih (flag.set spec)).trans (suffix_cons ..)
    | none => exact suffix_rfl

theorem parseFlagsAt_refines (spec : FmtSpec) : Refines memory (parseFlagsAt memory loopBound spec) (parseFlags spec) :=
  fun _ _ holds short => ⟨parseFlagsAt_returns holds short spec, parseFlags_suffix spec _⟩

theorem digitsAt_returns (holds : EndsAt memory stop s) (enough : s.length < fuel) :
    Returns (digitsAt memory fuel (stop - s.length)) (· ≤ stop)
      (s.takeWhile isdigit, stop - (s.dropWhile isdigit).length) := by
  induction fuel generalizing s with
  | zero => cases enough
  | succ fuel ih =>
    cases s with
    | nil =>
      exact holds.read.bind (returns_pure _)
    | cons ch s =>
      rw [length_cons] at enough
      have fewer : s.length < fuel := by omega
      have more := ih holds.2.2.2 fewer
      apply holds.read.bind
      simp only [headD_cons, holds.next]
      split_ifs with digit
      · rw [takeWhile_cons_of_pos digit, dropWhile_cons_of_pos digit]
        exact more.bind (returns_pure _)
      · rw [takeWhile_cons_of_neg digit, dropWhile_cons_of_neg digit]
        exact returns_pure _

theorem digitsAt_refines :
    Refines memory (digitsAt memory loopBound) fun s => (s.takeWhile isdigit, s.dropWhile isdigit) :=
  fun _ _ holds short => ⟨digitsAt_returns holds short, dropWhile_suffix _⟩

theorem headD_eq_iff {ch : Byte} (printed : ch ≠ 0) : s.headD 0 = ch ↔ s.head? = some ch := by
  cases s with
  | nil => exact iff_of_false printed.symm (by simp)
  | cons first s => simp

theorem parseWidthPrecision_digits (number : s.head? ≠ some (ascii '*')) :
    parseWidthPrecision s = (if s.takeWhile isdigit = [] then wpUnspecified else intOfDigits (s.takeWhile isdigit),
      s.dropWhile isdigit) := by
  rw [parseWidthPrecision, if_neg number]
  split_ifs with none
  · have all := takeWhile_append_dropWhile (p := isdigit) (l := s)
    rw [none, nil_append] at all
    rw [all]
  · rfl

theorem parseWidthPrecisionAt_refines : Refines memory (parseWidthPrecisionAt memory) parseWidthPrecision := by
  intro stop s holds short
  have star := headD_eq_iff (s := s) (show ascii '*' ≠ 0 by decide)
  obtain ⟨digits, suffix⟩ := digitsAt_refines stop s holds short
  by_cases asked : s.head? = some (ascii '*')
  · obtain ⟨rest, rfl⟩ := head?_eq_some_iff.mp asked
    refine ⟨holds.read.bind ?_, suffix_cons ..⟩
    rw [holds.next]
    exact returns_pure _
  · rw [parseWidthPrecision_digits asked]
    refine ⟨holds.read.bind ?_, suffix⟩
    rw [if_neg (star.not.mpr asked)]
    exact digits.bind (returns_pure _)

theorem parsePrecisionAt_refines : Refines memory (parsePrecisionAt memory) parsePrecision := by
  intro stop s holds short
  have period := headD_eq_iff (s := s) (show ascii '.' ≠ 0 by decide)
  by_cases given : s.head? = some (ascii '.')
  · obtain ⟨rest, rfl⟩ := head?_eq_some_iff.mp given
    rw [length_cons] at short
    obtain ⟨field, suffix⟩ := parseWidthPrecisionAt_refines stop rest holds.2.2.2 (by omega)
    refine ⟨holds.read.bind ?_, suffix.trans (suffix_cons ..)⟩
    rw [holds.next]
    exact field.bind (returns_pure _)
  · have none : parsePrecision s = (wpUnspecified, s) := if_neg given
    rw [none]
    refine ⟨holds.read.bind ?_, suffix_rfl⟩
    rw [if_neg (period.not.mpr given)]
    exact returns_pure _

/-- The letters of the table are not the terminator. -/
def LenModMapping.Printed (map : LenModMapping) : Prop :=
  ascii map.ch0 ≠ 0 ∧ ∀ ch1, map.ch1 = some ch1 → ascii ch1 ≠ 0

theorem lenmodMap_printed : ∀ map ∈ lenmodMap, map.Printed := by
  simp [lenmodMap, LenModMapping.Printed, ascii]

section Mapping

variable {map : LenModMapping} (lenmod : LenMod) {rest : List Byte}

theorem apply_other (other : s.head? ≠ some (ascii map.ch0)) : LenModMapping.apply (lenmod, s) map = (lenmod, s) := by
  simp [LenModMapping.apply, other]

theorem apply_both {ch1 : Char} (second : map.ch1 = some ch1) :
    LenModMapping.apply (lenmod, ascii map.ch0 :: ascii ch1 :: rest) map = (map.lm1, rest) := by
  simp [LenModMapping.apply, second]

theorem apply_first (second : ∀ ch1, map.ch1 = some ch1 → rest.head? ≠ some (ascii ch1)) :
    LenModMapping.apply (lenmod, ascii map.ch0 :: rest) map = (map.lm0, rest) := by
  rcases named : map.ch1 with _ | ch1
  · simp [LenModMapping.apply, named]
  · simp [LenModMapping.apply, named, second ch1 named]

/-- The second letter is looked at only behind the first, and the terminator is neither. -/
theorem applyAt_refines (printed : map.Printed) (holds : EndsAt memory stop s) :
    Returns (map.applyAt memory (lenmod, stop - s.length)) (· ≤ stop)
      ((LenModMapping.apply (lenmod, s) map).1, stop - (LenModMapping.apply (lenmod, s) map).2.length) ∧
      (LenModMapping.apply (lenmod, s) map).2 <:+ s := by
  have first := headD_eq_iff (s := s) printed.1
  by_cases starts : s.head? = some (ascii map.ch0)
  · obtain ⟨rest, rfl⟩ := head?_eq_some_iff.mp starts
    have next := holds.next
    rcases named : map.ch1 with _ | ch1
    · rw [apply_first lenmod (by simp [named])]
      refine ⟨holds.read.bind ?_, suffix_cons ..⟩
      rw [if_pos (first.mpr starts), named, next]
      exact returns_pure _
    · have second := headD_eq_iff (s := rest) (printed.2 ch1 named)
      have behind : Returns (Reading.read memory (stop - (ascii map.ch0 :: rest).length + 1)) (· ≤ stop)
          (rest.headD 0) := by
        rw [next]
        exact holds.2.2.2.read
      by_cases goes : rest.head? = some (ascii ch1)
      · obtain ⟨rest, rfl⟩ := head?_eq_some_iff.mp goes
        rw [apply_both lenmod named]
        refine ⟨holds.read.bind ?_, (suffix_cons ..).trans (suffix_cons ..)⟩
        rw [if_pos (first.mpr starts), named]
        refine behind.bind ?_
        have two := holds.2.2.2.next
        rw [if_pos (second.mpr goes), ← two, ← next]
        exact returns_pure _
      · rw [apply_first lenmod (by simpa [named] using goes)]
        refine ⟨holds.read.bind ?_, suffix_cons ..⟩
        rw [if_pos (first.mpr starts), named]
        refine behind.bind ?_
        rw [if_neg (second.not.mpr goes), next]
        exact returns_pure _
  · rw [apply_other lenmod starts]
    refine ⟨holds.read.bind ?_, suffix_rfl⟩
    rw [if_neg (first.not.mpr starts)]
    exact returns_pure _

end Mapping

theorem applyAt_foldlM {maps : List LenModMapping} (printed : ∀ map ∈ maps, map.Printed) (lenmod : LenMod)
    (holds : EndsAt memory stop s) :
    Returns (maps.foldlM (LenModMapping.applyAt memory) (lenmod, stop - s.length)) (· ≤ stop)
      ((maps.foldl LenModMapping.apply (lenmod, s)).1, stop - (maps.foldl LenModMapping.apply (lenmod, s)).2.length) ∧
      (maps.foldl LenModMapping.apply (lenmod, s)).2 <:+ s := by
  induction maps generalizing lenmod s with
  | nil => exact ⟨returns_pure _, suffix_rfl⟩
  | cons map maps ih =>
    obtain ⟨once, suffix⟩ := applyAt_refines lenmod (printed map (by simp)) holds
    obtain ⟨more, suffix'⟩ := ih (fun map member => printed map (mem_cons_of_mem _ member))
      (LenModMapping.apply (lenmod, s) map).1 (holds.of_suffix suffix)
    exact ⟨once.bind more, suffix'.trans suffix⟩

theorem parseLenmodAt_refines (spec : FmtSpec) : Refines memory (parseLenmodAt memory spec) (parseLenmod spec) := by
  intro stop s holds short
  obtain ⟨table, suffix⟩ := applyAt_foldlM lenmodMap_printed .none holds
  unfold parseLenmodAt parseLenmod
  generalize lenmodMap.foldl LenModMapping.apply (.none, s) = found at table suffix ⊢
  obtain ⟨lenmod, rest⟩ := found
  obtain ⟨digits, suffix'⟩ := digitsAt_refines stop rest (holds.of_suffix suffix)
    (lt_of_le_of_lt suffix.length_le short)
  dsimp only
  split
  · next fixed =>
    refine ⟨table.bind ?_, suffix'.trans suffix⟩
    rw [if_pos fixed]
    exact digits.bind (returns_pure _)
  · next letters =>
    refine ⟨table.bind ?_, suffix⟩
    rw [if_neg letters]
    exact returns_pure _

theorem textLengthAt_returns (holds : EndsAt memory stop s) (enough : s.length < fuel) :
    Returns (textLengthAt memory fuel (stop - s.length)) (· ≤ stop) (s.takeWhile (· ≠ ascii '%')).length := by
  induction fuel generalizing s with
  | zero => cases enough
  | succ fuel ih =>
    cases s with
    | nil =>
      exact holds.read.bind (returns_pure _)
    | cons ch s =>
      rw [length_cons] at enough
      have fewer : s.length < fuel := by omega
      have more := ih holds.2.2.2 fewer
      apply holds.read.bind
      simp only [holds.next]
      split_ifs with text
      · rw [takeWhile_cons_of_pos (by simpa using text.2)]
        exact more.bind (returns_pure _)
      · have percent : ch = ascii '%' := by
          by_contra other
          exact text ⟨holds.1, other⟩
        rw [takeWhile_cons_of_neg (by simpa using percent)]
        exact returns_pure _

/-- The parts of a conversion behind its `%`, up to the character that names it. -/
def parseParts (s : List Byte) : FmtSpec × List Byte :=
  let (spec, rest) := parseFlags { start := [] } s
  let (width, rest) := parseWidthPrecision rest
  let (precision, rest) := parsePrecision rest
  parseLenmod { spec with width, precision } rest

theorem parseFlags_start (spec : FmtSpec) (start s : List Byte) :
    parseFlags { spec with start } s = ({ (parseFlags spec s).1 with start }, (parseFlags spec s).2) := by
  induction s generalizing spec with
  | nil => rfl
  | cons ch s ih =>
    rw [parseFlags_cons, parseFlags_cons]
    cases flagOf ch with
    | none => rfl
    | some flag =>
      have set : flag.set { spec with start } = { flag.set spec with start } := by cases flag <;> rfl
      simp only [set]
      exact ih (flag.set spec)

theorem parseLenmod_start (spec : FmtSpec) (start s : List Byte) :
    parseLenmod { spec with start } s = ({ (parseLenmod spec s).1 with start }, (parseLenmod spec s).2) := by
  unfold parseLenmod
  dsimp only
  split <;> rfl

/-- The parser asks for one more character behind these parts. -/
theorem parseSpec_parts (tail : List Byte) :
    parseSpec (ascii '%' :: tail) =
      match parseParts tail with
      | (_, []) => none
      | (spec, specifier :: rest) => some ({ spec with
          start := ascii '%' :: tail, specifier, len := tail.length + 1 - rest.length }, rest) := by
  have flags := parseFlags_start { start := [] } (ascii '%' :: tail) tail
  simp only [parseSpec, ne_eq, tail_cons, flags, parseParts]
  generalize parseFlags { start := [] } tail = parsed₁
  generalize parseWidthPrecision parsed₁.2 = parsed₂
  generalize parsePrecision parsed₂.2 = parsed₃
  have lenmod := parseLenmod_start { parsed₁.1 with width := parsed₂.1, precision := parsed₃.1 } (ascii '%' :: tail)
    parsed₃.2
  rw [lenmod]
  generalize parseLenmod { parsed₁.1 with width := parsed₂.1, precision := parsed₃.1 } parsed₃.2 = parsed₄
  rcases parsed₄ with ⟨spec, _ | ⟨specifier, rest⟩⟩ <;> rfl

/-- The same parts are read from memory, all inside the string. -/
theorem parseSpecAt_conversion {tail : List Byte} (holds : EndsAt memory stop (ascii '%' :: tail))
    (short : (ascii '%' :: tail).length < loopBound) :
    Returns (parseSpecAt memory (stop - (ascii '%' :: tail).length)) (· ≤ stop)
      ({ (parseParts tail).1 with
        specifier := (parseParts tail).2.headD 0
        len := stop - (parseParts tail).2.length + 1 - (stop - (ascii '%' :: tail).length) },
        stop - (parseParts tail).2.length + 1) ∧ (parseParts tail).2 <:+ tail := by
  rw [length_cons] at short
  unfold parseParts
  obtain ⟨flags, suffix₁⟩ := parseFlagsAt_refines { start := [] } stop tail holds.2.2.2 (by omega)
  generalize parseFlags { start := [] } tail = parsed₁ at flags suffix₁ ⊢
  obtain ⟨width, suffix₂⟩ := parseWidthPrecisionAt_refines stop parsed₁.2 (holds.2.2.2.of_suffix suffix₁)
    (lt_of_le_of_lt suffix₁.length_le (by omega))
  replace suffix₂ := suffix₂.trans suffix₁
  dsimp only
  generalize parseWidthPrecision parsed₁.2 = parsed₂ at width suffix₂ ⊢
  obtain ⟨precision, suffix₃⟩ := parsePrecisionAt_refines stop parsed₂.2 (holds.2.2.2.of_suffix suffix₂)
    (lt_of_le_of_lt suffix₂.length_le (by omega))
  replace suffix₃ := suffix₃.trans suffix₂
  generalize parsePrecision parsed₂.2 = parsed₃ at precision suffix₃ ⊢
  obtain ⟨lenmod, suffix₄⟩ := parseLenmodAt_refines { parsed₁.1 with width := parsed₂.1, precision := parsed₃.1 } stop
    parsed₃.2 (holds.2.2.2.of_suffix suffix₃) (lt_of_le_of_lt suffix₃.length_le (by omega))
  replace suffix₄ := suffix₄.trans suffix₃
  refine ⟨holds.read.bind ?_, suffix₄⟩
  rw [if_neg (by simp), holds.next]
  refine flags.bind (width.bind (precision.bind (lenmod.bind ?_)))
  exact (holds.2.2.2.of_suffix suffix₄).read.bind (returns_pure _)

theorem parseSpecAt_some {spec : FmtSpec} {rest : List Byte} (holds : EndsAt memory stop s)
    (short : s.length < loopBound) (read : parseSpec s = some (spec, rest)) :
    (∃ spec', { spec' with start := spec.start } = spec ∧
      Returns (parseSpecAt memory (stop - s.length)) (· ≤ stop) (spec', stop - rest.length)) ∧
      rest <:+ s ∧ (s ≠ [] → rest.length < s.length) := by
  have percent := headD_eq_iff (s := s) (show ascii '%' ≠ 0 by decide)
  by_cases opens : s.head? = some (ascii '%')
  · obtain ⟨tail, rfl⟩ := head?_eq_some_iff.mp opens
    obtain ⟨parts, suffix⟩ := parseSpecAt_conversion holds short
    have place := holds.length_le
    rw [parseSpec_parts] at read
    generalize parseParts tail = parsed at parts suffix read
    rcases parsed with ⟨spec', _ | ⟨specifier, rest'⟩⟩
    · cases read
    · obtain ⟨rfl, rfl⟩ := Prod.mk.inj (Option.some.inj read)
      have shorter := suffix.length_le
      simp only [length_cons] at parts shorter place
      have next : stop - (rest'.length + 1) + 1 = stop - rest'.length := by omega
      have len : stop - (rest'.length + 1) + 1 - (stop - (tail.length + 1)) = tail.length + 1 - rest'.length := by omega
      rw [len, next] at parts
      refine ⟨⟨_, rfl, parts⟩, (suffix_cons ..).trans (suffix.trans (suffix_cons ..)), fun _ => ?_⟩
      simp only [length_cons]
      omega
  · have text := textLengthAt_returns holds short
    have place := holds.length_le
    have split := congrArg length (takeWhile_append_dropWhile (p := (· ≠ ascii '%')) (l := s))
    rw [length_append] at split
    rw [parseSpec, if_pos opens] at read
    obtain ⟨rfl, rfl⟩ := Prod.mk.inj (Option.some.inj read)
    refine ⟨⟨{ start := [], len := (s.takeWhile (· ≠ ascii '%')).length }, rfl, holds.read.bind ?_⟩,
      dropWhile_suffix _, fun goes => ?_⟩
    · rw [if_pos (percent.not.mpr opens)]
      refine text.bind ?_
      have next : stop - s.length + (s.takeWhile (· ≠ ascii '%')).length =
          stop - (s.dropWhile (· ≠ ascii '%')).length := by omega
      rw [next]
      exact returns_pure _
    · obtain ⟨ch, s, rfl⟩ := exists_cons_of_ne_nil goes
      have shorter := (dropWhile_suffix (· ≠ ascii '%') (l := s)).length_le
      rw [dropWhile_cons_of_pos (by simpa using opens), length_cons]
      omega

/-- Of a conversion that is cut off the terminator is taken, and the pointer is left behind it. -/
theorem parseSpecAt_none (holds : EndsAt memory stop s) (short : s.length < loopBound) (cut : parseSpec s = none) :
    ∃ spec, spec.specifier = 0 ∧ Returns (parseSpecAt memory (stop - s.length)) (· ≤ stop) (spec, stop + 1) := by
  have opens : s.head? = some (ascii '%') := by
    by_contra other
    rw [parseSpec, if_pos other] at cut
    cases cut
  obtain ⟨tail, rfl⟩ := head?_eq_some_iff.mp opens
  obtain ⟨parts, -⟩ := parseSpecAt_conversion holds short
  rw [parseSpec_parts] at cut
  generalize parseParts tail = parsed at parts cut
  rcases parsed with ⟨spec', _ | ⟨specifier, rest⟩⟩
  · exact ⟨_, rfl, parts⟩
  · cases cut

theorem fputsnAt_returns (holds : EndsAt memory stop s) (n : ℕ) :
    Returns (fputsnAt memory n (stop - s.length)) (· ≤ stop) () := by
  induction n generalizing s with
  | zero => exact returns_pure _
  | succ n ih =>
    apply holds.read.bind
    cases s with
    | nil => exact returns_pure _
    | cons ch s =>
      rw [headD_cons, if_neg holds.1, holds.next]
      exact ih holds.2.2.2

end Refinement

/-- A conversion is cut off by the end of the format, and no piece before it makes the call return. -/
inductive CutOff : List Byte → Prop
  | here {s : List Byte} (cut : parseSpec s = none) : CutOff s
  | later {s rest : List Byte} {spec : FmtSpec} (goes : s ≠ []) (read : parseSpec s = some (spec, rest))
      (continues : conversionError spec = none) (more : CutOff rest) : CutOff s

section Loop

variable {memory : Memory} {stop : ℕ} {s : List Byte}

theorem EndsAt.first_ne_zero (holds : EndsAt memory stop s) (goes : s ≠ []) : s.headD 0 ≠ 0 := by
  obtain ⟨ch, s, rfl⟩ := exists_cons_of_ne_nil goes
  exact holds.1

/-- A round of the loop that comes to a next one. -/
theorem vfprintfScan_round {spec : FmtSpec} {next : ℕ} (fuel : ℕ) (holds : EndsAt memory stop s) (goes : s ≠ [])
    (read : Returns (parseSpecAt memory (stop - s.length)) (· ≤ stop) (spec, next))
    (continues : conversionError spec = none) :
    Reaches (vfprintfScan memory (fuel + 1) (stop - s.length)) (vfprintfScan memory fuel next) (· ≤ stop) := by
  refine (holds.read.reaches _).trans ?_
  rw [if_neg (holds.first_ne_zero goes)]
  refine (read.reaches _).trans ?_
  simp only [continues]
  split_ifs
  · exact (fputsnAt_returns holds spec.len).reaches _
  · exact (returns_pure _).reaches _

/-- A format without a conversion that is cut off is read inside the string, and the loop ends. -/
theorem vfprintfScan_returns (holds : EndsAt memory stop s) (short : s.length < loopBound) (whole : ¬CutOff s) :
    ∃ fuel status, Returns (vfprintfScan memory fuel (stop - s.length)) (· ≤ stop) status := by
  induction count : s.length using Nat.strong_induction_on generalizing s with
  | _ _ ih =>
    subst count
    by_cases ends : s = []
    · subst ends
      exact ⟨1, .done, holds.read.bind (returns_pure _)⟩
    · rcases read : parseSpec s with _ | ⟨spec, rest⟩
      · exact absurd (.here read) whole
      · obtain ⟨⟨spec', same, returns⟩, suffix, shorter⟩ := parseSpecAt_some holds short read
        have error : conversionError spec' = conversionError spec := by
          rw [← same]
          rfl
        rcases returned : conversionError spec with _ | code
        · have more : ¬CutOff rest := fun cut => whole (.later ends read returned cut)
          obtain ⟨fuel, status, inside⟩ := ih rest.length (shorter ends) (holds.of_suffix suffix)
            (lt_trans (shorter ends) short) more rfl
          exact ⟨fuel + 1, status, (vfprintfScan_round fuel holds ends returns (error.trans returned)).trans inside⟩
        · refine ⟨1, .failed code, holds.read.bind ?_⟩
          rw [if_neg (holds.first_ne_zero ends)]
          refine returns.bind ?_
          simp only [error, returned]
          exact returns_pure _

@[grind ←] theorem parseFlagsAt_keeps (fuel : ℕ) (spec : FmtSpec) (fmt : ℕ) :
    Keeps (parseFlagsAt memory fuel spec fmt) := by
  induction fuel generalizing spec fmt with
  | zero => exact keeps_never
  | succ fuel ih => grind [parseFlagsAt]

@[grind ←] theorem digitsAt_keeps (fuel fmt : ℕ) : Keeps (digitsAt memory fuel fmt) := by
  induction fuel generalizing fmt with
  | zero => exact keeps_never
  | succ fuel ih => grind [digitsAt]

@[grind ←] theorem parseWidthPrecisionAt_keeps (fmt : ℕ) : Keeps (parseWidthPrecisionAt memory fmt) := by
  grind [parseWidthPrecisionAt]

@[grind ←] theorem parsePrecisionAt_keeps (fmt : ℕ) : Keeps (parsePrecisionAt memory fmt) := by
  grind [parsePrecisionAt]

theorem applyAt_keeps (state : LenMod × ℕ) (map : LenModMapping) : Keeps (map.applyAt memory state) := by
  grind [LenModMapping.applyAt]

@[grind ←] theorem parseLenmodAt_keeps (spec : FmtSpec) (fmt : ℕ) : Keeps (parseLenmodAt memory spec fmt) := by
  grind [parseLenmodAt, applyAt_keeps]

@[grind ←] theorem textLengthAt_keeps (fuel fmt : ℕ) : Keeps (textLengthAt memory fuel fmt) := by
  induction fuel generalizing fmt with
  | zero => exact keeps_never
  | succ fuel ih => grind [textLengthAt]

@[grind ←] theorem parseSpecAt_keeps (fmt : ℕ) : Keeps (parseSpecAt memory fmt) := by
  grind [parseSpecAt]

@[grind ←] theorem fputsnAt_keeps (n str : ℕ) : Keeps (fputsnAt memory n str) := by
  induction n generalizing str with
  | zero => exact keeps_pure _
  | succ n ih => grind [fputsnAt]

theorem vfprintfScan_body_keeps {next : ℕ → Reading ℕ Status} (rest : ∀ fmt, Keeps (next fmt)) (format : ℕ)
    (ch : Byte) :
    Keeps (if ch = 0 then pure .done else do
      let (spec, fmt) ← parseSpecAt memory format
      match conversionError spec with
      | some code => return .failed code
      | none => do
        if spec.specifier = 0 then fputsnAt memory spec.len format
        next fmt) := by
  grind

theorem vfprintfScan_keeps (fuel format : ℕ) : Keeps (vfprintfScan memory fuel format) := by
  induction fuel generalizing format with
  | zero => exact keeps_never
  | succ fuel ih => exact (keeps_read memory format).bind (vfprintfScan_body_keeps ih format)

/-- Where a conversion is cut off, the byte behind the terminator is read before the loop ends, if it ends at all. -/
theorem CutOff.reads_behind (cut : CutOff s) (holds : EndsAt memory stop s) (short : s.length < loopBound)
    {seen after : List ℕ} {status : Status}
    (returned : vfprintfScan memory fuel (stop - s.length) seen = some (status, after)) : stop + 1 ∈ after := by
  induction cut generalizing fuel seen with
  | @here s cut =>
    obtain ⟨spec, text, read⟩ := parseSpecAt_none holds short cut
    have goes : s ≠ [] := by
      rintro rfl
      cases cut
    have continues : conversionError spec = none := if_pos text
    cases fuel with
    | zero => cases returned
    | succ fuel =>
      obtain ⟨reads, same, -⟩ := vfprintfScan_round fuel holds goes read continues seen
      rw [same] at returned
      cases fuel with
      | zero => cases returned
      | succ fuel => exact mem_of_read (vfprintfScan_body_keeps (vfprintfScan_keeps fuel) _) returned
  | @later s rest spec goes read continues more ih =>
    obtain ⟨⟨spec', same, returns⟩, suffix, shorter⟩ := parseSpecAt_some holds short read
    have error : conversionError spec' = none := by
      rw [← continues, ← same]
      rfl
    cases fuel with
    | zero => cases returned
    | succ fuel =>
      obtain ⟨reads, same, -⟩ := vfprintfScan_round fuel holds goes returns error seen
      rw [same] at returned
      exact ih (holds.of_suffix suffix) (lt_trans (shorter goes) short) returned

end Loop

section Lists

variable {memory data : Memory} {stop args : ℕ} {s rest : List Byte} {spec : FmtSpec}

theorem text_contains_iff :
    (['c', 's'].map ascii).contains specifier = true ↔ specifier = ascii 'c' ∨ specifier = ascii 's' := by
  simp

theorem integer_contains_iff :
    (['d', 'i', 'b', 'B', 'o', 'x', 'X', 'u'].map ascii).contains specifier = true ↔
      specifier ∈ [ascii 'd', ascii 'i'] ∨
        specifier ∈ [ascii 'b', ascii 'B', ascii 'o', ascii 'x', ascii 'X', ascii 'u'] := by
  rw [← mem_append, contains_iff_mem]
  rfl

theorem float_contains_iff :
    (['f', 'F', 'e', 'E', 'a', 'A'].map ascii).contains specifier = true ↔
      specifier ∈ [ascii 'f', ascii 'F', ascii 'e', ascii 'E', ascii 'a', ascii 'A'] := by
  rw [contains_iff_mem]
  rfl

/-- A piece that is printed lets the call go on, and one that makes printing fail makes it return with the same code.
-/
theorem convert_outcome (data : Memory) (spec : FmtSpec) (args : ℕ) :
    (∃ printed, convert data spec args = .ok printed ∧ conversionError spec = none) ∨
      (∃ code, convert data spec args = .error (.failed code) ∧ conversionError spec = some code) ∨
      convert data spec args = .error .stuck := by
  have error := conversionError.eq_1 spec
  simp only [text_contains_iff, integer_contains_iff, float_contains_iff, ite_or] at error
  generalize converted : convert data spec args = outcome
  unfold convert at converted
  split_ifs at converted with text percent two letter plain string plain' signed unsigned pointer float
  all_goals subst converted
  · rw [if_pos text] at error
    exact .inl ⟨_, rfl, error⟩
  · rw [if_neg text, if_pos percent, if_pos two] at error
    exact .inr (.inl ⟨_, rfl, error⟩)
  · rw [if_neg text, if_pos percent, if_neg two] at error
    exact .inl ⟨_, rfl, error⟩
  all_goals rw [if_neg text, if_neg percent] at error
  · rw [if_pos letter, if_pos plain] at error
    exact .inr (.inl ⟨_, rfl, error⟩)
  · rw [if_pos letter, if_neg plain] at error
    exact .inl ⟨_, rfl, error⟩
  all_goals rw [if_neg letter] at error
  · rw [if_pos string, if_pos plain'] at error
    exact .inr (.inl ⟨_, rfl, error⟩)
  · rw [if_pos string, if_neg plain'] at error
    exact .inl ⟨_, rfl, error⟩
  all_goals rw [if_neg string] at error
  · rw [if_pos signed] at error
    unfold signedArg
    cases same : spec.lenmod <;> rw [same] at error <;> simp [error] <;> split_ifs <;> simp
  all_goals rw [if_neg signed] at error
  · rw [if_pos unsigned] at error
    unfold unsignedArg
    cases same : spec.lenmod <;> rw [same] at error <;> simp [error] <;> split_ifs <;> simp
  · rw [if_neg unsigned, if_pos pointer] at error
    exact .inl ⟨_, rfl, error⟩
  · rw [if_neg unsigned, if_neg pointer, if_pos float] at error
    have pulled : (∃ value, floatArg data spec args = .ok value ∧ conversionError spec = none) ∨
        ∃ code, floatArg data spec args = .error code ∧ conversionError spec = some code := by
      unfold floatArg
      cases same : spec.lenmod <;> rw [same] at error <;> simp [error]
    rcases pulled with ⟨⟨dval, next⟩, pulled, continues⟩ | ⟨code, pulled, returns⟩
    · simp only [pulled]
      cases fmtFloat spec dval with
      | none => exact .inr (.inr rfl)
      | some text => exact .inl ⟨_, rfl, continues⟩
    · simp only [pulled]
      exact .inr (.inl ⟨_, rfl, returns⟩)
  · rw [if_neg unsigned, if_neg pointer, if_neg float] at error
    exact .inr (.inl ⟨_, rfl, error⟩)

/-- A call that is followed to its end on lists is followed to the same end in memory. -/
theorem vfprintfScan_of_vfprintfLoop (holds : EndsAt memory stop s) (short : s.length < loopBound)
    (known : (vfprintfLoop data fuel s args).2 ≠ .stuck) :
    Returns (vfprintfScan memory (fuel + 1) (stop - s.length)) (· ≤ stop) (vfprintfLoop data fuel s args).2 := by
  induction fuel generalizing s args with
  | zero =>
    cases s with
    | nil => exact holds.read.bind (returns_pure _)
    | cons ch s => exact absurd rfl known
  | succ fuel ih =>
    cases s with
    | nil => exact holds.read.bind (returns_pure _)
    | cons ch s =>
      rcases read : parseSpec (ch :: s) with _ | ⟨spec, rest⟩
      · simp only [vfprintfLoop, read, ne_eq, not_true_eq_false] at known
      · obtain ⟨⟨spec', same, returns⟩, suffix, shorter⟩ := parseSpecAt_some holds short read
        obtain ⟨left, width, args₁, adjusted₁⟩ : ∃ left width args₁, adjustWidth data spec args =
          ({ spec with left, width }, args₁) := adjustWidth_eq
        obtain ⟨precision, args₂, adjusted₂⟩ : ∃ precision args₂, adjustPrecision data { spec with left, width } args₁ =
          ({ spec with left, width, precision }, args₂) := adjustPrecision_eq
        have error : conversionError spec' = conversionError { spec with left, width, precision } := by
          rw [← same]
          rfl
        simp only [vfprintfLoop, read, adjusted₁, adjusted₂] at known ⊢
        rcases convert_outcome data { spec with left, width, precision } args₂ with
          ⟨⟨chars, args₃⟩, converted, continues⟩ | ⟨code, converted, returnsCode⟩ | converted
        · simp only [converted] at known ⊢
          have more := ih (holds.of_suffix suffix) (lt_trans (shorter (cons_ne_nil _ _)) short) known
          exact (vfprintfScan_round _ holds (cons_ne_nil _ _) returns (error.trans continues)).trans more
        · simp only [converted]
          apply holds.read.bind
          rw [if_neg (holds.first_ne_zero (cons_ne_nil _ _))]
          refine returns.bind ?_
          simp only [error, returnsCode]
          exact returns_pure _
        · simp only [converted] at known
          exact absurd rfl known

theorem vfprintfScan_of_vfprintfLoop_decimal :
    Returns (vfprintfScan (fun i => if i = 8 then 0x25#8 else if i = 9 then 0x64#8 else 0#8) 3 8) (· ≤ 10)
      (vfprintfLoop (fun _ => 0#8) 2 [0x25#8, 0x64#8] 0).2 := by
  have holds : EndsAt (fun i => if i = 8 then 0x25#8 else if i = 9 then 0x64#8 else 0#8) 10 [0x25#8, 0x64#8] :=
    ⟨by decide, by decide, rfl, by decide, by decide, rfl, rfl⟩
  have known : (vfprintfLoop (fun _ => 0#8) 2 [0x25#8, 0x64#8] 0).2 ≠ .stuck := by decide
  exact vfprintfScan_of_vfprintfLoop holds (by decide) known

theorem CutOff.behind (cut : CutOff s) (read : parseSpec s = some (spec, rest)) : CutOff rest := by
  cases cut with
  | here none =>
    rw [read] at none
    cases none
  | later goes read' continues more =>
    rw [read] at read'
    obtain ⟨-, rfl⟩ := Prod.mk.inj (Option.some.inj read')
    exact more

theorem WellFormed.not_cutOff (wellFormed : WellFormed s) : ¬CutOff s := by
  induction wellFormed with
  | nil =>
    intro cut
    cases cut with
    | here none => cases none
    | later goes => exact goes rfl
  | text printed plain ends more ih =>
    intro cut
    exact ih (cut.behind (parseSpec_text printed (fun ch member => (plain ch member).1) ends))
  | @percent rest more ih =>
    intro cut
    obtain ⟨spec, read, -⟩ := parseSpec_percent rest
    exact ih (cut.behind read)
  | directive d more ih =>
    intro cut
    exact ih (cut.behind (parseSpec_directive d _))

end Lists

/-- A string and its terminator in memory. -/
def HoldsString (memory : Memory) (str : ℕ) (s : List Byte) : Prop :=
  (∀ i (inside : i < s.length), memory (str + i) = s[i]) ∧ (∀ ch ∈ s, ch ≠ 0) ∧ memory (str + s.length) = 0

theorem HoldsString.endsAt {memory : Memory} {str : ℕ} {s : List Byte} (holds : HoldsString memory str s) :
    EndsAt memory (str + s.length) s := by
  obtain ⟨bytes, printed, ends⟩ := holds
  induction s generalizing str with
  | nil => exact ends
  | cons ch s ih =>
    have place : str + (ch :: s).length = str + 1 + s.length := by
      rw [length_cons]
      omega
    refine ⟨printed ch mem_cons_self, by omega, ?_, ?_⟩
    · rw [place, show str + 1 + s.length - (s.length + 1) = str by omega]
      exact bytes 0 (by simp)
    · rw [place] at ends ⊢
      apply ih
      · intro i inside
        have next := bytes (i + 1) (by simpa using inside)
        rwa [show str + (i + 1) = str + 1 + i by omega] at next
      · intro ch member
        exact printed ch (mem_cons_of_mem _ member)
      · exact ends

/-- The loop ends, and reads no byte of the format behind address `stop`. -/
def StaysInside (memory : Memory) (format stop : ℕ) : Prop :=
  ∃ fuel status reads, vfprintfScan memory fuel format [] = some (status, reads) ∧ ∀ address ∈ reads, address ≤ stop

/-- A format is read up to its terminator and no further exactly if it does not end within a conversion that the call
comes to. -/
theorem format_stays_inside_iff {memory : Memory} {format : ℕ} {s : List Byte} (holds : HoldsString memory format s)
    (object : format + s.length + 1 < 2 ^ 32) : StaysInside memory format (format + s.length) ↔ ¬CutOff s := by
  have ends := holds.endsAt
  have short : s.length < loopBound := by
    unfold loopBound
    omega
  have start : format + s.length - s.length = format := by omega
  constructor
  · rintro ⟨fuel, status, reads, returned, inside⟩ cut
    rw [← start] at returned
    have behind := inside _ (cut.reads_behind ends short returned)
    omega
  · intro whole
    obtain ⟨fuel, status, returns⟩ := vfprintfScan_returns ends short whole
    obtain ⟨reads, returned, inside⟩ := returns []
    rw [start, append_nil] at returned
    exact ⟨fuel, status, reads, returned, inside⟩

def stringMemory (s : List Byte) : Memory := fun address => if address < 0x1000 then 0 else s.getD (address - 0x1000) 0

/-- The format `n=%5d` is read to its end. -/
theorem format_stays_inside_number : StaysInside (stringMemory cutFormat) 0x1000 (0x1000 + 5) :=
  (format_stays_inside_iff (s := cutFormat) (by unfold HoldsString; decide) (by decide)).mpr
    cutFormat_wellFormed.not_cutOff

/-- The format `%`, with an `x` behind its terminator, which is read and printed. -/
theorem percent_read_behind :
    HoldsString (stringMemory [ascii '%', 0, ascii 'x']) 0x1000 [ascii '%'] ∧
      (vfprintfScan (stringMemory [ascii '%', 0, ascii 'x']) 3 0x1000 []).map (·.2.contains 0x1002) = some true ∧
      ¬StaysInside (stringMemory [ascii '%', 0, ascii 'x']) 0x1000 0x1001 := by
  have holds : HoldsString (stringMemory [ascii '%', 0, ascii 'x']) 0x1000 [ascii '%'] := by
    unfold HoldsString
    decide
  refine ⟨holds, by decide +kernel, ?_⟩
  rintro ⟨fuel, status, reads, returned, inside⟩
  have cut : CutOff [ascii '%'] := .here rfl
  exact absurd (inside _ (cut.reads_behind holds.endsAt (by decide) returned)) (by decide)

end MicroOs.Libc
