import Mathlib.Data.NNRat.Floor
import MicroOs.Library.ByteMemory
import MicroOs.Library.MachineInt

/-! # Format strings and what they print

`vfprintf` takes its format apart into stretches of text and conversions, pulls the arguments of a conversion from the
stack, and prints its value with sign, prefix, zeros and padding. All that it does to its stream is to put characters
there, and what that returns is not looked at: a printing function is given here by the characters it puts, in order.

A format is the list of the bytes before its terminator. Arguments are read from memory where the `va_list` points, as
the i386 has them: a word each, two for `long long` and `intmax_t`. The strings they point to are read as they are
before the call, so neither they nor the arguments may lie in the buffer that is printed to. The arithmetic on
floating-point values is read as exact; where C gives an operation on them no meaning (a conversion or a multiplier out
of range) or their buffer is too small, there is no result.
-/

namespace MicroOs.Libc

open List

abbrev Byte := BitVec 8

def ascii (ch : Char) : Byte := BitVec.ofNat 8 ch.toNat

def isdigit (ch : Byte) : Bool := 0x30 ≤ ch.toNat && ch.toNat ≤ 0x39

def digitValue (ch : Byte) : ℤ := (ch.toNat : ℤ) - 0x30

def wpUnspecified : ℤ := -1
def wpStar : ℤ := -2

inductive LenMod
  | none | char | short | long | longLong | max | size | ptrdiff | fixed | fast
  | longDouble | decimal32 | decimal64 | decimal128
deriving DecidableEq

structure FmtSpec where
  start : List Byte
  len : ℕ := 0
  left : Bool := false
  plus : Bool := false
  space : Bool := false
  alt : Bool := false
  zero : Bool := false
  width : ℤ := 0
  precision : ℤ := 0
  lenmod : LenMod := .none
  lenbits : ℕ := 0
  specifier : Byte := 0
deriving DecidableEq

def parseFlags (spec : FmtSpec) : List Byte → FmtSpec × List Byte
  | [] => (spec, [])
  | ch :: fmt =>
    if ch = ascii '-' then parseFlags { spec with left := true } fmt
    else if ch = ascii '+' then parseFlags { spec with plus := true } fmt
    else if ch = ascii ' ' then parseFlags { spec with space := true } fmt
    else if ch = ascii '#' then parseFlags { spec with alt := true } fmt
    else if ch = ascii '0' then parseFlags { spec with zero := true } fmt
    else (spec, ch :: fmt)

def intOfDigits (digits : List Byte) : ℤ :=
  digits.foldl (fun result ch => wrap (wrap (result * 10) + digitValue ch)) 0

def parseWidthPrecision (fmt : List Byte) : ℤ × List Byte :=
  if fmt.head? = some (ascii '*') then (wpStar, fmt.tail)
  else if fmt.takeWhile isdigit = [] then (wpUnspecified, fmt)
  else (intOfDigits (fmt.takeWhile isdigit), fmt.dropWhile isdigit)

structure LenModMapping where
  ch0 : Char
  lm0 : LenMod
  ch1 : Option Char
  lm1 : LenMod

def lenmodMap : List LenModMapping :=
  [⟨'h', .short, some 'h', .char⟩, ⟨'l', .long, some 'l', .longLong⟩, ⟨'j', .max, none, .none⟩,
    ⟨'z', .size, none, .none⟩, ⟨'t', .ptrdiff, none, .none⟩, ⟨'w', .fixed, some 'f', .fast⟩,
    ⟨'L', .longDouble, none, .none⟩, ⟨'H', .decimal32, none, .none⟩, ⟨'D', .decimal64, some 'D', .decimal128⟩]

/-- One round of the loop over the table. The loop goes on after a match. -/
def LenModMapping.apply (state : LenMod × List Byte) (map : LenModMapping) : LenMod × List Byte :=
  if map.ch1 ≠ none ∧ state.2.head? = some (ascii map.ch0) ∧ state.2.tail.head? = map.ch1.map ascii then
    (map.lm1, state.2.drop 2)
  else if state.2.head? = some (ascii map.ch0) then (map.lm0, state.2.drop 1)
  else state

def sizeOfDigits (digits : List Byte) : ℕ :=
  digits.foldl (fun bits ch => sizeT (bits * 10 + digitValue ch)) 0

def parseLenmod (spec : FmtSpec) (fmt : List Byte) : FmtSpec × List Byte :=
  let (lenmod, fmt) := lenmodMap.foldl LenModMapping.apply (.none, fmt)
  if lenmod = .fixed ∨ lenmod = .fast then
    ({ spec with lenmod, lenbits := sizeOfDigits (fmt.takeWhile isdigit) }, fmt.dropWhile isdigit)
  else ({ spec with lenmod, lenbits := 0 }, fmt)

/-- The precision after the period, which alone stands for zero. -/
def parsePrecision (fmt : List Byte) : ℤ × List Byte :=
  if fmt.head? = some (ascii '.') then
    let (precision, fmt) := parseWidthPrecision fmt.tail
    (if precision = wpUnspecified then 0 else precision, fmt)
  else (wpUnspecified, fmt)

/-- Take the next piece off a format. Where a conversion lacks its last character, the source reads on behind the
terminator. -/
def parseSpec (fmt : List Byte) : Option (FmtSpec × List Byte) :=
  if fmt.head? ≠ some (ascii '%') then
    some ({ start := fmt, len := (fmt.takeWhile (· ≠ ascii '%')).length }, fmt.dropWhile (· ≠ ascii '%'))
  else
    let (spec, rest) := parseFlags { start := fmt } fmt.tail
    let (width, rest) := parseWidthPrecision rest
    let (precision, rest) := parsePrecision rest
    match parseLenmod { spec with width, precision } rest with
    | (_, []) => none
    | (spec, specifier :: rest) => some ({ spec with specifier, len := fmt.length - rest.length }, rest)

def strlen (str : List Byte) : ℤ := wrap str.length

def fpad (ch : Byte) (count : ℤ) : List Byte := replicate count.toNat ch

def fputsn (str : List Byte) (n : ℕ) : List Byte := str.take n

def fputs (str : List Byte) : List Byte := fputsn str (2 ^ 32 - 1)

/-- A value with its prefix and zeros, padded to the field width. The null pointer is the empty string. -/
def fmtStrVal (spec : FmtSpec) (pre : List Byte) (zeropad : ℕ) (val : List Byte) (limit : ℕ) : List Byte :=
  let len := sizeT (strlen pre + zeropad + min (strlen val) (wrap limit))
  let pad := if len < sizeT spec.width then sizeT (spec.width - len) else 0
  (if pad ≠ 0 ∧ spec.left = false then fpad (ascii ' ') (wrap pad) else []) ++ fputs pre ++
    (if zeropad ≠ 0 then fpad (ascii '0') (wrap zeropad) else []) ++ fputsn val limit ++
    (if pad ≠ 0 ∧ spec.left = true then fpad (ascii ' ') (wrap pad) else [])

def intMax : ℕ := 2 ^ 31 - 1

def fmtChar (spec : FmtSpec) (ch : Byte) : List Byte :=
  fmtStrVal spec [] 0 (if ch = 0 then [] else [ch]) 1

def fmtStr (spec : FmtSpec) (str : List Byte) : List Byte :=
  let limit := if spec.precision = wpUnspecified then intMax else sizeT spec.precision
  fmtStrVal spec [] 0 str limit

def lowerhex : List Char := ['0', '1', '2', '3', '4', '5', '6', '7', '8', '9', 'a', 'b', 'c', 'd', 'e', 'f']
def upperhex : List Char := ['0', '1', '2', '3', '4', '5', '6', '7', '8', '9', 'A', 'B', 'C', 'D', 'E', 'F']

/-- The digits of a number of at most `fuel` digits, put in front of `digits`. -/
def inttodigitsLoop (base : ℕ) (digitset : List Char) : ℕ → ℕ → List Byte → List Byte
  | 0, _, digits => digits
  | fuel + 1, num, digits =>
    if num = 0 then digits
    else inttodigitsLoop base digitset fuel (num / base) (ascii (digitset.getD (num % base) '0') :: digits)

def inttodigits (num base : ℕ) (digitset : List Char) : List Byte := inttodigitsLoop base digitset 64 num []

def signstr (isneg : Bool) (spec : FmtSpec) : List Byte :=
  if isneg then [ascii '-'] else if spec.plus then [ascii '+'] else if spec.space then [ascii ' '] else []

def precisionZeros (spec : FmtSpec) (digitct : ℤ) : ℤ :=
  let precision := if spec.precision = wpUnspecified then 1 else spec.precision
  if digitct < precision then wrap (precision - digitct) else 0

/-- The digits behind the prefix, with the zeros that fill the field. -/
def fmtDigits (spec : FmtSpec) (pre digits : List Byte) (zeropad : ℤ) : List Byte :=
  let len := wrap (strlen pre + zeropad + digits.length)
  let zeropad := if len < spec.width ∧ spec.zero then wrap (zeropad + wrap (spec.width - len)) else zeropad
  fmtStrVal spec pre (sizeT zeropad) digits intMax

def fmtSigned (spec : FmtSpec) (val : ℤ) : List Byte :=
  let digits := inttodigits val.natAbs 10 lowerhex
  fmtDigits spec (signstr (val < 0) spec) digits (precisionZeros spec digits.length)

def unsignedBase (specifier : Byte) : ℕ :=
  if specifier = ascii 'b' ∨ specifier = ascii 'B' then 2
  else if specifier = ascii 'o' then 8
  else if specifier = ascii 'x' ∨ specifier = ascii 'X' then 16
  else 10

def altPrefix (specifier : Byte) (digits : List Byte) (zeropad : ℤ) : List Byte :=
  if specifier = ascii 'b' then [ascii '0', ascii 'b']
  else if specifier = ascii 'B' then [ascii '0', ascii 'B']
  else if specifier = ascii 'x' then [ascii '0', ascii 'x']
  else if specifier = ascii 'X' then [ascii '0', ascii 'X']
  else if specifier = ascii 'o' then
    if zeropad = 0 ∧ digits.head? ≠ some (ascii '0') then [ascii '0'] else []
  else []

def fmtUnsigned (spec : FmtSpec) (uval : ℕ) : List Byte :=
  let digitset := if spec.specifier = ascii 'X' then upperhex else lowerhex
  let digits := inttodigits uval (unsignedBase spec.specifier) digitset
  let zeropad := precisionZeros spec digits.length
  fmtDigits spec (if spec.alt then altPrefix spec.specifier digits zeropad else []) digits zeropad

def fmtPointer (spec : FmtSpec) (p : BitVec 32) : List Byte :=
  fmtUnsigned { spec with lenmod := .ptrdiff, specifier := ascii 'x', alt := true, precision := 8 } p.toNat

/-- A floating-point value, by its class. -/
inductive LongDouble
  | infinite (isneg : Bool)
  | nan
  | finite (isneg : Bool) (uval : ℚ≥0)

def isupper (ch : Byte) : Bool := 0x41 ≤ ch.toNat && ch.toNat ≤ 0x5a

def toUintmax (x : ℚ≥0) : Option ℕ := if x < 2 ^ 64 then some ⌊x⌋₊ else none

/-- The base of the digits, what marks the exponent, and what stands in front of the digits. -/
structure FloatForm where
  base : ℕ := 10
  expMarker : Option Char := none
  pre : List Char := []

def floatForm (specifier : Byte) : FloatForm :=
  if specifier = ascii 'e' then { expMarker := some 'e' }
  else if specifier = ascii 'E' then { expMarker := some 'E' }
  else if specifier = ascii 'a' then { base := 16, expMarker := some 'p', pre := ['0', 'x'] }
  else if specifier = ascii 'A' then { base := 16, expMarker := some 'P', pre := ['0', 'X'] }
  else {}

/-- One of the two loops that look for the exponent: each step takes another digit into the multiplier, a `long`,
which has less than 32. -/
def scaleLoop (base : ℕ) (goes : ℕ → Bool) (scaled : ℕ → ℚ≥0) (step : ℤ) : ℕ → ℤ → ℕ → ℕ → Option (ℤ × ℕ × ℕ)
  | 0, _, _, _ => none
  | fuel + 1, exp, mul, nval =>
    if goes nval then
      if mul * base < 2 ^ 31 then do
        let nval ← toUintmax (scaled (mul * base))
        scaleLoop base goes scaled step fuel (exp + step) (mul * base) nval
      else none
    else some (exp, mul, nval)

def normalize (base : ℕ) (uval : ℚ≥0) : Option (ℤ × ℚ≥0) := do
  let nval ← toUintmax uval
  let (exp, mul, nval) ← scaleLoop base (base ≤ ·) (fun mul => uval / mul) 1 32 0 1 nval
  let (exp, mul, _) ← scaleLoop base (fun nval => nval < 1 && uval ≠ 0) (fun mul => uval * mul) (-1) 32 exp mul nval
  some (exp, if 0 < exp then uval / mul else uval * mul)

def exponentText (marker : Char) (base : ℕ) (exp : ℤ) : List Byte :=
  let digits := inttodigits exp.natAbs base lowerhex
  ascii marker :: (if 0 ≤ exp then ascii '+' else ascii '-') ::
    (replicate (2 - digits.length) (ascii '0') ++ digits)

/-- The multiplier, an `unsigned int`, that brings the digits of the fraction in front of the point. -/
def fractionMul (base precision : ℕ) : ℕ := (fun mul => mul * base % 2 ^ 32)^[precision] 1

/-- The fraction, rounded up from one half on. -/
def fracpart (dfracpart : ℚ≥0) : Option ℕ := do
  let fracpart ← toUintmax dfracpart
  some (if 1 / 2 ≤ dfracpart - fracpart then fracpart + 1 else fracpart)

/-- What becomes of the fraction of a value, in units of the last of `p` digits. -/
def roundedFraction (v : ℚ≥0) (p : ℕ) : ℕ := ⌊(v - ⌊v⌋₊) * (10 ^ p : ℕ) + 1 / 2⌋₊

/-- The digits around the point, in front of what is in the buffer. -/
def pointText (base precision : ℕ) (alt : Bool) (wholepart fracpart : ℕ) (str : List Byte) : List Byte :=
  let digits := inttodigits fracpart base lowerhex
  let str := replicate (precision - digits.length) (ascii '0') ++ digits ++ str
  let str := if fracpart ≠ 0 ∨ precision ≠ 0 ∨ alt then ascii '.' :: str else str
  let str := inttodigits wholepart base lowerhex ++ str
  if str.head? = some (ascii '.') then ascii '0' :: str else str

def floatBufSize : ℕ := 256

def fmtFloat (spec : FmtSpec) (dval : LongDouble) : Option (List Byte) :=
  let spec := if spec.precision = wpUnspecified then { spec with precision := 6 } else spec
  match dval with
  | .infinite _ =>
    some (fmtStr spec (map ascii (if isupper spec.specifier then ['I', 'N', 'F'] else ['i', 'n', 'f'])))
  | .nan => some (fmtStr spec (map ascii (if isupper spec.specifier then ['N', 'A', 'N'] else ['n', 'a', 'n'])))
  | .finite isneg uval => do
    let form := floatForm spec.specifier
    let prefixbuf := signstr isneg spec ++ form.pre.map ascii
    let (uval, str) ← match form.expMarker with
      | some marker => do
        let (exp, uval) ← normalize form.base uval
        some (uval, exponentText marker form.base exp)
      | none => some (uval, [])
    let wholepart ← toUintmax uval
    let fracpart ← fracpart ((uval - wholepart) * fractionMul form.base spec.precision.toNat)
    let str := pointText form.base spec.precision.toNat spec.alt wholepart fracpart str
    let str := if spec.zero then
        replicate (spec.width + prefixbuf.length - str.length).toNat (ascii '0') ++ str else str
    if str.length < floatBufSize then some (fmtStrVal spec prefixbuf 0 str intMax) else none

def einval : ℤ := 4
def eio : ℤ := 5
def eunimplemented : ℤ := 2201

def wideArg (memory : Memory) (args : ℕ) : BitVec 64 := memory.readWord (args + 4) ++ memory.readWord args

def bytesAt (memory : Memory) : ℕ → ℕ → List Byte
  | 0, _ => []
  | fuel + 1, p => if memory p = 0 then [] else memory p :: bytesAt memory fuel (p + 1)

/-- The string at a pointer, nothing at the null pointer. -/
def stringAt (memory : Memory) (p : BitVec 32) : List Byte :=
  if p = 0 then [] else bytesAt memory (2 ^ 32) p.toNat

/-- The value of a signed conversion, with the place of the next argument. A fixed width of 33 to 64 bits takes one
word. -/
def signedArg (memory : Memory) (spec : FmtSpec) (args : ℕ) : Option (ℤ × ℕ) :=
  match spec.lenmod with
  | .char | .short | .none | .long | .size | .ptrdiff => some ((memory.readWord args).toInt, args + 4)
  | .longLong | .max => some ((wideArg memory args).toInt, args + 8)
  | .fixed | .fast =>
    if spec.lenbits ≤ 64 then some ((memory.readWord args).toInt, args + 4)
    else some ((wideArg memory args).toInt, args + 8)
  | .longDouble | .decimal32 | .decimal64 | .decimal128 => none

def unsignedArg (memory : Memory) (spec : FmtSpec) (args : ℕ) : Option (ℕ × ℕ) :=
  match spec.lenmod with
  | .char | .short | .none | .long | .size | .ptrdiff => some ((memory.readWord args).toNat, args + 4)
  | .longLong | .max => some ((wideArg memory args).toNat, args + 8)
  | .fixed | .fast =>
    if spec.lenbits ≤ 32 then some ((memory.readWord args).toNat, args + 4)
    else some ((wideArg memory args).toNat, args + 8)
  | .longDouble | .decimal32 | .decimal64 | .decimal128 => none

/-- The value of a `double`: the sign, an exponent of 11 bits and a fraction of 52. -/
def doubleAt (memory : Memory) (args : ℕ) : LongDouble :=
  let bits := wideArg memory args
  let exponent := (bits.extractLsb' 52 11).toNat
  let fraction := (bits.extractLsb' 0 52).toNat
  if exponent = 2047 then if fraction = 0 then .infinite bits.msb else .nan
  else if exponent = 0 then .finite bits.msb (fraction / 2 ^ 1074)
  else .finite bits.msb ((2 ^ 52 + fraction) * 2 ^ exponent / 2 ^ 1075)

/-- The value of a `long double`: the sign, an exponent of 15 bits and a significand of 64. -/
def longDoubleAt (memory : Memory) (args : ℕ) : LongDouble :=
  let significand := wideArg memory args
  let head := (memory.readWord (args + 8)).extractLsb' 0 16
  let exponent := (head.extractLsb' 0 15).toNat
  if exponent = 32767 then if significand.extractLsb' 0 63 = 0 then .infinite head.msb else .nan
  else .finite head.msb (significand.toNat * 2 ^ max exponent 1 / 2 ^ 16446)

def floatArg (memory : Memory) (spec : FmtSpec) (args : ℕ) : Except ℤ (LongDouble × ℕ) :=
  match spec.lenmod with
  | .none | .long => .ok (doubleAt memory args, args + 8)
  | .longDouble => .ok (longDoubleAt memory args, args + 12)
  | .decimal32 | .decimal64 | .decimal128 => .error (-eunimplemented)
  | _ => .error (-einval)

/-- The field width, where `*` pulls an argument and a negative value pads on the right. -/
def adjustWidth (memory : Memory) (spec : FmtSpec) (args : ℕ) : FmtSpec × ℕ :=
  let width := if spec.width = wpUnspecified then 0 else spec.width
  let (width, args) := if width = wpStar then ((memory.readWord args).toInt, args + 4) else (width, args)
  if width < 0 then ({ spec with left := true, width := wrap (-width) }, args) else ({ spec with width }, args)

/-- The precision, where `*` pulls an argument and a negative value counts as none. -/
def adjustPrecision (memory : Memory) (spec : FmtSpec) (args : ℕ) : FmtSpec × ℕ :=
  let (precision, args) :=
    if spec.precision = wpStar then ((memory.readWord args).toInt, args + 4) else (spec.precision, args)
  ({ spec with precision := if precision < 0 then wpUnspecified else precision }, args)

/-- How a call ends: at the terminator, with an error code, or outside of what is modelled. -/
inductive Status
  | done | failed (code : ℤ) | stuck
deriving DecidableEq

/-- Pull the argument of a piece and print it. -/
def convert (memory : Memory) (spec : FmtSpec) (args : ℕ) : Except Status (List Byte × ℕ) :=
  if spec.specifier = 0 then .ok (fputsn spec.start spec.len, args)
  else if spec.specifier = ascii '%' then
    if spec.len ≠ 2 then .error (.failed (-einval)) else .ok ([ascii '%'], args)
  else if spec.specifier = ascii 'c' then
    if spec.lenmod ≠ .none then .error (.failed (-eunimplemented))
    else .ok (fmtChar spec (memory args), args + 4)
  else if spec.specifier = ascii 's' then
    if spec.lenmod ≠ .none then .error (.failed (-eunimplemented))
    else .ok (fmtStr spec (stringAt memory (memory.readWord args)), args + 4)
  else if spec.specifier ∈ [ascii 'd', ascii 'i'] then
    match signedArg memory spec args with
    | some (val, args) => .ok (fmtSigned spec val, args)
    | none => .error (.failed (-einval))
  else if spec.specifier ∈ [ascii 'b', ascii 'B', ascii 'o', ascii 'x', ascii 'X', ascii 'u'] then
    match unsignedArg memory spec args with
    | some (uval, args) => .ok (fmtUnsigned spec uval, args)
    | none => .error (.failed (-einval))
  else if spec.specifier = ascii 'p' then .ok (fmtPointer spec (memory.readWord args), args + 4)
  else if spec.specifier ∈ [ascii 'f', ascii 'F', ascii 'e', ascii 'E', ascii 'a', ascii 'A'] then
    match floatArg memory spec args with
    | .ok (dval, args) =>
      match fmtFloat spec dval with
      | some text => .ok (text, args)
      | none => .error .stuck
    | .error code => .error (.failed code)
  else .error (.failed (-eunimplemented))

/-- The loop over a format of at most `fuel` pieces: the characters put and how the call ends. -/
def vfprintfLoop (memory : Memory) : ℕ → List Byte → ℕ → List Byte × Status
  | _, [], _ => ([], .done)
  | 0, _ :: _, _ => ([], .stuck)
  | fuel + 1, ch :: fmt, args =>
    match parseSpec (ch :: fmt) with
    | none => ([], .stuck)
    | some (spec, rest) =>
      let (spec, args) := adjustWidth memory spec args
      let (spec, args) := adjustPrecision memory spec args
      match convert memory spec args with
      | .error status => ([], status)
      | .ok (chars, args) =>
        let (more, status) := vfprintfLoop memory fuel rest args
        (chars ++ more, status)

/-- What a call prints. Each piece takes at least a character of the format. -/
def vfprintf (memory : Memory) (fmt : List Byte) (args : ℕ) : List Byte × Status :=
  vfprintfLoop memory fmt.length fmt args

end MicroOs.Libc
