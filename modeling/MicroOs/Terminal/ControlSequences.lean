import MicroOs.Libc.Decimal
import MicroOs.Terminal.Recovery

/-! # Control sequences that are printed and parsed

A control sequence is the escape character, a bracket, numbers with semicolons between them, intermediate bytes and the
byte that names the command. Printed with `%d`, the numbers come out of the parser as they went in: each digit is
counted in the parameter that the semicolons before it select, and the parameters behind the third are skipped.

The parser counts the semicolons in an `int`. A number behind `2 ^ 31` of them finds a negative count, which is below
the bound as well, and is stored outside the parameters. On the i386 this place is the first parameter again.
-/

namespace MicroOs.Terminal

open Libc List Option

variable {memory : Memory} {byte : Byte} {args v r c : ℕ}

def decimalText (val : ℤ) : List Byte :=
  fmtSigned { start := [], precision := wpUnspecified, specifier := ascii 'd' } val

section

variable (small : v < 2 ^ 31)
include small

theorem decimalText_eq : decimalText v = replicate (1 - (decimalDigits v).length) (ascii '0') ++ decimalDigits v := by
  have short : (v : ℤ).natAbs < 2 ^ 64 := by omega
  have few : (decimalDigits v).length ≤ 64 := inttodigits_length_le (by decide) short
  have zeros : precisionZeros { start := [], precision := wpUnspecified, specifier := ascii 'd' }
      (decimalDigits v).length = (1 - (decimalDigits v).length : ℕ) :=
    precisionZeros_eq (.inl rfl) (by omega)
  have printed : fmtDigits { start := [], precision := wpUnspecified, specifier := ascii 'd' } [] (decimalDigits v)
      (1 - (decimalDigits v).length : ℕ) = _ :=
    fmtDigits_eq (show _ = ((0 : ℕ) : ℤ) from rfl) (by decide) (by simp only [length_nil]; omega)
  change fmtDigits _ [] (decimalDigits v) (precisionZeros _ (decimalDigits v).length) = _
  rw [zeros, printed]
  simp [fieldText, fieldPad, fieldZeros]

theorem isdigit_decimalText : ∀ ch ∈ decimalText v, isdigit ch = true := by
  have short : (v : ℤ).natAbs < 2 ^ 64 := by omega
  intro ch member
  rw [decimalText_eq small] at member
  rcases mem_append.1 member with zero | digit
  · rw [eq_of_mem_replicate zero]
    decide
  · exact isdigit_decimalDigits short ch digit

theorem intOfDigits_decimalText : intOfDigits (decimalText v) = v := by
  have short : (v : ℤ).natAbs < 2 ^ 64 := by omega
  rw [intOfDigits_eq (isdigit_decimalText small), decimalText_eq small, numeral_zeros, numeral_decimalDigits short,
    Int.natAbs_natCast, wrap_natCast small]

theorem decimalText_ne_nil : decimalText v ≠ [] := by
  rw [decimalText_eq small]
  intro empty
  have lengths := congrArg length empty
  simp only [length_append, length_replicate, length_nil] at lengths
  omega

end

/-- Numbers with semicolons between them. -/
def paramText : List ℕ → List Byte
  | [] => []
  | [v] => decimalText v
  | v :: w :: rest => decimalText v ++ 0x3b#8 :: paramText (w :: rest)

theorem paramText_singleton (v : ℕ) : paramText [v] = decimalText v := by rw [paramText]

theorem paramText_cons_cons (v w : ℕ) (rest : List ℕ) :
    paramText (v :: w :: rest) = decimalText v ++ 0x3b#8 :: paramText (w :: rest) := by rw [paramText]

theorem paramText_append {before after : List ℕ} (some : before ≠ []) (more : after ≠ []) :
    paramText (before ++ after) = paramText before ++ 0x3b#8 :: paramText after := by
  induction before with
  | nil => exact absurd rfl some
  | cons v rest ih =>
    cases rest with
    | nil =>
      obtain ⟨w, rest, rfl⟩ := exists_cons_of_ne_nil more
      exact paramText_cons_cons v w rest
    | cons w rest =>
      have later := ih (cons_ne_nil w rest)
      rw [cons_append, cons_append, paramText_cons_cons, ← cons_append, later, paramText_cons_cons, append_assoc]
      rfl

def csiHead (params : List ℕ) (inter : List Byte) : List Byte := 0x1b#8 :: 0x5b#8 :: (paramText params ++ inter)

namespace Parser

variable {p q : Parser} {stray : StrayStore}

/-- The parser gives back the parameters and the command of a control sequence, and reports every byte but the last
as a part of it. -/
def RoundTrips (stray : StrayStore) (p : Parser) (params : List ℕ) (inter : List Byte) (final : Byte) : Prop :=
  ∃ q, p.feed stray (csiHead params inter ++ [final]) =
      some (q, replicate (csiHead params inter).length (-apsEscape) ++ [-apsFinal]) ∧
    (∀ i : Fin csiMaxParam, q.csiParam i = params.getD i 0) ∧ q.cmd = final.toInt ∧ q.state = .ready

/-- Digits are counted in the parameter that is selected, if there is one. -/
def takeDigits (p : Parser) (digits : List Byte) : Parser :=
  { p with
    csiParam := fun i =>
      if (i : ℤ) = p.paramNum then
        digits.foldl (fun result ch => wrap (wrap (result * 10) + digitValue ch)) (p.csiParam i)
      else p.csiParam i }

theorem toInt_digit {ch : Byte} (digit : isdigit ch = true) :
    0x30 ≤ ch.toInt ∧ ch.toInt ≤ 0x39 ∧ ch.toInt - 0x30 = digitValue ch := by
  revert ch
  decide

theorem ansiParsePutc_digit (state : p.state = .param) {ch : Byte} (digit : isdigit ch = true) :
    p.ansiParsePutc ch.toInt = (p.takeDigits [ch], -apsEscape) := by
  obtain ⟨lower, upper, value⟩ := toInt_digit digit
  have parameter : 0x30 ≤ ch.toInt ∧ ch.toInt ≤ 0x3f := by omega
  have other : ch.toInt ≠ 0x3b := by omega
  simp only [ansiParsePutc, state, parameterByte, TakesDigit]
  split_ifs with taken
  · simp [addDigit, takeDigits, value, foldl_nil]
  · -- a parameter that is not kept
    have skipped : ∀ i : Fin csiMaxParam, (i : ℤ) ≠ p.paramNum := by
      intro i same
      omega
    simp only [takeDigits, if_neg (skipped _)]

theorem takeDigits_takeDigits (first second : List Byte) :
    (p.takeDigits first).takeDigits second = p.takeDigits (first ++ second) := by
  simp only [takeDigits, foldl_append, mk.injEq, true_and, and_true]
  funext i
  split_ifs <;> rfl

theorem feed_digits (state : p.state = .param) (nonneg : 0 ≤ p.paramNum) {digits : List Byte}
    (all : ∀ ch ∈ digits, isdigit ch = true) :
    p.feed stray digits = some (p.takeDigits digits, replicate digits.length (-apsEscape)) := by
  induction digits generalizing p with
  | nil => simp [feed, takeDigits]
  | cons ch rest ih =>
    have parsed := ansiParsePutc_digit state (all ch mem_cons_self)
    have fed := ih (p := p.takeDigits [ch]) state nonneg fun ch member => all ch (mem_cons_of_mem _ member)
    rw [← (show (p.ansiParsePutc ch.toInt).1 = p.takeDigits [ch] by rw [parsed])] at fed
    have safe : ¬p.Stray ch.toInt := fun stray => absurd stray.2.2 nonneg.not_gt
    rw [feed_cons safe fed, parsed, takeDigits_takeDigits]
    rfl

theorem feed_stray (state : p.state = .param) (negative : p.paramNum < 0) {digits rest : List Byte}
    (all : ∀ ch ∈ digits, isdigit ch = true) (nonempty : digits ≠ []) :
    p.feed (fun _ _ _ => none) (digits ++ rest) = none := by
  obtain ⟨ch, more, rfl⟩ := exists_cons_of_ne_nil nonempty
  obtain ⟨lower, upper, -⟩ := toInt_digit (all ch mem_cons_self)
  have stray : p.Stray ch.toInt := ⟨state, ⟨lower, upper, negative.trans (by decide)⟩, negative⟩
  simp [feed, after, if_pos stray]

def countSemicolon (p : Parser) : Parser := { p with paramNum := wrap (p.paramNum + 1) }

theorem feed_semicolon (state : p.state = .param) (rest : List Byte) :
    p.feed stray (0x3b#8 :: rest) =
      (p.countSemicolon.feed stray rest).map fun (q, answers) => (q, -apsEscape :: answers) := by
  have noDigit : ¬p.TakesDigit 0x3b := fun taken => absurd taken.2.1 (by decide)
  have parsed : p.ansiParsePutc (0x3b#8).toInt = (p.countSemicolon, -apsEscape) := by
    simp [ansiParsePutc, state, parameterByte, noDigit, countSemicolon]
  have safe : ¬p.Stray (0x3b#8).toInt := fun stray => noDigit stray.2.1
  simp only [feed, after, if_neg safe, parsed, bind_some]

theorem paramNum_eq {n : ℕ} (num : p.paramNum = wrap n) (few : n < 2 ^ 31) : p.paramNum = n := by
  rw [num, wrap_natCast few]

theorem feed_number (state : p.state = .param) {n : ℕ} (num : p.paramNum = wrap n) (few : n < 2 ^ 31)
    (fresh : ∀ i : Fin csiMaxParam, n ≤ i → p.csiParam i = 0) (small : v < 2 ^ 31) :
    ∃ q, p.feed stray (decimalText v) = some (q, replicate (decimalText v).length (-apsEscape)) ∧
      q.state = .param ∧ q.paramNum = p.paramNum ∧
      ∀ i : Fin csiMaxParam, q.csiParam i = if (i : ℕ) = n then (v : ℤ) else p.csiParam i := by
  have count := paramNum_eq num few
  refine ⟨_, feed_digits state (by omega) (isdigit_decimalText small), state, rfl, ?_⟩
  intro i
  simp only [takeDigits, count, Nat.cast_inj]
  split_ifs with selected
  · have value := intOfDigits_decimalText small
    rw [intOfDigits] at value
    rw [fresh i (by omega), value]
  · rfl

theorem feed_params (stray : StrayStore) (state : p.state = .param) {n : ℕ} (num : p.paramNum = wrap n)
    {params : List ℕ} (few : n + params.length ≤ 2 ^ 31) (fresh : ∀ i : Fin csiMaxParam, n ≤ i → p.csiParam i = 0)
    (small : ∀ v ∈ params, v < 2 ^ 31) :
    ∃ q, p.feed stray (paramText params) = some (q, replicate (paramText params).length (-apsEscape)) ∧
      q.state = .param ∧ q.paramNum = wrap (n + (params.length - 1) : ℕ) ∧
      ∀ i : Fin csiMaxParam, q.csiParam i = if (i : ℕ) < n then p.csiParam i else params.getD (i - n) 0 := by
  induction params generalizing p n with
  | nil =>
    refine ⟨p, rfl, state, num, ?_⟩
    intro i
    split_ifs with before
    · rfl
    · simpa using fresh i (by omega)
  | cons v rest ih =>
    rw [length_cons] at few
    obtain ⟨q, fed, state', num', params'⟩ := feed_number state num (by omega) fresh (small v mem_cons_self)
    cases rest with
    | nil =>
      refine ⟨q, fed, state', num'.trans num, ?_⟩
      intro i
      rw [params' i]
      split_ifs with selected before before
      · omega
      · simp [selected]
      · rfl
      · rw [fresh i (by omega)]
        simp [show (i : ℕ) - n ≠ 0 by omega]
    | cons w rest =>
      have next : q.countSemicolon.paramNum = wrap (n + 1 : ℕ) := by
        change wrap (q.paramNum + 1) = _
        rw [num', num]
        exact Int.bmod_add_bmod
      have fresh' : ∀ i : Fin csiMaxParam, n + 1 ≤ i → q.countSemicolon.csiParam i = 0 := by
        intro i behind
        refine (params' i).trans ?_
        rw [if_neg (by omega), fresh i (by omega)]
      obtain ⟨r, fed', state'', num'', params''⟩ := @ih q.countSemicolon state' (n + 1) next (by omega) fresh'
        fun v member => small v (mem_cons_of_mem _ member)
      have count : n + 1 + ((w :: rest).length - 1) = n + ((v :: w :: rest).length - 1) := by
        simp only [length_cons]
        omega
      refine ⟨r, ?_, state'', num''.trans (by rw [count]), ?_⟩
      · rw [paramText, feed_append fed, feed_semicolon state', fed']
        simp [replicate_add, replicate_succ]
      · intro i
        rw [params'' i]
        have kept : q.countSemicolon.csiParam i = q.csiParam i := rfl
        rw [kept, params' i]
        split_ifs with before selected first behind
        · omega
        · simp [selected]
        · rfl
        · omega
        · omega
        · rw [show (i : ℕ) - n = (i - (n + 1)) + 1 by omega, getD_cons_succ]

theorem toInt_small (ascii : byte.toNat < 0x80) : byte.toInt = byte.toNat :=
  BitVec.toInt_eq_toNat_of_lt (by omega)

def InSequence (p : Parser) : Prop := p.state = .param ∨ p.state = .intermediate

theorem ansiParsePutc_intermediate (here : p.InSequence) (range : 0x20 ≤ byte.toNat ∧ byte.toNat ≤ 0x2f) :
    p.ansiParsePutc byte.toInt = ({ p with state := .intermediate }, -apsEscape) := by
  have code : byte.toInt = byte.toNat := toInt_small (by omega)
  have noParameter : ¬(0x30 ≤ byte.toInt ∧ byte.toInt ≤ 0x3f) := by omega
  have inRange : 0x20 ≤ byte.toInt ∧ byte.toInt ≤ 0x2f := by omega
  rcases here with state | state
  · simp only [ansiParsePutc, state, if_neg noParameter, intermediate, if_pos inRange]
  · simp only [ansiParsePutc, state, intermediate, if_pos inRange]
    rw [← state]

theorem not_stray_of_no_digit (other : byte.toNat < 0x30 ∨ 0x40 ≤ byte.toNat ∧ byte.toNat < 0x80) :
    ¬p.Stray byte.toInt := by
  rintro ⟨-, ⟨lower, upper, -⟩, -⟩
  have code : byte.toInt = byte.toNat := toInt_small (by omega)
  omega

theorem feed_intermediates (here : p.InSequence) {inter : List Byte}
    (range : ∀ byte ∈ inter, 0x20 ≤ byte.toNat ∧ byte.toNat ≤ 0x2f) :
    ∃ q, p.feed stray inter = some (q, replicate inter.length (-apsEscape)) ∧ q.InSequence ∧
      q.csiParam = p.csiParam := by
  induction inter generalizing p with
  | nil => exact ⟨p, rfl, here, rfl⟩
  | cons byte rest ih =>
    have first := range byte mem_cons_self
    have parsed := ansiParsePutc_intermediate here first
    obtain ⟨q, fed, here', same⟩ := @ih { p with state := .intermediate } (.inr rfl) fun byte member =>
      range byte (mem_cons_of_mem _ member)
    rw [← (show (p.ansiParsePutc byte.toInt).1 = { p with state := .intermediate } by rw [parsed])] at fed
    refine ⟨q, ?_, here', same⟩
    rw [feed_cons (not_stray_of_no_digit (by omega)) fed, parsed]
    rfl

theorem ansiParsePutc_final (here : p.InSequence) (range : 0x40 ≤ byte.toNat ∧ byte.toNat ≤ 0x7e) :
    p.ansiParsePutc byte.toInt = ({ p with cmd := byte.toInt, state := .ready }, -apsFinal) := by
  have code : byte.toInt = byte.toNat := toInt_small (by omega)
  have noParameter : ¬(0x30 ≤ byte.toInt ∧ byte.toInt ≤ 0x3f) := by omega
  have noIntermediate : ¬(0x20 ≤ byte.toInt ∧ byte.toInt ≤ 0x2f) := by omega
  have inRange : 0x40 ≤ byte.toInt ∧ byte.toInt ≤ 0x7e := by omega
  rcases here with state | state
  · simp only [ansiParsePutc, state, if_neg noParameter, intermediate, if_neg noIntermediate, if_pos inRange, finalByte]
  · simp only [ansiParsePutc, state, intermediate, if_neg noIntermediate, if_pos inRange, finalByte]

/-- The parser behind the escape character and the bracket. -/
def introduced (p : Parser) : Parser := { p.startEsc with state := .param }

theorem feed_introducer (ready : p.state = .ready) (rest : List Byte) :
    p.feed stray (0x1b#8 :: 0x5b#8 :: rest) =
      (p.introduced.feed stray rest).map fun (q, answers) => (q, -apsEscape :: -apsEscape :: answers) := by
  have escape : p.ansiParsePutc (0x1b#8).toInt = (p.startEsc, -apsEscape) := by
    change p.ansiParsePutc ansiEsc = _
    simp [ansiParsePutc, ready]
  have bracket : p.startEsc.ansiParsePutc (0x5b#8).toInt = (p.introduced, -apsEscape) := rfl
  have safe : ¬p.Stray (0x1b#8).toInt := not_stray_of_state (by rw [ready]; decide)
  have safe' : ¬p.startEsc.Stray (0x5b#8).toInt := not_stray_of_state (by simp [startEsc])
  simp only [feed, after, if_neg safe, escape, if_neg safe', bracket, Option.bind_some, Option.map_map]
  rfl

variable {params : List ℕ} {inter : List Byte} {final : Byte}

theorem feed_csiHead (stray : StrayStore) (ready : p.state = .ready) (few : params.length ≤ 2 ^ 31)
    (small : ∀ v ∈ params, v < 2 ^ 31) (range : ∀ byte ∈ inter, 0x20 ≤ byte.toNat ∧ byte.toNat ≤ 0x2f) :
    ∃ q, p.feed stray (csiHead params inter) = some (q, replicate (csiHead params inter).length (-apsEscape)) ∧
      q.InSequence ∧ ∀ i : Fin csiMaxParam, q.csiParam i = params.getD i 0 := by
  obtain ⟨q, fed, state, -, values⟩ :=
    feed_params (p := p.introduced) (n := 0) stray rfl rfl (by omega) (fun _ _ => rfl) small
  obtain ⟨r, fed', here, same⟩ := feed_intermediates (p := q) (.inl state) range
  refine ⟨r, ?_, here, ?_⟩
  · rw [csiHead, feed_introducer ready, feed_append fed, fed']
    simp [replicate_succ]
  · intro i
    rw [same, values i]
    simp

theorem feed_final (here : q.InSequence) (ends : 0x40 ≤ final.toNat ∧ final.toNat ≤ 0x7e) :
    q.feed stray [final] = some ({ q with cmd := final.toInt, state := .ready }, [-apsFinal]) := by
  have safe : ¬q.Stray final.toInt := not_stray_of_no_digit (by omega)
  simp [feed, after, if_neg safe, ansiParsePutc_final here ends]

/-- Behind `2 ^ 31` numbers and a semicolon, the count is negative. -/
theorem feed_overflow (stray : StrayStore) (ready : p.state = .ready) (full : params.length = 2 ^ 31)
    (small : ∀ v ∈ params, v < 2 ^ 31) {more : List ℕ} (further : more ≠ []) (rest : List Byte) :
    ∃ q : Parser, p.feed stray (csiHead (params ++ more) [] ++ rest) =
        (q.feed stray (paramText more ++ rest)).map (fun (r, answers) =>
          (r, replicate ((paramText params).length + 3) (-apsEscape) ++ answers)) ∧
      q.state = .param ∧ q.paramNum = -2 ^ 31 ∧ ∀ i : Fin csiMaxParam, q.csiParam i = params.getD i 0 := by
  obtain ⟨q, fed, state, num, values⟩ :=
    feed_params (p := p.introduced) (n := 0) stray rfl rfl (by omega) (fun _ _ => rfl) small
  have some : params ≠ [] := by
    rintro rfl
    simp at full
  have count : q.countSemicolon.paramNum = -2 ^ 31 := by
    change wrap (q.paramNum + 1) = _
    rw [num, full]
    decide
  refine ⟨q.countSemicolon, ?_, state, count, fun i => (values i).trans (by simp)⟩
  rw [csiHead, paramText_append some further, append_nil, cons_append, cons_append, append_assoc, cons_append,
    feed_introducer ready, feed_append fed, feed_semicolon state]
  simp only [Option.map_map]
  congr 1
  funext ⟨r, answers⟩
  have shift : replicate (paramText params).length (-apsEscape) ++ -apsEscape :: answers =
      replicate ((paramText params).length + 1) (-apsEscape) ++ answers := by
    rw [replicate_succ', append_assoc]
    rfl
  simp [shift, replicate_succ]

/-- Whatever a store outside `csi_param` does, a control sequence comes out of the parser as printed exactly if it
has at most `2 ^ 31` parameters. -/
theorem roundTrips_iff (ready : p.state = .ready) (small : ∀ v ∈ params, v < 2 ^ 31)
    (range : ∀ byte ∈ inter, 0x20 ≤ byte.toNat ∧ byte.toNat ≤ 0x2f) (ends : 0x40 ≤ final.toNat ∧ final.toNat ≤ 0x7e) :
    (∀ stray, p.RoundTrips stray params inter final) ↔ params.length ≤ 2 ^ 31 := by
  constructor
  · intro always
    by_contra many
    have split := take_append_drop (2 ^ 31) params
    have full : (params.take (2 ^ 31)).length = 2 ^ 31 := length_take_of_le (by omega)
    have further : params.drop (2 ^ 31) ≠ [] := by
      rw [ne_eq, drop_eq_nil_iff]
      exact many
    obtain ⟨w, more, last⟩ := exists_cons_of_ne_nil further
    obtain ⟨q, head, state, negative, -⟩ := feed_overflow (fun _ _ _ => none) ready full
      (fun v member => small v (mem_of_mem_take member)) further (inter ++ [final])
    have digits := small w (mem_of_mem_drop (last ▸ mem_cons_self))
    have stuck (rest : List Byte) : q.feed (fun _ _ _ => none) (decimalText w ++ rest) = none :=
      feed_stray state (by rw [negative]; decide) (isdigit_decimalText digits) (decimalText_ne_nil digits)
    have stops : q.feed (fun _ _ _ => none) (paramText (w :: more) ++ (inter ++ [final])) = none := by
      cases more with
      | nil => exact stuck _
      | cons v rest =>
        rw [paramText_cons_cons, append_assoc]
        exact stuck _
    obtain ⟨r, fed, -⟩ := always fun _ _ _ => none
    rw [split, last, stops] at head
    rw [show csiHead params inter ++ [final] = csiHead params [] ++ (inter ++ [final]) by simp [csiHead], head] at fed
    cases fed
  · intro few stray
    obtain ⟨q, fed, here, values⟩ := feed_csiHead stray ready few small range
    refine ⟨{ q with cmd := final.toInt, state := .ready }, ?_, values, rfl, rfl⟩
    rw [feed_append fed, feed_final here ends]
    rfl

end Parser

namespace Term

variable {t : Term} {stray : StrayStore} {q : Parser}

def tprintfBufsz : BitVec 32 := 256

/-- `vtprintf`, with the address of its buffer on the stack. -/
def vtprintf (t : Term) (stray : StrayStore) (memory : Memory) (buf : BitVec 32) (fmt : List Byte) (args : ℕ) :
    Option (Term × ℤ) := do
  let (o, ret) ← vsnprintf memory buf tprintfBufsz fmt args
  if ret < 0 then some (t, ret)
  else
    let t ← t.termPuts stray (stringAt (o.applied memory) buf)
    some (t, ret)

def ansifCup : List Byte := [0x1b#8, 0x5b#8, 0x25#8, 0x64#8, 0x3b#8, 0x25#8, 0x64#8, 0x48#8]

theorem vfprintfLoop_text {fuel : ℕ} {chars rest : List Byte} (printed : chars ≠ [])
    (plain : ∀ ch ∈ chars, ch ≠ ascii '%') (ends : rest = [] ∨ rest.head? = some (ascii '%')) :
    vfprintfLoop memory (fuel + 1) (chars ++ rest) args =
      (chars ++ (vfprintfLoop memory fuel rest args).1, (vfprintfLoop memory fuel rest args).2) := by
  have put : fputsn (chars ++ rest) chars.length = chars := take_left
  have round : vfprintfLoop memory (fuel + 1) (chars ++ rest) args = _ :=
    vfprintfLoop_round (by simp [printed]) (parseSpec_text printed plain ends) rfl rfl rfl
  rw [put] at round
  exact round

theorem vfprintfLoop_decimal {fuel : ℕ} (rest : List Byte) :
    vfprintfLoop memory (fuel + 1) (0x25#8 :: 0x64#8 :: rest) args =
      (decimalText (memory.readWord args).toInt ++ (vfprintfLoop memory fuel rest (args + 4)).1,
        (vfprintfLoop memory fuel rest (args + 4)).2) := by
  congr 2

theorem vfprintf_ansifCup (row : (memory.readWord args).toInt = r) (col : (memory.readWord (args + 4)).toInt = c) :
    vfprintf memory ansifCup args = (csiHead [r, c] [] ++ [0x48#8], .done) := by
  have whole : ansifCup = [0x1b#8, 0x5b#8] ++ (0x25#8 :: 0x64#8 :: ([0x3b#8] ++ (0x25#8 :: 0x64#8 :: [0x48#8]))) := rfl
  have last : vfprintfLoop memory 4 [0x48#8] (args + 4 + 4) = ([0x48#8], .done) := rfl
  have second : vfprintfLoop memory 5 (0x25#8 :: 0x64#8 :: [0x48#8]) (args + 4) =
      (decimalText c ++ [0x48#8], .done) := by
    rw [vfprintfLoop_decimal, last, col]
  have first : vfprintfLoop memory 7 (0x25#8 :: 0x64#8 :: ([0x3b#8] ++ (0x25#8 :: 0x64#8 :: [0x48#8]))) args =
      (decimalText r ++ ([0x3b#8] ++ (decimalText c ++ [0x48#8])), .done) := by
    rw [vfprintfLoop_decimal, vfprintfLoop_text (by decide) (by decide) (.inr rfl), second, row]
  have text (x y : List Byte) : 0x1b#8 :: 0x5b#8 :: (x ++ 0x3b#8 :: y ++ []) ++ [0x48#8] =
      [0x1b#8, 0x5b#8] ++ (x ++ ([0x3b#8] ++ (y ++ [0x48#8]))) := by
    simp
  rw [vfprintf, show ansifCup.length = 7 + 1 from rfl, whole, vfprintfLoop_text (by decide) (by decide) (.inr rfl),
    first, csiHead, paramText_cons_cons, paramText_singleton, text]

theorem exists_termWrite_escape (stray : StrayStore) {bytes : List Byte} {answers : List ℤ}
    (fed : t.parser.feed (fun _ _ _ => none) bytes = some (q, answers))
    (parts : ∀ answer ∈ answers, answer = -apsEscape) :
    ∃ u, t.termWrite stray bytes = some u ∧ u.parser = q := by
  induction bytes generalizing t answers with
  | nil =>
    obtain ⟨rfl, -⟩ := Prod.mk.inj (some.inj fed)
    exact ⟨t, rfl, rfl⟩
  | cons byte rest ih =>
    by_cases outside : t.parser.Stray byte.toInt
    · simp only [Parser.feed, Parser.after, if_pos outside, bind_none, reduceCtorEq] at fed
    · simp only [Parser.feed, Parser.after, if_neg outside, bind_some, map_eq_some_iff,
        Prod.exists] at fed
      obtain ⟨q', answers', fed, rfl, rfl⟩ := fed
      have part := parts _ mem_cons_self
      have put : t.termPutc stray byte.toInt =
          some { t.clearCursor with parser := (t.parser.ansiParsePutc byte.toInt).1 } := by
        rw [termPutc_of_safe outside, part, answer, if_pos (.inl rfl)]
      obtain ⟨u, written, parser⟩ := @ih { t.clearCursor with parser := (t.parser.ansiParsePutc byte.toInt).1 } answers'
        fed fun answer member => parts answer (mem_cons_of_mem _ member)
      refine ⟨u, ?_, parser⟩
      rw [termWrite_cons, put]
      exact written

/-- A control sequence with two numbers sends the cursor to its row and column, which count from 1. -/
theorem termWrite_cup (stray : StrayStore) (ready : t.parser.state = .ready) (row : 1 ≤ r) (col : 1 ≤ c)
    (small : r < 2 ^ 31) (small' : c < 2 ^ 31) :
    ∃ u, t.termWrite stray (csiHead [r, c] [] ++ [0x48#8]) = some u ∧ u.row = r - 1 ∧ u.col = c - 1 := by
  have numbers : ∀ v ∈ [r, c], v < 2 ^ 31 := by
    intro v member
    rcases mem_pair.1 member with rfl | rfl
    · exact small
    · exact small'
  have nothing : ∀ byte ∈ ([] : List Byte), 0x20 ≤ byte.toNat ∧ byte.toNat ≤ 0x2f := by simp
  obtain ⟨q, fed, here, values⟩ :=
    Parser.feed_csiHead (p := t.parser) (fun _ _ _ => none) ready (Nat.le_of_ble_eq_true rfl) numbers nothing
  obtain ⟨u, written, parser⟩ := exists_termWrite_escape stray fed fun _ => eq_of_mem_replicate
  have parsed := Parser.ansiParsePutc_final here (show 0x40 ≤ (0x48#8).toNat ∧ (0x48#8).toNat ≤ 0x7e by decide)
  have safe : ¬u.parser.Stray (0x48#8).toInt := by
    exact Parser.not_stray_of_no_digit (by decide)
  have first : wrap ((if q.csiParam 0 = 0 then 1 else q.csiParam 0) - 1) = r - 1 := by
    rw [show q.csiParam 0 = r by simpa using values 0, if_neg (by omega), wrap_of_int (by omega) (by omega)]
  have second : wrap ((if q.csiParam 1 = 0 then 1 else q.csiParam 1) - 1) = c - 1 := by
    rw [show q.csiParam 1 = c by simpa using values 1, if_neg (by omega), wrap_of_int (by omega) (by omega)]
  have put : u.termPutc stray (0x48#8).toInt = some (({ u.clearCursor with
      parser := { q with cmd := (0x48#8).toInt, state := .ready } } : Term).executeAnsiEscape) := by
    rw [termPutc_of_safe safe, parser, parsed]
    rfl
  refine ⟨({ u.clearCursor with
      parser := { q with cmd := (0x48#8).toInt, state := .ready } } : Term).executeAnsiEscape, ?_, first, second⟩
  rw [termWrite_append, written, bind_some, termWrite_cons, put]
  rfl

theorem csiHead_ne_zero (small : r < 2 ^ 31) (small' : c < 2 ^ 31) : ∀ ch ∈ csiHead [r, c] [] ++ [0x48#8], ch ≠ 0 := by
  have digits {v : ℕ} (small : v < 2 ^ 31) : ∀ ch ∈ decimalText v, ch ≠ 0 := by
    rintro ch member rfl
    exact absurd (isdigit_decimalText small _ member) (by decide)
  have whole (x y : List Byte) (first : ∀ ch ∈ x, ch ≠ 0) (second : ∀ ch ∈ y, ch ≠ 0) :
      ∀ ch ∈ 0x1b#8 :: 0x5b#8 :: (x ++ 0x3b#8 :: y ++ []) ++ [0x48#8], ch ≠ 0 := by
    simp [or_imp, forall_and]
    exact ⟨first, second⟩
  exact whole _ _ (digits small) (digits small')

theorem length_decimalText_le (small : v < 2 ^ 31) : (decimalText v).length ≤ 65 := by
  have few : (decimalDigits v).length ≤ 64 := inttodigits_length_le (by decide) (by omega)
  rw [decimalText_eq small, length_append, length_replicate]
  omega

theorem length_csiHead_lt (small : r < 2 ^ 31) (small' : c < 2 ^ 31) :
    (csiHead [r, c] [] ++ [0x48#8]).length < 256 := by
  have whole (x y : List Byte) (first : x.length ≤ 65) (second : y.length ≤ 65) :
      (0x1b#8 :: 0x5b#8 :: (x ++ 0x3b#8 :: y ++ []) ++ [0x48#8]).length < 256 := by
    simp only [length_append, length_cons, length_nil]
    omega
  exact whole _ _ (length_decimalText_le small) (length_decimalText_le small')

/-- Output that fits the buffer is written to the terminal. -/
theorem vtprintf_eq {buf : BitVec 32} {fmt chars : List Byte}
    (text : vfprintf memory fmt args = (chars, .done)) (printed : ∀ ch ∈ chars, ch ≠ 0) (here : buf ≠ 0)
    (object : buf.toNat + 256 < 2 ^ 32) (fits : chars.length < 256) :
    t.vtprintf stray memory buf fmt args = (t.termWrite stray chars).map fun u => (u, (chars.length : ℤ)) := by
  obtain ⟨o, call, string⟩ : ∃ o, vsnprintf memory buf tprintfBufsz fmt args = some (o, (chars.length : ℤ)) ∧
      stringAt (o.applied memory) buf = chars := stringAt_vsnprintf text printed here object (by decide) fits
  have whole : chars.takeWhile (· ≠ 0#8) = chars := by
    have all : (chars ++ []).takeWhile (· ≠ 0#8) = chars ++ takeWhile (· ≠ 0#8) [] :=
      takeWhile_append_of_pos fun ch member => decide_eq_true (printed ch member)
    simpa using all
  simp only [vtprintf, call, bind, bind_some]
  rw [string, termPuts, whole]
  cases t.termWrite stray chars with
  | none => rfl
  | some u => rfl

/-- `tprintf(t, ANSIF_CUP, r, c)` sends the cursor to row `r - 1` and column `c - 1`. -/
theorem vtprintf_ansifCup (ready : t.parser.state = .ready) {buf : BitVec 32}
    (here : buf ≠ 0) (object : buf.toNat + 256 < 2 ^ 32) (first : (memory.readWord args).toInt = r)
    (second : (memory.readWord (args + 4)).toInt = c) (row : 1 ≤ r) (col : 1 ≤ c) :
    ∃ u ret, t.vtprintf stray memory buf ansifCup args = some (u, ret) ∧ u.row = r - 1 ∧ u.col = c - 1 := by
  have small : r < 2 ^ 31 := by
    have bound := (memory.readWord args).toInt_lt
    omega
  have small' : c < 2 ^ 31 := by
    have bound := (memory.readWord (args + 4)).toInt_lt
    omega
  obtain ⟨u, written, place⟩ := termWrite_cup stray ready row col small small'
  have printed : t.vtprintf stray memory buf ansifCup args = _ := vtprintf_eq (vfprintf_ansifCup first second)
    (csiHead_ne_zero small small') here object (length_csiHead_lt small small')
  rw [written] at printed
  exact ⟨u, _, printed, place⟩

end Term

/-- Control sequences with at most `2 ^ 31` parameters, and no others, come out of the parser as they were printed, and
the cursor goes where `tprintf` sends it. -/
theorem control_sequences {p : Parser} (ready : p.state = .ready) {params : List ℕ} {inter : List Byte} {final : Byte}
    (small : ∀ v ∈ params, v < 2 ^ 31) (range : ∀ byte ∈ inter, 0x20 ≤ byte.toNat ∧ byte.toNat ≤ 0x2f)
    (ends : 0x40 ≤ final.toNat ∧ final.toNat ≤ 0x7e) {t : Term} (listens : t.parser.state = .ready)
    (stray : StrayStore) {memory : Memory} {buf : BitVec 32} {args r c : ℕ} (here : buf ≠ 0)
    (object : buf.toNat + 256 < 2 ^ 32) (first : (memory.readWord args).toInt = r)
    (second : (memory.readWord (args + 4)).toInt = c) (row : 1 ≤ r) (col : 1 ≤ c) :
    ((∀ stray, p.RoundTrips stray params inter final) ↔ params.length ≤ 2 ^ 31) ∧
      ∃ u ret, t.vtprintf stray memory buf Term.ansifCup args = some (u, ret) ∧ u.row = r - 1 ∧ u.col = c - 1 :=
  ⟨Parser.roundTrips_iff ready small range ends, Term.vtprintf_ansifCup listens here object first second row col⟩

/-- Row 22 and column 40, with an intermediate byte in the sequence that is parsed. -/
theorem control_sequences_place :
    (∀ stray, ({} : Parser).RoundTrips stray [22, 40, 7, 9] [0x20#8] 0x48#8) ∧
      ∃ u ret, Term.vga.vtprintf (fun _ _ _ => none)
        (fun address => if address = 0 then 22 else if address = 4 then 40 else 0) 0x1000 Term.ansifCup 0 =
          some (u, ret) ∧ u.row = (22 : ℕ) - 1 ∧ u.col = (40 : ℕ) - 1 :=
  (control_sequences rfl (by decide) (by decide) (by decide) rfl _ (by decide) (by decide) (by decide) (by decide)
    (by decide) (by decide)).imp (fun same => same.2 (Nat.le_of_ble_eq_true rfl)) id

/-- On the i386 the address of a parameter is taken modulo `2 ^ 32`: every `2 ^ 30` indices lead to the same word.
Stores that leave the parameters are not followed. -/
def i386 : Parser.StrayStore := fun index digit p =>
  if index % 2 ^ 30 < csiMaxParam then
    some { ({ p with paramNum := index % 2 ^ 30 } : Parser).addDigit digit with paramNum := p.paramNum }
  else none

/-- One more zero than the count of semicolons can hold is stored into the first parameter. -/
theorem feed_last_zero {m : ℕ} (many : m = 2 ^ 31) :
    ∃ q answers, ({} : Parser).feed i386 (csiHead (1 :: replicate m 0) [] ++ [0x48#8]) = some (q, answers) ∧
      q.csiParam 0 = 10 := by
  obtain ⟨n, rfl⟩ : ∃ n, m = n + 1 := ⟨m - 1, by omega⟩
  have small : ∀ v ∈ 1 :: replicate n 0, v < 2 ^ 31 := by
    intro v member
    rcases mem_cons.1 member with rfl | zero
    · decide
    · rw [eq_of_mem_replicate zero]
      decide
  obtain ⟨q, head, state, num, values⟩ := Parser.feed_overflow (p := {}) i386 rfl
    (by rw [length_cons, length_replicate, many]) small (cons_ne_nil 0 []) [0x48#8]
  have zero : paramText [0] = [0x30#8] := by
    exact decimalText_eq (v := 0) (by decide)
  obtain ⟨q', stores, kept, ten⟩ : ∃ q' : Parser, q.after i386 (0x30#8).toInt = some q' ∧ q'.state = .param ∧
      q'.csiParam 0 = 10 := by
    have outside : q.Stray (0x30#8).toInt := ⟨state, ⟨by decide, by decide, by rw [num]; decide⟩, by rw [num]; decide⟩
    have stores : q.after i386 (0x30#8).toInt =
        some { ({ q with paramNum := 0 } : Parser).addDigit 0 with paramNum := q.paramNum } := by
      rw [Parser.after, if_pos outside, num, i386, if_pos (by decide), num]
      rfl
    refine ⟨_, stores, state, ?_⟩
    change wrap (wrap (q.csiParam 0 * 10) + 0) = 10
    rw [show q.csiParam 0 = 1 from values 0]
    rfl
  have last : q.feed i386 [0x30#8, 0x48#8] = some ({ q' with cmd := (0x48#8).toInt, state := .ready },
      [(q.ansiParsePutc (0x30#8).toInt).2, -apsFinal]) := by
    rw [Parser.feed, stores, bind_some, Parser.feed_final (.inl kept) (by decide)]
    rfl
  rw [zero, singleton_append, last] at head
  rw [replicate_succ', ← cons_append, head]
  exact ⟨_, _, rfl, ten⟩

/-- A one and `2 ^ 31` zeros: the last zero makes a ten of the first parameter. -/
theorem last_zero_changes_first :
    ∃ q answers, ({} : Parser).feed i386 (csiHead (1 :: replicate (2 ^ 31) 0) [] ++ [0x48#8]) = some (q, answers) ∧
      q.csiParam 0 = 10 ∧ ¬({} : Parser).RoundTrips i386 (1 :: replicate (2 ^ 31) 0) [] 0x48#8 := by
  obtain ⟨q, answers, fed, ten⟩ := feed_last_zero rfl
  refine ⟨q, answers, fed, ten, ?_⟩
  rintro ⟨q', fed', values, -⟩
  obtain ⟨rfl, -⟩ := Prod.mk.inj (some.inj (fed.symm.trans fed'))
  have one : q.csiParam 0 = 1 := values 0
  omega

end MicroOs.Terminal
