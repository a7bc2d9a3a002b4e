import MicroOs.Library.CString

/-! # The command line of the shell

`read_line` and `parse_line` of `shell.c`, with the line in the memory of the process. What is shown on the screen while
a line is typed is left out.

The line has room for 149 characters and `argv` for 50 pointers. A word and the blank behind it can be as short as two
characters, so that a line may have 75 words.
-/

namespace MicroOs.Shell

open List

variable {n k i : ℕ}

def shellSizeX : ℕ := 50

def lineMax : ℕ := shellSizeX * 3

def blank : BitVec 8 := 32

def carriageReturn : BitVec 8 := 13

def backspace : BitVec 8 := 8

/-- The line up to the character `i` with the keys that are pressed next, once the line is complete. -/
def readLine (max line : ℕ) : List (BitVec 8) → ℕ → Memory → Option Memory
  | [], _, _ => none
  | c :: keys, i, memory =>
    if c = carriageReturn then some (memory.writeByte (line + i) 0)
    else
      let (i, memory) :=
        if c = backspace then
          if 0 < i then (i - 1, memory.writeByte (line + (i - 1)) 0) else (i, memory)
        else (i + 1, memory.writeByte (line + i) c)
      if i < max - 1 then readLine max line keys i memory else some (memory.writeByte (line + i) 0)

def Printable (ch : BitVec 8) : Prop := ch ≠ 0 ∧ ch ≠ carriageReturn ∧ ch ≠ backspace

variable {memory memory' : Memory} {max line : ℕ} {chars keys : List (BitVec 8)}

section

variable (here : memory.HasChars line chars)
include here

theorem hasChars_writeByte {ch : BitVec 8} (nonzero : ch ≠ 0) :
    (memory.writeByte (line + chars.length) ch).HasChars line (chars ++ [ch]) := by
  refine Memory.hasChars_append.2 ⟨here.congr fun i less => memory.writeByte_ne ch (by omega), ?_⟩
  exact ⟨⟨memory.writeByte_same _ ch, nonzero⟩, trivial⟩

theorem hasString_writeByte : (memory.writeByte (line + chars.length) 0).HasString line chars := by
  refine Memory.hasString_iff.2 ⟨here.congr fun i less => memory.writeByte_ne 0 (by omega), ?_⟩
  exact memory.writeByte_same _ 0

theorem readLine_string (printable : ∀ ch ∈ chars, Printable ch)
    (less : chars.length < max - 1) (noNul : ∀ key ∈ keys, key ≠ 0)
    (read : readLine max line keys chars.length memory = some memory') :
    ∃ chars', memory'.HasString line chars' ∧ chars'.length ≤ max - 1 ∧ ∀ ch ∈ chars', Printable ch := by
  induction keys generalizing memory chars with
  | nil => cases read
  | cons c keys ih =>
    have noNul' : ∀ key ∈ keys, key ≠ 0 := fun key member => noNul key (mem_cons_of_mem _ member)
    rw [readLine] at read
    by_cases enter : c = carriageReturn
    · rw [if_pos enter] at read
      cases read
      exact ⟨chars, hasString_writeByte here, less.le, printable⟩
    rw [if_neg enter] at read
    by_cases back : c = backspace
    · rw [if_pos back] at read
      by_cases some : 0 < chars.length
      · -- the last character is taken back
        have shorter : chars.dropLast.length = chars.length - 1 := length_dropLast
        have left : memory.HasChars line chars.dropLast := by
          rw [dropLast_eq_take]
          exact here.take _
        rw [if_pos some] at read
        dsimp only at read
        rw [if_pos (by omega), ← shorter] at read
        refine ih (left.congr fun i within => memory.writeByte_ne 0 (by omega)) ?_ (by omega) noNul' read
        exact fun ch member => printable ch (mem_of_mem_dropLast member)
      · rw [if_neg some] at read
        dsimp only at read
        rw [if_pos less] at read
        exact ih here printable less noNul' read
    · have char : Printable c := ⟨noNul c mem_cons_self, enter, back⟩
      have longer : (chars ++ [c]).length = chars.length + 1 := length_append
      have typed := hasChars_writeByte here char.1
      have printable' := forall_mem_append.2 ⟨printable, forall_mem_singleton.2 char⟩
      rw [if_neg back] at read
      dsimp only at read
      rw [← longer] at read
      by_cases more : (chars ++ [c]).length < max - 1
      · rw [if_pos more] at read
        exact ih typed printable' more noNul' read
      · rw [if_neg more] at read
        cases read
        exact ⟨chars ++ [c], hasString_writeByte typed, by omega, printable'⟩

theorem readLine_rest {rest : List (BitVec 8)} (less : chars.length < max - 1)
    (printable : ∀ ch ∈ rest, Printable ch) (fits : (chars ++ rest).length ≤ max - 1) :
    ∃ memory', readLine max line (rest ++ [carriageReturn]) chars.length memory = some memory' ∧
      memory'.HasString line (chars ++ rest) := by
  induction rest generalizing memory chars with
  | nil =>
    rw [append_nil]
    exact ⟨_, if_pos rfl, hasString_writeByte here⟩
  | cons c rest ih =>
    obtain ⟨nonzero, enter, back⟩ := printable c mem_cons_self
    have longer : (chars ++ [c]).length = chars.length + 1 := length_append
    have typed := hasChars_writeByte here nonzero
    rw [append_cons chars c rest] at fits ⊢
    rw [cons_append, readLine, if_neg enter, if_neg back]
    dsimp only
    rw [← longer]
    by_cases more : (chars ++ [c]).length < max - 1
    · rw [if_pos more]
      exact ih typed more (fun ch member => printable ch (mem_cons_of_mem _ member)) fits
    · obtain rfl : rest = [] := by
        rw [length_append] at fits
        exact eq_nil_of_length_eq_zero (by omega)
      rw [if_neg more, append_nil]
      exact ⟨_, rfl, hasString_writeByte typed⟩

end

theorem readLine_type (memory : Memory) (line : ℕ) (room : 0 < max - 1) (printable : ∀ ch ∈ chars, Printable ch)
    (fits : chars.length ≤ max - 1) :
    ∃ memory', readLine max line (chars ++ [carriageReturn]) 0 memory = some memory' ∧
      memory'.HasString line chars := by
  have start : memory.HasChars line [] := trivial
  exact readLine_rest start room printable fits

def skipBlanks : ℕ → Memory → ℕ → Option (Memory × ℕ)
  | 0, _, _ => none
  | rounds + 1, memory, s =>
    if memory s = blank then skipBlanks rounds (memory.writeByte s 0) (s + 1) else some (memory, s)

def skipWord (memory : Memory) : ℕ → ℕ → Option ℕ
  | 0, _ => none
  | rounds + 1, s => if memory s ≠ blank ∧ memory s ≠ 0 then skipWord memory rounds (s + 1) else some s

/-- Store a pointer behind those that are in `argv`. A store behind the array has no meaning. -/
def storeArgument (argv : List ℕ) (s : ℕ) : Option (List ℕ) :=
  if argv.length < shellSizeX then some (argv ++ [s]) else none

/-- The loop over the words. The length of `argv` is `argc`. -/
def parseWords : ℕ → Memory → ℕ → List ℕ → Option (Memory × List ℕ)
  | 0, _, _, _ => none
  | rounds + 1, memory, s, argv => do
    let (memory, s) ← skipBlanks (2 ^ 32) memory s
    if memory s = 0 then some (memory, argv)
    else
      let argv ← storeArgument argv s
      let s ← skipWord memory (2 ^ 32) s
      parseWords rounds memory s argv

def parseLine (memory : Memory) (line : ℕ) : Option (Memory × List ℕ) := parseWords (2 ^ 32) memory line []

def IsStart (chars : List (BitVec 8)) (i : ℕ) : Prop :=
  chars.getD i 0 ≠ blank ∧ (i = 0 ∨ chars.getD (i - 1) 0 = blank)

instance : DecidablePred (IsStart chars) := fun _ => inferInstanceAs (Decidable (_ ∧ _))

def startsBelow (chars : List (BitVec 8)) (n : ℕ) : List ℕ := (range n).filter fun i => IsStart chars i

def wordStarts (chars : List (BitVec 8)) : List ℕ := startsBelow chars chars.length

def wordAt (chars : List (BitVec 8)) (i : ℕ) : List (BitVec 8) := (chars.drop i).takeWhile fun ch => ch ≠ blank

/-- There is one pointer for each word in their order, and the word is a string there. -/
def Splits (memory : Memory) (line : ℕ) (chars : List (BitVec 8)) : Prop :=
  ∃ memory', parseLine memory line = some (memory', (wordStarts chars).map (line + ·)) ∧
    ∀ i ∈ wordStarts chars, memory'.HasString (line + i) (wordAt chars i)

/-- The memory with the blanks of the first `n` characters replaced. -/
def blanked (memory : Memory) (line n : ℕ) : Memory := fun address =>
  if line ≤ address ∧ address < line + n ∧ memory address = blank then 0 else memory address

theorem blanked_zero : blanked memory line 0 = memory := by
  funext address
  exact if_neg (by omega)

theorem blanked_of_le (le : n ≤ i) : blanked memory line n (line + i) = memory (line + i) :=
  if_neg (by omega)

theorem blanked_of_lt (less : i < n) :
    blanked memory line n (line + i) = if memory (line + i) = blank then 0 else memory (line + i) := by
  refine if_congr ?_ rfl rfl
  exact ⟨fun all => all.2.2, fun here => ⟨by omega, by omega, here⟩⟩

theorem writeByte_blanked (here : memory (line + n) = blank) :
    (blanked memory line n).writeByte (line + n) 0 = blanked memory line (n + 1) := by
  funext address
  by_cases same : address = line + n
  · rw [same, Memory.writeByte_same, blanked_of_lt (Nat.lt_succ_self n), if_pos here]
  · rw [Memory.writeByte_ne _ _ same]
    refine if_congr (and_congr_right fun _ => and_congr_left fun _ => ?_) rfl rfl
    omega

theorem blanked_eq_of_none (le : n ≤ k) (none : ∀ i, n ≤ i → i < k → memory (line + i) ≠ blank) :
    blanked memory line k = blanked memory line n := by
  funext address
  refine if_congr ⟨fun all => ⟨all.1, ?_, all.2.2⟩, fun all => ⟨all.1, by omega, all.2.2⟩⟩ rfl rfl
  obtain ⟨lower, upper, here⟩ := all
  by_contra behind
  refine none (address - line) (by omega) (by omega) ?_
  rwa [Nat.add_sub_cancel' lower]

theorem startsBelow_eq_of_none (le : n ≤ k) (none : ∀ i, n ≤ i → i < k → ¬IsStart chars i) :
    startsBelow chars k = startsBelow chars n := by
  induction k, le using Nat.le_induction with
  | base => rfl
  | succ k le ih =>
    have last : ¬IsStart chars k := none k le (Nat.lt_succ_self k)
    have before := ih fun i lower upper => none i lower (Nat.lt_succ_of_lt upper)
    rw [← before, startsBelow, range_succ, filter_append, filter_singleton, decide_eq_false last]
    exact append_nil _

theorem startsBelow_succ (start : IsStart chars n) : startsBelow chars (n + 1) = startsBelow chars n ++ [n] := by
  rw [startsBelow, range_succ, filter_append, filter_singleton, decide_eq_true start]
  rfl

theorem startsBelow_length_mono (le : n ≤ k) : (startsBelow chars n).length ≤ (startsBelow chars k).length :=
  ((range_sublist.2 le).filter _).length_le

section

variable (present : memory.HasString line chars)

include present

theorem skipBlanks_spec (rounds : ℕ) (le : n ≤ chars.length) (enough : chars.length < n + rounds) :
    ∃ k, n ≤ k ∧ k ≤ chars.length ∧ (∀ i, n ≤ i → i < k → memory (line + i) = blank) ∧ memory (line + k) ≠ blank ∧
      skipBlanks rounds (blanked memory line n) (line + n) = some (blanked memory line k, line + k) := by
  induction rounds generalizing n with
  | zero => omega
  | succ rounds ih =>
    rw [skipBlanks, blanked_of_le le_rfl]
    by_cases here : memory (line + n) = blank
    · have inside : n ≠ chars.length := by
        rintro rfl
        rw [present.terminator] at here
        exact absurd here (by decide)
      obtain ⟨k, lower, upper, blanks, other, passed⟩ := ih (n := n + 1) (by omega) (by omega)
      refine ⟨k, by omega, upper, fun i less less' => ?_, other, ?_⟩
      · obtain rfl | later := Nat.eq_or_lt_of_le less
        · exact here
        · exact blanks i later less'
      · rw [if_pos here, writeByte_blanked here]
        exact passed
    · exact ⟨n, le_rfl, le, fun i less less' => absurd less' (not_lt.2 less), here, if_neg here⟩

theorem skipWord_spec (rounds : ℕ) (le : n ≤ chars.length) (enough : chars.length < n + rounds)
    (same : ∀ i, n ≤ i → memory' (line + i) = memory (line + i)) :
    ∃ k, n ≤ k ∧ k ≤ chars.length ∧ (∀ i, n ≤ i → i < k → memory (line + i) ≠ blank) ∧
      (memory (line + k) = blank ∨ memory (line + k) = 0) ∧ skipWord memory' rounds (line + n) = some (line + k) := by
  induction rounds generalizing n with
  | zero => omega
  | succ rounds ih =>
    rw [skipWord, same n le_rfl]
    by_cases here : memory (line + n) ≠ blank ∧ memory (line + n) ≠ 0
    · have inside : n ≠ chars.length := by
        rintro rfl
        exact here.2 present.terminator
      obtain ⟨k, lower, upper, word, other, passed⟩ :=
        @ih (n + 1) (by omega) (by omega) fun i less => same i (by omega)
      refine ⟨k, by omega, upper, fun i less less' => ?_, other, ?_⟩
      · obtain rfl | later := Nat.eq_or_lt_of_le less
        · exact here.1
        · exact word i later less'
      · rw [if_pos here]
        exact passed
    · refine ⟨n, le_rfl, le, fun i less less' => absurd less' (not_lt.2 less), ?_, if_neg here⟩
      by_contra neither
      rw [not_or] at neither
      exact here neither

theorem isStart_of_blanks (le : n ≤ k) (less : k < chars.length)
    (head : n = 0 ∨ memory (line + n) = blank ∨ memory (line + n) = 0)
    (blanks : ∀ i, n ≤ i → i < k → memory (line + i) = blank) (other : memory (line + k) ≠ blank)
    (nonzero : memory (line + k) ≠ 0) : IsStart chars k := by
  rw [IsStart, ← present.getD less.le, ← present.getD (i := k - 1) (by omega)]
  refine ⟨other, ?_⟩
  obtain rfl | later := Nat.eq_or_lt_of_le le
  · exact .inl (head.resolve_right fun stopped => stopped.elim other nonzero)
  · exact .inr (blanks (k - 1) (by omega) (by omega))

theorem parseWords_eq (small : chars.length < 2 ^ 32) (rounds : ℕ) (le : n ≤ chars.length)
    (enough : chars.length < n + rounds) (head : n = 0 ∨ memory (line + n) = blank ∨ memory (line + n) = 0)
    (room : (startsBelow chars n).length ≤ shellSizeX) :
    parseWords rounds (blanked memory line n) (line + n) ((startsBelow chars n).map (line + ·)) =
      if (wordStarts chars).length ≤ shellSizeX then
        some (blanked memory line chars.length, (wordStarts chars).map (line + ·)) else none := by
  induction rounds generalizing n with
  | zero => omega
  | succ rounds ih =>
    obtain ⟨k, lower, upper, blanks, other, passed⟩ := skipBlanks_spec present (2 ^ 32) le (by omega)
    have noStart : ∀ i, n ≤ i → i < k → ¬IsStart chars i := fun i less less' start =>
      start.1 ((present.getD (by omega)).symm.trans (blanks i less less'))
    have starts := startsBelow_eq_of_none lower noStart
    rw [parseWords, passed]
    simp only [Option.bind_eq_bind, Option.bind_some, blanked_of_le le_rfl]
    by_cases stop : memory (line + k) = 0
    · -- the end of the line
      obtain rfl : k = chars.length := by
        by_contra differ
        obtain ⟨byte, nonzero⟩ := present.hasChars.getElem (i := k) (by omega)
        exact nonzero (byte.symm.trans stop)
      rw [if_pos stop, wordStarts, starts, if_pos room]
    · have less : k < chars.length := by
        refine Nat.lt_of_le_of_ne upper ?_
        rintro rfl
        exact stop present.terminator
      have start := isStart_of_blanks present lower less head blanks other stop
      have next : startsBelow chars (k + 1) = startsBelow chars n ++ [k] := by rw [startsBelow_succ start, starts]
      rw [if_neg stop, storeArgument, length_map]
      by_cases free : (startsBelow chars n).length < shellSizeX
      · have same : ∀ i, k ≤ i → blanked memory line k (line + i) = memory (line + i) :=
          fun i less => blanked_of_le less
        obtain ⟨q, lower', upper', word, stopped, passed'⟩ := skipWord_spec present (2 ^ 32) upper (by omega) same
        have further : k ≠ q := by
          rintro rfl
          exact stopped.elim other stop
        have noMore : ∀ i, k + 1 ≤ i → i < q → ¬IsStart chars i := by
          rintro i less less' ⟨-, first | behind⟩
          · omega
          · rw [← present.getD (by omega)] at behind
            exact word (i - 1) (by omega) (by omega) behind
        have starts' := (startsBelow_eq_of_none (by omega) noMore).trans next
        rw [if_pos free]
        simp only [passed']
        have rest := @ih q upper' (by omega) (.inr stopped) (by rwa [starts', length_append])
        rw [blanked_eq_of_none lower' word, starts', map_append] at rest
        exact rest
      · -- no room for the pointer to the word
        have many : (startsBelow chars n).length + 1 ≤ (wordStarts chars).length := by
          have count : (startsBelow chars (k + 1)).length ≤ (wordStarts chars).length :=
            startsBelow_length_mono (Nat.succ_le_of_lt less)
          rw [next, length_append] at count
          exact count
        rw [if_neg free, if_neg (by omega)]
        rfl

theorem parseLine_eq (small : chars.length < 2 ^ 32) :
    parseLine memory line = if (wordStarts chars).length ≤ shellSizeX then
      some (blanked memory line chars.length, (wordStarts chars).map (line + ·)) else none := by
  have whole := parseWords_eq present small (2 ^ 32) (Nat.zero_le _) (by omega) (.inl rfl) (Nat.zero_le _)
  rw [blanked_zero] at whole
  exact whole

end

theorem hasString_takeWhile {address : ℕ} (nonzero : ∀ ch ∈ chars, ch ≠ 0) (bytes : ∀ i ≤ chars.length,
      memory (address + i) = if chars.getD i 0 = blank then 0 else chars.getD i 0) :
    memory.HasString address (chars.takeWhile fun ch => ch ≠ blank) := by
  induction chars generalizing address with
  | nil => exact bytes 0 le_rfl
  | cons ch chars ih =>
    have first := bytes 0 (Nat.zero_le _)
    rw [getD_cons_zero] at first
    by_cases here : ch = blank
    · rw [takeWhile_cons, decide_eq_false (not_not.2 here)]
      rw [if_pos here] at first
      exact first
    · rw [takeWhile_cons, decide_eq_true here]
      rw [if_neg here] at first
      refine ⟨⟨first, nonzero ch mem_cons_self⟩, ih (fun c member => nonzero c (mem_cons_of_mem _ member)) ?_⟩
      intro i le
      have byte := bytes (i + 1) (Nat.succ_le_succ le)
      rwa [getD_cons_succ, Nat.add_comm i 1, ← Nat.add_assoc] at byte

theorem blanked_hasString (present : memory.HasString line chars) (le : i ≤ chars.length) :
    (blanked memory line chars.length).HasString (line + i) (wordAt chars i) := by
  have nonzero : ∀ ch ∈ chars.drop i, ch ≠ 0 := fun ch member => present.hasChars.ne_zero (mem_of_mem_drop member)
  refine hasString_takeWhile nonzero fun j within => ?_
  rw [length_drop] at within
  have byte : (chars.drop i).getD j 0 = memory (line + (i + j)) := by
    rw [present.getD (by omega), getD_eq_getElem?_getD, getElem?_drop, getD_eq_getElem?_getD]
  rw [byte, Nat.add_assoc]
  obtain less | stop : i + j < chars.length ∨ i + j = chars.length := by omega
  · exact blanked_of_lt less
  · rw [stop, blanked_of_le le_rfl, present.terminator, if_neg (by decide)]

theorem splits_iff (present : memory.HasString line chars) (small : chars.length < 2 ^ 32) :
    Splits memory line chars ↔ (wordStarts chars).length ≤ shellSizeX := by
  rw [Splits, parseLine_eq present small]
  by_cases few : (wordStarts chars).length ≤ shellSizeX
  · rw [if_pos few]
    refine iff_of_true ⟨_, rfl, fun i member => blanked_hasString present ?_⟩ few
    exact (mem_range.1 (mem_of_mem_filter member)).le
  · rw [if_neg few]
    refine iff_of_false ?_ few
    rintro ⟨memory', returned, -⟩
    cases returned

/-- The line that `read_line` leaves is split as it should be exactly if it has no more words than `argv` has
entries. -/
theorem parseLine_splits_iff (noNul : ∀ key ∈ keys, key ≠ 0)
    (read : readLine lineMax line keys 0 memory = some memory') :
    ∃ chars, memory'.HasString line chars ∧
      (Splits memory' line chars ↔ (wordStarts chars).length ≤ shellSizeX) := by
  have start : memory.HasChars line [] := trivial
  obtain ⟨chars, present, length, -⟩ := readLine_string start (forall_mem_nil _) (by decide) noNul read
  have room : lineMax - 1 < 2 ^ 32 := by decide
  exact ⟨chars, present, splits_iff present (by omega)⟩

/-- The line "ls 1" is split into two words. -/
theorem splits_two_words :
    ∃ memory', readLine lineMax 0 [108, 115, blank, 49, carriageReturn] 0 (fun _ => 0) = some memory' ∧
      memory'.HasString 0 [108, 115, blank, 49] ∧ Splits memory' 0 [108, 115, blank, 49] := by
  have printable : ∀ ch ∈ [108, 115, blank, 49], Printable ch := by
    unfold Printable
    decide
  obtain ⟨memory', read, typed⟩ := readLine_type (fun _ => 0) 0 (show 0 < lineMax - 1 by decide) printable (by decide)
  refine ⟨memory', read, typed, ?_⟩
  obtain ⟨chars, present, splits⟩ := parseLine_splits_iff (by decide) read
  obtain rfl := present.unique typed
  exact splits.2 (by decide)

def manyWords : List (BitVec 8) := (replicate 51 [97, blank]).flatten

/-- They can be typed, and the pointer to the last of them is stored behind `argv`. -/
theorem argv_overflow :
    ∃ memory', readLine lineMax 0 (manyWords ++ [carriageReturn]) 0 (fun _ => 0) = some memory' ∧
      memory'.HasString 0 manyWords ∧ (wordStarts manyWords).length = 51 ∧ parseLine memory' 0 = none ∧
      ¬Splits memory' 0 manyWords := by
  have printable : ∀ ch ∈ manyWords, Printable ch := by
    unfold Printable
    decide
  obtain ⟨memory', read, present⟩ := readLine_type (fun _ => 0) 0 (show 0 < lineMax - 1 by decide) printable (by decide)
  have words : (wordStarts manyWords).length = 51 := by decide
  have none : parseLine memory' 0 = none := by
    rw [parseLine_eq present (by decide)]
    rfl
  refine ⟨memory', read, present, words, none, ?_⟩
  rintro ⟨memory'', returned, -⟩
  rw [none] at returned
  cases returned

end MicroOs.Shell
