import MicroOs.Terminal.Cells

/-! # Text after a bad escape sequence, and text that looks like an answer

The parser reports a byte that cannot go on with its escape sequence, and stays where it is. What follows is still
taken for a part of the sequence: text is swallowed, and it can complete a command.

Characters and reports share one `int`. With a signed `char` the bytes from `0xfc` on have the values of the reports,
so that as text they are dropped, and `0xfe` executes the command of the last escape sequence once more.
-/

namespace MicroOs.Terminal

open List

variable {byte : BitVec 8}
variable {rest before text bytes : List (BitVec 8)}

namespace Parser

/-- What a store to `csi_param` outside the array does to a parser, by the index and the digit, if it returns. -/
abbrev StrayStore := ℤ → ℤ → Parser → Option Parser

variable {p q : Parser} {ch : ℤ} {stray : StrayStore}

def after (stray : StrayStore) (p : Parser) (ch : ℤ) : Option Parser :=
  if p.Stray ch then stray p.paramNum (ch - 0x30) p else some (p.ansiParsePutc ch).1

/-- Feed bytes to the parser: the parser afterwards and its answers. -/
def feed (stray : StrayStore) (p : Parser) : List (BitVec 8) → Option (Parser × List ℤ)
  | [] => some (p, [])
  | byte :: rest =>
    (p.after stray byte.toInt).bind fun q => (q.feed stray rest).map fun (r, answers) =>
      (r, (p.ansiParsePutc byte.toInt).2 :: answers)

theorem feed_cons {answers : List ℤ}
    (safe : ¬p.Stray byte.toInt) (fed : (p.ansiParsePutc byte.toInt).1.feed stray rest = some (q, answers)) :
    p.feed stray (byte :: rest) = some (q, (p.ansiParsePutc byte.toInt).2 :: answers) := by
  simp [feed, after, if_neg safe, fed]

theorem feed_append {answers : List ℤ} (first : p.feed stray before = some (q, answers)) (after : List (BitVec 8)) :
    p.feed stray (before ++ after) = (q.feed stray after).map fun (r, answers') => (r, answers ++ answers') := by
  induction before generalizing p answers with
  | nil =>
    obtain ⟨rfl, rfl⟩ := Prod.mk.inj (Option.some.inj first)
    simp
  | cons byte rest ih =>
    simp only [feed, Option.bind_eq_some_iff, Option.map_eq_some_iff, Prod.exists] at first
    obtain ⟨p', taken, q', answers'', fed, ends⟩ := first
    obtain ⟨rfl, rfl⟩ := Prod.mk.inj ends
    simp only [cons_append, feed, taken, Option.bind_some, ih fed, Option.map_map]
    rfl

theorem not_stray_of_state (state : p.state ≠ .param) : ¬p.Stray ch := fun stray => state stray.1

theorem ansiParsePutc_ready (ready : p.state = .ready) (text : ch ≠ ansiEsc) : p.ansiParsePutc ch = (p, ch) := by
  simp only [ansiParsePutc, ready, if_neg text]

theorem toInt_ne_ansiEsc (text : byte ≠ 0x1b#8) : byte.toInt ≠ ansiEsc :=
  fun same => text (BitVec.eq_of_toInt_eq same)

theorem feed_text (ready : p.state = .ready) (plain : 0x1b#8 ∉ text) :
    p.feed stray text = some (p, text.map BitVec.toInt) := by
  induction text with
  | nil => rfl
  | cons byte rest ih =>
    rw [mem_cons, not_or] at plain
    have parsed := ansiParsePutc_ready ready (toInt_ne_ansiEsc (Ne.symm plain.1))
    have fed : (p.ansiParsePutc byte.toInt).1.feed stray rest = some (p, rest.map BitVec.toInt) := by
      rw [parsed]
      exact ih plain.2
    have stays := feed_cons (not_stray_of_state (by rw [ready]; decide)) fed
    rw [stays, parsed, map_cons]

/-- The answers for an escape sequence that is not understood. -/
def GivesUp (answer : ℤ) : Prop := answer = -apsInvalid ∨ answer = -apsUnimplemented

theorem not_givesUp_escape : ¬GivesUp (-apsEscape) := by
  rintro (same | same) <;> exact absurd same (by decide)

theorem not_givesUp_final : ¬GivesUp (-apsFinal) := by
  rintro (same | same) <;> exact absurd same (by decide)

/-- The character cannot go on with the escape sequence that the parser is in. -/
def Abandons (p : Parser) (ch : ℤ) : Prop :=
  match p.state with
  | .ready => False
  | .esc => ch ≠ ansiCsi
  | .param => ch < 0x20 ∨ 0x7e < ch
  | .intermediate => ¬(0x20 ≤ ch ∧ ch ≤ 0x2f) ∧ ¬(0x40 ≤ ch ∧ ch ≤ 0x7e)

/-- The parser is out of the sequence: text up to the next escape character comes back as it is. -/
structure Recovered (stray : StrayStore) (p : Parser) : Prop where
  ready : p.state = .ready
  text : ∀ text : List (BitVec 8), 0x1b#8 ∉ text → p.feed stray text = some (p, text.map BitVec.toInt)

/-- A character that does not belong to the sequence is reported, and the parser stays in the sequence. -/
theorem stays_of_abandons (abandons : p.Abandons ch) :
    GivesUp (p.ansiParsePutc ch).2 ∧ (p.ansiParsePutc ch).1.state ≠ .ready := by
  unfold Abandons at abandons
  unfold ansiParsePutc
  cases state : p.state with
  | ready => simp [state] at abandons
  | esc =>
    simp only [state] at abandons
    simp [abandons, GivesUp, state]
  | param =>
    simp only [state] at abandons
    have noParameter : ¬(0x30 ≤ ch ∧ ch ≤ 0x3f) := by omega
    have noIntermediate : ¬(0x20 ≤ ch ∧ ch ≤ 0x2f) := by omega
    have noFinal : ¬(0x40 ≤ ch ∧ ch ≤ 0x7e) := by omega
    simp [noParameter, intermediate, noIntermediate, noFinal, GivesUp]
  | intermediate =>
    simp only [state] at abandons
    simp [intermediate, abandons.1, abandons.2, GivesUp, state]

/-- Otherwise the report is a character of text with the same value. -/
theorem ready_of_not_abandons (goesOn : ¬p.Abandons ch) (bad : GivesUp (p.ansiParsePutc ch).2) : p.state = .ready := by
  by_contra inside
  apply goesOn
  unfold ansiParsePutc at bad
  unfold Abandons
  cases state : p.state with
  | ready => exact inside state
  | esc =>
    simp only [state] at bad
    split_ifs at bad with next
    · exact (not_givesUp_escape bad).elim
    · exact next
  | param =>
    simp only [state] at bad
    split_ifs at bad with parameter
    · exact (not_givesUp_escape bad).elim
    · unfold intermediate at bad
      split_ifs at bad
      · exact (not_givesUp_escape bad).elim
      · exact (not_givesUp_final bad).elim
      · omega
  | intermediate =>
    simp only [state] at bad
    unfold intermediate at bad
    split_ifs at bad with first last
    · exact (not_givesUp_escape bad).elim
    · exact (not_givesUp_final bad).elim
    · exact ⟨first, last⟩

/-- In the course of the bytes, the parser in the state `q` is given the byte. -/
def Calls (stray : StrayStore) (p : Parser) (bytes : List (BitVec 8)) (q : Parser) (byte : BitVec 8) : Prop :=
  ∃ before after answers, bytes = before ++ byte :: after ∧ p.feed stray before = some (q, answers)

/-- Whenever a call gives a sequence up, the parser is out of it. -/
def RecoversOn (stray : StrayStore) (p : Parser) (bytes : List (BitVec 8)) : Prop :=
  ∀ q byte, p.Calls stray bytes q byte → GivesUp (q.ansiParsePutc byte.toInt).2 →
    Recovered stray (q.ansiParsePutc byte.toInt).1

/-- Whatever a store outside `csi_param` does, the parser recovers exactly when no byte is out of place in an escape
sequence. -/
theorem recoversOn_iff (stray : StrayStore) (p : Parser) (bytes : List (BitVec 8)) :
    p.RecoversOn stray bytes ↔ ∀ q byte, p.Calls stray bytes q byte → ¬q.Abandons byte.toInt := by
  constructor
  · intro recovers q byte call abandons
    obtain ⟨bad, stays⟩ := stays_of_abandons abandons
    exact stays (recovers q byte call bad).ready
  · intro goesOn q byte call bad
    have ready := ready_of_not_abandons (goesOn q byte call) bad
    have text : byte.toInt ≠ ansiEsc := by
      intro escape
      simp only [ansiParsePutc, ready, escape] at bad
      exact not_givesUp_escape bad
    rw [ansiParsePutc_ready ready text]
    exact ⟨ready, fun _ plain => feed_text ready plain⟩

/-- After the escape sequence `ESC c`, which is not implemented, the text `[J` erases the display. -/
theorem text_after_bad_escape_executes :
    (∀ stray : StrayStore, ¬({} : Parser).RecoversOn stray [0x1b#8, 0x63#8, 0x5b#8, 0x4a#8]) ∧
      ∃ q : Parser, (∀ stray : StrayStore, ({} : Parser).feed stray [0x1b#8, 0x63#8, 0x5b#8, 0x4a#8] =
        some (q, [-apsEscape, -apsUnimplemented, -apsEscape, -apsFinal])) ∧ q.cmd = ansiEd := by
  refine ⟨?_, _, fun _ => rfl, rfl⟩
  intro stray recovers
  have call : ({} : Parser).Calls stray [0x1b#8, 0x63#8, 0x5b#8, 0x4a#8] ({} : Parser).startEsc 0x63#8 :=
    ⟨[0x1b#8], [0x5b#8, 0x4a#8], [-apsEscape], rfl, rfl⟩
  exact absurd (recovers _ _ call (.inr rfl)).ready (by decide)

end Parser

namespace Term

variable {t : Term} {stray : StrayStore}

/-- The byte is put into the cell at the cursor, and the cursor goes one cell on. -/
def outputCell (t : Term) (byte : BitVec 8) : Term :=
  let m := t.clearCursor.moveCursorIntoBounds
  ({ m.setc m.row m.col m.color byte.toInt with col := wrap (m.col + 1) } : Term).writeCursor

def Control (byte : BitVec 8) : Prop := byte = 0x0a#8 ∨ byte = 0x0d#8 ∨ byte = 0x08#8

/-- No escape command is executed for the bytes, and each that does not control the cursor advances the output by one
cell. -/
def PrintsText (stray : StrayStore) (t : Term) (bytes : List (BitVec 8)) : Prop :=
  ∀ before byte after, bytes = before ++ byte :: after → ∃ u, t.termWrite stray before = some u ∧
    (u.parser.ansiParsePutc byte.toInt).2 ≠ -apsFinal ∧
    (¬Control byte → u.termPutc stray byte.toInt = some (u.outputCell byte))

/-- What `term_putc` does with a byte of text. -/
theorem termPutc_text (ready : t.parser.state = .ready) (text : byte ≠ 0x1b#8) :
    t.termPutc stray byte.toInt = some (t.clearCursor.answer byte.toInt) := by
  have parsed := Parser.ansiParsePutc_ready ready (Parser.toInt_ne_ansiEsc text)
  rw [termPutc_of_safe (Parser.not_stray_of_state (by rw [ready]; decide)), parsed, ← (Steady.clearCursor t).parser]

theorem exists_termPutc_text (stray : StrayStore) (ready : t.parser.state = .ready)
    (text : byte ≠ 0x1b#8) : ∃ u, t.termPutc stray byte.toInt = some u ∧ Steady t u :=
  ⟨_, termPutc_text ready text, (Steady.clearCursor t).trans (Steady.answer ..)⟩

theorem exists_termWrite_text (stray : StrayStore) (ready : t.parser.state = .ready)
    (plain : 0x1b#8 ∉ text) : ∃ u, t.termWrite stray text = some u ∧ Steady t u := by
  induction text generalizing t with
  | nil => exact ⟨t, rfl, .refl t⟩
  | cons byte rest ih =>
    rw [mem_cons, not_or] at plain
    obtain ⟨u, put, first⟩ := exists_termPutc_text stray ready (Ne.symm plain.1)
    obtain ⟨u', written, second⟩ := @ih u (by rwa [first.parser]) plain.2
    refine ⟨u', ?_, first.trans second⟩
    rw [termWrite_cons, put]
    exact written

theorem toInt_report :
    (byte.toInt = -apsEscape ∨ byte.toInt = -apsInvalid ∨ byte.toInt = -apsUnimplemented ∨
      byte.toInt = -apsFinal) ↔ 0xfc ≤ byte.toNat := by
  revert byte
  decide

theorem answer_text (low : byte.toNat < 0xfc) (visible : ¬Control byte) :
    t.clearCursor.answer byte.toInt = t.outputCell byte := by
  have noReport := mt toInt_report.1 (Nat.not_le.2 low)
  have noNewline : byte.toInt ≠ 0x0a := fun same => visible (.inl (BitVec.eq_of_toInt_eq same))
  have noReturn : byte.toInt ≠ 0x0d := fun same => visible (.inr (.inl (BitVec.eq_of_toInt_eq same)))
  have noBackspace : byte.toInt ≠ 0x08 := fun same => visible (.inr (.inr (BitVec.eq_of_toInt_eq same)))
  rw [answer, if_neg (by tauto), if_neg (by tauto)]
  simp only [handleCharacter, putCharacter, if_neg noNewline, if_neg noReturn, if_neg noBackspace, outputCell]

/-- Text whose bytes are all below the reports is printed. -/
theorem printsText_of_low (ready : t.parser.state = .ready) (plain : 0x1b#8 ∉ bytes)
    (low : ∀ byte ∈ bytes, byte.toNat < 0xfc) : PrintsText stray t bytes := by
  intro before byte after split
  rw [split, mem_append, mem_cons, not_or, not_or] at plain
  obtain ⟨u, written, steady⟩ := exists_termWrite_text stray ready plain.1
  have readyNow : u.parser.state = .ready := by rwa [steady.parser]
  have small := low byte (by simp [split])
  refine ⟨u, written, ?_, ?_⟩
  · rw [Parser.ansiParsePutc_ready readyNow (Parser.toInt_ne_ansiEsc (Ne.symm plain.2.1))]
    exact fun report => absurd (toInt_report.1 (.inr (.inr (.inr report)))) (Nat.not_le.2 small)
  · intro visible
    rw [termPutc_text readyNow (Ne.symm plain.2.1), answer_text small visible]

theorem clearCursor_col (t : Term) : t.clearCursor.col = t.col := by
  unfold clearCursor
  split_ifs
  · obtain ⟨cells, same⟩ := (paints_setcolor t t.row t.col t.color).same
    rw [same]
  · rfl

theorem moveCursorIntoBounds_clip (clips : t.overflow = .clip) : t.moveCursorIntoBounds = t := if_pos clips

theorem writeCursor_col_clip (clips : t.overflow = .clip) : t.writeCursor.col = t.col := by
  unfold writeCursor
  split_ifs
  · obtain ⟨cells, same⟩ := (paints_setcolor t t.row t.col (t.cursorColor.setWidth 8)).same
    simp [moveCursorIntoBounds_clip clips, same]
  · rfl

theorem outputCell_col (clips : t.overflow = .clip) (byte : BitVec 8) : (t.outputCell byte).col = wrap (t.col + 1) := by
  have cleared := (Steady.clearCursor t).overflow.trans clips
  obtain ⟨cells, same⟩ := (paints_setc t.clearCursor t.clearCursor.row t.clearCursor.col t.clearCursor.color
    byte.toInt).same
  simp only [outputCell, moveCursorIntoBounds_clip cleared, same]
  refine (writeCursor_col_clip ?_).trans ?_
  · exact cleared
  · simp [clearCursor_col]

theorem wrap_add_one_ne (x : ℤ) : wrap (x + 1) ≠ x := by
  intro same
  have residue : (wrap (x + 1)) % 2 ^ 32 = (x + 1) % 2 ^ 32 := Int.bmod_emod ..
  omega

theorem termPutc_ne_outputCell (clips : t.overflow = .clip) (ready : t.parser.state = .ready)
    (high : 0xfc ≤ byte.toNat) (executes : byte.toInt ≠ -apsFinal) :
    t.termPutc stray byte.toInt ≠ some (t.outputCell byte) := by
  have text : byte ≠ 0x1b#8 := by
    rintro rfl
    exact absurd high (by decide)
  have report := toInt_report.2 high
  rw [termPutc_text ready text, answer, if_pos (by tauto)]
  intro same
  have column := congrArg col (Option.some.inj same)
  rw [clearCursor_col, outputCell_col clips] at column
  exact wrap_add_one_ne t.col column.symm

/-- A byte string without the escape character is printed as text by a terminal that is not in an escape sequence,
exactly when it has no byte from `0xfc` on. -/
theorem printsText_iff {bytes : List (BitVec 8)} (plain : 0x1b#8 ∉ bytes) :
    (∀ stray t, t.parser.state = .ready →
      PrintsText stray t bytes ∧ PrintsText stray t (bytes.takeWhile (· ≠ 0#8))) ↔
      ∀ byte ∈ bytes, byte.toNat < 0xfc := by
  constructor
  · intro prints byte member
    by_contra high
    have visible : ¬Control byte := by
      rintro (rfl | rfl | rfl) <;> exact high (by decide)
    obtain ⟨before, after, split⟩ := append_of_mem member
    -- a terminal that clips moves its cursor at every byte it prints
    obtain ⟨u, written, noCommand, put⟩ :=
      (prints (fun _ _ _ => none) { vga with overflow := .clip } rfl).1 before byte after split
    have plainBefore : 0x1b#8 ∉ before := fun escape => plain (by simp [split, escape])
    obtain ⟨u', written', steady⟩ := exists_termWrite_text (t := { vga with overflow := .clip })
      (fun _ _ _ => none) rfl plainBefore
    obtain rfl : u = u' := Option.some.inj (written.symm.trans written')
    have ready : u.parser.state = .ready := by rw [steady.parser]; rfl
    have text : byte ≠ 0x1b#8 := fun escape => plain (escape ▸ member)
    rw [Parser.ansiParsePutc_ready ready (Parser.toInt_ne_ansiEsc text)] at noCommand
    exact termPutc_ne_outputCell steady.overflow ready (Nat.le_of_not_lt high) noCommand (put visible)
  · intro low stray t ready
    refine ⟨printsText_of_low ready plain low, printsText_of_low ready ?_ ?_⟩
    · exact fun escape => plain ((takeWhile_sublist _).subset escape)
    · exact fun byte member => low byte ((takeWhile_sublist _).subset member)

/-- An umlaut and a letter are printed, whatever the terminal has done before. -/
theorem printsText_umlaut :
    0x1b#8 ∉ [0x84#8, 0x41#8] ∧ ∀ stray t, t.parser.state = .ready →
      PrintsText stray t [0x84#8, 0x41#8] ∧ PrintsText stray t ([0x84#8, 0x41#8].takeWhile (· ≠ 0#8)) :=
  ⟨by decide, (printsText_iff (by decide)).2 (by decide)⟩

/-- Once the cursor has been sent to the top left corner, the byte `0xfe` sends it there again. -/
theorem byte_moves_cursor_home :
    ∃ t : Term, t.parser.state = .ready ∧ ¬PrintsText (fun _ _ _ => none) t [0xfe#8] ∧ t.col = 7 ∧
      ∃ u, t.termWrite (fun _ _ _ => none) [0xfe#8] = some u ∧ u.col = 0 := by
  refine ⟨{ vga with col := 7, parser := { cmd := ansiCup } }, rfl, ?_, rfl, _, rfl, rfl⟩
  intro prints
  obtain ⟨u, written, noCommand, -⟩ := prints [] 0xfe#8 [] rfl
  obtain rfl := Option.some.inj written
  exact noCommand rfl

end Term

end MicroOs.Terminal
