import MicroOs.Terminal.Page

/-! # Scrolling shows the tail of the text

Two terminals that scroll are given the same text, a low one and one that is tall enough never to scroll. Both stand on
the same page, and `Term.Together` says where: the tall one shows it from its first row on, the low one from the row
that the number of discarded rows gives. Every byte of text moves both on.

The commands that erase do so on the page. The command that moves the cursor names a row of the window, which is not
the same row of the page in both.
-/

namespace MicroOs.Terminal

open Option

namespace Page

variable (page : Page (BitVec 16)) {byte : BitVec 8}

def erase (gone : ℤ → ℤ → Prop) [DecidableRel gone] : Page (BitVec 16) :=
  { page with cells := fun i j => if gone i j then Term.blank else page.cells i j }

def eraseLine (mode : ℤ) : Page (BitVec 16) :=
  if mode = Term.ansiEfwd then page.erase fun i j => i = page.row ∧ page.col ≤ j
  else if mode = Term.ansiEback then page.erase fun i j => i = page.row ∧ j < page.col
  else if mode = Term.ansiEfull then page.erase fun i _ => i = page.row
  else page

def eraseDisplay (mode : ℤ) : Page (BitVec 16) :=
  if mode = Term.ansiEfwd then (page.eraseLine mode).erase fun i _ => page.row < i
  else if mode = Term.ansiEback then (page.eraseLine mode).erase fun i _ => i < page.row
  else if mode = Term.ansiEfull then (page.eraseLine mode).erase fun _ _ => True
  else page

/-- What a command does that does not move the cursor. -/
def execute (cmd mode : ℤ) : Page (BitVec 16) :=
  if cmd = ansiEl then page.eraseLine mode
  else if cmd = ansiEd then page.eraseDisplay mode
  else page

theorem eraseLine_row (mode : ℤ) : (page.eraseLine mode).row = page.row := by
  unfold eraseLine
  split_ifs <;> rfl

theorem execute_row (cmd mode : ℤ) : (page.execute cmd mode).row = page.row := by
  unfold execute eraseDisplay erase
  split_ifs <;> simp only [eraseLine_row]

/-- What the page becomes by an answer of the parser, while the cursor is hidden. -/
def take (paper : Paper (BitVec 16)) (cmd mode ch : ℤ) : Page (BitVec 16) :=
  if ch = -apsFinal then page.execute cmd mode else page.answer paper ch

end Page

namespace Term

variable {stray : StrayStore} {t t' small tall : Term} {d : ℤ} {page : Page (BitVec 16)}

namespace Shows

section

variable (shows : Shows id t d page)
include shows

section

variable (scrolls : t.overflow = .scroll)
include scrolls

theorem erase (painted : Paints t t') {gone : ℤ → ℤ → Prop} [DecidableRel gone]
    (erased : ∀ i j, t.IsInBounds i j → t'.cell i j = if gone (i + d) j then blank else t.cell i j) :
    Shows id t' d (page.erase gone) := by
  have content (i j : ℤ) (upper : 0 ≤ i) (first : 0 ≤ j) (last : j < t.win.width) :
      t'.content i j = if gone (i + d) j then blank else t.content i j := by
    rcases lt_or_ge i t.win.height with inWindow | below
    · rw [content_of_lt (by rwa [painted.win]), content_of_lt inWindow, erased i j ⟨⟨upper, inWindow⟩, first, last⟩]
    · rw [content_paints painted shows.inside first last below, content_below (.inl scrolls) below, ite_self]
  obtain ⟨cells, same⟩ := painted.same
  rw [same] at content ⊢
  obtain ⟨top, bottom, left, right, height, width⟩ := shows.inside
  exact { shows with
    inside := ⟨top, bottom, left, right, height, width⟩
    cells := by
      intro i j upper first last
      refine Eq.trans ?_ (content i j upper first last).symm
      change (if gone (i + d) j then blank else page.cells (i + d) j) = _
      rw [shows.cells i j upper first last]
      rfl }

theorem eraseLine (mode : ℤ) : Shows id (t.eraseLine mode) d (page.eraseLine mode) := by
  have row := shows.row
  have col := shows.col
  have cols (start stop : ℤ) {gone : ℤ → ℤ → Prop} [DecidableRel gone]
      (same : ∀ i j, t.IsInBounds i j → (gone (i + d) j ↔ i = t.row ∧ start ≤ j ∧ j < stop)) :
      Shows id (t.eraseCols t.row start stop) d (page.erase gone) := by
    refine shows.erase scrolls (paints_eraseCols ..) fun i j there => ?_
    rw [cell_eraseCols shows.inside there]
    exact if_congr (same i j there).symm rfl rfl
  unfold Term.eraseLine Page.eraseLine
  split_ifs
  · refine cols _ _ fun i j there => ?_
    have := there.2.2
    omega
  · refine cols _ _ fun i j there => ?_
    have := there.2.1
    omega
  · refine cols _ _ fun i j there => ?_
    have := there.2
    omega
  · exact shows

theorem eraseDisplay (next : t.row + 1 < 2 ^ 31)
    (mode : ℤ) : Shows id (t.eraseDisplay mode) d (page.eraseDisplay mode) := by
  have row := shows.row
  have lower := shows.lower
  have down : wrap (t.row + 1) = t.row + 1 := wrap_of_int (by omega) next
  have line := shows.eraseLine scrolls mode
  have painted := paints_eraseLine t mode
  have scrolls' := (Steady.of_paints painted).overflow.trans scrolls
  have rows (start stop : ℤ) {gone : ℤ → ℤ → Prop} [DecidableRel gone]
      (same : ∀ i j, t.IsInBounds i j → (gone (i + d) j ↔ start ≤ i ∧ i < stop)) :
      Shows id ((t.eraseLine mode).eraseRows start stop) d ((page.eraseLine mode).erase gone) := by
    refine line.erase scrolls' (paints_eraseRows ..) fun i j there => ?_
    rw [cell_eraseRows line.inside there]
    exact if_congr (same i j (painted.inBounds_iff.1 there)).symm rfl rfl
  unfold Term.eraseDisplay Page.eraseDisplay
  split_ifs
  · refine rows _ _ fun i j there => ?_
    have := there.1.2
    omega
  · refine rows _ _ fun i j there => ?_
    have := there.1.1
    omega
  · exact rows _ _ fun i j there => ⟨fun _ => there.1, fun _ => trivial⟩
  · exact shows

theorem execute (next : t.row + 1 < 2 ^ 31) (stays : t.parser.cmd ≠ ansiCup) :
    Shows id t.executeAnsiEscape d (page.execute t.parser.cmd (t.parser.csiParam 0)) := by
  unfold executeAnsiEscape Page.execute
  rw [if_neg stays]
  split_ifs
  · exact shows.eraseLine scrolls _
  · exact shows.eraseDisplay scrolls next _
  · exact shows

end

end

end Shows

theorem clearCursor_hidden (hidden : t.Hidden) : t.clearCursor = t := by
  rw [clearCursor, hidden.visible]
  rfl

theorem Hidden.of_sameSetup (hidden : t.Hidden) (steady : SameSetup t t') : t'.Hidden :=
  ⟨steady.showCursor.trans hidden.shown, steady.hidden hidden.shown hidden.visible⟩

theorem handleCharacter_hidden (hidden : t.Hidden) (ch : ℤ) :
    t.handleCharacter ch = t.moveCursorIntoBounds.putCharacter ch := by
  have steady := (Steady.moveCursorIntoBounds t).trans (Steady.putCharacter t.moveCursorIntoBounds ch)
  rw [handleCharacter, writeCursor, (hidden.of_sameSetup steady.toSameSetup).shown]
  rfl

theorem moveCursorIntoBounds_height (scrolls : t.overflow = .scroll) :
    t.moveCursorIntoBounds.win.height = t.win.height := by
  have window : t.wrapLine.win = t.win := by
    unfold wrapLine
    split_ifs <;> rfl
  unfold moveCursorIntoBounds
  split_ifs
  · rfl
  · unfold handleOverflow
    rw [(Steady.wrapLine t).overflow, scrolls]
    dsimp only
    split_ifs with enough
    · rw [window]
    · obtain ⟨cells, same⟩ := scroll_eq (t := t.wrapLine) (not_le.1 enough)
      rw [same]
      exact congrArg TermWin.height window
  · rw [window]

theorem executeAnsiEscape_height (t : Term) : t.executeAnsiEscape.win.height = t.win.height := by
  unfold executeAnsiEscape
  split_ifs
  · rfl
  · rw [(paints_eraseLine ..).win]
  · rw [(paints_eraseDisplay ..).win]
  · rfl

/-- The character is put in the window: it is no answer about an escape sequence. -/
def IsCharacter (ch : ℤ) : Prop :=
  ¬(ch = -apsEscape ∨ ch = -apsInvalid ∨ ch = -apsUnimplemented) ∧ ch ≠ -apsFinal

/-- Both terminals scroll, are of the same width and colour, and stand on the same page: the tall one at its
beginning, the other as far down as the tall one reaches. -/
structure Together (small tall : Term) (d : ℤ) (page : Page (BitVec 16)) : Prop where
  part : Shows id small d page
  whole : Shows id tall 0 page
  room : d + small.win.height ≤ tall.win.height
  low : small.row ≤ small.win.height ∧ tall.row ≤ tall.win.height
  scrolls : small.overflow = .scroll ∧ tall.overflow = .scroll
  hidden : small.Hidden ∧ tall.Hidden
  paper : paper id tall = paper id small
  parser : tall.parser = small.parser

namespace Together

/-- A character goes to the same place of the page in both. If the small window discards rows for it, the page has
come to its last row. -/
theorem handleCharacter (both : Together small tall d page) {ch : ℤ} (noBackspace : ch ≠ 0x08)
    (fits : tall.wrapLine.row < tall.win.height) :
    ∃ d', Together (small.handleCharacter ch) (tall.handleCharacter ch) d' (page.character (Term.paper id small) ch) ∧
      (small.handleCharacter ch).win.height = small.win.height ∧
      (tall.handleCharacter ch).win.height = tall.win.height := by
  have height {t : Term} (scrolls : t.overflow = .scroll) :
      (t.moveCursorIntoBounds.putCharacter ch).win.height = t.win.height :=
    (putCharacter_height _ noBackspace).trans (moveCursorIntoBounds_height scrolls)
  have character : page.character (Term.paper id small) ch =
      (page.settle (Term.paper id small)).put (Term.paper id small) ch := by
    have shown : (Term.paper id small).shown = false := both.hidden.1.shown
    simp [Page.character, shown]
  obtain ⟨d', moved, low, last, -⟩ := both.part.placeCharacter (by rw [both.scrolls.1]; decide) noBackspace
  obtain ⟨d'', whole, low', -, still⟩ := both.whole.placeCharacter (by rw [both.scrolls.2]; decide) noBackspace
  obtain rfl := still fits
  have settled := both.whole.wrapLine.row
  rw [both.paper] at whole settled
  rw [moveCursorIntoBounds_height both.scrolls.1] at last low
  rw [moveCursorIntoBounds_height both.scrolls.2] at low'
  rw [handleCharacter_hidden both.hidden.1, handleCharacter_hidden both.hidden.2, character]
  refine ⟨d', ⟨moved.shows, whole.shows, ?_, ?_, ?_, ?_, ?_, ?_⟩, height both.scrolls.1, height both.scrolls.2⟩
  · rw [height both.scrolls.1, height both.scrolls.2]
    rcases moved.more.eq_or_lt with same | more
    · rw [← same]
      exact both.room
    · omega
  · rw [height both.scrolls.1, height both.scrolls.2]
    exact ⟨low, low'⟩
  · exact ⟨moved.steady.overflow.trans both.scrolls.1, whole.steady.overflow.trans both.scrolls.2⟩
  · exact ⟨both.hidden.1.of_sameSetup moved.steady, both.hidden.2.of_sameSetup whole.steady⟩
  · rw [moved.steady.paper_eq, whole.steady.paper_eq, both.paper]
  · rw [(Steady.putCharacter ..).parser, (Steady.moveCursorIntoBounds ..).parser, both.parser,
      (Steady.putCharacter ..).parser, (Steady.moveCursorIntoBounds ..).parser]

/-- The commands that erase do the same to the page in both. -/
theorem execute (both : Together small tall d page) (stays : small.parser.cmd ≠ ansiCup)
    (rows : tall.win.height + 1 < 2 ^ 31) :
    Together small.executeAnsiEscape tall.executeAnsiEscape d
      (page.execute small.parser.cmd (small.parser.csiParam 0)) := by
  have part := both.part.row
  have whole := both.whole.row
  have nonneg := both.part.nonneg
  have low := both.low
  have erased := both.part.execute both.scrolls.1 (by omega) stays
  have erased' := both.whole.execute both.scrolls.2 (by omega) (by rwa [both.parser])
  have steady := Steady.executeAnsiEscape small
  have steady' := Steady.executeAnsiEscape tall
  have row := erased.row
  have row' := erased'.row
  rw [both.parser] at erased'
  refine ⟨erased, erased', ?_, ?_, ?_, ?_, ?_, ?_⟩
  · rw [executeAnsiEscape_height, executeAnsiEscape_height]
    exact both.room
  · rw [page.execute_row] at row row'
    rw [executeAnsiEscape_height, executeAnsiEscape_height]
    omega
  · exact ⟨steady.overflow.trans both.scrolls.1, steady'.overflow.trans both.scrolls.2⟩
  · exact ⟨both.hidden.1.of_sameSetup steady.toSameSetup, both.hidden.2.of_sameSetup steady'.toSameSetup⟩
  · rw [steady.paper_eq, steady'.paper_eq, both.paper]
  · rw [steady.parser, steady'.parser, both.parser]

theorem termPutc (stray : StrayStore) (both : Together small tall d page) (ready : small.parser.state = .ready)
    (text : byte ≠ 0x1b#8) (noBackspace : byte ≠ 0x08#8)
    (stays : byte.toInt = -apsFinal → small.parser.cmd ≠ ansiCup ∧ tall.win.height + 1 < 2 ^ 31)
    (fits : IsCharacter byte.toInt → tall.wrapLine.row < tall.win.height) :
    ∃ small' tall' d', small.termPutc stray byte.toInt = some small' ∧ tall.termPutc stray byte.toInt = some tall' ∧
      Together small' tall' d' (page.take (Term.paper id small) small.parser.cmd (small.parser.csiParam 0) byte.toInt) ∧
      small'.win.height = small.win.height ∧ tall'.win.height = tall.win.height := by
  have other : byte.toInt ≠ 0x08 := fun same => noBackspace (BitVec.eq_of_toInt_eq same)
  have ready' : tall.parser.state = .ready := by
    rw [both.parser]
    exact ready
  rw [termPutc_text ready text, termPutc_text ready' text, clearCursor_hidden both.hidden.1,
    clearCursor_hidden both.hidden.2]
  unfold Term.answer
  split_ifs with swallowed final
  · have same : page.take (Term.paper id small) small.parser.cmd (small.parser.csiParam 0) byte.toInt = page := by
      have noFinal : byte.toInt ≠ -apsFinal := by
        rcases swallowed with code | code | code <;> rw [code] <;> decide
      rw [Page.take, if_neg noFinal, Page.answer, if_pos (by tauto)]
    rw [same]
    exact ⟨_, _, d, rfl, rfl, both, rfl, rfl⟩
  · rw [Page.take, if_pos final]
    obtain ⟨stays, rows⟩ := stays final
    exact ⟨_, _, d, rfl, rfl, both.execute stays rows, executeAnsiEscape_height small, executeAnsiEscape_height tall⟩
  · rw [Page.take, if_neg final, Page.answer, if_neg (by tauto)]
    obtain ⟨d', together, height, height'⟩ := both.handleCharacter other (fits ⟨swallowed, final⟩)
    exact ⟨_, _, d', rfl, rfl, together, height, height'⟩

end Together

/-- A terminal that scrolls, with a blank window and a hidden cursor at the origin. -/
structure Fresh (t : Term) : Prop where
  inside : t.Inside
  scrolls : t.overflow = .scroll
  blank : ∀ i j, t.IsInBounds i j → t.cell i j = blank
  hidden : t.Hidden
  row : t.row = 0
  col : t.col = 0

/-- The text is written without a row that overflows the window. -/
def NeverScrolls (stray : StrayStore) : Term → List (BitVec 8) → Prop
  | _, [] => True
  | t, byte :: rest =>
    (IsCharacter (t.parser.ansiParsePutc byte.toInt).2 → t.wrapLine.row < t.win.height) ∧
      ∀ t', t.termPutc stray byte.toInt = some t' → NeverScrolls stray t' rest

/-- The rows of the small window are those of the tall one, as far down as the cursors tell. -/
structure TailShown (small tall : Term) : Prop where
  col : small.col = tall.col
  rows : ∀ i j, small.IsInBounds i j → tall.IsInBounds (i + (tall.row - small.row)) j ∧
    small.cell i j = tall.cell (i + (tall.row - small.row)) j

/-- After the text, the small window shows the tail of what the tall one shows. -/
def ShowsTail (stray : StrayStore) (small tall : Term) (text : List (BitVec 8)) : Prop :=
  ∃ small' tall', small.termWrite stray text = some small' ∧ tall.termWrite stray text = some tall' ∧
    TailShown small' tall'

/-- The byte taken for the end of an escape sequence finds no command that moves the cursor, and the row below the
tall window is of type `int`. -/
def StaysPut (small tall : Term) (text : List (BitVec 8)) : Prop :=
  0xfe#8 ∈ text → small.parser.cmd ≠ ansiCup ∧ tall.win.height + 1 < 2 ^ 31

/-- A small window and a tall one of the same width, both fresh. -/
structure Pair (small tall : Term) : Prop where
  fresh : small.Fresh ∧ tall.Fresh
  width : small.win.width = tall.win.width
  height : small.win.height ≤ tall.win.height

/-- Both terminals have the same colour and the same parser outside escape sequences. -/
structure Alike (small tall : Term) : Prop where
  color : tall.color = small.color
  parser : tall.parser = small.parser
  ready : small.parser.state = .ready

theorem shows_fresh (fresh : t.Fresh) : Shows id t 0 ⟨0, 0, fun _ _ => blank⟩ where
  inside := fresh.inside
  nonneg := le_rfl
  row := by rw [fresh.row]; rfl
  col := fresh.col.symm
  cells i j upper first last := by
    rcases lt_or_ge i t.win.height with inWindow | below
    · rw [content_of_lt inWindow, fresh.blank i j ⟨⟨upper, inWindow⟩, first, last⟩]
      rfl
    · rw [content_below (.inl fresh.scrolls) below]
      rfl
  started := fun positive => absurd positive (lt_irrefl 0)
  lower := by rw [fresh.row]; decide
  upper := by rw [fresh.row]; decide
  next := fun _ => by rw [fresh.row]; decide
  left := by rw [fresh.col]; decide

theorem Pair.together (pair : Pair small tall) (alike : Alike small tall) :
    Together small tall 0 ⟨0, 0, fun _ _ => blank⟩ where
  part := shows_fresh pair.fresh.1
  whole := shows_fresh pair.fresh.2
  room := by have := pair.height; omega
  low := by
    have first := pair.fresh.1.row
    have second := pair.fresh.2.row
    have height := pair.fresh.1.inside.height
    have height' := pair.fresh.2.inside.height
    omega
  scrolls := ⟨pair.fresh.1.scrolls, pair.fresh.2.scrolls⟩
  hidden := ⟨pair.fresh.1.hidden, pair.fresh.2.hidden⟩
  paper := by simp [paper, pair.width, alike.color, pair.fresh.1.hidden.shown, pair.fresh.2.hidden.shown]
  parser := alike.parser

namespace Together

theorem tailShown (both : Together small tall d page) : TailShown small tall := by
  have part := both.part.row
  have whole := both.whole.row
  have width : tall.win.width = small.win.width := congrArg Paper.width both.paper
  have offset : tall.row - small.row = d := by omega
  refine ⟨both.part.col.symm.trans both.whole.col, ?_⟩
  rintro i j ⟨⟨upper, lower⟩, first, last⟩
  have nonneg := both.part.nonneg
  have room := both.room
  rw [offset]
  refine ⟨⟨⟨by omega, by omega⟩, first, by omega⟩, ?_⟩
  have cell := both.whole.cells (i + d) j (by omega) first (by omega)
  rw [add_zero, both.part.cells i j upper first last, content_of_lt lower, content_of_lt (by omega)] at cell
  exact cell

theorem parser_termPutc (ready : t.parser.state = .ready) (text : byte ≠ 0x1b#8)
    (put : t.termPutc stray byte.toInt = some t') : t'.parser = t.parser := by
  obtain ⟨u, again, steady⟩ := exists_termPutc_text stray ready text
  obtain rfl := some.inj (put.symm.trans again)
  exact steady.parser

/-- Both terminals stay together over a whole text. -/
theorem termWrite (both : Together small tall d page) (ready : small.parser.state = .ready) {text : List (BitVec 8)}
    (plain : 0x1b#8 ∉ text) (noBackspace : 0x08#8 ∉ text) (fits : NeverScrolls stray tall text)
    (stays : StaysPut small tall text) : ShowsTail stray small tall text := by
  induction text generalizing small tall d page with
  | nil => exact ⟨small, tall, rfl, rfl, both.tailShown⟩
  | cons byte rest ih =>
    rw [List.mem_cons, not_or] at plain noBackspace
    have ready' : tall.parser.state = .ready := by
      rw [both.parser]
      exact ready
    have now := fits.1
    rw [Parser.ansiParsePutc_ready ready' (Parser.toInt_ne_ansiEsc (Ne.symm plain.1))] at now
    have final (last : byte.toInt = -apsFinal) : small.parser.cmd ≠ ansiCup ∧ tall.win.height + 1 < 2 ^ 31 := by
      obtain rfl : byte = 0xfe#8 := BitVec.eq_of_toInt_eq last
      exact stays List.mem_cons_self
    obtain ⟨u, v, d', put, put', next, -, height⟩ := both.termPutc stray ready (Ne.symm plain.1)
      (Ne.symm noBackspace.1) final now
    have parser := parser_termPutc ready (Ne.symm plain.1) put
    have later : StaysPut u v rest := by
      rw [StaysPut, parser, height]
      exact fun member => stays (List.mem_cons_of_mem _ member)
    obtain ⟨small', tall', written, written', shown⟩ := ih next (by rwa [parser]) plain.2 noBackspace.2
      (fits.2 v put') later
    refine ⟨small', tall', ?_, ?_, shown⟩
    · rw [termWrite_cons, put]
      exact written
    · rw [termWrite_cons, put']
      exact written'

end Together

/-- The text does not make the tall window scroll, and its tail is not in the small one. -/
def Misses (stray : StrayStore) (small tall : Term) (text : List (BitVec 8)) : Prop :=
  NeverScrolls stray tall text ∧ ¬ShowsTail stray small tall text

theorem Misses.cons {small' tall' : Term} {rest : List (BitVec 8)}
    (put : small.termPutc stray byte.toInt = some small') (put' : tall.termPutc stray byte.toInt = some tall')
    (fits : tall.wrapLine.row < tall.win.height) (misses : Misses stray small' tall' rest) :
    Misses stray small tall (byte :: rest) := by
  refine ⟨⟨fun _ => fits, ?_⟩, ?_⟩
  · intro u again
    obtain rfl := some.inj (put'.symm.trans again)
    exact misses.1
  · rintro ⟨u, v, written, written', shown⟩
    rw [termWrite_cons, put] at written
    rw [termWrite_cons, put'] at written'
    exact misses.2 ⟨u, v, written, written', shown⟩

namespace Together

end Together

end Term

end MicroOs.Terminal
