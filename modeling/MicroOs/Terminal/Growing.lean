import MicroOs.Terminal.Page

/-! # Growing before losing

A window that grows has rows of the buffer to take, above it first and then below. No row of text is discarded before
it has them all: until then the window shows what has been written, row by row. `Term.GrowsFirst` compares every state
of a run with the page that the text has been put on.

A byte that looks like an answer of the parser, and the end of an escape sequence that was begun before, execute a
command in the middle of the text. A command may erase rows that the window has not lost by growing. The theorem is
about runs in which no byte does so.
-/

namespace MicroOs.Terminal

open List

namespace Parser

variable {p : Parser}

/-- The command is one that moves the cursor or erases. -/
def Acts (p : Parser) : Prop := p.cmd = ansiCup ∨ p.cmd = ansiEl ∨ p.cmd = ansiEd

instance (p : Parser) : Decidable p.Acts := inferInstanceAs (Decidable (_ ∨ _))

/-- The byte is not stored outside the array, and ends no escape sequence that acts on the window. -/
structure Harmless (p : Parser) (ch : ℤ) : Prop where
  inArray : ¬p.Stray ch
  idle : (p.ansiParsePutc ch).2 = -apsFinal → ¬(p.ansiParsePutc ch).1.Acts

def HarmlessText : Parser → List (BitVec 8) → Prop
  | _, [] => True
  | p, byte :: rest => p.Harmless byte.toInt ∧ HarmlessText (p.ansiParsePutc byte.toInt).1 rest

theorem HarmlessText.of_append {before after : List (BitVec 8)} (harmless : p.HarmlessText (before ++ after)) :
    p.HarmlessText before := by
  induction before generalizing p with
  | nil => trivial
  | cons byte rest ih => exact ⟨harmless.1, ih harmless.2⟩

/-- Outside escape sequences, only the byte that looks like the end of one can do harm. -/
theorem harmlessText_of_ready (ready : p.state = .ready) {text : List (BitVec 8)} (plain : 0x1b#8 ∉ text)
    (idle : p.Acts → 0xfe#8 ∉ text) : p.HarmlessText text := by
  induction text with
  | nil => trivial
  | cons byte rest ih =>
    rw [mem_cons, not_or] at plain
    have parsed := ansiParsePutc_ready ready (toInt_ne_ansiEsc (Ne.symm plain.1))
    refine ⟨⟨not_stray_of_state (by rw [ready]; decide), ?_⟩, ?_⟩
    · rw [parsed]
      intro final acts
      have same : byte = 0xfe#8 := BitVec.eq_of_toInt_eq final
      exact idle acts (same ▸ mem_cons_self)
    · rw [parsed]
      exact ih plain.2 fun acts member => idle acts (mem_cons_of_mem byte member)

end Parser

namespace Term

variable {α : Type*} {t t' : Term} {d : ℤ} {page : Page α} {view : BitVec 16 → α}

theorem executeAnsiEscape_idle (idle : ¬t.parser.Acts) : t.executeAnsiEscape = t := by
  simp only [Parser.Acts, not_or] at idle
  simp [executeAnsiEscape, idle.1, idle.2.1, idle.2.2]

namespace Shows

theorem termPutc (stray : StrayStore) (shows : Shows view t d page) (wraps : t.overflow ≠ .clip)
    (unseen : Blind view ∨ t.Hidden) {ch : ℤ} (harmless : t.parser.Harmless ch) (noBackspace : ch ≠ 0x08) :
    ∃ t' d', t.termPutc stray ch = some t' ∧ t'.parser = (t.parser.ansiParsePutc ch).1 ∧
      Progress view page (page.answer (paper view t) (t.parser.ansiParsePutc ch).2) t t' d d' := by
  have parsed := shows.parsed unseen (t.parser.ansiParsePutc ch).1
  obtain ⟨d', answered⟩ := parsed.shows.answer (by rwa [parsed.steady.overflow])
    (parsed.steady.unseen unseen) (t.parser.answer_ne_backspace noBackspace)
    fun final => executeAnsiEscape_idle (harmless.idle final)
  rw [parsed.steady.paper_eq] at answered
  have put : t.termPutc stray ch = _ := termPutc_of_safe harmless.inArray
  exact ⟨_, d', put, (SameSetup.termPutc harmless.inArray put).2, parsed.trans answered⟩

theorem termWrite (stray : StrayStore) (shows : Shows view t d page) (wraps : t.overflow ≠ .clip)
    (unseen : Blind view ∨ t.Hidden) {bytes : List (BitVec 8)} (harmless : t.parser.HarmlessText bytes)
    (noBackspace : 0x08#8 ∉ bytes) :
    ∃ t' d', t.termWrite stray bytes = some t' ∧
      Progress view page (Page.write (paper view t) t.parser page bytes) t t' d d' := by
  induction bytes generalizing t d page with
  | nil => exact ⟨t, d, rfl, .refl shows⟩
  | cons byte rest ih =>
    rw [mem_cons, not_or] at noBackspace
    have other : byte.toInt ≠ 0x08 := fun same => noBackspace.1 (BitVec.eq_of_toInt_eq same).symm
    obtain ⟨u, d', put, parser, step⟩ := shows.termPutc stray wraps unseen harmless.1 other
    have later : u.parser.HarmlessText rest := by
      rw [parser]
      exact harmless.2
    obtain ⟨t', d'', written, steps⟩ := ih step.shows (by rwa [step.steady.overflow])
      (step.steady.unseen unseen) later noBackspace.2
    rw [step.steady.paper_eq, parser] at steps
    refine ⟨t', d'', ?_, step.trans steps⟩
    rw [Term.termWrite, foldlM_cons, put]
    exact written

end Shows

def character (cell : BitVec 16) : BitVec 8 := cell.setWidth 8

theorem blind_character : Blind character := by
  intro color cell
  have low (x y : BitVec 8) : (x ++ y).setWidth 8 = y := BitVec.setWidth_append_eq_right
  exact low color (cell.setWidth 8)

def firstPage (t : Term) : Page (BitVec 8) := ⟨t.row, t.col, fun i j => character (t.content i j)⟩

/-- The cursor and the place behind a full line can be counted. -/
structure CursorFits (t : Term) : Prop where
  lower : -2 ^ 31 ≤ t.row
  upper : t.row < 2 ^ 31
  next : t.win.width ≤ t.col → t.row + 1 < 2 ^ 31
  left : -2 ^ 31 ≤ t.col

/-- A terminal has come from its start to a page. The cursor tells how many rows are above the window. -/
structure GrewFirst (start t : Term) (page : Page (BitVec 8)) : Prop where
  atMost : t.row ≤ page.row
  -- a row is discarded only when the window has all rows of the buffer
  full : t.row < page.row → t.Covers
  -- the window shows the rows of the page in order
  inOrder : ∀ i j, t.IsInBounds i j → character (t.cell i j) = page.cells (i + (page.row - t.row)) j
  -- and no row below it has been written
  inWindow : ∀ i j, t.win.height + (page.row - t.row) ≤ i → page.cells i j = start.firstPage.cells i j

/-- After every part of the text, the window has lost no row that it could have kept. -/
def GrowsFirst (stray : StrayStore) (t : Term) (text : List (BitVec 8)) : Prop :=
  ∀ before after, before ++ after = text → ∃ t', t.termWrite stray before = some t' ∧
    GrewFirst t t' (Page.write (paper character t) t.parser t.firstPage before)

theorem shows_firstPage (inside : t.Inside) (fits : t.CursorFits) : Shows character t 0 t.firstPage where
  inside
  nonneg := le_rfl
  row := (add_zero t.row).symm
  col := rfl
  cells i j _ _ _ := by rw [add_zero]; rfl
  started := fun positive => absurd positive (lt_irrefl 0)
  lower := fits.lower
  upper := fits.upper
  next := fits.next
  left := fits.left

theorem grewFirst_of_progress {page : Page (BitVec 8)} (grows : t.overflow = .grow)
    (progress : Progress character t.firstPage page t t' 0 d) : GrewFirst t t' page := by
  have row := progress.shows.row
  have nonneg := progress.shows.nonneg
  have discarded : page.row - t'.row = d := by omega
  refine ⟨by omega, ?_, ?_, ?_⟩
  · intro less
    refine (progress.discards (by omega)).resolve_left fun scrolls => ?_
    rw [progress.steady.overflow, grows] at scrolls
    cases scrolls
  · rintro i j ⟨⟨upper, lower⟩, first, last⟩
    rw [discarded, progress.shows.cells i j upper first last, content_of_lt lower]
  · rw [discarded]
    exact progress.below

/-- In a run of harmless bytes, a window that grows discards a row only when it has all rows of the buffer. -/
theorem growsFirst_of_harmless (stray : StrayStore) {t : Term} (inside : t.Inside) (grows : t.overflow = .grow)
    (fits : t.CursorFits) {text : List (BitVec 8)} (noBackspace : 0x08#8 ∉ text)
    (harmless : t.parser.HarmlessText text) : GrowsFirst stray t text := by
  rintro before after rfl
  rw [mem_append, not_or] at noBackspace
  obtain ⟨t', d, written, progress⟩ := (shows_firstPage inside fits).termWrite stray (by rw [grows]; decide)
    (.inl blind_character) harmless.of_append noBackspace.1
  exact ⟨t', written, grewFirst_of_progress grows progress⟩

def lowerRows : Term := { vga with win := ⟨23, 2, 0, 80⟩, overflow := .grow }

/-- Six lines in a window of two rows that can grow. -/
theorem growsFirst_lines :
    GrowsFirst (fun _ _ _ => none) lowerRows
      [0x41#8, 0x0a#8, 0x42#8, 0x0a#8, 0x43#8, 0x0a#8, 0x44#8, 0x0a#8, 0x45#8, 0x0a#8, 0x46#8] :=
  growsFirst_of_harmless _ (by constructor <;> decide) rfl (by constructor <;> decide) (by decide)
    (Parser.harmlessText_of_ready rfl (by decide) fun _ => by decide)

/-- A window of one cell in the second row of the screen that has just been cleared. -/
def clearedCell : Term :=
  { vga with win := ⟨1, 1, 0, 1⟩, overflow := .grow, parser := { cmd := ansiEd, csiParam := fun _ => 2 } }

/-- Once the screen has been cleared, the byte `0xfe` clears it again, together with the text. -/
theorem byte_clears_text :
    clearedCell.Inside ∧ clearedCell.overflow = .grow ∧ clearedCell.CursorFits ∧ clearedCell.parser.state = .ready ∧
      ¬GrowsFirst (fun _ _ _ => none) clearedCell [0x41#8, 0xfe#8] ∧
      ∃ u, clearedCell.termWrite (fun _ _ _ => none) [0x41#8, 0xfe#8] = some u ∧ u.row = 0 ∧ u.win.startRow = 1 ∧
        character (u.cell 0 0) = 0#8 := by
  have run : (clearedCell.termWrite (fun _ _ _ => none) [0x41#8, 0xfe#8]).map
      (fun u => (u.row, u.win.startRow, u.win.height, u.win.width, character (u.cell 0 0))) =
        some (0, 1, 1, 1, 0#8) := by
    decide
  obtain ⟨u, written, seen⟩ := Option.map_eq_some_iff.1 run
  simp only [Prod.mk.injEq] at seen
  obtain ⟨row, startRow, height, width, erased⟩ := seen
  refine ⟨by constructor <;> decide, rfl, by constructor <;> decide, rfl, ?_, u, written, row, startRow, erased⟩
  intro grows
  obtain ⟨u', written', grew⟩ := grows [0x41#8, 0xfe#8] [] rfl
  obtain rfl : u = u' := Option.some.inj (written.symm.trans written')
  have cell := grew.inOrder 0 0 ⟨⟨le_rfl, by omega⟩, le_rfl, by omega⟩
  rw [erased, row] at cell
  exact absurd cell (by decide)

end Term

end MicroOs.Terminal
