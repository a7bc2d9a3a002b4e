import MicroOs.Terminal.Recovery

/-! # A page without a lower end

The rows that a text fills are those of a page that never ends: a character goes to the next cell, a line that is full
goes on in the next row, and no row is ever lost. A terminal that scrolls or grows shows a part of this page. The rows
above its window are those it has discarded, and what is below comes up when the window scrolls or grows: blanks, or
the rows of the buffer that the window has not reached.

`Term.Shows` relates a terminal to the page by the number of discarded rows. Every operation on text moves both
together.
-/

namespace MicroOs.Terminal

variable {ch : ℤ}

/-- Cells by row and column, and the place of the cursor. -/
structure Page (α : Type*) where
  row : ℤ
  col : ℤ
  cells : ℤ → ℤ → α

/-- How text is put on a page: the columns, whether the cursor is shown, and how a character looks. -/
structure Paper (α : Type*) where
  width : ℤ
  shown : Bool
  print : ℤ → α

namespace Page

variable {α : Type*} (paper : Paper α) (page : Page α)

def settle : Page α := if paper.width ≤ page.col then { page with row := page.row + 1, col := 0 } else page

def put (ch : ℤ) : Page α :=
  if ch = 0x0a then { page with row := page.row + 1, col := 0 }
  else if ch = 0x0d then { page with col := 0 }
  else
    { page with
      col := page.col + 1
      cells := fun i j => if i = page.row ∧ j = page.col then paper.print ch else page.cells i j }

theorem settle_cells : (page.settle paper).cells = page.cells := by
  unfold settle
  split_ifs <;> rfl

theorem put_cells_of_ne {i : ℤ} (elsewhere : i ≠ page.row) (j : ℤ) :
    (page.put paper ch).cells i j = page.cells i j := by
  unfold put
  split_ifs
  · rfl
  · rfl
  · exact if_neg fun here => elsewhere here.1

theorem put_row_le (ch : ℤ) : (page.put paper ch).row ≤ page.row + 1 := by
  unfold put
  split_ifs
  · exact le_rfl
  all_goals exact (lt_add_one page.row).le

/-- A cursor that is shown leaves a full line at once. -/
def character (ch : ℤ) : Page α :=
  let page := (page.settle paper).put paper ch
  if paper.shown then page.settle paper else page

/-- What an answer of the parser puts on the page: a character, or nothing. -/
def answer (ch : ℤ) : Page α :=
  if ch = -apsEscape ∨ ch = -apsInvalid ∨ ch = -apsUnimplemented ∨ ch = -apsFinal then page
  else page.character paper ch

end Page

/-- Bytes put on a page. -/
def Page.write {α : Type*} (paper : Paper α) : Parser → Page α → List (BitVec 8) → Page α
  | _, page, [] => page
  | p, page, byte :: rest =>
    let (p, ch) := p.ansiParsePutc byte.toInt
    Page.write paper p (page.answer paper ch) rest

theorem Parser.answer_ne_backspace (p : Parser) (noBackspace : ch ≠ 0x08) : (p.ansiParsePutc ch).2 ≠ 0x08 := by
  have ended (q : Parser) : (q.intermediate ch).2 ≠ 0x08 := by
    unfold Parser.intermediate
    split_ifs <;> simp [apsEscape, apsFinal, apsInvalid]
  unfold Parser.ansiParsePutc
  split
  · split_ifs
    · simp [apsEscape]
    · exact noBackspace
  · split_ifs <;> simp [apsEscape, apsUnimplemented]
  · split_ifs
    · simp [apsEscape]
    · exact ended _
  · exact ended _

namespace Term

variable {α : Type*} {t t' : Term} {d i j : ℤ} {page : Page α} {view : BitVec 16 → α}

/-- What stands in a row of the window, or will stand there when the window has come down to it. A window grows into
the rows above it first, which leaves blanks below. -/
def content (t : Term) (i j : ℤ) : BitVec 16 :=
  if i < t.win.height then t.cell i j
  else if t.overflow = .grow ∧ t.win.startRow + t.win.height ≤ i ∧ i < t.buf.rows then t.cell (i - t.win.startRow) j
  else blank

/-- The window has all rows of the buffer. -/
structure Covers (t : Term) : Prop where
  top : t.win.startRow = 0
  height : t.win.height = t.buf.rows

theorem content_of_lt (inWindow : i < t.win.height) : t.content i j = t.cell i j := if_pos inWindow

theorem content_below (full : t.overflow = .scroll ∨ t.Covers) (below : t.win.height ≤ i) : t.content i j = blank := by
  rw [content, if_neg (by omega), if_neg]
  rintro ⟨grows, lower, upper⟩
  rcases full with scrolls | covers
  · rw [scrolls] at grows
    exact absurd grows (by decide)
  · have := covers.height
    omega

theorem content_grow (grows : t.overflow = .grow) (below : t.win.height ≤ i) :
    t.content i j = if t.win.startRow + t.win.height ≤ i ∧ i < t.buf.rows then t.cell (i - t.win.startRow) j
      else blank := by
  simp [content, below.not_gt, grows]

theorem Inside.inBuffer_below (inside : t.Inside) (lower : 0 ≤ t.win.startRow + i)
    (upper : t.win.startRow + i < t.buf.rows) (first : 0 ≤ j) (last : j < t.win.width) : t.InBuffer i j := by
  obtain ⟨top, bottom, left, right, height, width⟩ := inside
  exact ⟨lower, upper, by omega, by omega⟩

theorem content_paints (painted : Paints t t') (inside : t.Inside) (first : 0 ≤ j) (last : j < t.win.width)
    (below : t.win.height ≤ i) : t'.content i j = t.content i j := by
  have steady := Steady.of_paints painted
  simp only [content, painted.win, steady.overflow, steady.buf, below.not_gt, if_false]
  split_ifs with grows
  · have height := inside.height
    refine painted.cell_outside inside (inside.inBuffer_below (by omega) (by omega) first last) ?_
    rintro ⟨⟨-, inWindow⟩, -⟩
    omega
  · rfl

theorem content_scroll (inside : t.Inside) (full : t.overflow = .scroll ∨ t.Covers) {k : ℤ} (positive : 0 < k)
    (upper : 0 ≤ i) (first : 0 ≤ j) (last : j < t.win.width) : (t.scroll k).content i j = t.content (i + k) j := by
  obtain ⟨cells, same⟩ := scroll_eq (t := t) positive
  have window : (t.scroll k).win = t.win := by rw [same]
  have full' : (t.scroll k).overflow = .scroll ∨ (t.scroll k).Covers := by
    rcases full with scrolls | covers
    · exact .inl ((Steady.scroll t k).overflow.trans scrolls)
    · refine .inr ⟨?_, ?_⟩
      · rw [window, covers.top]
      · rw [window, covers.height, (Steady.scroll t k).buf]
  rcases lt_or_ge i t.win.height with inWindow | below
  · rw [content_of_lt (by rwa [window]), cell_scroll inside ⟨⟨upper, inWindow⟩, first, last⟩ positive]
    split_ifs with more
    · rw [content_of_lt more]
    · rw [content_below full (by omega)]
  · rw [content_below full' (by rwa [window]), content_below full (by omega)]

theorem content_growTop (inside : t.Inside) (grows : t.overflow = .grow) (below : t.win.startRow ≠ 0) (upper : 0 ≤ i)
    (first : 0 ≤ j) (last : j < t.win.width) : t.growTop.content i j = t.content i j := by
  obtain ⟨top, bottom, left, right, height, width⟩ := id inside
  rw [inside.growTop_eq below]
  generalize moved : ({ t with
    win := { t.win with startRow := t.win.startRow - 1, height := t.win.height + 1 }
    row := wrap (t.row + 1) } : Term) = u
  have inside' : u.Inside := by
    rw [← moved]
    exact ⟨by dsimp only; omega, by dsimp only; omega, left, right, by dsimp only; omega, width⟩
  have shifted (r : ℤ) : u.cell (r + 1) j = t.cell r j := by
    rw [← moved]
    simp only [cell, termPtr]
    rw [show t.win.startRow - 1 + (r + 1) = t.win.startRow + r by omega]
  obtain ⟨cells, same⟩ := scroll_eq (t := u) (show (0 : ℤ) < 1 by decide)
  have window : u.win.height = t.win.height + 1 ∧ u.win.startRow = t.win.startRow - 1 ∧ u.win.width = t.win.width ∧
      u.buf = t.buf := by
    rw [← moved]
    exact ⟨rfl, rfl, rfl, rfl⟩
  have window' : (u.scroll 1).win.height = t.win.height + 1 ∧ (u.scroll 1).win.startRow = t.win.startRow - 1 ∧
      (u.scroll 1).overflow = .grow ∧ (u.scroll 1).buf = t.buf := by
    rw [same, ← moved]
    exact ⟨rfl, rfl, grows, rfl⟩
  rcases lt_or_ge i (t.win.height + 1) with inWindow | outside
  · rw [content_of_lt (by omega), cell_scroll inside' ⟨⟨upper, by omega⟩, first, by omega⟩ (by decide), shifted]
    rcases lt_or_ge i t.win.height with old | new
    · rw [if_pos (by omega), content_of_lt old]
    · rw [if_neg (by omega), content_grow grows new, if_neg (by omega)]
  · have place : i - (t.win.startRow - 1) = i - t.win.startRow + 1 := by omega
    rw [content_grow window'.2.2.1 (by omega), content_grow grows (by omega), window'.2.1, window'.2.2.2,
      place]
    refine if_ctx_congr (by omega) (fun inBuffer => ?_) fun _ => rfl
    rw [cell_scroll_outside inside' ?_ ?_ (by decide), shifted]
    · refine inside'.inBuffer_below (by omega) ?_ first (by omega)
      rw [window.2.2.2]
      omega
    · rintro ⟨⟨-, inWindow⟩, -⟩
      omega

theorem content_growBottom (inside : t.Inside) (grows : t.overflow = .grow) (topmost : t.win.startRow = 0)
    (room : t.win.height < wrap t.buf.rows) : t.growBottom.content i j = t.content i j := by
  have rows := inside.rows_lt
  have height := inside.height
  rw [wrap_of_int (by omega) rows] at room
  have taller : wrap (t.win.height + 1) = t.win.height + 1 := wrap_of_int (by omega) (by omega)
  have same : t.growBottom.cell i j = t.cell i j := rfl
  have window : t.growBottom.win.height = t.win.height + 1 := taller
  have start : t.growBottom.win.startRow = t.win.startRow := rfl
  rcases lt_or_ge i t.win.height with old | below
  · rw [content_of_lt (by omega), content_of_lt old, same]
  · rw [content_grow grows below]
    rcases lt_or_ge i (t.win.height + 1) with new | below'
    · rw [content_of_lt (by omega), if_pos (by omega), same, topmost, sub_zero]
    · have grows' : t.growBottom.overflow = .grow := grows
      rw [content_grow grows' (by omega), start]
      refine if_congr ?_ rfl rfl
      change _ ∧ i < (t.buf.rows : ℤ) ↔ _
      omega

/-- The terminal shows the page below its first `d` rows. -/
structure Shows (view : BitVec 16 → α) (t : Term) (d : ℤ) (page : Page α) : Prop where
  inside : t.Inside
  nonneg : 0 ≤ d
  row : page.row = t.row + d
  col : page.col = t.col
  cells : ∀ i j, 0 ≤ i → 0 ≤ j → j < t.win.width → page.cells (i + d) j = view (t.content i j)
  -- the cursor has been in the last row when a row was discarded
  started : 0 < d → 0 ≤ t.row
  -- the cursor and the row behind it are of type `int`
  lower : -2 ^ 31 ≤ t.row
  upper : t.row < 2 ^ 31
  next : t.win.width ≤ t.col → t.row + 1 < 2 ^ 31
  left : -2 ^ 31 ≤ t.col

def paper (view : BitVec 16 → α) (t : Term) : Paper α where
  width := t.win.width
  shown := t.showCursor
  print := fun ch => view (colorchar t.color ch)

theorem SameSetup.paper_eq (steady : SameSetup t t') : paper view t' = paper view t := by
  simp [paper, steady.width, steady.showCursor, steady.color]

namespace Shows

section

variable (shows : Shows view t d page)
include shows

theorem of_cells {cells : BitVec 32 → BitVec 16} {visible : Bool} {parser : Parser}
    (same : ∀ i j, 0 ≤ i → 0 ≤ j → j < t.win.width →
      view (({ t with cells, cursorVisible := visible, parser } : Term).content i j) = view (t.content i j)) :
    Shows view { t with cells, cursorVisible := visible, parser } d page := by
  obtain ⟨top, bottom, left, right, height, width⟩ := shows.inside
  exact { shows with
    inside := ⟨top, bottom, left, right, height, width⟩
    cells := fun i j upper first last => (shows.cells i j upper first last).trans (same i j upper first last).symm }

theorem wrapLine : Shows view t.wrapLine d (page.settle (paper view t)) := by
  unfold Term.wrapLine Page.settle
  have column : (paper view t).width ≤ page.col ↔ t.win.width ≤ t.col := by
    rw [shows.col]
    rfl
  simp only [column]
  split_ifs with full
  · have next := shows.next full
    have lower := shows.lower
    have row := shows.row
    have width := shows.inside.width
    have down : wrap (t.row + 1) = t.row + 1 := wrap_of_int (by omega) (by omega)
    obtain ⟨top, bottom, left, right, height, width⟩ := shows.inside
    simp only [termSetpos, down]
    exact {
      inside := ⟨top, bottom, left, right, height, width⟩
      nonneg := shows.nonneg
      row := by dsimp only; omega
      col := rfl
      cells := shows.cells
      started := fun positive => by have := shows.started positive; dsimp only; omega
      lower := by dsimp only; omega
      upper := next
      next := fun full => by dsimp only at full; omega
      left := by dsimp only; omega }
  · exact shows

theorem scroll (full : t.overflow = .scroll ∨ t.Covers) {k : ℤ} (positive : 0 < k)
    (room : k ≤ t.row) (column : t.col < t.win.width) : Shows view (t.scroll k) (d + k) page := by
  have moved (i j : ℤ) (upper : 0 ≤ i) (first : 0 ≤ j) (last : j < t.win.width) :
      (t.scroll k).content i j = t.content (i + k) j :=
    content_scroll shows.inside full positive upper first last
  obtain ⟨cells, same⟩ := scroll_eq (t := t) positive
  have inside : (t.scroll k).Inside := (keeps_scroll shows.inside positive).inside
  have row := shows.row
  have nonneg := shows.nonneg
  have upper := shows.upper
  have up : wrap (t.row - k) = t.row - k := wrap_of_int (by omega) (by omega)
  rw [same] at inside moved ⊢
  exact {
    inside
    nonneg := by omega
    row := by dsimp only; omega
    col := shows.col
    cells := by
      intro i j upper first last
      have shown := shows.cells (i + k) j (by omega) first last
      rw [moved i j upper first last, ← shown, show i + (d + k) = i + k + d by omega]
    started := fun _ => by dsimp only; omega
    lower := by dsimp only; omega
    upper := by dsimp only; omega
    next := fun full => absurd full column.not_ge
    left := shows.left }

theorem growTop (grows : t.overflow = .grow) (below : t.win.startRow ≠ 0) :
    Shows view t.growTop d page ∧ t.growTop.row = t.row ∧ t.growTop.col = t.col ∧
      t.growTop.win.height = t.win.height + 1 := by
  have moved (i j : ℤ) (upper : 0 ≤ i) (first : 0 ≤ j) (last : j < t.win.width) :
      t.growTop.content i j = t.content i j :=
    content_growTop shows.inside grows below upper first last
  have inside := (keeps_growTop shows.inside below).inside
  have rows := shows.inside.rows_lt
  obtain ⟨top, bottom, left, right, height, width⟩ := shows.inside
  have taller : wrap (t.win.height + 1) = t.win.height + 1 := wrap_of_int (by omega) (by omega)
  have row : wrap (wrap (t.row + 1) - 1) = t.row := by
    have back : wrap (wrap (t.row + 1) - 1) = wrap t.row := by
      unfold wrap
      rw [Int.bmod_sub_bmod, show t.row + 1 - 1 = t.row by omega]
    rw [back, wrap_of_int shows.lower shows.upper]
  obtain ⟨cells, same⟩ := scroll_eq (t := { t with
    win := { t.win with startRow := wrap (t.win.startRow - 1), height := wrap (t.win.height + 1) }
    row := wrap (t.row + 1) }) (show (0 : ℤ) < 1 by decide)
  have grown : t.growTop = { t with
      win := { t.win with startRow := wrap (t.win.startRow - 1), height := wrap (t.win.height + 1) }
      cells } := by
    rw [Term.growTop, same]
    simp [row]
  rw [grown] at inside moved ⊢
  refine ⟨?_, rfl, rfl, taller⟩
  exact { shows with
    inside
    cells := by
      intro i j upper first last
      rw [moved i j upper first last, shows.cells i j upper first last] }

theorem growBottom (grows : t.overflow = .grow) (topmost : t.win.startRow = 0) (room : t.win.height < wrap t.buf.rows) :
    Shows view t.growBottom d page ∧ t.growBottom.win.height = t.win.height + 1 := by
  have rows := shows.inside.rows_lt
  have height := shows.inside.height
  have small := room
  rw [wrap_of_int (by omega) rows] at small
  refine ⟨?_, wrap_of_int (by omega) (by omega)⟩
  exact { shows with
    inside := (keeps_growBottom shows.inside topmost room).inside
    cells := by
      intro i j upper first last
      rw [content_growBottom shows.inside grows topmost room, shows.cells i j upper first last] }

end

end Shows

/-- So many rows are missing for the row of the cursor, which is in a window that grows. -/
structure Missing (view : BitVec 16 → α) (d : ℤ) (page : Page α) (t : Term) (rowCt : ℤ) : Prop where
  shows : Shows view t d page
  grows : t.overflow = .grow
  column : t.col < t.win.width
  rows : rowCt = t.row - t.win.height + 1
  nonneg : 0 ≤ rowCt

namespace Missing

variable {fuel : ℕ} {rowCt : ℤ}

theorem growUp (missing : Missing view d page t rowCt) (enough : rowCt ≤ fuel) :
    Missing view d page (growUp fuel t rowCt).1 (growUp fuel t rowCt).2 ∧
      t.win.height ≤ (growUp fuel t rowCt).1.win.height ∧
      ((growUp fuel t rowCt).2 = 0 ∨ (growUp fuel t rowCt).1.win.startRow = 0) := by
  have rows := missing.rows
  have nonneg := missing.nonneg
  induction fuel generalizing t rowCt with
  | zero => exact ⟨missing, le_rfl, .inl (by simp only [Term.growUp]; omega)⟩
  | succ fuel ih =>
    simp only [Term.growUp]
    split_ifs with more
    · obtain ⟨shows, row, col, height⟩ := missing.shows.growTop missing.grows more.2
      have steady := Steady.growTop t
      have column := missing.column
      have next : Missing view d page t.growTop (rowCt - 1) := {
        shows
        grows := steady.overflow.trans missing.grows
        column := by rwa [col, steady.width]
        rows := by omega
        nonneg := by omega }
      obtain ⟨missing', taller, topmost⟩ := ih next (by omega) next.rows next.nonneg
      exact ⟨missing', by omega, topmost⟩
    · refine ⟨missing, le_rfl, ?_⟩
      by_contra neither
      push Not at neither
      exact more neither

theorem growDown (missing : Missing view d page t rowCt) (topmost : rowCt = 0 ∨ t.win.startRow = 0)
    (enough : rowCt ≤ fuel) :
    Missing view d page (growDown fuel t rowCt).1 (growDown fuel t rowCt).2 ∧
      t.win.height ≤ (growDown fuel t rowCt).1.win.height ∧
      ((growDown fuel t rowCt).2 = 0 ∨ (growDown fuel t rowCt).1.Covers) := by
  have rows := missing.rows
  have nonneg := missing.nonneg
  induction fuel generalizing t rowCt with
  | zero => exact ⟨missing, le_rfl, .inl (by simp only [Term.growDown]; omega)⟩
  | succ fuel ih =>
    simp only [Term.growDown]
    split_ifs with more
    · have top := topmost.resolve_left more.1
      obtain ⟨shows, height⟩ := missing.shows.growBottom missing.grows top more.2
      have same : t.growBottom.row = t.row := rfl
      have next : Missing view d page t.growBottom (rowCt - 1) := {
        shows
        grows := missing.grows
        column := missing.column
        rows := by omega
        nonneg := by omega }
      obtain ⟨missing', taller, covers⟩ := ih next (.inr top) (by omega) next.rows next.nonneg
      exact ⟨missing', by omega, covers⟩
    · refine ⟨missing, le_rfl, ?_⟩
      by_cases none : rowCt = 0
      · exact .inl none
      · have top := topmost.resolve_left none
        have bottom := missing.shows.inside.bottom
        have small := missing.shows.inside.rows_lt
        rw [wrap_of_int (by omega) small] at more
        have last : t.win.height = t.buf.rows := by omega
        exact .inr ⟨top, last⟩

end Missing

/-- What moving the cursor into bounds does: only a window that scrolls or has all rows discards rows, with the
cursor in the last one. -/
structure Moves (view : BitVec 16 → α) (page : Page α) (t t' : Term) (d d' : ℤ) : Prop where
  shows : Shows view t' d' page
  steady : Steady t t'
  inRows : t'.row < t'.win.height
  inCols : t'.col < t'.win.width
  taller : t.win.height ≤ t'.win.height
  more : d ≤ d'
  discards : d < d' → (t'.overflow = .scroll ∨ t'.Covers) ∧ t'.row = t'.win.height - 1

namespace Shows

section

variable (shows : Shows view t d page)
include shows

theorem grow (grows : t.overflow = .grow) (column : t.col < t.win.width)
    (overflows : t.win.height ≤ t.row) : ∃ d', Moves view page t (t.grow (t.row - t.win.height + 1)) d d' := by
  have start : Missing view d page t (t.row - t.win.height + 1) := ⟨shows, grows, column, rfl, by omega⟩
  obtain ⟨up, taller, topmost⟩ := start.growUp (Int.self_le_toNat _)
  obtain ⟨down, taller', covers⟩ := up.growDown topmost (Int.self_le_toNat _)
  have steady := Steady.grow t (t.row - t.win.height + 1)
  simp only [Term.grow] at steady ⊢
  generalize Term.growDown _ _ _ = grown at down taller' covers steady ⊢
  have rows := down.rows
  have nonneg := down.nonneg
  have height := down.shows.inside.height
  split_ifs at steady ⊢ with some
  · have full := covers.resolve_left some
    have shows' : Shows view (grown.1.scroll grown.2) (d + grown.2) page :=
      down.shows.scroll (.inr full) (by omega) (by omega) down.column
    obtain ⟨cells, same⟩ := scroll_eq (t := grown.1) (show 0 < grown.2 by omega)
    have upper := down.shows.upper
    have last : wrap (grown.1.row - grown.2) = grown.1.win.height - 1 := by
      rw [wrap_of_int (by omega) (by omega)]
      omega
    rw [last] at same
    refine ⟨d + grown.2, ?_⟩
    rw [same] at shows' steady ⊢
    exact {
      shows := shows'
      steady
      inRows := by dsimp only; omega
      inCols := down.column
      taller := by dsimp only; omega
      more := by omega
      discards := fun _ => ⟨.inr ⟨full.top, full.height⟩, rfl⟩ }
  · exact ⟨d, down.shows, steady, by omega, down.column, by omega, le_rfl, fun more => absurd more (lt_irrefl d)⟩

theorem scrollUp (scrolls : t.overflow = .scroll) (column : t.col < t.win.width) (overflows : t.win.height ≤ t.row) :
    Moves view page t (t.scroll (t.row - t.win.height + 1)) d (d + (t.row - t.win.height + 1)) := by
  have height := shows.inside.height
  have upper := shows.upper
  have shows' : Shows view (t.scroll (t.row - t.win.height + 1)) (d + (t.row - t.win.height + 1)) page :=
    shows.scroll (.inl scrolls) (by omega) (by omega) column
  have steady := Steady.scroll t (t.row - t.win.height + 1)
  obtain ⟨cells, same⟩ := scroll_eq (t := t) (show 0 < t.row - t.win.height + 1 by omega)
  have last : wrap (t.row - (t.row - t.win.height + 1)) = t.win.height - 1 := by
    rw [wrap_of_int (by omega) (by omega)]
    omega
  rw [last] at same
  rw [same] at shows' steady ⊢
  exact {
    shows := shows'
    steady
    inRows := by dsimp only; omega
    inCols := column
    taller := le_rfl
    more := by omega
    discards := fun _ => ⟨.inl scrolls, rfl⟩ }

theorem handleOverflow (wraps : t.overflow ≠ .clip) (column : t.col < t.win.width)
    (overflows : t.win.height ≤ t.row) : ∃ d', Moves view page t t.handleOverflow d d' := by
  have height := shows.inside.height
  have upper := shows.upper
  have missing : wrap (wrap (t.row - t.win.height) + 1) = t.row - t.win.height + 1 := by
    rw [wrap_of_int (x := t.row - t.win.height) (by omega) (by omega), wrap_of_int (by omega) (by omega)]
  simp only [Term.handleOverflow, missing]
  rw [if_neg (by omega)]
  cases overflow : t.overflow with
  | clip => exact absurd overflow wraps
  | scroll => exact ⟨_, shows.scrollUp overflow column overflows⟩
  | grow => exact shows.grow overflow column overflows

theorem moveCursorIntoBounds (wraps : t.overflow ≠ .clip) :
    ∃ d', Moves view (page.settle (paper view t)) t t.moveCursorIntoBounds d d' ∧
      (t.wrapLine.row < t.win.height → d' = d) := by
  have line := shows.wrapLine
  have steady := Steady.wrapLine t
  have window : t.wrapLine.win = t.win := by
    unfold Term.wrapLine
    split_ifs <;> rfl
  have column : t.wrapLine.col < t.wrapLine.win.width := by
    have width := shows.inside.width
    unfold Term.wrapLine
    split_ifs with full
    · change (0 : ℤ) < t.win.width
      omega
    · exact not_le.1 full
  unfold Term.moveCursorIntoBounds
  rw [if_neg wraps]
  split_ifs with overflows
  · obtain ⟨d', moves⟩ := line.handleOverflow (by rwa [steady.overflow]) column overflows
    refine ⟨d', ⟨moves.shows, steady.trans moves.steady, moves.inRows, moves.inCols, ?_, moves.more, moves.discards⟩,
      ?_⟩
    · rw [← window]
      exact moves.taller
    · rw [window] at overflows
      exact fun fits => absurd fits overflows.not_gt
  · refine ⟨d, ⟨line, steady, not_le.1 overflows, column, ?_, le_rfl, fun more => absurd more (lt_irrefl d)⟩,
      fun _ => rfl⟩
    rw [window]

end

end Shows

namespace Shows

/-- A character that is not a backspace, with the cursor in bounds. -/
theorem putCharacter (shows : Shows view t d page) (inRows : t.row < t.win.height) (inCols : t.col < t.win.width)
    (noBackspace : ch ≠ 0x08) : Shows view (t.putCharacter ch) d (page.put (paper view t) ch) := by
  have rows := shows.inside.rows_lt
  have cols := shows.inside.size_lt.2
  obtain ⟨inside, nonneg, row, col, cells, started, lower, upper, next, left⟩ := id shows
  have ⟨top, bottom, leftmost, right, height, width⟩ := inside
  have down : wrap (t.row + 1) = t.row + 1 := wrap_of_int (by omega) (by omega)
  have onwards : wrap (t.col + 1) = t.col + 1 := wrap_of_int (by omega) (by omega)
  unfold Term.putCharacter Page.put
  split_ifs with newline back
  · exact {
      inside := ⟨top, bottom, leftmost, right, height, width⟩
      nonneg
      row := by simp only [termSetpos]; omega
      col := rfl
      cells
      started := fun positive => by have := started positive; simp only [termSetpos]; omega
      lower := by simp only [termSetpos]; omega
      upper := by simp only [termSetpos]; omega
      next := fun full => by simp only [termSetpos] at full; omega
      left := by simp only [termSetpos]; omega }
  · exact {
      inside := ⟨top, bottom, leftmost, right, height, width⟩
      nonneg
      row
      col := rfl
      cells
      started
      lower
      upper
      next := fun full => by simp only [termSetpos] at full; omega
      left := by simp only [termSetpos]; omega }
  · have painted := paints_setc t t.row t.col t.color ch
    have drawn (i j : ℤ) (upper : 0 ≤ i) (first : 0 ≤ j) (last : j < t.win.width) :
        (t.setc t.row t.col t.color ch).content i j =
          if i = t.row ∧ j = t.col then colorchar t.color ch else t.content i j := by
      rcases lt_or_ge i t.win.height with inWindow | below
      · rw [content_of_lt (by rwa [painted.win]), content_of_lt inWindow,
          cell_setc inside ⟨⟨upper, inWindow⟩, first, last⟩]
      · rw [content_paints painted inside first last below, if_neg (by omega)]
    obtain ⟨cells', same⟩ := painted.same
    rw [same] at drawn ⊢
    exact {
      inside := ⟨top, bottom, leftmost, right, height, width⟩
      nonneg
      row
      col := by dsimp only; omega
      cells := by
        intro i j upper first last
        have content := drawn i j upper first last
        change (if i + d = page.row ∧ j = page.col then view (colorchar t.color ch) else page.cells (i + d) j) = _
        refine Eq.trans ?_ (congrArg view content).symm
        rw [cells i j upper first last, col, apply_ite view]
        refine if_congr (by omega) rfl rfl
      started
      lower
      upper
      next := fun full => by dsimp only; omega
      left := by dsimp only; omega }

end Shows

/-- What is seen of a cell does not depend on its colour. -/
def Blind (view : BitVec 16 → α) : Prop :=
  ∀ (color : BitVec 8) (cell : BitVec 16), view (color ++ cell.setWidth 8) = view cell

/-- The cursor is neither on the screen nor going to be. -/
structure Hidden (t : Term) : Prop where
  shown : t.showCursor = false
  visible : t.cursorVisible = false

namespace Shows

theorem setcolor (shows : Shows view t d page) (blind : Blind view) (row col : ℤ) (color : BitVec 8) (visible : Bool) :
    Shows view { t.setcolor row col color with cursorVisible := visible } d page := by
  have inside := shows.inside
  have painted := paints_setcolor t row col color
  have drawn (i j : ℤ) (upper : 0 ≤ i) (first : 0 ≤ j) (last : j < t.win.width) :
      view ((t.setcolor row col color).content i j) = view (t.content i j) := by
    rcases lt_or_ge i t.win.height with inWindow | below
    · rw [content_of_lt (by rwa [painted.win]), content_of_lt inWindow,
        cell_setcolor inside ⟨⟨upper, inWindow⟩, first, last⟩]
      split_ifs
      · exact blind ..
      · rfl
    · rw [content_paints painted inside first last below]
  obtain ⟨cells, same⟩ := painted.same
  rw [same] at drawn ⊢
  exact shows.of_cells drawn

theorem clearCursor (shows : Shows view t d page) (unseen : Blind view ∨ t.Hidden) :
    Shows view t.clearCursor d page := by
  unfold Term.clearCursor
  split_ifs with visible
  · rcases unseen with blind | hidden
    · exact shows.setcolor blind ..
    · rw [hidden.visible] at visible
      exact absurd visible (by decide)
  · exact shows

end Shows

/-- The terminal has come from one part of a page to another. Rows are discarded only from a window that scrolls or
has all rows, and the page is written on only where the window has been. -/
structure Progress (view : BitVec 16 → α) (page page' : Page α) (t t' : Term) (d d' : ℤ) : Prop where
  shows : Shows view t' d' page'
  steady : SameSetup t t'
  taller : t.win.height ≤ t'.win.height
  more : d ≤ d'
  discards : d < d' → t'.overflow = .scroll ∨ t'.Covers
  below : ∀ i j, t'.win.height + d' ≤ i → page'.cells i j = page.cells i j

theorem Covers.mono (covers : t.Covers) (buf : t'.buf = t.buf) (inside : t'.Inside)
    (taller : t.win.height ≤ t'.win.height) : t'.Covers := by
  obtain ⟨top, bottom, -⟩ := inside
  rw [buf] at bottom
  have height := covers.height
  refine ⟨by omega, ?_⟩
  rw [buf]
  omega

theorem SameSetup.unseen (steady : SameSetup t t') (unseen : Blind view ∨ t.Hidden) : Blind view ∨ t'.Hidden :=
  unseen.imp_right fun hidden =>
    ⟨steady.showCursor.trans hidden.shown, steady.hidden hidden.shown hidden.visible⟩

namespace Progress

variable {page' page'' : Page α} {t'' : Term} {d' d'' : ℤ}

theorem refl (shows : Shows view t d page) : Progress view page page t t d d :=
  ⟨shows, (Steady.refl t).toSameSetup, le_rfl, le_rfl, fun more => absurd more (lt_irrefl d), fun _ _ _ => rfl⟩

theorem trans (first : Progress view page page' t t' d d') (second : Progress view page' page'' t' t'' d' d'') :
    Progress view page page'' t t'' d d'' where
  shows := second.shows
  steady := first.steady.trans second.steady
  taller := first.taller.trans second.taller
  more := first.more.trans second.more
  discards := by
    intro more
    rcases lt_or_ge d' d'' with last | none
    · exact second.discards last
    · have early : d < d' := more.trans_le none
      rcases first.discards early with scrolls | covers
      · exact .inl (second.steady.overflow.trans scrolls)
      · exact .inr (covers.mono second.steady.buf second.shows.inside second.taller)
  below := by
    intro i j lower
    have taller := second.taller
    have more := second.more
    exact (second.below i j lower).trans (first.below i j (by omega))

theorem of_moves {paper : Paper α} (moves : Moves view (page.settle paper) t t' d d') :
    Progress view page (page.settle paper) t t' d d' where
  shows := moves.shows
  steady := moves.steady.toSameSetup
  taller := moves.taller
  more := moves.more
  discards := fun more => (moves.discards more).1
  below := fun i j _ => by rw [page.settle_cells]

theorem of_shows (shows : Shows view t' d page') (steady : SameSetup t t') (height : t'.win.height = t.win.height)
    (below : ∀ i j, t'.win.height + d ≤ i → page'.cells i j = page.cells i j) : Progress view page page' t t' d d :=
  ⟨shows, steady, height.ge, le_rfl, fun more => absurd more (lt_irrefl d), below⟩

end Progress

theorem putCharacter_height (t : Term) (noBackspace : ch ≠ 0x08) : (t.putCharacter ch).win.height = t.win.height := by
  unfold putCharacter
  split_ifs
  · rfl
  · rfl
  · obtain ⟨cells, same⟩ := (paints_setc t t.row t.col t.color ch).same
    rw [same]

theorem setcolor_height (t : Term) (row col : ℤ) (color : BitVec 8) :
    (t.setcolor row col color).win.height = t.win.height := by
  obtain ⟨cells, same⟩ := (paints_setcolor t row col color).same
  rw [same]

theorem clearCursor_height (t : Term) : t.clearCursor.win.height = t.win.height := by
  unfold clearCursor
  split_ifs
  · exact setcolor_height ..
  · rfl

namespace Shows

theorem writeCursor (shows : Shows view t d page) (wraps : t.overflow ≠ .clip) (unseen : Blind view ∨ t.Hidden) :
    ∃ d', Progress view page (if t.showCursor then page.settle (paper view t) else page) t t.writeCursor d d' := by
  have steady := (Steady.writeCursor t).toSameSetup
  unfold Term.writeCursor at steady ⊢
  split_ifs at steady ⊢ with shown
  · rcases unseen with blind | hidden
    · obtain ⟨d', moves, -⟩ := shows.moveCursorIntoBounds wraps
      refine ⟨d', moves.shows.setcolor blind .., steady, ?_, moves.more, ?_, fun i j _ => by rw [page.settle_cells]⟩
      · rw [setcolor_height]
        exact moves.taller
      · intro more
        obtain ⟨cells, same⟩ := (paints_setcolor t.moveCursorIntoBounds t.moveCursorIntoBounds.row
          t.moveCursorIntoBounds.col (t.moveCursorIntoBounds.cursorColor.setWidth 8)).same
        simp only [same]
        exact (moves.discards more).1.imp_right fun covers => ⟨covers.top, covers.height⟩
    · rw [hidden.shown] at shown
      exact absurd shown (by decide)
  · exact ⟨d, .refl shows⟩

/-- The cursor is moved into bounds, and a character put there. A row is discarded only at the last row of the
window. -/
theorem placeCharacter (shows : Shows view t d page) (wraps : t.overflow ≠ .clip) (noBackspace : ch ≠ 0x08) :
    ∃ d', Progress view page ((page.settle (paper view t)).put (paper view t) ch) t
        (t.moveCursorIntoBounds.putCharacter ch) d d' ∧
      (t.moveCursorIntoBounds.putCharacter ch).row ≤ t.moveCursorIntoBounds.win.height ∧
      (d < d' → (page.settle (paper view t)).row = t.moveCursorIntoBounds.win.height - 1 + d') ∧
      (t.wrapLine.row < t.win.height → d' = d) := by
  obtain ⟨d', moves, still⟩ := shows.moveCursorIntoBounds wraps
  have put := moves.shows.putCharacter moves.inRows moves.inCols noBackspace
  have height := putCharacter_height t.moveCursorIntoBounds noBackspace
  have row := moves.shows.row
  have inRows := moves.inRows
  rw [moves.steady.paper_eq] at put
  refine ⟨d', (Progress.of_moves moves).trans (.of_shows put (Steady.putCharacter ..).toSameSetup height ?_), ?_, ?_,
    still⟩
  · intro i j below
    exact Page.put_cells_of_ne _ _ (by omega) j
  · have down := (page.settle (paper view t)).put_row_le (paper view t) ch
    have row' := put.row
    omega
  · intro more
    rw [row, (moves.discards more).2]

theorem handleCharacter (shows : Shows view t d page) (wraps : t.overflow ≠ .clip) (unseen : Blind view ∨ t.Hidden)
    (noBackspace : ch ≠ 0x08) :
    ∃ d', Progress view page (page.character (paper view t) ch) t (t.handleCharacter ch) d d' := by
  obtain ⟨d', placed, -⟩ := shows.placeCharacter wraps noBackspace
  obtain ⟨d'', drawn⟩ := placed.shows.writeCursor (by rwa [placed.steady.overflow])
    (placed.steady.unseen unseen)
  rw [placed.steady.paper_eq, placed.steady.showCursor] at drawn
  exact ⟨d'', placed.trans drawn⟩

theorem answer (shows : Shows view t d page) (wraps : t.overflow ≠ .clip) (unseen : Blind view ∨ t.Hidden)
    (noBackspace : ch ≠ 0x08) (noCommand : ch = -apsFinal → t.executeAnsiEscape = t) :
    ∃ d', Progress view page (page.answer (paper view t) ch) t (t.answer ch) d d' := by
  unfold Term.answer
  split_ifs with swallowed final
  · rw [Page.answer, if_pos (by tauto)]
    exact ⟨d, .refl shows⟩
  · rw [Page.answer, if_pos (by tauto), noCommand final]
    exact ⟨d, .refl shows⟩
  · rw [Page.answer, if_neg (by tauto)]
    exact shows.handleCharacter wraps unseen noBackspace

theorem parsed (shows : Shows view t d page) (unseen : Blind view ∨ t.Hidden) (parser : Parser) :
    Progress view page page t { t.clearCursor with parser } d d := by
  have cleared := shows.clearCursor unseen
  obtain ⟨⟨buf, startCol, width, overflow, color, showCursor, hidden⟩, -⟩ := Steady.clearCursor t
  have parsed : Shows view { t.clearCursor with parser } d page := cleared.of_cells fun _ _ _ _ _ => rfl
  exact .of_shows parsed ⟨buf, startCol, width, overflow, color, showCursor, hidden⟩ (clearCursor_height t)
    fun _ _ _ => rfl

end Shows

end Term

end MicroOs.Terminal
