import MicroOs.Terminal.Windows

/-! # What the operations leave in a cell

The rows and columns of a window inside the buffer are cells with addresses of their own, and so are the rows of the
buffer above and below the window. Every operation is described here by the cell it leaves at a row and column: one
store, the loops that erase, the loop that copies rows, and the scrolling made of them.
-/

namespace MicroOs.Terminal

open List

namespace Term

variable {t t' t'' : Term} {row col i j : ℤ} {rowCt : ℤ}

/-- The cell at a row and column, counted from the top left corner of the window. -/
def cell (t : Term) (row col : ℤ) : BitVec 16 := t.cells (t.termPtr row col)

def blank : BitVec 16 := colorchar greyOnBlack 0

/-- The row and the column lie in the buffer, inside the window or not. -/
structure InBuffer (t : Term) (row col : ℤ) : Prop where
  top : 0 ≤ t.win.startRow + row
  bottom : t.win.startRow + row < t.buf.rows
  left : 0 ≤ t.win.startCol + col
  right : t.win.startCol + col < t.buf.cols

theorem Inside.inBuffer (inside : t.Inside) (inBounds : t.IsInBounds row col) : t.InBuffer row col := by
  obtain ⟨⟨lower, upper⟩, first, last⟩ := inBounds
  obtain ⟨top, bottom, left, right, height, width⟩ := inside
  exact ⟨by omega, by omega, by omega, by omega⟩

theorem InBuffer.termPtr_eq (inBuffer : t.InBuffer row col) :
    t.termPtr row col = t.buf.address (t.win.startRow + row).toNat (t.win.startCol + col).toNat := by
  obtain ⟨r, rowEq⟩ := Int.eq_ofNat_of_zero_le inBuffer.top
  obtain ⟨c, colEq⟩ := Int.eq_ofNat_of_zero_le inBuffer.left
  rw [termPtr, TermBuf.address, rowEq, BitVec.add_assoc (BitVec.ofInt 32 (r : ℤ) * _), ← BitVec.ofInt_add, colEq,
    BitVec.ofInt_natCast, BitVec.ofInt_natCast, Int.toNat_natCast, Int.toNat_natCast]

theorem InBuffer.termPtr_inj (here : t.InBuffer row col) (there : t.InBuffer i j)
    (same : t.termPtr row col = t.termPtr i j) : row = i ∧ col = j := by
  rw [here.termPtr_eq, there.termPtr_eq] at same
  obtain ⟨top, bottom, left, right⟩ := here
  obtain ⟨top', bottom', left', right'⟩ := there
  obtain ⟨rows, cols⟩ := TermBuf.address_inj (by omega) (by omega) (by omega) (by omega) same
  exact ⟨by omega, by omega⟩

theorem cell_store (here : t.InBuffer row col) (there : t.InBuffer i j) (value : BitVec 16) :
    (t.store (t.termPtr row col) value).cell i j = if i = row ∧ j = col then value else t.cell i j := by
  change Function.update t.cells (t.termPtr row col) value (t.termPtr i j) = _
  split_ifs with same
  · rw [same.1, same.2, Function.update_self]
  · have other : t.termPtr i j ≠ t.termPtr row col := fun equal => same (there.termPtr_inj here equal)
    rw [Function.update_of_ne other]
    rfl

theorem cell_setc (inside : t.Inside) (there : t.IsInBounds i j) (row col : ℤ) (color : BitVec 8) (ch : ℤ) :
    (t.setc row col color ch).cell i j = if i = row ∧ j = col then colorchar color ch else t.cell i j := by
  unfold setc setcc
  by_cases here : t.IsInBounds row col
  · rw [if_pos here, cell_store (inside.inBuffer here) (inside.inBuffer there)]
  · rw [if_neg here, if_neg]
    rintro ⟨rfl, rfl⟩
    exact here there

theorem cell_setcolor (inside : t.Inside) (there : t.IsInBounds i j) (row col : ℤ) (color : BitVec 8) :
    (t.setcolor row col color).cell i j =
      if i = row ∧ j = col then color ++ (t.cell i j).setWidth 8 else t.cell i j := by
  unfold setcolor
  by_cases here : t.IsInBounds row col
  · rw [if_pos here, cell_store (inside.inBuffer here) (inside.inBuffer there)]
    split_ifs with same
    · rw [same.1, same.2]
      rfl
    · rfl
  · rw [if_neg here, if_neg]
    rintro ⟨rfl, rfl⟩
    exact here there

namespace Paints

section

variable (painted : Paints t t')
include painted

theorem inside (inside : t.Inside) : t'.Inside := (Keeps.of_paints inside painted).inside

theorem termPtr_eq (row col : ℤ) : t'.termPtr row col = t.termPtr row col := by
  obtain ⟨⟨cells, rfl⟩, -⟩ := painted
  rfl

theorem inBounds_iff : t'.IsInBounds row col ↔ t.IsInBounds row col := by
  obtain ⟨⟨cells, rfl⟩, -⟩ := painted
  exact Iff.rfl

theorem cell_outside (inside : t.Inside) (here : t.InBuffer row col)
    (outside : ¬t.IsInBounds row col) : t'.cell row col = t.cell row col := by
  rw [cell, painted.termPtr_eq]
  apply painted.frame
  rintro ⟨i, j, inBounds, same⟩
  obtain ⟨rfl, rfl⟩ := here.termPtr_inj (inside.inBuffer inBounds) same
  exact outside inBounds

end

end Paints

section

variable (inside : t.Inside)
include inside

section

variable (there : t.IsInBounds i j)
include there

theorem cell_eraseCols_round (row start : ℤ) (n : ℕ) :
    ((range n).foldl (fun t (k : ℕ) => t.setc row (start + k) greyOnBlack 0) t).cell i j =
      if i = row ∧ start ≤ j ∧ j < start + n then blank else t.cell i j := by
  induction n with
  | zero => rw [if_neg (by omega)]; rfl
  | succ n ih =>
    have painted : Paints t ((range n).foldl (fun t (k : ℕ) => t.setc row (start + k) greyOnBlack 0) t) :=
      .foldl _ t fun _ _ _ => paints_setc ..
    rw [range_succ, foldl_append, foldl_cons, foldl_nil,
      cell_setc (painted.inside inside) (painted.inBounds_iff.2 there)]
    grind [blank]

theorem cell_eraseCols (row start stop : ℤ) :
    (t.eraseCols row start stop).cell i j = if i = row ∧ start ≤ j ∧ j < stop then blank else t.cell i j := by
  unfold eraseCols
  rw [cell_eraseCols_round inside there]
  refine if_congr ?_ rfl rfl
  omega

theorem cell_eraseRows_round (start : ℤ) (n : ℕ) :
    ((range n).foldl (fun t (k : ℕ) => t.eraseCols (start + k) 0 t.win.width) t).cell i j =
      if start ≤ i ∧ i < start + n then blank else t.cell i j := by
  induction n with
  | zero => rw [if_neg (by omega)]; rfl
  | succ n ih =>
    have painted : Paints t ((range n).foldl (fun t (k : ℕ) => t.eraseCols (start + k) 0 t.win.width) t) :=
      .foldl _ t fun _ _ _ => paints_eraseCols ..
    have columns := there.2
    rw [range_succ, foldl_append, foldl_cons, foldl_nil,
      cell_eraseCols (painted.inside inside) (painted.inBounds_iff.2 there), painted.win]
    grind

theorem cell_eraseRows (start stop : ℤ) :
    (t.eraseRows start stop).cell i j = if start ≤ i ∧ i < stop then blank else t.cell i j := by
  unfold eraseRows
  rw [cell_eraseRows_round inside there]
  refine if_congr ?_ rfl rfl
  omega

/-- The first columns of a row that is copied from another row. -/
theorem cell_copyRow_round {dest src : ℤ}
    (inRows : 0 ≤ dest ∧ dest < t.win.height) (inRows' : 0 ≤ src ∧ src < t.win.height) (different : src ≠ dest)
    {n : ℕ} (few : (n : ℤ) ≤ t.win.width) :
    ((range n).foldl (fun u k => u.store (t.termPtr dest 0 + 2#32 * BitVec.ofNat 32 k)
      (u.cells (t.termPtr src 0 + 2#32 * BitVec.ofNat 32 k))) t).cell i j =
      if i = dest ∧ j < n then t.cell src j else t.cell i j := by
  induction n generalizing i j with
  | zero =>
    have column := there.2
    rw [if_neg (by omega)]
    rfl
  | succ n ih =>
    have painted : Paints t ((range n).foldl (fun u k => u.store (t.termPtr dest 0 + 2#32 * BitVec.ofNat 32 k)
        (u.cells (t.termPtr src 0 + 2#32 * BitVec.ofNat 32 k))) t) := by
      refine .foldl _ t fun cells k member => ?_
      have small := mem_range.1 member
      rw [termPtr_zero_add]
      have column : (k : ℤ) < t.win.width := by omega
      exact .store (t := { t with cells }) ⟨inRows, Int.natCast_nonneg k, column⟩ _
    have here : t.IsInBounds dest n := ⟨inRows, Int.natCast_nonneg n, by omega⟩
    have source : t.IsInBounds src n := ⟨inRows', Int.natCast_nonneg n, by omega⟩
    have before := ih there (by omega)
    have read := ih source (by omega)
    rw [range_succ, foldl_append, foldl_cons, foldl_nil]
    generalize (range n).foldl (fun u k => u.store (t.termPtr dest 0 + 2#32 * BitVec.ofNat 32 k)
        (u.cells (t.termPtr src 0 + 2#32 * BitVec.ofNat 32 k))) t = u at *
    have taken : u.cells (t.termPtr src 0 + 2#32 * BitVec.ofNat 32 n) = t.cell src n := by
      rw [termPtr_zero_add, ← painted.termPtr_eq]
      rw [if_neg fun same => different same.1] at read
      exact read
    rw [termPtr_zero_add, ← painted.termPtr_eq dest,
      cell_store ((painted.inside inside).inBuffer (painted.inBounds_iff.2 here))
        ((painted.inside inside).inBuffer (painted.inBounds_iff.2 there)), before]
    grind

theorem cell_copyRow {dest src : ℤ}
    (inRows : 0 ≤ dest ∧ dest < t.win.height) (inRows' : 0 ≤ src ∧ src < t.win.height) (different : src ≠ dest) :
    (t.copyRow (t.termPtr dest 0) (t.termPtr src 0)).cell i j = if i = dest then t.cell src j else t.cell i j := by
  have column := there.2
  unfold copyRow
  rw [cell_copyRow_round inside there inRows inRows' different (by omega)]
  refine if_congr ?_ rfl rfl
  omega

/-- Rows are copied from the top, so that none is overwritten before it is read. -/
theorem cell_copyRows_round (positive : 0 < rowCt) {n : ℕ} (few : n + rowCt ≤ t.win.height) :
    ((range n).foldl (fun u (r : ℕ) => u.copyRow (u.termPtr r 0) (u.termPtr (r + rowCt) 0)) t).cell i j =
      if i < n then t.cell (i + rowCt) j else t.cell i j := by
  induction n generalizing i j with
  | zero =>
    have top := there.1
    rw [if_neg (by omega)]
    rfl
  | succ n ih =>
    have painted : Paints t
        ((range n).foldl (fun u (r : ℕ) => u.copyRow (u.termPtr r 0) (u.termPtr (r + rowCt) 0)) t) := by
      refine .foldl _ t fun cells r member => ?_
      have small := mem_range.1 member
      have inRows : (r : ℤ) < t.win.height := by omega
      exact paints_copyRow (t := { t with cells }) r ⟨Int.natCast_nonneg r, inRows⟩ _
    have source : t.IsInBounds (n + rowCt) j := ⟨⟨by omega, by omega⟩, there.2⟩
    have read := ih source (by omega)
    have height := congrArg TermWin.height painted.win
    rw [range_succ, foldl_append, foldl_cons, foldl_nil]
    rw [cell_copyRow (painted.inside inside) (painted.inBounds_iff.2 there) (by omega) (by omega) (by omega), read]
    grind

theorem cell_copyRows (positive : 0 < rowCt) :
    (t.copyRows rowCt).cell i j = if i + rowCt < t.win.height then t.cell (i + rowCt) j else t.cell i j := by
  have top := there.1
  unfold copyRows
  by_cases room : rowCt ≤ t.win.height
  · rw [cell_copyRows_round inside there positive (by omega)]
    refine if_congr ?_ rfl rfl
    omega
  · rw [Int.toNat_of_nonpos (by omega), if_neg (by omega)]
    rfl

end

end

theorem paints_scrolled (positive : 0 < rowCt) :
    Paints t ((t.copyRows rowCt).eraseRows (t.win.height - rowCt).toNat t.win.height) :=
  (paints_copyRows positive).trans (paints_eraseRows ..)

theorem scroll_eq (positive : 0 < rowCt) : ∃ cells, t.scroll rowCt = { t with cells, row := wrap (t.row - rowCt) } := by
  obtain ⟨cells, same⟩ := (paints_scrolled (t := t) positive).same
  refine ⟨cells, ?_⟩
  simp only [scroll, same, termSetpos]

theorem cell_scroll (inside : t.Inside) (there : t.IsInBounds i j) (positive : 0 < rowCt) :
    (t.scroll rowCt).cell i j = if i + rowCt < t.win.height then t.cell (i + rowCt) j else blank := by
  have copied := paints_copyRows (t := t) positive
  have top := there.1
  have erased := cell_eraseRows (copied.inside inside) (copied.inBounds_iff.2 there)
    (t.win.height - rowCt).toNat t.win.height
  change ((t.copyRows rowCt).eraseRows (t.win.height - rowCt).toNat t.win.height).cell i j = _
  rw [erased, cell_copyRows inside there positive]
  grind

theorem cell_scroll_outside (inside : t.Inside) (here : t.InBuffer i j) (outside : ¬t.IsInBounds i j)
    (positive : 0 < rowCt) : (t.scroll rowCt).cell i j = t.cell i j :=
  (paints_scrolled positive).cell_outside inside here outside

theorem exists_cells_foldl {ι : Type*} {f : Term → ι → Term} (round : ∀ u i, ∃ cells, f u i = { u with cells })
    (items : List ι) (t : Term) : ∃ cells, items.foldl f t = { t with cells } := by
  induction items generalizing t with
  | nil => exact ⟨t.cells, rfl⟩
  | cons first rest ih =>
    obtain ⟨cells, stored⟩ := round t first
    obtain ⟨cells', same⟩ := ih (f t first)
    refine ⟨cells', ?_⟩
    rw [foldl_cons, same, stored]

theorem exists_cells_copyRows (t : Term) (rowCt : ℤ) : ∃ cells, t.copyRows rowCt = { t with cells } :=
  exists_cells_foldl (fun _ _ => exists_cells_foldl (fun _ _ => ⟨_, rfl⟩) _ _) _ t

/-- The buffer, the columns, the overflow, the colour and the show of the cursor are the same, and a hidden cursor is
still hidden. -/
structure SameSetup (t t' : Term) : Prop where
  buf : t'.buf = t.buf
  startCol : t'.win.startCol = t.win.startCol
  width : t'.win.width = t.win.width
  overflow : t'.overflow = t.overflow
  color : t'.color = t.color
  showCursor : t'.showCursor = t.showCursor
  hidden : t.showCursor = false → t.cursorVisible = false → t'.cursorVisible = false

theorem SameSetup.trans (first : SameSetup t t') (second : SameSetup t' t'') : SameSetup t t'' where
  buf := second.buf.trans first.buf
  startCol := second.startCol.trans first.startCol
  width := second.width.trans first.width
  overflow := second.overflow.trans first.overflow
  color := second.color.trans first.color
  showCursor := second.showCursor.trans first.showCursor
  hidden shown visible := second.hidden (first.showCursor.trans shown) (first.hidden shown visible)

/-- The parser is the same too. -/
structure Steady (t t' : Term) : Prop extends SameSetup t t' where
  parser : t'.parser = t.parser

namespace Steady

theorem moved (t : Term) {cells : BitVec 32 → BitVec 16} {startRow height row col : ℤ} :
    Steady t { t with cells, win := { t.win with startRow, height }, row, col } :=
  ⟨⟨rfl, rfl, rfl, rfl, rfl, rfl, fun _ same => same⟩, rfl⟩

theorem refl (t : Term) : Steady t t := moved t

theorem trans (first : Steady t t') (second : Steady t' t'') : Steady t t'' :=
  ⟨first.toSameSetup.trans second.toSameSetup, second.parser.trans first.parser⟩

theorem of_cells (stored : ∃ cells, t' = { t with cells }) : Steady t t' := by
  obtain ⟨cells, rfl⟩ := stored
  exact moved t

theorem of_paints (painted : Paints t t') : Steady t t' := of_cells painted.same

theorem setpos (t : Term) (row col : ℤ) : Steady t (t.termSetpos row col) := moved t

theorem scroll (t : Term) (rowCt : ℤ) : Steady t (t.scroll rowCt) := by
  have copied := of_cells (exists_cells_copyRows t rowCt)
  have erased := copied.trans (of_paints (paints_eraseRows _ (t.win.height - rowCt).toNat t.win.height))
  exact erased.trans (setpos ..)

theorem growTop (t : Term) : Steady t t.growTop := (moved t).trans (scroll ..)

theorem growUp (fuel : ℕ) (t : Term) (rowCt : ℤ) : Steady t (growUp fuel t rowCt).1 := by
  induction fuel generalizing t rowCt with
  | zero => exact refl t
  | succ fuel ih =>
    simp only [Term.growUp]
    split_ifs
    · exact (growTop t).trans (ih _ _)
    · exact refl t

theorem growDown (fuel : ℕ) (t : Term) (rowCt : ℤ) : Steady t (growDown fuel t rowCt).1 := by
  induction fuel generalizing t rowCt with
  | zero => exact refl t
  | succ fuel ih =>
    simp only [Term.growDown]
    split_ifs
    · exact (moved t).trans (ih t.growBottom _)
    · exact refl t

theorem grow (t : Term) (rowCt : ℤ) : Steady t (t.grow rowCt) := by
  have taller := (growUp rowCt.toNat t rowCt).trans (growDown (Term.growUp rowCt.toNat t rowCt).2.toNat _
    (Term.growUp rowCt.toNat t rowCt).2)
  simp only [Term.grow]
  split_ifs
  · exact taller.trans (scroll ..)
  · exact taller

theorem handleOverflow (t : Term) : Steady t t.handleOverflow := by
  simp only [Term.handleOverflow]
  split_ifs
  · exact refl t
  · cases t.overflow with
    | clip => exact refl t
    | scroll => exact scroll ..
    | grow => exact grow ..

theorem wrapLine (t : Term) : Steady t t.wrapLine := by
  unfold Term.wrapLine
  split_ifs
  · exact setpos ..
  · exact refl t

theorem moveCursorIntoBounds (t : Term) : Steady t t.moveCursorIntoBounds := by
  unfold Term.moveCursorIntoBounds
  split_ifs
  · exact refl t
  · exact (wrapLine t).trans (handleOverflow _)
  · exact wrapLine t

theorem backspace (t : Term) : Steady t t.backspace := by
  unfold Term.backspace
  split_ifs
  · exact refl t
  · have left : Steady t (if wrap (t.col - 1) < 0 then
        { t with col := wrap (t.win.width - 1), row := wrap (t.row - 1) } else { t with col := wrap (t.col - 1) }) := by
      split_ifs
      all_goals exact moved t
    exact left.trans (of_paints (paints_setc ..))

theorem putCharacter (t : Term) (ch : ℤ) : Steady t (t.putCharacter ch) := by
  unfold Term.putCharacter
  split_ifs
  · exact setpos ..
  · exact setpos ..
  · exact backspace t
  · obtain ⟨cells, same⟩ := (paints_setc t t.row t.col t.color ch).same
    rw [same]
    exact moved t

theorem clearCursor (t : Term) : Steady t t.clearCursor := by
  unfold Term.clearCursor
  split_ifs
  · obtain ⟨cells, same⟩ := (paints_setcolor t t.row t.col t.color).same
    rw [same]
    exact ⟨⟨rfl, rfl, rfl, rfl, rfl, rfl, fun _ _ => rfl⟩, rfl⟩
  · exact refl t

theorem writeCursor (t : Term) : Steady t t.writeCursor := by
  unfold Term.writeCursor
  split_ifs with shown
  · have moved := moveCursorIntoBounds t
    refine moved.trans ?_
    obtain ⟨cells, same⟩ := (paints_setcolor t.moveCursorIntoBounds t.moveCursorIntoBounds.row
      t.moveCursorIntoBounds.col (t.moveCursorIntoBounds.cursorColor.setWidth 8)).same
    simp only [same]
    refine ⟨⟨rfl, rfl, rfl, rfl, rfl, rfl, fun hides => ?_⟩, rfl⟩
    -- The cursor is written only where it is shown.
    rw [moved.showCursor, shown] at hides
    cases hides
  · exact refl t

theorem executeAnsiEscape (t : Term) : Steady t t.executeAnsiEscape := by
  unfold Term.executeAnsiEscape
  split_ifs
  · exact setpos ..
  · exact of_paints (paints_eraseLine ..)
  · exact of_paints (paints_eraseDisplay ..)
  · exact refl t

theorem answer (t : Term) (ch : ℤ) : Steady t (t.answer ch) := by
  unfold Term.answer
  split_ifs
  · exact refl t
  · exact executeAnsiEscape t
  · exact ((moveCursorIntoBounds t).trans (putCharacter ..)).trans (writeCursor _)

end Steady

theorem termPutc_of_safe {stray : StrayStore} {ch : ℤ} (safe : ¬t.parser.Stray ch) :
    t.termPutc stray ch = some (({ t.clearCursor with parser := (t.parser.ansiParsePutc ch).1 } : Term).answer
      (t.parser.ansiParsePutc ch).2) := by
  simp only [termPutc, (Steady.clearCursor t).parser, if_neg safe]

theorem SameSetup.termPutc {stray : StrayStore} {ch : ℤ} (safe : ¬t.parser.Stray ch)
    (put : t.termPutc stray ch = some t') : SameSetup t t' ∧ t'.parser = (t.parser.ansiParsePutc ch).1 := by
  rw [termPutc_of_safe safe] at put
  obtain rfl := Option.some.inj put
  obtain ⟨buf, startCol, width, overflow, color, showCursor, hidden⟩ := (Steady.clearCursor t).toSameSetup
  have parsed : SameSetup t { t.clearCursor with parser := (t.parser.ansiParsePutc ch).1 } :=
    ⟨buf, startCol, width, overflow, color, showCursor, hidden⟩
  have answered := Steady.answer { t.clearCursor with parser := (t.parser.ansiParsePutc ch).1 }
    (t.parser.ansiParsePutc ch).2
  exact ⟨parsed.trans answered.toSameSetup, answered.parser⟩

end Term

end MicroOs.Terminal
