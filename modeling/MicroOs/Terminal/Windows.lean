import MicroOs.Terminal.Termbuf

/-! # Windows are kept apart

Every store of a terminal is checked against its window, apart from the rows that scrolling copies. The window changes
only when it grows, and then it stays inside the buffer. So nothing outside the window that a terminal ends with has
changed.

There is one way out. `param_num` counts the semicolons of an escape sequence and is only checked to be small enough.
When it has wrapped around, the next digit is stored in front of `csi_param`.
-/

namespace MicroOs.Terminal

open List

namespace Term

variable {t t' t'' : Term} {a : BitVec 32} {row col : ℤ} {rowCt : ℤ}

def InWindow (t : Term) (a : BitVec 32) : Prop := ∃ row col, t.IsInBounds row col ∧ a = t.termPtr row col

structure Inside (t : Term) : Prop where
  top : 0 ≤ t.win.startRow
  bottom : t.win.startRow + t.win.height ≤ t.buf.rows
  left : 0 ≤ t.win.startCol
  right : t.win.startCol + t.win.width ≤ t.buf.cols
  height : 1 ≤ t.win.height
  width : 1 ≤ t.win.width

/-- Only cells of the window have changed. -/
structure Paints (t t' : Term) : Prop where
  same : ∃ cells, t' = { t with cells }
  frame : ∀ a, ¬t.InWindow a → t'.cells a = t.cells a

namespace Paints

theorem refl (t : Term) : Paints t t := ⟨⟨t.cells, rfl⟩, fun _ _ => rfl⟩

theorem win (painted : Paints t t') : t'.win = t.win := by
  obtain ⟨cells, same⟩ := painted.same
  rw [same]

theorem trans (first : Paints t t') (second : Paints t' t'') : Paints t t'' := by
  obtain ⟨⟨cells, rfl⟩, frame⟩ := first
  obtain ⟨⟨cells', rfl⟩, frame'⟩ := second
  refine ⟨⟨cells', rfl⟩, ?_⟩
  intro a outside
  exact (frame' a outside).trans (frame a outside)

theorem store (inBounds : t.IsInBounds row col) (cell : BitVec 16) : Paints t (t.store (t.termPtr row col) cell) := by
  refine ⟨⟨_, rfl⟩, ?_⟩
  intro a outside
  have other : a ≠ t.termPtr row col := by
    rintro rfl
    exact outside ⟨row, col, inBounds, rfl⟩
  exact Function.update_of_ne other ..

theorem foldl {ι : Type*} {f : Term → ι → Term} (items : List ι) (t : Term)
    (round : ∀ cells, ∀ i ∈ items, Paints { t with cells } (f { t with cells } i)) : Paints t (items.foldl f t) := by
  induction items generalizing t with
  | nil => exact refl t
  | cons first rest ih =>
    have painted := round t.cells first mem_cons_self
    obtain ⟨cells, same⟩ := painted.same
    refine painted.trans (ih (f t first) ?_)
    intro cells' i member
    rw [same]
    exact round cells' i (mem_cons_of_mem _ member)

end Paints

theorem paints_setc (t : Term) (row col : ℤ) (color : BitVec 8) (ch : ℤ) : Paints t (t.setc row col color ch) := by
  unfold setc setcc
  split_ifs with inBounds
  · exact .store inBounds _
  · exact .refl t

theorem paints_setcolor (t : Term) (row col : ℤ) (color : BitVec 8) : Paints t (t.setcolor row col color) := by
  unfold setcolor
  split_ifs with inBounds
  · exact .store inBounds _
  · exact .refl t

theorem paints_eraseCols (t : Term) (row start stop : ℤ) : Paints t (t.eraseCols row start stop) :=
  .foldl _ t fun _ _ _ => paints_setc ..

theorem paints_eraseRows (t : Term) (start stop : ℤ) : Paints t (t.eraseRows start stop) :=
  .foldl _ t fun _ _ _ => paints_eraseCols ..

theorem paints_eraseLine (t : Term) (mode : ℤ) : Paints t (t.eraseLine mode) := by
  unfold eraseLine
  split_ifs
  · exact paints_eraseCols ..
  · exact paints_eraseCols ..
  · exact paints_eraseCols ..
  · exact .refl t

theorem paints_eraseDisplay (t : Term) (mode : ℤ) : Paints t (t.eraseDisplay mode) := by
  unfold eraseDisplay
  split_ifs
  · exact (paints_eraseLine ..).trans (paints_eraseRows ..)
  · exact (paints_eraseLine ..).trans (paints_eraseRows ..)
  · exact (paints_eraseLine ..).trans (paints_eraseRows ..)
  · exact .refl t

theorem termPtr_zero_add (t : Term) (row : ℤ) (i : ℕ) :
    t.termPtr row 0 + 2#32 * BitVec.ofNat 32 i = t.termPtr row i := by
  simp [termPtr, BitVec.mul_add, BitVec.add_assoc]

theorem paints_copyRow (row : ℤ) (inBounds : 0 ≤ row ∧ row < t.win.height) (src : BitVec 32) :
    Paints t (t.copyRow (t.termPtr row 0) src) := by
  refine .foldl _ t fun cells i member => ?_
  have small := mem_range.1 member
  rw [termPtr_zero_add]
  have inside : (i : ℤ) < t.win.width := by omega
  exact .store (t := { t with cells }) ⟨inBounds, Int.natCast_nonneg i, inside⟩ _

theorem paints_copyRows (positive : 0 < rowCt) : Paints t (t.copyRows rowCt) := by
  refine .foldl _ t fun cells r member => ?_
  have small := mem_range.1 member
  have inside : (r : ℤ) < t.win.height := by omega
  exact paints_copyRow (t := { t with cells }) r ⟨Int.natCast_nonneg r, inside⟩ _

/-- The window is inside the buffer, no smaller than before, and nothing outside it has changed. -/
structure Confined (t t' : Term) : Prop where
  buf : t'.buf = t.buf
  inside : t'.Inside
  wider : ∀ a, t.InWindow a → t'.InWindow a
  frame : ∀ a, ¬t'.InWindow a → t'.cells a = t.cells a

theorem Confined.trans (first : Confined t t') (second : Confined t' t'') : Confined t t'' where
  buf := second.buf.trans first.buf
  inside := second.inside
  wider a inside := second.wider a (first.wider a inside)
  frame a outside := by
    rw [second.frame a outside]
    exact first.frame a fun inside => outside (second.wider a inside)

/-- The parser is the same too. -/
structure Keeps (t t' : Term) : Prop extends Confined t t' where
  parser : t'.parser = t.parser

namespace Keeps

theorem trans (first : Keeps t t') (second : Keeps t' t'') : Keeps t t'' :=
  ⟨first.toConfined.trans second.toConfined, second.parser.trans first.parser⟩

theorem of_paints (inside : t.Inside) (painted : Paints t t') : Keeps t t' := by
  obtain ⟨⟨cells, rfl⟩, frame⟩ := painted
  exact ⟨⟨rfl, ⟨inside.1, inside.2, inside.3, inside.4, inside.5, inside.6⟩, fun _ inWindow => inWindow, frame⟩, rfl⟩

theorem cursor (inside : t.Inside) (row col : ℤ) (visible : Bool) :
    Keeps t { t with row, col, cursorVisible := visible } :=
  ⟨⟨rfl, ⟨inside.1, inside.2, inside.3, inside.4, inside.5, inside.6⟩, fun _ inWindow => inWindow, fun _ _ => rfl⟩, rfl⟩

theorem refl (inside : t.Inside) : Keeps t t := of_paints inside (.refl t)

theorem setpos (inside : t.Inside) (row col : ℤ) : Keeps t (t.termSetpos row col) :=
  cursor inside row col t.cursorVisible

end Keeps

section

variable (inside : t.Inside)
include inside

theorem keeps_scroll (positive : 0 < rowCt) : Keeps t (t.scroll rowCt) := by
  have painted : Keeps t ((t.copyRows rowCt).eraseRows (t.win.height - rowCt).toNat t.win.height) :=
    .of_paints inside ((paints_copyRows positive).trans (paints_eraseRows ..))
  exact painted.trans (.setpos painted.inside _ _)

theorem Inside.size_lt : (t.buf.rows : ℤ) < 2 ^ 31 ∧ (t.buf.cols : ℤ) < 2 ^ 31 := by
  have fits := t.buf.fits
  have base : 0 < t.buf.base.toNat := by
    by_contra zero
    exact t.buf.nonnull (BitVec.eq_of_toNat_eq (by simpa using zero))
  obtain ⟨top, bottom, left, right, height, width⟩ := inside
  have rows := Nat.le_mul_of_pos_right t.buf.rows (show 0 < t.buf.cols by omega)
  have cols := Nat.le_mul_of_pos_left t.buf.cols (show 0 < t.buf.rows by omega)
  omega

theorem Inside.rows_lt : (t.buf.rows : ℤ) < 2 ^ 31 := inside.size_lt.1

theorem Inside.growTop_eq (below : t.win.startRow ≠ 0) : t.growTop = Term.scroll { t with
      win := { t.win with startRow := t.win.startRow - 1, height := t.win.height + 1 }
      row := wrap (t.row + 1) } 1 := by
  obtain ⟨top, bottom, -, -, height, -⟩ := id inside
  have rows := inside.rows_lt
  rw [growTop, @wrap_of_int (t.win.startRow - 1) (by omega) (by omega),
    @wrap_of_int (t.win.height + 1) (by omega) (by omega)]

theorem keeps_growTop (below : t.win.startRow ≠ 0) : Keeps t t.growTop := by
  obtain ⟨top, bottom, left, right, height, width⟩ := id inside
  have moved : Keeps t { t with
      win := { t.win with startRow := t.win.startRow - 1, height := t.win.height + 1 }, row := wrap (t.row + 1) } := by
    refine ⟨⟨rfl, ⟨?_, ?_, left, right, ?_, width⟩, ?_, fun _ _ => rfl⟩, rfl⟩
    · change 0 ≤ t.win.startRow - 1
      omega
    · change t.win.startRow - 1 + (t.win.height + 1) ≤ t.buf.rows
      omega
    · change 1 ≤ t.win.height + 1
      omega
    · rintro a ⟨row, col, ⟨⟨lower, upper⟩, columns⟩, rfl⟩
      refine ⟨row + 1, col, ⟨⟨by omega, ?_⟩, columns⟩, ?_⟩
      · change row + 1 < t.win.height + 1
        omega
      · simp only [termPtr]
        rw [show t.win.startRow - 1 + (row + 1) = t.win.startRow + row by omega]
  rw [inside.growTop_eq below]
  exact moved.trans (keeps_scroll moved.inside (by decide))

theorem keeps_growBottom (topmost : t.win.startRow = 0) (room : t.win.height < wrap t.buf.rows) :
    Keeps t t.growBottom := by
  obtain ⟨top, bottom, left, right, height, width⟩ := id inside
  have rows := inside.rows_lt
  rw [wrap_of_int (by omega) rows] at room
  have taller : wrap (t.win.height + 1) = t.win.height + 1 := wrap_of_int (by omega) (by omega)
  simp only [growBottom, taller]
  refine ⟨⟨rfl, ⟨top, ?_, left, right, ?_, width⟩, ?_, fun _ _ => rfl⟩, rfl⟩
  · change t.win.startRow + (t.win.height + 1) ≤ t.buf.rows
    omega
  · change 1 ≤ t.win.height + 1
    omega
  · rintro a ⟨row, col, ⟨⟨lower, upper⟩, columns⟩, rfl⟩
    refine ⟨row, col, ⟨⟨lower, ?_⟩, columns⟩, rfl⟩
    change row < t.win.height + 1
    omega

/-- The window grows upwards until no row is missing or it has reached the top. -/
theorem growUp_spec {fuel : ℕ} (nonneg : 0 ≤ rowCt) (enough : rowCt ≤ fuel) :
    Keeps t (growUp fuel t rowCt).1 ∧ 0 ≤ (growUp fuel t rowCt).2 ∧
      ((growUp fuel t rowCt).2 = 0 ∨ (growUp fuel t rowCt).1.win.startRow = 0) := by
  induction fuel generalizing t rowCt with
  | zero => exact ⟨.refl inside, nonneg, .inl (by simp only [growUp]; omega)⟩
  | succ fuel ih =>
    simp only [growUp]
    split_ifs with more
    · have step := keeps_growTop inside more.2
      obtain ⟨kept, nonneg', left⟩ := @ih t.growTop (rowCt - 1) step.inside (by omega) (by omega)
      exact ⟨step.trans kept, nonneg', left⟩
    · refine ⟨.refl inside, nonneg, ?_⟩
      by_contra neither
      push Not at neither
      exact more neither

theorem growDown_spec {fuel : ℕ} (nonneg : 0 ≤ rowCt)
    (topmost : rowCt = 0 ∨ t.win.startRow = 0) (enough : rowCt ≤ fuel) :
    Keeps t (growDown fuel t rowCt).1 ∧ 0 ≤ (growDown fuel t rowCt).2 := by
  induction fuel generalizing t rowCt with
  | zero => exact ⟨.refl inside, nonneg⟩
  | succ fuel ih =>
    simp only [growDown]
    split_ifs with more
    · have top := topmost.resolve_left more.1
      have step := keeps_growBottom inside top more.2
      obtain ⟨kept, nonneg'⟩ := @ih t.growBottom (rowCt - 1) step.inside (by omega) (.inr top) (by omega)
      exact ⟨step.trans kept, nonneg'⟩
    · exact ⟨.refl inside, nonneg⟩

theorem keeps_grow (positive : 0 < rowCt) : Keeps t (t.grow rowCt) := by
  obtain ⟨up, nonneg, topmost⟩ := growUp_spec inside positive.le (Int.self_le_toNat rowCt)
  obtain ⟨down, nonneg'⟩ := growDown_spec up.inside nonneg topmost (Int.self_le_toNat _)
  simp only [grow]
  split_ifs with missing
  · exact (up.trans down).trans (keeps_scroll down.inside (by omega))
  · exact up.trans down

theorem keeps_handleOverflow : Keeps t t.handleOverflow := by
  simp only [handleOverflow]
  split_ifs with none
  · exact .refl inside
  · cases t.overflow with
    | clip => exact .refl inside
    | scroll => exact keeps_scroll inside (not_le.1 none)
    | grow => exact keeps_grow inside (not_le.1 none)

theorem keeps_moveCursorIntoBounds : Keeps t t.moveCursorIntoBounds := by
  have line : Keeps t t.wrapLine := by
    unfold wrapLine
    split_ifs
    · exact .setpos inside _ _
    · exact .refl inside
  unfold moveCursorIntoBounds
  split_ifs
  · exact .refl inside
  · exact line.trans (keeps_handleOverflow line.inside)
  · exact line

theorem keeps_backspace : Keeps t t.backspace := by
  unfold backspace
  split_ifs with start
  · exact .refl inside
  · have left : Keeps t { t with col := wrap (t.col - 1) } := .cursor inside t.row _ t.cursorVisible
    have moved : Keeps t (if wrap (t.col - 1) < 0 then
        { t with col := wrap (t.win.width - 1), row := wrap (t.row - 1) } else { t with col := wrap (t.col - 1) }) := by
      split_ifs
      · exact .cursor inside _ _ t.cursorVisible
      · exact left
    exact moved.trans (.of_paints moved.inside (paints_setc ..))

theorem keeps_executeAnsiEscape : Keeps t t.executeAnsiEscape := by
  unfold executeAnsiEscape
  split_ifs
  · exact .setpos inside _ _
  · exact .of_paints inside (paints_eraseLine ..)
  · exact .of_paints inside (paints_eraseDisplay ..)
  · exact .refl inside

theorem keeps_clearCursor : Keeps t t.clearCursor := by
  unfold clearCursor
  split_ifs
  · have painted : Keeps t (t.setcolor t.row t.col t.color) := .of_paints inside (paints_setcolor ..)
    exact painted.trans (.cursor painted.inside _ _ false)
  · exact .refl inside

theorem keeps_writeCursor : Keeps t t.writeCursor := by
  unfold writeCursor
  split_ifs
  · have moved := keeps_moveCursorIntoBounds inside
    have painted := moved.trans (.of_paints moved.inside (paints_setcolor _ t.moveCursorIntoBounds.row
      t.moveCursorIntoBounds.col (t.moveCursorIntoBounds.cursorColor.setWidth 8)))
    exact painted.trans (.cursor painted.inside _ _ true)
  · exact .refl inside

theorem keeps_putCharacter (ch : ℤ) : Keeps t (t.putCharacter ch) := by
  unfold putCharacter
  split_ifs
  · exact .setpos inside _ _
  · exact .setpos inside _ _
  · exact keeps_backspace inside
  · have painted : Keeps t (t.setc t.row t.col t.color ch) := .of_paints inside (paints_setc ..)
    exact painted.trans (.cursor painted.inside _ _ _)

theorem keeps_handleCharacter (ch : ℤ) : Keeps t (t.handleCharacter ch) := by
  have moved := keeps_moveCursorIntoBounds inside
  have put := moved.trans (keeps_putCharacter moved.inside ch)
  exact put.trans (keeps_writeCursor put.inside)

theorem keeps_answer (ch : ℤ) : Keeps t (t.answer ch) := by
  unfold answer
  split_ifs
  · exact .refl inside
  · exact keeps_executeAnsiEscape inside
  · exact keeps_handleCharacter inside ch

variable {stray : StrayStore}

/-- A character confines the terminal unless it makes the parser store outside its array. -/
theorem termPutc_spec {ch : ℤ} (safe : ¬t.parser.Stray ch) :
    ∃ t', t.termPutc stray ch = some t' ∧ Confined t t' ∧ t'.parser = (t.parser.ansiParsePutc ch).1 := by
  have cleared := keeps_clearCursor inside
  have parsed : Confined t.clearCursor { t.clearCursor with parser := (t.clearCursor.parser.ansiParsePutc ch).1 } := by
    obtain ⟨top, bottom, left, right, height, width⟩ := cleared.inside
    exact ⟨rfl, ⟨top, bottom, left, right, height, width⟩, fun _ inWindow => inWindow, fun _ _ => rfl⟩
  have answered := keeps_answer parsed.inside (t.clearCursor.parser.ansiParsePutc ch).2
  rw [← cleared.parser] at safe ⊢
  refine ⟨_, ?_, (cleared.toConfined.trans parsed).trans answered.toConfined, answered.parser⟩
  simp only [termPutc, if_neg safe]

end

end Term

def Parser.Safe : Parser → List (BitVec 8) → Prop
  | _, [] => True
  | p, byte :: rest => ¬p.Stray byte.toInt ∧ Safe (p.ansiParsePutc byte.toInt).1 rest

instance Parser.decidableSafe : ∀ (p : Parser) (bytes : List (BitVec 8)), Decidable (p.Safe bytes)
  | _, [] => .isTrue trivial
  | p, byte :: rest =>
    have := decidableSafe (p.ansiParsePutc byte.toInt).1 rest
    inferInstanceAs (Decidable (_ ∧ _))

namespace Term

variable {t t' : Term} {stray : StrayStore} {bytes : List (BitVec 8)}

theorem termWrite_cons (t : Term) (byte : BitVec 8) (rest : List (BitVec 8)) :
    t.termWrite stray (byte :: rest) = (t.termPutc stray byte.toInt).bind (·.termWrite stray rest) := by
  rfl

theorem termWrite_spec (inside : t.Inside) (safe : t.parser.Safe bytes) :
    ∃ t', t.termWrite stray bytes = some t' ∧ Confined t t' := by
  induction bytes generalizing t with
  | nil => exact ⟨t, rfl, (Keeps.refl inside).toConfined⟩
  | cons byte rest ih =>
    obtain ⟨t', put, first, parser⟩ : ∃ t', t.termPutc stray byte.toInt = some t' ∧ _ := termPutc_spec inside safe.1
    obtain ⟨t'', written, second⟩ := ih first.inside (parser ▸ safe.2)
    refine ⟨t'', ?_, first.trans second⟩
    rw [termWrite_cons, put]
    exact written

theorem safe_of_termWrite (inside : t.Inside) (written : t.termWrite (fun _ _ _ => none) bytes = some t') :
    t.parser.Safe bytes := by
  induction bytes generalizing t with
  | nil => trivial
  | cons byte rest ih =>
    rw [termWrite_cons] at written
    by_cases outside : t.parser.Stray byte.toInt
    · have stuck : t.termPutc (fun _ _ _ => none) byte.toInt = none := by
        rw [← (keeps_clearCursor inside).parser] at outside
        simp only [termPutc, if_pos outside]
      simp [stuck] at written
    · obtain ⟨t', put, first, parser⟩ := termPutc_spec inside outside
      rw [put] at written
      exact ⟨outside, parser ▸ ih first.inside written⟩

end Term

def TermBuf.address (b : TermBuf) (row col : ℕ) : BitVec 32 :=
  b.base + 2#32 * (BitVec.ofNat 32 row * BitVec.ofNat 32 b.cols + BitVec.ofNat 32 col)

theorem TermBuf.index_lt {b : TermBuf} {row col : ℕ} (inRows : row < b.rows) (inCols : col < b.cols) :
    row * b.cols + col < b.rows * b.cols := by
  have last := Nat.mul_le_mul_right b.cols (Nat.succ_le_of_lt inRows)
  rw [Nat.succ_mul] at last
  omega

theorem TermBuf.toNat_address {b : TermBuf} {row col : ℕ} (inRows : row < b.rows) (inCols : col < b.cols) :
    (b.address row col).toNat = b.base.toNat + 2 * (row * b.cols + col) := by
  have index := b.index_lt inRows inCols
  have fits := b.fits
  simp only [address, ← BitVec.ofNat_mul, ← BitVec.ofNat_add, BitVec.toNat_add, BitVec.toNat_ofNat]
  omega

theorem TermBuf.address_inj {b : TermBuf} {row col row' col' : ℕ} (inRows : row < b.rows) (inCols : col < b.cols)
    (inRows' : row' < b.rows) (inCols' : col' < b.cols) (same : b.address row col = b.address row' col') :
    row = row' ∧ col = col' := by
  have equal := congrArg BitVec.toNat same
  rw [toNat_address inRows inCols, toNat_address inRows' inCols'] at equal
  have index : b.cols * row + col = b.cols * row' + col' := by
    rw [Nat.mul_comm b.cols, Nat.mul_comm b.cols]
    omega
  have rows : row = row' := by
    have quotients := congrArg (· / b.cols) index
    simpa [Nat.mul_add_div (Nat.zero_lt_of_lt inCols), Nat.div_eq_of_lt inCols, Nat.div_eq_of_lt inCols'] using
      quotients
  subst rows
  exact ⟨rfl, by omega⟩

namespace TermWin

def Contains (w : TermWin) (row col : ℕ) : Prop :=
  (w.startRow ≤ row ∧ row < w.startRow + w.height) ∧ w.startCol ≤ col ∧ col < w.startCol + w.width

end TermWin

namespace Term

variable {t t' : Term}

theorem Inside.exists_cell (inside : t.Inside) {a : BitVec 32} (inWindow : t.InWindow a) :
    ∃ row < t.buf.rows, ∃ col < t.buf.cols, t.win.Contains row col ∧ a = t.buf.address row col := by
  obtain ⟨row, col, ⟨⟨lower, upper⟩, first, last⟩, rfl⟩ := inWindow
  obtain ⟨top, bottom, left, right, height, width⟩ := inside
  obtain ⟨r, rowEq⟩ := Int.eq_ofNat_of_zero_le (show 0 ≤ t.win.startRow + row by omega)
  obtain ⟨c, colEq⟩ := Int.eq_ofNat_of_zero_le (show 0 ≤ t.win.startCol + col by omega)
  refine ⟨r, by omega, c, by omega, ⟨⟨by omega, by omega⟩, by omega, by omega⟩, ?_⟩
  rw [termPtr, TermBuf.address, rowEq, BitVec.add_assoc (BitVec.ofInt 32 (r : ℤ) * _), ← BitVec.ofInt_add, colEq,
    BitVec.ofInt_natCast, BitVec.ofInt_natCast]

/-- The window is inside the buffer, and what lies outside it has not changed. -/
structure Confines (t t' : Term) : Prop where
  buf : t'.buf = t.buf
  inside : t'.Inside
  unchanged : ∀ row < t.buf.rows, ∀ col < t.buf.cols, ¬t'.win.Contains row col →
    t'.cells (t.buf.address row col) = t.cells (t.buf.address row col)
  elsewhere : ∀ a, (∀ row < t.buf.rows, ∀ col < t.buf.cols, a ≠ t.buf.address row col) → t'.cells a = t.cells a

theorem Confined.confines (confined : Confined t t') : Confines t t' where
  buf := confined.buf
  inside := confined.inside
  unchanged := by
    intro row inRows col inCols outside
    apply confined.frame
    intro inWindow
    obtain ⟨row', inRows', col', inCols', contains, same⟩ := confined.inside.exists_cell inWindow
    rw [confined.buf] at inRows' inCols' same
    obtain ⟨rfl, rfl⟩ := TermBuf.address_inj inRows inCols inRows' inCols' same
    exact outside contains
  elsewhere := by
    intro a outside
    apply confined.frame
    intro inWindow
    obtain ⟨row', inRows', col', inCols', -, same⟩ := confined.inside.exists_cell inWindow
    rw [confined.buf] at inRows' inCols' same
    exact outside row' inRows' col' inCols' same

end Term

namespace Term

/-- The words in front of `csi_param` in `struct term`, as laid out on the 32-bit processor: `csi_param` is at offset
52, `width` at 24. -/
def i386 : StrayStore := fun index digit t =>
  let word (w : ℤ) : ℤ := wrap (wrap (w * 10) + digit)
  if index = -4 then some { t with col := word t.col }
  else if index = -5 then some { t with row := word t.row }
  else if index = -7 then some { t with win := { t.win with width := word t.win.width } }
  else if index = -8 then some { t with win := { t.win with startCol := word t.win.startCol } }
  else if index = -9 then some { t with win := { t.win with height := word t.win.height } }
  else if index = -10 then some { t with win := { t.win with startRow := word t.win.startRow } }
  else none

theorem termPutc_semicolon {stray : StrayStore} {t : Term} (state : t.parser.state = .param)
    (hidden : t.cursorVisible = false) :
    t.termPutc stray 0x3b = some { t with parser := { t.parser with paramNum := wrap (t.parser.paramNum + 1) } } := by
  have cleared : t.clearCursor = t := by simp [clearCursor, hidden]
  have noDigit : ¬t.parser.TakesDigit 0x3b := by
    rintro ⟨-, small, -⟩
    omega
  have parsed : t.parser.ansiParsePutc 0x3b =
      ({ t.parser with paramNum := wrap (t.parser.paramNum + 1) }, -apsEscape) := by
    simp [Parser.ansiParsePutc, state, Parser.parameterByte, noDigit]
  simp only [termPutc, cleared, Parser.Stray, noDigit, false_and, and_false, parsed]
  rfl

theorem termWrite_semicolons {stray : StrayStore} (n : ℕ) {t : Term} (state : t.parser.state = .param)
    (hidden : t.cursorVisible = false) {x : ℤ} (num : t.parser.paramNum = wrap x) :
    t.termWrite stray (replicate n 0x3b#8) =
      some { t with parser := { t.parser with paramNum := wrap (x + n) } } := by
  induction n generalizing t x with
  | zero => simp [termWrite, ← num]
  | succ n ih =>
    have next : wrap (t.parser.paramNum + 1) = wrap (x + 1) := by
      rw [num]
      exact Int.bmod_add_bmod
    have put : t.termPutc stray 0x3b = _ := termPutc_semicolon state hidden
    rw [replicate_succ, termWrite_cons, show (0x3b#8).toInt = 0x3b from rfl, put, next]
    refine (ih ?_ ?_ rfl).trans ?_
    · exact state
    · exact hidden
    · rw [show x + 1 + (n : ℤ) = x + ((n + 1 : ℕ) : ℤ) by omega]

theorem termWrite_append {stray : StrayStore} {t : Term} (before after : List (BitVec 8)) :
    t.termWrite stray (before ++ after) = (t.termWrite stray before).bind (·.termWrite stray after) := by
  simp only [termWrite, foldlM_append]
  rfl

/-- The full screen, as `TERM_INIT_VGA_FULL` sets it up. -/
def vga : Term where
  buf := ⟨0xb8000#32, 25, 80, by decide, by decide⟩
  win := ⟨0, 25, 0, 80⟩
  overflow := .scroll
  row := 0
  col := 0
  color := greyOnBlack
  showCursor := false
  cursorVisible := false
  cursorColor := 0x70#16
  parser := {}
  cells := fun _ => 0#16

theorem vga_inside : vga.Inside := by
  constructor <;> decide

/-- Whatever a store outside `csi_param` does, `term_write` keeps to its window exactly when there is no such store. -/
theorem write_confined_iff {t : Term} (inside : t.Inside) (bytes : List (BitVec 8)) :
    (∀ stray : StrayStore, ∃ t', t.termWrite stray bytes = some t' ∧ Confines t t') ↔ t.parser.Safe bytes := by
  constructor
  · intro always
    obtain ⟨t', written, -⟩ := always fun _ _ _ => none
    exact safe_of_termWrite inside written
  · intro safe stray
    obtain ⟨t', written, confined⟩ := termWrite_spec inside safe
    exact ⟨t', written, confined.confines⟩

/-- A character in the top left corner of the screen. -/
theorem write_confined_character :
    vga.Inside ∧ ∀ stray : StrayStore, ∃ t', vga.termWrite stray [0x41#8] = some t' ∧ Confines vga t' :=
  ⟨vga_inside, (write_confined_iff vga_inside _).2 (by decide)⟩

/-- With so many semicolons that `param_num` is -7, the digit goes to the width of the window. -/
theorem semicolons_widen_window :
    vga.Inside ∧ ∃ t', vga.termWrite i386
      ([0x1b#8, 0x5b#8] ++ (replicate (2 ^ 32 - 7) 0x3b#8 ++ [0x39#8])) = some t' ∧
      t'.win.width = 809 ∧ ¬t'.Inside := by
  refine ⟨vga_inside, ?_⟩
  have count : wrap (0 + (2 ^ 32 - 7 : ℕ)) = -7 := by decide
  rw [termWrite_append, show vga.termWrite i386 [0x1b#8, 0x5b#8] =
    some { vga with parser := { state := .param } } from rfl, Option.bind_some, termWrite_append,
    termWrite_semicolons (2 ^ 32 - 7) rfl rfl (show (0 : ℤ) = wrap 0 from rfl), count]
  refine ⟨_, rfl, rfl, ?_⟩
  intro inside
  exact absurd inside.right (by decide)

end Term

end MicroOs.Terminal
