import Mathlib.Data.BitVec
import MicroOs.Library.MachineInt

/-! # Terminals that share a screen buffer

A terminal writes into a window of a buffer of character cells. Escape sequences move its cursor anywhere and erase
parts of the window. What the cursor leaves at the bottom is clipped, or the window scrolls, or it grows upwards and
downwards before it scrolls.

`int` values are integers here, and sums and products are taken modulo `2 ^ 32`. Addresses are words of 32 bits. A
`char` is signed, so a byte of `0x80` and above is a negative character, and some of these are taken for answers of
the parser.
-/

namespace MicroOs.Terminal

inductive ParserState
  | ready | esc | param | intermediate
deriving DecidableEq

abbrev csiMaxParam : ℕ := 3

structure Parser where
  state : ParserState := .ready
  csiParam : Fin csiMaxParam → ℤ := fun _ => 0
  paramNum : ℤ := 0
  cmd : ℤ := 0

def apsEscape : ℤ := 1
def apsFinal : ℤ := 2
def apsInvalid : ℤ := 3
def apsUnimplemented : ℤ := 4

def ansiEsc : ℤ := 0x1b
def ansiCsi : ℤ := 0x5b
def ansiCup : ℤ := 0x48
def ansiEd : ℤ := 0x4a
def ansiEl : ℤ := 0x4b

namespace Parser

def startEsc (p : Parser) : Parser := { p with state := .esc, csiParam := fun _ => 0, paramNum := 0, cmd := 0 }

/-- The character is a digit that goes to the parameter with number `param_num`. -/
def TakesDigit (p : Parser) (ch : ℤ) : Prop := 0x30 ≤ ch ∧ ch ≤ 0x39 ∧ p.paramNum < csiMaxParam

instance (p : Parser) (ch : ℤ) : Decidable (p.TakesDigit ch) := inferInstanceAs (Decidable (_ ∧ _))

/-- A store to `csi_param` at `param_num`. The array is left alone by an index outside it. -/
def addDigit (p : Parser) (digit : ℤ) : Parser :=
  { p with
    csiParam := fun i =>
      if (i : ℤ) = p.paramNum then wrap (wrap (p.csiParam i * 10) + digit) else p.csiParam i }

def parameterByte (p : Parser) (ch : ℤ) : Parser :=
  if p.TakesDigit ch then p.addDigit (ch - 0x30)
  else if ch = 0x3b then { p with paramNum := wrap (p.paramNum + 1) }
  else p

def finalByte (p : Parser) (ch : ℤ) : Parser := { p with cmd := ch, state := .ready }

def intermediate (p : Parser) (ch : ℤ) : Parser × ℤ :=
  if 0x20 ≤ ch ∧ ch ≤ 0x2f then (p, -apsEscape)
  else if 0x40 ≤ ch ∧ ch ≤ 0x7e then (p.finalByte ch, -apsFinal)
  else (p, -apsInvalid)

def ansiParsePutc (p : Parser) (ch : ℤ) : Parser × ℤ :=
  match p.state with
  | .ready => if ch = ansiEsc then (p.startEsc, -apsEscape) else (p, ch)
  | .esc => if ch = ansiCsi then ({ p with state := .param }, -apsEscape) else (p, -apsUnimplemented)
  | .param =>
    if 0x30 ≤ ch ∧ ch ≤ 0x3f then (p.parameterByte ch, -apsEscape)
    else ({ p with state := .intermediate } : Parser).intermediate ch
  | .intermediate => p.intermediate ch

/-- The parser takes a digit while `param_num` is negative: it stores in front of the array. -/
def Stray (p : Parser) (ch : ℤ) : Prop := p.state = .param ∧ p.TakesDigit ch ∧ p.paramNum < 0

instance (p : Parser) (ch : ℤ) : Decidable (p.Stray ch) := inferInstanceAs (Decidable (_ ∧ _))

end Parser

/-- `struct termbuf`, an object of the address space: `rows * cols` cells of two bytes. -/
structure TermBuf where
  base : BitVec 32
  rows : ℕ
  cols : ℕ
  nonnull : base ≠ 0#32
  fits : base.toNat + 2 * (rows * cols) ≤ 2 ^ 32

structure TermWin where
  startRow : ℤ
  height : ℤ
  startCol : ℤ
  width : ℤ

inductive Overflow
  | clip | scroll | grow
deriving DecidableEq

/-- `struct term`, with the cells of memory by their addresses. -/
structure Term where
  buf : TermBuf
  win : TermWin
  overflow : Overflow
  row : ℤ
  col : ℤ
  color : BitVec 8
  showCursor : Bool
  cursorVisible : Bool
  cursorColor : BitVec 16
  parser : Parser
  cells : BitVec 32 → BitVec 16

namespace Term

variable (t : Term)

/-- The address of a cell of the window. The sum of rows is converted to `size_t` for the product. -/
def termPtr (row col : ℤ) : BitVec 32 :=
  t.buf.base + 2#32 * (BitVec.ofInt 32 (t.win.startRow + row) * BitVec.ofNat 32 t.buf.cols +
    BitVec.ofInt 32 t.win.startCol + BitVec.ofInt 32 col)

def IsInBounds (row col : ℤ) : Prop := (0 ≤ row ∧ row < t.win.height) ∧ 0 ≤ col ∧ col < t.win.width

instance (row col : ℤ) : Decidable (t.IsInBounds row col) := inferInstanceAs (Decidable (_ ∧ _))

def store (address : BitVec 32) (cell : BitVec 16) : Term := { t with cells := Function.update t.cells address cell }

def setcc (row col : ℤ) (cell : BitVec 16) : Term :=
  if t.IsInBounds row col then t.store (t.termPtr row col) cell else t

def colorchar (color : BitVec 8) (ch : ℤ) : BitVec 16 := color ++ BitVec.ofInt 8 ch

def setc (row col : ℤ) (color : BitVec 8) (ch : ℤ) : Term := t.setcc row col (colorchar color ch)

def setcolor (row col : ℤ) (color : BitVec 8) : Term :=
  if t.IsInBounds row col then
    t.store (t.termPtr row col) (color ++ (t.cells (t.termPtr row col)).setWidth 8)
  else t

def greyOnBlack : BitVec 8 := 0x07#8

/-- `for (c = start; c < end; c++)` with a blank at each column. -/
def eraseCols (row start stop : ℤ) : Term :=
  (List.range (stop - start).toNat).foldl (fun t (i : ℕ) => t.setc row (start + i) greyOnBlack 0) t

def eraseRows (start stop : ℤ) : Term :=
  (List.range (stop - start).toNat).foldl (fun t (i : ℕ) => t.eraseCols (start + i) 0 t.win.width) t

def ansiEfwd : ℤ := 0
def ansiEback : ℤ := 1
def ansiEfull : ℤ := 2

def eraseLine (mode : ℤ) : Term :=
  if mode = ansiEfwd then t.eraseCols t.row t.col t.win.width
  else if mode = ansiEback then t.eraseCols t.row 0 t.col
  else if mode = ansiEfull then t.eraseCols t.row 0 t.win.width
  else t

def eraseDisplay (mode : ℤ) : Term :=
  if mode = ansiEfwd then (t.eraseLine mode).eraseRows (wrap (t.row + 1)) t.win.height
  else if mode = ansiEback then (t.eraseLine mode).eraseRows 0 t.row
  else if mode = ansiEfull then (t.eraseLine mode).eraseRows 0 t.win.height
  else t

def termSetpos (row col : ℤ) : Term := { t with row, col }

def copyRow (dest src : BitVec 32) : Term :=
  (List.range t.win.width.toNat).foldl
    (fun t i => t.store (dest + 2#32 * BitVec.ofNat 32 i) (t.cells (src + 2#32 * BitVec.ofNat 32 i))) t

/-- The loop of `scroll` that copies rows. -/
def copyRows (rowCt : ℤ) : Term :=
  (List.range (t.win.height - rowCt).toNat).foldl
    (fun t (r : ℕ) => t.copyRow (t.termPtr r 0) (t.termPtr (r + rowCt) 0)) t

def scroll (rowCt : ℤ) : Term :=
  let t := (t.copyRows rowCt).eraseRows (t.win.height - rowCt).toNat t.win.height
  t.termSetpos (wrap (t.row - rowCt)) t.col

def growTop : Term :=
  let win := { t.win with startRow := wrap (t.win.startRow - 1), height := wrap (t.win.height + 1) }
  ({ t with win, row := wrap (t.row + 1) } : Term).scroll 1

def growBottom : Term := { t with win := { t.win with height := wrap (t.win.height + 1) } }

/-- The first loop of `overflow` for a window that grows, with the rows that are still missing. -/
def growUp : ℕ → Term → ℤ → Term × ℤ
  | 0, t, rowCt => (t, rowCt)
  | fuel + 1, t, rowCt =>
    if rowCt ≠ 0 ∧ t.win.startRow ≠ 0 then growUp fuel t.growTop (rowCt - 1) else (t, rowCt)

def growDown : ℕ → Term → ℤ → Term × ℤ
  | 0, t, rowCt => (t, rowCt)
  | fuel + 1, t, rowCt =>
    if rowCt ≠ 0 ∧ t.win.height < wrap t.buf.rows then growDown fuel t.growBottom (rowCt - 1) else (t, rowCt)

def grow (rowCt : ℤ) : Term :=
  let (t, rowCt) := growUp rowCt.toNat t rowCt
  let (t, rowCt) := growDown rowCt.toNat t rowCt
  if rowCt ≠ 0 then t.scroll rowCt else t

def handleOverflow : Term :=
  let rowCt := wrap (wrap (t.row - t.win.height) + 1)
  if rowCt ≤ 0 then t
  else
    match t.overflow with
    | .clip => t
    | .scroll => t.scroll rowCt
    | .grow => t.grow rowCt

def wrapLine : Term := if t.win.width ≤ t.col then t.termSetpos (wrap (t.row + 1)) 0 else t

def moveCursorIntoBounds : Term :=
  if t.overflow = .clip then t
  else if t.wrapLine.win.height ≤ t.wrapLine.row then t.wrapLine.handleOverflow else t.wrapLine

def backspace : Term :=
  if t.row = 0 ∧ t.col = 0 then t
  else
    let t := { t with col := wrap (t.col - 1) }
    let t := if t.col < 0 then { t with col := wrap (t.win.width - 1), row := wrap (t.row - 1) } else t
    t.setc t.row t.col t.color 0

def ansiPosParam (i : Fin csiMaxParam) : ℤ :=
  let param := t.parser.csiParam i
  let param := if param = 0 then 1 else param
  wrap (param - 1)

def executeAnsiEscape : Term :=
  if t.parser.cmd = ansiCup then t.termSetpos (t.ansiPosParam 0) (t.ansiPosParam 1)
  else if t.parser.cmd = ansiEl then t.eraseLine (t.parser.csiParam 0)
  else if t.parser.cmd = ansiEd then t.eraseDisplay (t.parser.csiParam 0)
  else t

def clearCursor : Term :=
  if t.cursorVisible then { t.setcolor t.row t.col t.color with cursorVisible := false } else t

def writeCursor : Term :=
  if t.showCursor then
    let t := t.moveCursorIntoBounds
    { t.setcolor t.row t.col (t.cursorColor.setWidth 8) with cursorVisible := true }
  else t

def putCharacter (ch : ℤ) : Term :=
  if ch = 0x0a then t.termSetpos (wrap (t.row + 1)) 0
  else if ch = 0x0d then t.termSetpos t.row 0
  else if ch = 0x08 then t.backspace
  else { t.setc t.row t.col t.color ch with col := wrap (t.col + 1) }

/-- What `term_putc` does with a character that is not part of an escape sequence. -/
def handleCharacter (ch : ℤ) : Term := (t.moveCursorIntoBounds.putCharacter ch).writeCursor

/-- What `term_putc` does with the answer of the parser. -/
def answer (ch : ℤ) : Term :=
  if ch = -apsEscape ∨ ch = -apsInvalid ∨ ch = -apsUnimplemented then t
  else if ch = -apsFinal then t.executeAnsiEscape
  else t.handleCharacter ch

end Term

/-- What a store to `csi_param` outside the array does, by the index and the digit, if it returns. -/
abbrev StrayStore := ℤ → ℤ → Term → Option Term

namespace Term

variable (stray : StrayStore)

def termPutc (t : Term) (ch : ℤ) : Option Term :=
  let t := t.clearCursor
  if t.parser.Stray ch then stray t.parser.paramNum (ch - 0x30) t
  else
    let (parser, ch) := t.parser.ansiParsePutc ch
    some (({ t with parser } : Term).answer ch)

/-- `term_write`: the bytes are signed characters. -/
def termWrite (t : Term) (bytes : List (BitVec 8)) : Option Term :=
  bytes.foldlM (fun t byte => t.termPutc stray byte.toInt) t

/-- `term_puts`: the bytes in front of the terminator. -/
def termPuts (t : Term) (str : List (BitVec 8)) : Option Term := t.termWrite stray (str.takeWhile (· ≠ 0#8))

end Term

end MicroOs.Terminal
