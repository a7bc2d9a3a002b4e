import MicroOs.Libc.WellFormed

/-! # Printing to a bounded buffer

`vsnprintf` prints to a stream whose buffer is the caller's. A character is stored if the write pointer is below the
end of the buffer, and the pointer is advanced in any case, so that it counts what a larger buffer would have
received. The terminator is placed afterwards.

The count is right for every output shorter than `2 ^ 31`, but the pointer is a word: an output that takes it past the
last address brings it back to zero, below the end of the buffer again, and the characters from there on are stored at
the low addresses. Up to that length the buffer gets what fits of the output with its terminator, and no other byte is
stored.
-/

namespace MicroOs.Libc

open List

inductive BufferMode
  | ioFbf | ioLbf | ioNbf
deriving DecidableEq

structure File where
  writeBase : BitVec 32 := 0
  writePtr : BitVec 32 := 0
  writeEnd : BitVec 32 := 0
  bufferMode : BufferMode := .ioFbf
  writtenFlushedCt : BitVec 32 := 0
  error : ℤ := 0

/-- A stream, with the byte last stored to each address since the call began. -/
structure Output where
  file : File := {}
  stored : BitVec 32 → Option Byte := fun _ => none

def ferror (file : File) : Bool := file.error ≠ 0

def writtenCt (file : File) : BitVec 32 := file.writtenFlushedCt + (file.writePtr - file.writeBase)

def setvbuf (file : File) (buffer : BitVec 32) (mode : BufferMode) (size : BitVec 32) : File :=
  let file := if buffer ≠ 0 then
      { file with writeBase := buffer, writePtr := buffer, writeEnd := buffer + size } else file
  { file with bufferMode := mode }

def fflushNoop (o : Output) : Output := o

def fileInitStringIo (buf bufsz : BitVec 32) : File := setvbuf {} buf .ioFbf bufsz

def Output.store (o : Output) (address : BitVec 32) (byte : Byte) : Output :=
  { o with stored := Function.update o.stored address (some byte) }

def fputc (o : Output) (ch : Byte) : Output :=
  let o := if o.file.writePtr < o.file.writeEnd then o.store o.file.writePtr ch else o
  let o := { o with file.writePtr := o.file.writePtr + 1 }
  if o.file.bufferMode = .ioNbf ∨ (o.file.bufferMode = .ioLbf ∧ ch = ascii '\n') ∨
    o.file.writePtr = o.file.writeEnd then
    fflushNoop o
  else o

def Output.put (o : Output) (chars : List Byte) : Output := chars.foldl fputc o

/-- `vsnprintf`, given what `vfprintf` puts and how it ends: what is stored and returned, if the format is followed
to its end. -/
def vsnprintfOf (output : List Byte × Status) (buf bufsz : BitVec 32) : Option (Output × ℤ) :=
  let start : Output := { file := fileInitStringIo buf bufsz }
  let (chars, status) := output
  let o := start.put chars
  match status with
  | .stuck => none
  | .failed code => some (o, code)
  | .done =>
    let count := if ferror o.file then -eio else (writtenCt o.file - writtenCt start.file).toInt
    if count < 0 then some (o, count)
    else if sizeT count < bufsz.toNat then some (o.store (buf + BitVec.ofInt 32 count) 0, count)
    else if bufsz ≠ 0 then some (o.store (buf + bufsz - 1) 0, count)
    else some (o, count)

def vsnprintf (memory : Memory) (buf bufsz : BitVec 32) (format : List Byte) (args : ℕ) : Option (Output × ℤ) :=
  vsnprintfOf (vfprintf memory format args) buf bufsz

namespace Output

variable (o : Output) (ch : Byte) (chars more : List Byte)

theorem put_append : o.put (chars ++ more) = (o.put chars).put more := foldl_append

theorem put_cons : o.put (ch :: chars) = (fputc o ch).put chars := rfl

theorem store_stored (place : BitVec 32) (byte : Byte) (address : BitVec 32) :
    (o.store place byte).stored address = if address = place then some byte else o.stored address :=
  Function.update_apply ..

theorem fputc_eq : fputc o ch = { (if o.file.writePtr < o.file.writeEnd then o.store o.file.writePtr ch else o) with
      file := { o.file with writePtr := o.file.writePtr + 1 } } := by
  unfold fputc fflushNoop
  simp only [ite_self]
  split <;> rfl

theorem fputc_file : (fputc o ch).file = { o.file with writePtr := o.file.writePtr + 1 } := by
  rw [fputc_eq]

theorem fputc_stored (address : BitVec 32) : (fputc o ch).stored address =
    if o.file.writePtr < o.file.writeEnd ∧ address = o.file.writePtr then some ch else o.stored address := by
  rw [fputc_eq]
  by_cases room : o.file.writePtr < o.file.writeEnd
  · simp [room, store_stored]
  · simp [room]

theorem put_file : (o.put chars).file = { o.file with writePtr := o.file.writePtr + BitVec.ofNat 32 chars.length } := by
  induction chars generalizing o with
  | nil => simp [put]
  | cons ch chars ih =>
    have counted : o.file.writePtr + 1 + BitVec.ofNat 32 chars.length =
        o.file.writePtr + BitVec.ofNat 32 (chars.length + 1) := by bv_omega
    simp only [put_cons, ih, fputc_file, length_cons, counted]

theorem put_writePtr (fits : o.file.writePtr.toNat + chars.length < 2 ^ 32) :
    (o.put chars).file.writePtr.toNat = o.file.writePtr.toNat + chars.length := by
  rw [put_file]
  simp only [BitVec.toNat_add, BitVec.toNat_ofNat]
  omega

theorem put_stored (fits : o.file.writePtr.toNat + chars.length ≤ 2 ^ 32) (address : BitVec 32) :
    (o.put chars).stored address =
      if o.file.writePtr.toNat ≤ address.toNat ∧ address.toNat < o.file.writeEnd.toNat ∧
          address.toNat < o.file.writePtr.toNat + chars.length then
        chars[address.toNat - o.file.writePtr.toNat]?
      else o.stored address := by
  induction chars using reverseRecOn with
  | nil =>
    rw [if_neg (by simp only [length_nil]; omega)]
    rfl
  | append_singleton chars ch ih =>
    rw [length_append, length_singleton] at fits ⊢
    have pointer := o.put_writePtr chars (by omega)
    have before := ih (by omega)
    have ending : (o.put chars).file.writeEnd = o.file.writeEnd := by rw [put_file]
    have here : address = (o.put chars).file.writePtr ↔ address.toNat = o.file.writePtr.toNat + chars.length := by
      rw [← pointer, BitVec.toNat_inj]
    rw [put_append, show (o.put chars).put [ch] = fputc (o.put chars) ch from rfl, fputc_stored, before, ending]
    simp only [here, BitVec.lt_def, pointer]
    grind

theorem put_stored_ne_none {address : BitVec 32} (stored : o.stored address ≠ none) :
    (o.put chars).stored address ≠ none := by
  induction chars generalizing o with
  | nil => exact stored
  | cons ch chars ih =>
    apply ih
    rw [fputc_stored]
    split
    · exact Option.some_ne_none _
    · exact stored

/-- A pointer that comes round stores to address zero. -/
theorem put_stored_zero (comes : 2 ^ 32 < o.file.writePtr.toNat + chars.length) (room : 0 < o.file.writeEnd) :
    (o.put chars).stored 0 ≠ none := by
  obtain ⟨ahead, ch, rest, split, round⟩ : ∃ ahead ch rest, chars = ahead ++ ch :: rest ∧
      ahead.length = 2 ^ 32 - o.file.writePtr.toNat := by
    have bound : 2 ^ 32 - o.file.writePtr.toNat < chars.length := by omega
    refine ⟨_, chars.get ⟨_, bound⟩, chars.drop (2 ^ 32 - o.file.writePtr.toNat + 1), ?_,
      length_take_of_le (Nat.le_of_lt bound)⟩
    rw [get_eq_getElem, ← drop_eq_getElem_cons bound, take_append_drop]
  rw [split, put_append, put_cons]
  apply put_stored_ne_none
  have pointer : (o.put ahead).file.writePtr = 0 := by
    rw [put_file, round]
    bv_omega
  have ending : (o.put ahead).file.writeEnd = o.file.writeEnd := by rw [put_file]
  rw [fputc_stored, pointer, ending, if_pos ⟨room, rfl⟩]
  exact Option.some_ne_none _

theorem writtenCt_put : writtenCt (o.put chars).file - writtenCt o.file = BitVec.ofNat 32 chars.length := by
  rw [put_file]
  simp only [writtenCt]
  bv_omega

end Output

/-- The bytes stored for an output: what fits, then the terminator. -/
def boundedOutput (full : List Byte) (buf n address : ℕ) : Option Byte :=
  if n = 0 ∨ address < buf then none
  else if address - buf < min (n - 1) full.length then full[address - buf]?
  else if address - buf = min (n - 1) full.length then some 0
  else none

/-- The call returns the length of the output and stores the bounded output and nothing else. -/
def PrintsBounded (memory : Memory) (buf n : BitVec 32) (format : List Byte) (args : ℕ) : Prop :=
  ∃ o, vsnprintf memory buf n format args = some (o, ((vfprintf memory format args).1.length : ℤ)) ∧
    ∀ address, o.stored address = boundedOutput (vfprintf memory format args).1 buf.toNat n.toNat address.toNat

def printed (memory : Memory) (buf n : BitVec 32) (format : List Byte) (args : ℕ) : Output :=
  ({ file := fileInitStringIo buf n } : Output).put (vfprintf memory format args).1

/-- The terminator is put behind the output or on the last byte of the buffer. -/
def terminate (o : Output) (buf n : BitVec 32) (count : ℕ) : Output :=
  if count < n.toNat then o.store (buf + BitVec.ofNat 32 count) 0
  else if n ≠ 0 then o.store (buf + n - 1) 0
  else o

section

variable {memory : Memory} {buf n : BitVec 32} {format : List Byte} {args : ℕ}

theorem vsnprintfOf_done (chars : List Byte) (buf n : BitVec 32) :
    vsnprintfOf (chars, .done) buf n =
      let o := Output.put { file := fileInitStringIo buf n } chars
      let count := (BitVec.ofNat 32 chars.length).toInt
      if count < 0 then some (o, count)
      else if sizeT count < n.toNat then some (o.store (buf + BitVec.ofInt 32 count) 0, count)
      else if n ≠ 0 then some (o.store (buf + n - 1) 0, count)
      else some (o, count) := by
  have error : ferror (Output.put { file := fileInitStringIo buf n } chars).file = false := by
    rw [Output.put_file]
    unfold fileInitStringIo setvbuf
    split <;> rfl
  have counted : writtenCt (Output.put { file := fileInitStringIo buf n } chars).file -
      writtenCt (fileInitStringIo buf n) = BitVec.ofNat 32 chars.length := Output.writtenCt_put _ _
  simp [vsnprintfOf, error, counted]

theorem vsnprintfOf_short {chars : List Byte} (short : chars.length < 2 ^ 31) (buf n : BitVec 32) :
    vsnprintfOf (chars, .done) buf n =
      some (terminate (Output.put { file := fileInitStringIo buf n } chars) buf n chars.length,
        (chars.length : ℤ)) := by
  have count : (BitVec.ofNat 32 chars.length).toInt = chars.length := by
    rw [BitVec.toInt_eq_toNat_of_lt] <;> simp only [BitVec.toNat_ofNat] <;> omega
  have size : sizeT chars.length = chars.length := by
    unfold sizeT
    omega
  have positive : ¬(chars.length : ℤ) < 0 := by omega
  simp only [vsnprintfOf_done, count, size, positive, if_false, terminate, BitVec.ofInt_natCast]
  split
  · rfl
  · split
    · rfl
    · rfl

/-- A call that comes to the end of its format returns the length of the output, if an `int` can hold it. -/
theorem vsnprintf_done (done : (vfprintf memory format args).2 = .done)
    (short : (vfprintf memory format args).1.length < 2 ^ 31) :
    vsnprintf memory buf n format args =
      some (terminate (printed memory buf n format args) buf n (vfprintf memory format args).1.length,
        ((vfprintf memory format args).1.length : ℤ)) := by
  have ended : vfprintf memory format args = ((vfprintf memory format args).1, .done) := Prod.ext rfl done
  exact (congrArg (vsnprintfOf · buf n) ended).trans (vsnprintfOf_short short buf n)

theorem terminate_stored (o : Output) (count : ℕ) (address : BitVec 32) :
    (terminate o buf n count).stored address =
      if n ≠ 0 ∧ address = buf + BitVec.ofNat 32 (min (n.toNat - 1) count) then some 0 else o.stored address := by
  have positive : n ≠ 0 ↔ 0 < n.toNat := by
    rw [← BitVec.toNat_inj.ne]
    exact Nat.pos_iff_ne_zero.symm
  unfold terminate
  by_cases inside : count < n.toNat
  · have place : min (n.toNat - 1) count = count := by omega
    simp only [inside, if_true, Output.store_stored, place, positive.mpr (by omega), ne_eq, not_false_eq_true, true_and]
  · by_cases empty : n = 0
    · simp [empty]
    · have place : buf + BitVec.ofNat 32 (min (n.toNat - 1) count) = buf + n - 1 := by
        bv_omega
      simp only [inside, if_false, ne_eq, empty, not_false_eq_true, if_true, Output.store_stored, place, true_and]

/-- What a caller may pass: the null pointer for no bytes, or a buffer with an address behind its end. -/
def ValidBuffer (buf n : BitVec 32) : Prop := buf = 0 ∧ n = 0 ∨ buf ≠ 0 ∧ buf.toNat + n.toNat < 2 ^ 32

theorem fileInitStringIo_of_ne (here : buf ≠ 0) :
    (fileInitStringIo buf n).writePtr = buf ∧ (fileInitStringIo buf n).writeEnd = buf + n := by
  simp only [fileInitStringIo, setvbuf, here, ne_eq, not_false_eq_true, if_true, and_self]

theorem bounded_null (short : (vfprintf memory format args).1.length < 2 ^ 31) (address : BitVec 32) :
    (terminate (printed memory 0 0 format args) 0 0 (vfprintf memory format args).1.length).stored address =
      boundedOutput (vfprintf memory format args).1 0 0 address.toNat := by
  rw [terminate_stored, if_neg (by simp), printed, Output.put_stored]
  · simp [boundedOutput, fileInitStringIo, setvbuf]
  · have start : (fileInitStringIo 0 0).writePtr.toNat = 0 := rfl
    simp only [start]
    omega

/-- What the buffer gets of an output that does not bring the pointer round. -/
theorem bounded_buffer (here : buf ≠ 0) (behind : buf.toNat + n.toNat < 2 ^ 32)
    (fits : buf.toNat + (vfprintf memory format args).1.length ≤ 2 ^ 32) (address : BitVec 32) :
    (terminate (printed memory buf n format args) buf n (vfprintf memory format args).1.length).stored address =
      boundedOutput (vfprintf memory format args).1 buf.toNat n.toNat address.toNat := by
  obtain ⟨start, ending⟩ := fileInitStringIo_of_ne (n := n) here
  have ends : (buf + n).toNat = buf.toNat + n.toNat := by bv_omega
  generalize full : (vfprintf memory format args).1 = chars at fits ⊢
  rw [terminate_stored, printed, full, Output.put_stored _ _ (by rwa [start]), start, ending, ends]
  have last : address = buf + BitVec.ofNat 32 (min (n.toNat - 1) chars.length) ↔
      address.toNat = buf.toNat + min (n.toNat - 1) chars.length := by bv_omega
  have empty : n = 0 ↔ n.toNat = 0 := by bv_omega
  simp only [last, empty, ne_eq, boundedOutput]
  grind

theorem stray_store (here : buf ≠ 0) (done : (vfprintf memory format args).2 = .done)
    (short : (vfprintf memory format args).1.length < 2 ^ 31)
    (comes : 2 ^ 32 < buf.toNat + (vfprintf memory format args).1.length) (behind : buf.toNat + n.toNat < 2 ^ 32) :
    ¬PrintsBounded memory buf n format args := by
  rintro ⟨o, result, exactly⟩
  have call : vsnprintf memory buf n format args = _ := vsnprintf_done done short
  obtain rfl : terminate (printed memory buf n format args) buf n _ = o := by
    rw [call] at result
    exact (Prod.mk.inj (Option.some.inj result)).1
  obtain ⟨start, ending⟩ : (fileInitStringIo buf n).writePtr = buf ∧ (fileInitStringIo buf n).writeEnd = buf + n :=
    fileInitStringIo_of_ne here
  have stray : (printed memory buf n format args).stored 0 ≠ none := by
    apply Output.put_stored_zero
    · rw [start]
      exact comes
    · bv_omega
  have below : boundedOutput (vfprintf memory format args).1 buf.toNat n.toNat (0 : BitVec 32).toNat = none := by
    apply if_pos
    right
    bv_omega
  have nothing := (exactly 0).trans below
  rw [terminate_stored] at nothing
  split at nothing
  · exact Option.some_ne_none _ nothing
  · exact stray nothing

/-- A well-formed format prints bounded output exactly when the output does not take the write pointer past the last
address. -/
theorem prints_bounded_iff (valid : ValidBuffer buf n) (wellFormed : WellFormed format)
    (short : (vfprintf memory format args).1.length < 2 ^ 31) :
    PrintsBounded memory buf n format args ↔
      buf = 0 ∨ buf.toNat + (vfprintf memory format args).1.length ≤ 2 ^ 32 := by
  have done := wellFormed.done memory args
  rcases valid with ⟨rfl, rfl⟩ | ⟨here, behind⟩
  · exact iff_of_true ⟨_, vsnprintf_done done short, bounded_null short⟩ (.inl rfl)
  · constructor
    · intro prints
      right
      by_contra comes
      exact stray_store here done short (by omega) behind prints
    · intro fits
      exact ⟨_, vsnprintf_done done short, bounded_buffer here behind (fits.resolve_left here)⟩

end

def Directive.padded (first : Fin 10) (digits : List (Fin 10)) (leads : first ≠ 0) : Directive where
  flags := []
  width := some (.number first digits)
  width_leads := by
    intro digits same
    cases same
    exact leads rfl
  precision := none
  length := .none
  conversion := .d
  unmodified := fun _ => rfl

def cutFormat : List Byte := [ascii 'n', ascii '='] ++ (Directive.padded 5 [] (by decide)).text

theorem cutFormat_wellFormed : WellFormed cutFormat := by
  have last := WellFormed.directive (.padded 5 [] (by decide)) .nil
  exact .text (by decide) (by decide) (.inr rfl) last

/-- A number in a buffer of four bytes, which it does not fit. -/
theorem prints_bounded_cut_off : PrintsBounded (fun _ => 0) 0xeffffe00 4 cutFormat 0 :=
  (prints_bounded_iff (.inr (by decide)) cutFormat_wellFormed (by decide +kernel)).mpr (.inr (by decide +kernel))

theorem length_fpad_ite {P : Prop} [Decidable P] (ch : Byte) (count : ℤ) :
    (if P then fpad ch count else []).length = if P then count.toNat else 0 := by
  split <;> simp [fpad]

theorem length_fmtStrVal (spec : FmtSpec) (pre : List Byte) (zeropad : ℕ) (val : List Byte) (limit width : ℕ)
    (field : spec.width = width) (widthSmall : width < 2 ^ 31) (limitSmall : limit < 2 ^ 31)
    (small : pre.length + zeropad + min val.length limit < 2 ^ 31) (valSmall : val.length < 2 ^ 31) :
    (fmtStrVal spec pre zeropad val limit).length = max width (pre.length + zeropad + min val.length limit) := by
  have len : sizeT (strlen pre + zeropad + min (strlen val) (wrap limit)) =
      pre.length + zeropad + min val.length limit := by
    rw [strlen, strlen, wrap_natCast (by omega), wrap_natCast valSmall, wrap_natCast limitSmall]
    unfold sizeT
    omega
  have asked : sizeT (width : ℤ) = width := by
    unfold sizeT
    omega
  generalize taken : pre.length + zeropad + min val.length limit = total at len small ⊢
  have padding : (if total < width then sizeT ((width : ℤ) - total) else 0) = width - total := by
    unfold sizeT
    split <;> omega
  simp only [fmtStrVal, len, field, asked, padding, length_append, length_fpad_ite, fputs, fputsn, length_take]
  rw [wrap_natCast (by omega), wrap_natCast (by omega)]
  cases spec.left <;> simp <;> grind

def wideFormat : List Byte := (Directive.padded 3 [0, 0, 0, 0, 0, 0, 0, 0] (by decide)).text

def wideSpec : FmtSpec :=
  { start := wideFormat, len := 11, width := 300000000, precision := wpUnspecified, specifier := ascii 'd' }

theorem vfprintf_wideFormat : (vfprintf (fun _ => 0) wideFormat 0).1.length = 300000000 := by
  have read : parseSpec wideFormat = some (wideSpec, []) := by decide +kernel
  have adjusted₁ : adjustWidth (fun _ => 0) wideSpec 0 = (wideSpec, 0) := by decide +kernel
  have adjusted₂ : adjustPrecision (fun _ => 0) wideSpec 0 = (wideSpec, 0) := by decide +kernel
  have printed : convert (fun _ => 0) wideSpec 0 = .ok (fmtStrVal wideSpec [] 1 [] intMax, 4) := rfl
  have length : wideFormat.length = 10 + 1 := rfl
  rw [vfprintf, length, vfprintfLoop_round (by decide) read adjusted₁ adjusted₂ printed]
  simp only [vfprintfLoop, append_nil]
  rw [length_fmtStrVal _ _ _ _ _ 300000000 rfl (by decide) (by decide) (by decide) (by decide)]
  rfl

/-- A well-formed format in a buffer of sixteen bytes on the stack of a process. -/
theorem wide_field_strays :
    ValidBuffer 0xeffffe00 16 ∧ WellFormed wideFormat ∧ (vfprintf (fun _ => 0) wideFormat 0).1.length < 2 ^ 31 ∧
      ¬PrintsBounded (fun _ => 0) 0xeffffe00 16 wideFormat 0 := by
  have wellFormed : WellFormed wideFormat := by
    have format := WellFormed.directive (.padded 3 [0, 0, 0, 0, 0, 0, 0, 0] (by decide)) .nil
    rwa [append_nil] at format
  have short : (vfprintf (fun _ => 0) wideFormat 0).1.length < 2 ^ 31 := by
    rw [vfprintf_wideFormat]
    decide
  refine ⟨.inr (by decide), wellFormed, short, ?_⟩
  apply stray_store (by decide) (wellFormed.done _ _) short ?_ (by decide)
  rw [vfprintf_wideFormat]
  decide

end MicroOs.Libc
