import MicroOs.Library.ByteMemory
import MicroOs.Library.RingView

/-! # Mailboxes

A mailbox keeps messages of any length in a circular array of bytes. A message is its size, as a 32-bit word, and its
body; it may wrap around the end of the array anywhere. `head` is where the next message goes and `tail` is where the
oldest one starts. When both are equal the array is either full or empty, and the number of messages tells which.
-/

namespace MicroOs.Ipc

open BitVec List Function Memory

abbrev Byte := BitVec 8

def bufferSize : BitVec 32 := 1024#32

def msgTHeaderSize : BitVec 32 := 4#32

/-- A mailbox without its lock and conditions, with what lies around the buffer in memory. -/
structure Mbox where
  used : BitVec 32 := 0#32
  count : BitVec 32 := 0#32
  head : BitVec 32 := 0#32
  tail : BitVec 32 := 0#32
  buffer : ℤ → Byte

/-- How often the body of `for (i = 0; i < bytes; i++)` is executed. -/
def turns (bytes : BitVec 32) : ℕ := bytes.toInt.toNat

/-- `(start + i) % BUFFER_SIZE` for `int` operands. -/
def bufferIndex (start : BitVec 32) (i : ℕ) : ℤ := ((start + BitVec.ofNat 32 i).srem bufferSize).toInt

/-- Copy bytes from the buffer, starting at `start`, to memory. -/
def bufferToMsg (buf : ℤ → Byte) (start : BitVec 32) (msg : Memory) (address : ℕ) (bytes : BitVec 32) : Memory :=
  (range (turns bytes)).foldl (fun msg i => msg.writeByte (address + i) (buf (bufferIndex start i))) msg

/-- Copy bytes from memory to the buffer, starting at `start`. -/
def msgToBuffer (msg : Memory) (bytes : BitVec 32) (buf : ℤ → Byte) (start : BitVec 32) : ℤ → Byte :=
  (range (turns bytes)).foldl (fun buf i => update buf (bufferIndex start i) (msg i)) buf

/-- The field `size` of the message at the start of a piece of memory. -/
def size (m : Memory) : BitVec 32 := m.readWord 0

def msgSize (m : Memory) : BitVec 32 := msgTHeaderSize + size m

namespace Mbox

variable (q : Mbox)

/-- The number of bytes available in the queue. -/
def spaceAvailable : BitVec 32 :=
  if q.tail = q.head ∧ q.count ≠ 0#32 then 0#32
  else if q.head.slt q.tail then q.tail - q.head
  else q.tail + bufferSize - q.head

/-- What `mbox_open` does to a mailbox under its lock. -/
def opened : Mbox :=
  let q := if q.used = 0#32 then { q with head := 0#32, tail := 0#32, count := 0#32 } else q
  { q with used := q.used + 1#32 }

/-! The statements of `mbox_send` behind the loop that waits for space. -/

def copyIn (m : Memory) : Mbox := { q with buffer := msgToBuffer m (msgSize m) q.buffer q.head }

def moveHead (m : Memory) : Mbox := { q with head := (q.head + msgSize m).srem bufferSize }

def countUp : Mbox := { q with count := q.count + 1#32 }

/-! The statements of `mbox_recv` behind the loop that waits for a message. -/

def headerOut (m : Memory) : Memory := bufferToMsg q.buffer q.tail m 0 msgTHeaderSize

def skipHeader : Mbox := { q with tail := (q.tail + msgTHeaderSize) % bufferSize }

def bodyOut (m : Memory) : Memory := bufferToMsg q.buffer q.tail m 4 (size m)

def moveTail (m : Memory) : Mbox := { q with tail := (q.tail + msgSize m - msgTHeaderSize) % bufferSize }

def countDown : Mbox := { q with count := q.count - 1#32 }

end Mbox

def content (m : Memory) : List Byte := (range (turns (msgSize m))).map m

/-- The size is between 0 and `BUFFER_SIZE - MSG_T_HEADER_SIZE`. -/
def Fits (m : Memory) : Prop := (size m).toNat ≤ 1020

instance (m : Memory) : Decidable (Fits m) := Nat.decLe ..

variable {q : Mbox} {m : Memory} {start bytes : BitVec 32} {queue : List (List Byte)}

theorem turns_eq (small : bytes.toNat < 2 ^ 31) : turns bytes = bytes.toNat := by
  rw [turns, toInt_eq_toNat_of_lt (by omega), Int.toNat_natCast]

theorem bufferIndex_eq {i : ℕ} (small : start.toNat + i < 2 ^ 31) :
    bufferIndex start i = ((start.toNat + i) % 1024 : ℕ) := by
  have sum : (start + BitVec.ofNat 32 i).toNat = start.toNat + i := by
    rw [toNat_add, toNat_ofNat]
    omega
  rw [bufferIndex, toInt_srem, toInt_eq_toNat_of_lt (by omega), sum]
  rfl

theorem srem_toNat {x : BitVec 32} (small : x.toNat < 2 ^ 31) : (x.srem bufferSize).toNat = x.toNat % 1024 := by
  have small' : (BitVec.ofNat 32 (x.toNat % 1024)).toNat = x.toNat % 1024 := by
    rw [toNat_ofNat]
    omega
  have value : x.srem bufferSize = BitVec.ofNat 32 (x.toNat % 1024) := by
    apply eq_of_toInt_eq
    rw [toInt_srem, toInt_eq_toNat_of_lt (show 2 * x.toNat < 2 ^ 32 by omega),
      toInt_eq_toNat_of_lt (show 2 * (BitVec.ofNat 32 (x.toNat % 1024)).toNat < 2 ^ 32 by omega), small']
    rfl
  rw [value, small']

/-- The array as cells with natural positions. -/
def cells (buf : ℤ → Byte) (i : ℕ) : Byte := buf i

theorem cells_update (buf : ℤ → Byte) (i : ℕ) (byte : Byte) :
    cells (update buf i byte) = update (cells buf) i byte := by
  funext j
  simp only [cells, update_apply, Nat.cast_inj]

theorem msgToBuffer_cells (buf : ℤ → Byte) (small : start.toNat + turns bytes ≤ 2 ^ 31) :
    cells (msgToBuffer m bytes buf start) = ringWrite (cells buf) 1024 start.toNat (turns bytes) m := by
  rw [msgToBuffer]
  generalize turns bytes = count at small
  induction count with
  | zero => rfl
  | succ count ih =>
    rw [range_succ, foldl_append, ringWrite_succ, ← ih (by omega)]
    simp only [foldl_cons, foldl_nil]
    rw [bufferIndex_eq (by omega), cells_update]

theorem bufferToMsg_eq (buf : ℤ → Byte) (start : BitVec 32) (msg : Memory) (address : ℕ) (bytes : BitVec 32) :
    bufferToMsg buf start msg address bytes = msg.blit address (turns bytes) fun i => buf (bufferIndex start i) := by
  rw [bufferToMsg]
  generalize turns bytes = count
  induction count with
  | zero =>
    funext query
    simp [blit]
  | succ count ih =>
    rw [range_succ, foldl_append, ih]
    funext query
    simp only [foldl_cons, foldl_nil, writeByte, update_apply, blit]
    by_cases last : query = address + count
    · subst last
      simp
    · rw [if_neg last]
      congr 1
      simp only [eq_iff_iff]
      omega

theorem Fits.msgSize (fits : Fits m) : (Ipc.msgSize m).toNat = 4 + (size m).toNat := by
  rw [Fits] at fits
  rw [Ipc.msgSize, msgTHeaderSize, toNat_add, toNat_ofNat]
  omega

theorem Fits.turns (fits : Fits m) : Ipc.turns (Ipc.msgSize m) = 4 + (size m).toNat := by
  have small := fits
  rw [Fits] at small
  rw [turns_eq (by rw [fits.msgSize]; omega), fits.msgSize]

theorem Fits.content_length (fits : Fits m) : (content m).length = 4 + (size m).toNat := by
  rw [content, length_map, length_range, fits.turns]

theorem content_eq_of_bytes {m' : Memory} (fits : Fits m) (same : ∀ i < 4 + (size m).toNat, m' i = m i) :
    Fits m' ∧ content m' = content m := by
  have sizes : size m' = size m := readWord_congr fun query _ bound => same query (by omega)
  have fits' : Fits m' := by rwa [Fits, sizes]
  refine ⟨fits', ?_⟩
  rw [content, content, fits'.turns, fits.turns, sizes, map_inj_left]
  intro i member
  exact same i (mem_range.mp member)

/-- The mailbox holds the messages of `queue`, oldest first. -/
structure Stored (q : Mbox) (queue : List (List Byte)) : Prop where
  count : q.count.toNat = queue.length
  tail : q.tail.toNat < 1024
  head : q.head.toNat = (q.tail.toNat + queue.flatten.length) % 1024
  room : queue.flatten.length ≤ 1024
  view : ringView (cells q.buffer) 1024 q.tail.toNat queue.flatten.length = queue.flatten
  framed : ∀ message ∈ queue, ∃ m, Fits m ∧ message = content m

theorem stored_opened (unused : q.used = 0#32) : Stored q.opened [] := by
  rw [Mbox.opened, if_pos unused]
  exact ⟨rfl, Nat.zero_lt_succ _, rfl, Nat.zero_le _, rfl, by simp⟩

section Stored

variable (stored : Stored q queue)

include stored

theorem Stored.four_mul_length_le : 4 * queue.length ≤ queue.flatten.length := by
  have framed := stored.framed
  clear stored
  induction queue with
  | nil => rfl
  | cons message queue ih =>
    obtain ⟨m, fits, rfl⟩ := framed message (by simp)
    have rest := ih fun message member => framed message (by simp [member])
    rw [flatten_cons, length_append, fits.content_length, length_cons]
    omega

theorem Stored.spaceAvailable : q.spaceAvailable.toNat = 1024 - queue.flatten.length := by
  have count := stored.count
  have head := stored.head
  have tail := stored.tail
  have room := stored.room
  have length := stored.four_mul_length_le
  have signed (x y : BitVec 32) (hx : x.toNat < 1024) (hy : y.toNat < 1024) : x.slt y = true ↔ x.toNat < y.toNat := by
    rw [slt_iff_toInt_lt, toInt_eq_toNat_of_lt (by omega), toInt_eq_toNat_of_lt (by omega)]
    omega
  have empty : q.count ≠ 0#32 ↔ queue.length ≠ 0 := by
    rw [← count, ne_eq, ← toNat_inj]
    rfl
  rw [Mbox.spaceAvailable]
  split_ifs with same wrapped
  · have equal : q.tail.toNat = q.head.toNat := by rw [same.1]
    have nonempty := empty.mp same.2
    simp only [toNat_zero]
    omega
  · rw [signed _ _ (by omega) tail] at wrapped
    rw [toNat_sub_of_le (by rw [le_def]; omega)]
    omega
  · rw [signed _ _ (by omega) tail] at wrapped
    have different : q.tail.toNat = q.head.toNat → queue.length = 0 := by
      intro equal
      by_contra nonempty
      exact same ⟨eq_of_toNat_eq equal, empty.mpr nonempty⟩
    have none : queue.length = 0 → queue.flatten.length = 0 := by
      intro zero
      rw [eq_nil_of_length_eq_zero zero]
      rfl
    rw [toNat_sub, toNat_add, bufferSize]
    simp only [reduceToNat]
    omega

theorem Stored.space_iff (fits : Fits m) :
    q.spaceAvailable.slt (msgSize m) = false ↔ queue.flatten.length + (content m).length ≤ 1024 := by
  have space := stored.spaceAvailable
  have length := fits.msgSize
  have bound : (size m).toNat ≤ 1020 := fits
  rw [Bool.eq_false_iff, ne_eq, slt_iff_toInt_lt, toInt_eq_toNat_of_lt (by omega),
    toInt_eq_toNat_of_lt (by omega), fits.content_length]
  omega

theorem Stored.send (fits : Fits m) (room : q.spaceAvailable.slt (msgSize m) = false) :
    Stored ((q.copyIn m).moveHead m).countUp (queue ++ [content m]) := by
  have enough := (stored.space_iff fits).mp room
  have length := stored.four_mul_length_le
  have longer : (queue ++ [content m]).flatten = queue.flatten ++ content m := by simp
  have headBound : q.head.toNat < 1024 := by
    rw [stored.head]
    omega
  refine ⟨?_, stored.tail, ?_, ?_, ?_, ?_⟩
  · have count := stored.count
    simp only [Mbox.countUp, Mbox.moveHead, Mbox.copyIn, toNat_add, length_append, length_singleton]
    simp only [reduceToNat]
    omega
  · have sum : (q.head + msgSize m).toNat = q.head.toNat + (content m).length := by
      rw [toNat_add, fits.msgSize, fits.content_length]
      rw [fits.content_length] at enough
      omega
    simp only [Mbox.countUp, Mbox.moveHead, Mbox.copyIn]
    rw [srem_toNat (by omega), sum, stored.head, longer, length_append, Nat.mod_add_mod, Nat.add_assoc]
  · rw [longer, length_append]
    exact enough
  · simp only [Mbox.countUp, Mbox.moveHead, Mbox.copyIn]
    rw [msgToBuffer_cells q.buffer (by rw [fits.turns, ← fits.content_length]; omega), stored.head, ringWrite_mod,
      longer, length_append, fits.content_length, ← fits.turns, ringView_write _ m, stored.view]
    · rfl
    · rw [fits.turns, ← fits.content_length]
      exact enough
  · intro message member
    rcases mem_append.mp member with old | new
    · exact stored.framed message old
    · rw [mem_singleton] at new
      exact ⟨m, fits, new⟩

end Stored

theorem skipHeader_tail (q : Mbox) : q.skipHeader.tail.toNat = (q.tail.toNat + 4) % 1024 := by
  simp only [Mbox.skipHeader, msgTHeaderSize, bufferSize, toNat_umod, toNat_add, reduceToNat]
  omega

section Oldest

variable {message : List Byte} (stored : Stored q (message :: queue))

include stored

theorem Stored.oldest : ∃ m, Fits m ∧ message = content m ∧
    (∀ i < 4 + (size m).toNat, cells q.buffer ((q.tail.toNat + i) % 1024) = m i) ∧
    ringView (cells q.buffer) 1024 (q.tail.toNat + message.length) queue.flatten.length = queue.flatten := by
  obtain ⟨m, fits, rfl⟩ := stored.framed message (by simp)
  have view := stored.view
  rw [flatten_cons, length_append, ringView_add] at view
  obtain ⟨first, rest⟩ := append_inj view (by simp)
  refine ⟨m, fits, rfl, ?_, rest⟩
  rw [fits.content_length, content, fits.turns] at first
  exact (ringView_eq_map_iff _).mp first

theorem Stored.received_bytes (dest : Memory) : ∃ m, Fits m ∧ message = content m ∧
    ∀ i < 4 + (size m).toNat, q.skipHeader.bodyOut (q.headerOut dest) i = m i := by
  obtain ⟨m, fits, same, bytes, -⟩ := stored.oldest
  have tail := stored.tail
  have skipped := skipHeader_tail q
  have small : (size m).toNat ≤ 1020 := fits
  have index (start : BitVec 32) (i : ℕ) (bound : start.toNat < 1024) (inside : i < 1024) :
      q.buffer (bufferIndex start i) = cells q.buffer ((start.toNat + i) % 1024) := by
    rw [bufferIndex_eq (by omega), cells]
  have header (i : ℕ) (bound : i < 4) : q.headerOut dest i = m i := by
    have inside : 0 ≤ i ∧ i < 0 + turns msgTHeaderSize := by
      rw [show turns msgTHeaderSize = 4 by decide]
      omega
    rw [Mbox.headerOut, bufferToMsg_eq, blit_inside _ _ inside, Nat.sub_zero, index _ _ tail (by omega),
      bytes i (by omega)]
  have sizes : size (q.headerOut dest) = size m := readWord_congr fun i _ bound => header i (by omega)
  have count : turns (size (q.headerOut dest)) = (size m).toNat := by rw [sizes, turns_eq (by omega)]
  refine ⟨m, fits, same, ?_⟩
  intro i bound
  rw [Mbox.bodyOut, bufferToMsg_eq]
  rcases Nat.lt_or_ge i 4 with inHeader | inBody
  · rw [blit_outside _ _ (.inl inHeader), header i inHeader]
  · have position : (q.skipHeader.tail.toNat + (i - 4)) % 1024 = (q.tail.toNat + i) % 1024 := by omega
    rw [blit_inside _ _ ⟨inBody, by omega⟩]
    refine (index _ _ (by omega) (by omega)).trans ?_
    rw [position, bytes i bound]

theorem Stored.receive (dest : Memory) :
    content (q.skipHeader.bodyOut (q.headerOut dest)) = message ∧
      Stored (q.skipHeader.moveTail (q.skipHeader.bodyOut (q.headerOut dest))).countDown queue := by
  obtain ⟨m, fits, same, bytes⟩ := stored.received_bytes dest
  obtain ⟨-, -, -, -, rest⟩ := stored.oldest
  obtain ⟨fits', alike⟩ := content_eq_of_bytes fits bytes
  have length : message.length = 4 + (size (q.skipHeader.bodyOut (q.headerOut dest))).toNat := by
    rw [same, ← alike, fits'.content_length]
  generalize q.skipHeader.bodyOut (q.headerOut dest) = received at *
  have skipped := skipHeader_tail q
  have count := stored.count
  have room := stored.room
  have head := stored.head
  rw [flatten_cons, length_append] at room head
  have tail : ((q.skipHeader.moveTail received).countDown).tail.toNat = (q.tail.toNat + message.length) % 1024 := by
    have size := fits'.msgSize
    simp only [Mbox.countDown, Mbox.moveTail, msgTHeaderSize, bufferSize, toNat_umod, toNat_add, toNat_sub, reduceToNat]
    omega
  refine ⟨by rw [alike, same], ?_, ?_, ?_, by omega, ?_, ?_⟩
  · simp only [Mbox.countDown, Mbox.moveTail, Mbox.skipHeader, toNat_sub, reduceToNat]
    rw [length_cons] at count
    omega
  · omega
  · rw [tail, Nat.mod_add_mod, Nat.add_assoc]
    exact head
  · rw [tail, ringView_mod]
    exact rest
  · intro message member
    exact stored.framed message (by simp [member])

end Oldest

end MicroOs.Ipc
