import Mathlib.Data.BitVec

/-! # Byte-addressed memory with little-endian words

A memory is a total function from natural addresses to bytes. Word accesses are defined through
their four bytes, so that a structure read as words and a buffer read as bytes can share the same
storage. Bulk updates are given by their effect on an interval, and each operation comes with what it
leaves unchanged.
-/

namespace MicroOs

variable {address query length : ℕ}

abbrev Memory := ℕ → BitVec 8

namespace Memory

/-- The 32-bit word whose least significant byte is at `address`. -/
def readWord (memory : Memory) (address : ℕ) : BitVec 32 :=
  memory (address + 3) ++ memory (address + 2) ++ memory (address + 1) ++ memory address

/-- Store a 32-bit word, least significant byte first. -/
def writeWord (memory : Memory) (address : ℕ) (word : BitVec 32) : Memory := fun query =>
  if address ≤ query ∧ query < address + 4 then word.extractLsb' (8 * (query - address)) 8
  else memory query

/-- Overwrite `length` bytes from `address` on with `source`, indexed from zero. -/
def blit (memory : Memory) (address length : ℕ) (source : Memory) : Memory := fun query =>
  if address ≤ query ∧ query < address + length then source (query - address) else memory query

def writeByte (memory : Memory) (address : ℕ) (byte : BitVec 8) : Memory :=
  Function.update memory address byte

theorem writeWord_outside (memory : Memory) (word : BitVec 32) (outside : query < address ∨ address + 4 ≤ query) :
    memory.writeWord address word query = memory query := if_neg (by omega)

theorem blit_inside (memory source : Memory) (inside : address ≤ query ∧ query < address + length) :
    memory.blit address length source query = source (query - address) := if_pos inside

theorem blit_outside (memory source : Memory) (outside : query < address ∨ address + length ≤ query) :
    memory.blit address length source query = memory query := if_neg (by omega)

theorem writeByte_same (memory : Memory) (address : ℕ) (byte : BitVec 8) :
    memory.writeByte address byte address = byte := Function.update_self ..

theorem writeByte_ne (memory : Memory) (byte : BitVec 8) (other : query ≠ address) :
    memory.writeByte address byte query = memory query := Function.update_of_ne other ..

theorem readWord_congr {left right : Memory}
    (same : ∀ query, address ≤ query → query < address + 4 → left query = right query) :
    left.readWord address = right.readWord address := by
  simp [readWord, same address (by omega) (by omega), same (address + 1) (by omega) (by omega),
    same (address + 2) (by omega) (by omega), same (address + 3) (by omega) (by omega)]

@[simp] theorem readWord_writeWord (memory : Memory) (address : ℕ) (word : BitVec 32) :
    (memory.writeWord address word).readWord address = word := by
  have first : address ≤ address ∧ address < address + 4 := by omega
  have second : address ≤ address + 1 ∧ address + 1 < address + 4 := by omega
  have third : address ≤ address + 2 ∧ address + 2 < address + 4 := by omega
  have fourth : address ≤ address + 3 ∧ address + 3 < address + 4 := by omega
  simp only [readWord, writeWord, first, second, third, fourth, and_self, if_true, Nat.sub_self,
    Nat.add_sub_cancel_left]
  ext i bound
  simp only [BitVec.getElem_append, BitVec.getElem_extractLsb']
  grind

theorem readWord_writeWord_disjoint (memory : Memory) (word : BitVec 32)
    (disjoint : query + 4 ≤ address ∨ address + 4 ≤ query) :
    (memory.writeWord address word).readWord query = memory.readWord query :=
  readWord_congr fun _ lower upper => writeWord_outside memory word (by omega)

theorem readWord_blit_inside (memory source : Memory) (lower : address ≤ query) (upper : query + 4 ≤ address + length) :
    (memory.blit address length source).readWord query = source.readWord (query - address) := by
  have byte (k : ℕ) (small : k < 4) :
      memory.blit address length source (query + k) = source (query - address + k) := by
    rw [blit_inside memory source (by omega), show query + k - address = query - address + k by omega]
  have first := byte 0 (by omega)
  rw [Nat.add_zero] at first
  simp [readWord, first, byte 1 (by omega), byte 2 (by omega), byte 3 (by omega)]

theorem readWord_writeByte_disjoint (memory : Memory) (byte : BitVec 8)
    (disjoint : query + 4 ≤ address ∨ address < query) :
    (memory.writeByte address byte).readWord query = memory.readWord query :=
  readWord_congr fun _ lower upper => writeByte_ne memory byte (by omega)

theorem readWord_blit_zero (memory : Memory) (lower : address ≤ query) (upper : query + 4 ≤ address + length) :
    (memory.blit address length fun _ => 0#8).readWord query = 0#32 := by
  rw [readWord_blit_inside memory _ lower upper]
  simp only [readWord]
  decide

theorem foldl_writeWord_zero (memory : Memory) (address count : ℕ) :
    (List.range count).foldl (fun memory i => memory.writeWord (address + 4 * i) 0#32) memory =
      memory.blit address (4 * count) fun _ => 0#8 := by
  induction count with
  | zero =>
    funext query
    simp [blit]
  | succ count ih =>
    rw [List.range_succ, List.foldl_append, ih]
    funext query
    simp only [List.foldl_cons, List.foldl_nil, writeWord, blit]
    by_cases last : address + 4 * count ≤ query ∧ query < address + 4 * count + 4
    · rw [if_pos last, if_pos (by omega)]
      simp
    · rw [if_neg last]
      congr 1
      simp only [eq_iff_iff]
      omega

end Memory

end MicroOs
