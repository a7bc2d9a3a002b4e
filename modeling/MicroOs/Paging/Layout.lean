import MicroOs.Library.BitMask
import MicroOs.Library.ByteMemory

/-! # Address constants and page table entries

The constants of `addrs.h`, `common.h` and `memory.h`, the index computations of a two-level page table,
and the two functions that write entries. An entry packs the base address of a page above twelve mode
bits; what later proofs use of it is its base and its single flags.
-/

namespace MicroOs.Paging

open BitMask Memory BitVec

variable {index i : ℕ}

def pageSize : ℕ := 0x1000
def sectorSize : ℕ := 512
def pageNEntries : ℕ := 1024
def pageablePages : ℕ := 33
def pagingAreaMinPaddr : ℕ := 0x100000
def pagingAreaMaxPaddr : ℕ := pagingAreaMinPaddr + pageSize * pageablePages
def kernelSize : ℕ := 0x400000
def vgaTextPaddr : ℕ := 0xb8000
def processVaddr : BitVec 32 := 0x1000000#32
def processStackVaddr : BitVec 32 := 0xeffffff0#32

def peP : BitVec 32 := twoPow 32 0
def peRw : BitVec 32 := twoPow 32 1
def peUs : BitVec 32 := twoPow 32 2
def pePcd : BitVec 32 := twoPow 32 4
def peA : BitVec 32 := twoPow 32 5
def peD : BitVec 32 := twoPow 32 6
def peBaseAddrMask : BitVec 32 := 0xfffff000#32
def modeMask : BitVec 32 := 0x000003ff#32
def pageDirectoryMask : BitVec 32 := 0xffc00000#32
def pageTableMask : BitVec 32 := 0x003ff000#32
def pageDirectoryBits : ℕ := 22
def pageTableBits : ℕ := 12

def getDirectoryIndex (vaddr : BitVec 32) : ℕ := ((vaddr &&& pageDirectoryMask) >>> pageDirectoryBits).toNat

def getTableIndex (vaddr : BitVec 32) : ℕ := ((vaddr &&& pageTableMask) >>> pageTableBits).toNat

theorem getDirectoryIndex_eq (vaddr : BitVec 32) : getDirectoryIndex vaddr = vaddr.toNat / 2 ^ 22 := by
  have mask : pageDirectoryMask = highMask 32 22 := by decide
  rw [getDirectoryIndex, pageDirectoryBits, mask, toNat_ushiftRight, toNat_and_highMask]
  omega

theorem getTableIndex_eq (vaddr : BitVec 32) : getTableIndex vaddr = vaddr.toNat / 4096 % 1024 := by
  have split : (vaddr &&& pageTableMask) >>> pageTableBits = (vaddr >>> 12) &&& 1023#32 := by
    rw [pageTableBits, show pageTableMask = 1023#32 <<< 12 by decide]
    apply eq_of_getLsbD_eq
    intro i bound
    simp only [getLsbD_ushiftRight, getLsbD_and, getLsbD_shiftLeft]
    by_cases small : 12 + i < 32
    · simp [small, show ¬12 + i < 12 by omega]
    · simp [getLsbD_of_ge vaddr (12 + i) (by omega)]
  rw [getTableIndex, split, toNat_and, toNat_ushiftRight, Nat.shiftRight_eq_div_pow]
  exact Nat.and_two_pow_sub_one_eq_mod _ 10

theorem getDirectoryIndex_lt (vaddr : BitVec 32) : getDirectoryIndex vaddr < 1024 := by
  rw [getDirectoryIndex_eq]
  omega

theorem getTableIndex_lt (vaddr : BitVec 32) : getTableIndex vaddr < 1024 := by
  rw [getTableIndex_eq]
  omega

/-- Align an address to its (virtual) page boundary. -/
def pageBase (vaddr : BitVec 32) : BitVec 32 := vaddr &&& peBaseAddrMask

theorem peBaseAddrMask_eq : peBaseAddrMask = highMask 32 12 := by decide

theorem pageBase_toNat (vaddr : BitVec 32) : (pageBase vaddr).toNat = vaddr.toNat / 4096 * 4096 := by
  simp only [pageBase, peBaseAddrMask_eq, toNat_and_highMask, Nat.reducePow]

@[simp] theorem getDirectoryIndex_pageBase (vaddr : BitVec 32) :
    getDirectoryIndex (pageBase vaddr) = getDirectoryIndex vaddr := by
  rw [getDirectoryIndex_eq, getDirectoryIndex_eq, pageBase_toNat]
  omega

@[simp] theorem getTableIndex_pageBase (vaddr : BitVec 32) : getTableIndex (pageBase vaddr) = getTableIndex vaddr := by
  rw [getTableIndex_eq, getTableIndex_eq, pageBase_toNat]
  omega

theorem pageBase_pageBase (vaddr : BitVec 32) : pageBase (pageBase vaddr) = pageBase vaddr := by
  apply eq_of_toNat_eq
  rw [pageBase_toNat, pageBase_toNat]
  omega

theorem pageBase_eq_of_indices {left right : BitVec 32} (directory : getDirectoryIndex left = getDirectoryIndex right)
    (table : getTableIndex left = getTableIndex right) : pageBase left = pageBase right := by
  apply eq_of_toNat_eq
  rw [pageBase_toNat, pageBase_toNat]
  rw [getDirectoryIndex_eq, getDirectoryIndex_eq] at directory
  rw [getTableIndex_eq, getTableIndex_eq] at table
  omega

def entryBase (entry : BitVec 32) : ℕ := (entry &&& peBaseAddrMask).toNat

/-- A page table entry as `table_map_page` and `page_set_mode` compose it. -/
def tableEntry (paddr mode : BitVec 32) : BitVec 32 := (paddr &&& peBaseAddrMask) ||| (mode &&& ~~~peBaseAddrMask)

/-- A page directory entry as `dir_ins_table` composes it. -/
def dirEntry (taddr mode : BitVec 32) : BitVec 32 := (taddr &&& peBaseAddrMask) ||| (mode &&& modeMask)

def tableMapPage (mem : Memory) (table : ℕ) (vaddr paddr mode : BitVec 32) : Memory :=
  mem.writeWord (table + 4 * getTableIndex vaddr) (tableEntry paddr mode)

def dirInsTable (mem : Memory) (directory : ℕ) (vaddr : BitVec 32) (table : ℕ) (mode : BitVec 32) : Memory :=
  mem.writeWord (directory + 4 * getDirectoryIndex vaddr) (dirEntry (BitVec.ofNat 32 table) mode)

theorem tableEntry_eq_pack (paddr mode : BitVec 32) : tableEntry paddr mode = pack 12 paddr mode := by
  rw [tableEntry, peBaseAddrMask_eq, pack]

theorem dirEntry_eq_pack (taddr mode : BitVec 32) : dirEntry taddr mode = pack 12 taddr (mode &&& modeMask) := by
  apply eq_of_getLsbD_eq
  intro i bound
  rw [getLsbD_pack, dirEntry, peBaseAddrMask_eq]
  simp only [getLsbD_or, getLsbD_and, getLsbD_highMask]
  by_cases high : 12 ≤ i
  · have noMode : modeMask.getLsbD i = false := by
      rw [modeMask, getLsbD_ofNat, show (0x3ff : ℕ) = 2 ^ 10 - 1 by rfl, Nat.testBit_two_pow_sub_one]
      simp only [Bool.and_eq_false_imp, decide_eq_false_iff_not]
      omega
    simp only [noMode, high, bound, decide_true, Bool.and_true, Bool.and_false, Bool.or_false, if_true]
  · simp [high]

@[simp] theorem entryBase_tableEntry (paddr mode : BitVec 32) :
    entryBase (tableEntry paddr mode) = paddr.toNat / 4096 * 4096 := by
  simp only [entryBase, peBaseAddrMask_eq, tableEntry_eq_pack, toNat_pack_and_highMask, Nat.reducePow]

@[simp] theorem entryBase_dirEntry (taddr mode : BitVec 32) :
    entryBase (dirEntry taddr mode) = taddr.toNat / 4096 * 4096 := by
  simp only [entryBase, peBaseAddrMask_eq, dirEntry_eq_pack, toNat_pack_and_highMask, Nat.reducePow]

theorem hasFlag_tableEntry (paddr mode : BitVec 32) (low : i < 12) :
    hasFlag (tableEntry paddr mode) (twoPow 32 i) = hasFlag mode (twoPow 32 i) := by
  rw [tableEntry_eq_pack, hasFlag_pack low (by omega), hasFlag_twoPow _ (by omega)]

theorem hasFlag_dirEntry (taddr mode : BitVec 32) (low : i < 10) :
    hasFlag (dirEntry taddr mode) (twoPow 32 i) = hasFlag mode (twoPow 32 i) := by
  rw [dirEntry_eq_pack, hasFlag_pack (by omega) (by omega), hasFlag_twoPow _ (by omega), getLsbD_and,
    modeMask, getLsbD_ofNat, show (0x3ff : ℕ) = 2 ^ 10 - 1 by rfl, Nat.testBit_two_pow_sub_one]
  simp [low, show i < 32 by omega]

theorem entryBase_or_twoPow (entry : BitVec 32) (low : i < 12) :
    entryBase (entry ||| twoPow 32 i) = entryBase entry := by
  rw [entryBase, entryBase, peBaseAddrMask_eq]
  congr 1
  apply eq_of_getLsbD_eq
  intro j bound
  by_cases high : 12 ≤ j
  · simp [show i ≠ j by omega]
  · simp [high]

theorem hasFlag_or_twoPow (entry : BitVec 32) {j : ℕ} (small : j < 32) :
    hasFlag (entry ||| twoPow 32 i) (twoPow 32 j) =
      (hasFlag entry (twoPow 32 j) || decide (i = j)) := by
  rw [hasFlag_twoPow _ small, hasFlag_twoPow _ small, getLsbD_or]
  by_cases same : i = j
  · subst same
    simp [small]
  · simp [same]

theorem hasFlag_zero (flag : BitVec 32) : hasFlag 0#32 flag = false := by simp [hasFlag]

/-- Physical address of the frame with a given index. -/
def framePaddr (index : ℕ) : ℕ := pagingAreaMinPaddr + pageSize * index

/-- "Hashing" function carrying physical page addresses into the info struct array. -/
def calculateInfoIndex (paddr : ℕ) : ℕ :=
  ((BitVec.ofNat 32 paddr - BitVec.ofNat 32 pagingAreaMinPaddr) / BitVec.ofNat 32 pageSize).toNat

theorem framePaddr_eq (index : ℕ) : framePaddr index = 0x100000 + 4096 * index := rfl

@[simp] theorem calculateInfoIndex_framePaddr (bound : index < pageablePages) :
    calculateInfoIndex (framePaddr index) = index := by
  rw [pageablePages] at bound
  simp only [calculateInfoIndex, framePaddr_eq, pagingAreaMinPaddr, pageSize, toNat_udiv, toNat_sub,
    toNat_ofNat, Nat.reducePow, Nat.reduceMod, Nat.reduceSub]
  omega

theorem framePaddr_injective : Function.Injective framePaddr := by
  intro left right same
  rw [framePaddr_eq, framePaddr_eq] at same
  omega

section

variable (bound : index < pageablePages)
include bound

theorem framePaddr_toNat : (BitVec.ofNat 32 (framePaddr index)).toNat = framePaddr index := by
  rw [pageablePages] at bound
  rw [toNat_ofNat, framePaddr_eq]
  omega

@[simp] theorem entryBase_tableEntry_frame (mode : BitVec 32) :
    entryBase (tableEntry (BitVec.ofNat 32 (framePaddr index)) mode) = framePaddr index := by
  rw [entryBase_tableEntry, framePaddr_toNat bound, framePaddr_eq]
  omega

@[simp] theorem entryBase_dirEntry_frame (mode : BitVec 32) :
    entryBase (dirEntry (BitVec.ofNat 32 (framePaddr index)) mode) = framePaddr index := by
  rw [entryBase_dirEntry, framePaddr_toNat bound, framePaddr_eq]
  omega

end

/-- Entry `slot` of the table or directory held in a frame. -/
def frameWord (mem : Memory) (index slot : ℕ) : BitVec 32 := mem.readWord (framePaddr index + 4 * slot)

theorem frameWord_writeWord (mem : Memory) {slot other query : ℕ} (word : BitVec 32)
    (slotBound : slot < 1024) (queryBound : query < 1024) :
    frameWord (mem.writeWord (framePaddr index + 4 * slot) word) other query =
      if other = index ∧ query = slot then word else frameWord mem other query := by
  rw [frameWord]
  split_ifs with same
  · rw [same.1, same.2, readWord_writeWord]
  · apply readWord_writeWord_disjoint
    rw [framePaddr_eq, framePaddr_eq]
    omega

theorem frameWord_congr {left right : Memory} {slot : ℕ} (bound : slot < 1024)
    (same : ∀ query, framePaddr index ≤ query → query < framePaddr index + 4096 → left query = right query) :
    frameWord left index slot = frameWord right index slot :=
  readWord_congr fun query lower upper => same query (by omega) (by omega)

end MicroOs.Paging
