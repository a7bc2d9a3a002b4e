import MicroOs.Paging.Loading

/-! # Accesses by a process

The processor walks the tables on every access and sets the accessed bit, and on a write the dirty bit, in the
entries it goes through. Neither changes where an address leads or who may use it. The store itself goes to a page.
-/

namespace MicroOs.Paging

open BitMask Memory

variable {scope : Scope} {s : Kernel} {count next p directory table : ℕ} {queue : List ℕ} {role : ℕ → Role}
  {vaddr bits : BitVec 32}

/-- The bits that the processor sets in a table entry, on a read or on a write. -/
def AccessBits (bits : BitVec 32) : Prop := bits = peA ∨ bits = peA ||| peD

theorem entryBase_access (entry : BitVec 32) (access : AccessBits bits) :
    entryBase (entry ||| bits) = entryBase entry := by
  rcases access with rfl | rfl
  · exact entryBase_or_twoPow _ (by decide)
  · rw [← BitVec.or_assoc, peD, entryBase_or_twoPow _ (by decide), peA, entryBase_or_twoPow _ (by decide)]

theorem hasFlag_access (entry : BitVec 32) (access : AccessBits bits) {i : ℕ} (low : i < 5) :
    hasFlag (entry ||| bits) (BitVec.twoPow 32 i) = hasFlag entry (BitVec.twoPow 32 i) := by
  have accessed : decide (5 = i) = false := decide_eq_false (by omega)
  have dirty : decide (6 = i) = false := decide_eq_false (by omega)
  rcases access with rfl | rfl
  · rw [peA, hasFlag_or_twoPow _ (by omega), accessed, Bool.or_false]
  · rw [← BitVec.or_assoc, peD, hasFlag_or_twoPow _ (by omega), peA, hasFlag_or_twoPow _ (by omega), accessed, dirty,
      Bool.or_false, Bool.or_false]

theorem SameEntry.access (entry : BitVec 32) (access : AccessBits bits) : SameEntry entry (entry ||| bits) :=
  ⟨entryBase_access entry access, hasFlag_access entry access (by decide), fun opened => by
    rwa [OpenEntry, peUs, peRw, hasFlag_access entry access (by decide), hasFlag_access entry access (by decide)]⟩

theorem Kernel.userPage_eq_some {page : ℕ} : s.userPage p vaddr = some page ↔
    hasFlag (pde s.mem (s.pcb p).pageDirectory vaddr) peP = true ∧
      hasFlag (pte s.mem (s.pcb p).pageDirectory vaddr) peP = true ∧
      hasFlag (pde s.mem (s.pcb p).pageDirectory vaddr) peUs = true ∧
      hasFlag (pte s.mem (s.pcb p).pageDirectory vaddr) peUs = true ∧
      entryBase (pte s.mem (s.pcb p).pageDirectory vaddr) = page := by
  simp [Kernel.userPage, Kernel.bothHave, and_assoc]

/-- The frames that an access to an address goes through. -/
structure Walk (s : Kernel) (p : ℕ) (vaddr : BitVec 32) (directory table : ℕ) : Prop where
  pointer : (s.pcb p).pageDirectory = framePaddr directory
  base : entryBase (frameWord s.mem directory (getDirectoryIndex vaddr)) = framePaddr table
  apart : directory ≠ table

section Touch

variable (walk : Walk s p vaddr directory table)

include walk

theorem Walk.pde_eq : pde s.mem (s.pcb p).pageDirectory vaddr =
    frameWord s.mem directory (getDirectoryIndex vaddr) := by
  rw [walk.pointer, pde_frame]

theorem Walk.pte_eq : pte s.mem (s.pcb p).pageDirectory vaddr = frameWord s.mem table (getTableIndex vaddr) := by
  rw [walk.pointer, pte_frame (by rw [pde_frame, walk.base])]

theorem Walk.touch_mem :
    (s.touch p vaddr bits).mem =
      (s.mem.writeWord (framePaddr directory + 4 * getDirectoryIndex vaddr)
        (frameWord s.mem directory (getDirectoryIndex vaddr) ||| peA)).writeWord
        (framePaddr table + 4 * getTableIndex vaddr) (frameWord s.mem table (getTableIndex vaddr) ||| bits) := by
  have first : pde (s.mem.writeWord (framePaddr directory + 4 * getDirectoryIndex vaddr)
      (frameWord s.mem directory (getDirectoryIndex vaddr) ||| peA)) (framePaddr directory) vaddr =
        frameWord s.mem directory (getDirectoryIndex vaddr) ||| peA := readWord_writeWord ..
  have base : entryBase (frameWord s.mem directory (getDirectoryIndex vaddr) ||| peA) = framePaddr table := by
    rw [entryBase_access _ (.inl rfl), walk.base]
  simp only [Kernel.touch, walk.pointer, pde_frame]
  rw [pte, pteAddr, first, base, ← frameWord,
    (SameFrame.writeWord s.mem _ walk.apart.symm (getDirectoryIndex_lt vaddr)).word (getTableIndex_lt vaddr)]

theorem Walk.touch_word (other : ℕ) {slot : ℕ} (bound : slot < 1024) :
    frameWord (s.touch p vaddr bits).mem other slot =
      if other = table ∧ slot = getTableIndex vaddr then frameWord s.mem other slot ||| bits
      else if other = directory ∧ slot = getDirectoryIndex vaddr then frameWord s.mem other slot ||| peA
      else frameWord s.mem other slot := by
  rw [walk.touch_mem, frameWord_writeWord _ _ (getTableIndex_lt vaddr) bound,
    frameWord_writeWord _ _ (getDirectoryIndex_lt vaddr) bound]
  split_ifs with inTable inDirectory
  · rw [inTable.1, inTable.2]
  · rw [inDirectory.1, inDirectory.2]
  · rfl

theorem Walk.touch_entry (access : AccessBits bits) (other : ℕ) {slot : ℕ} (bound : slot < 1024) :
    SameEntry (frameWord s.mem other slot) (frameWord (s.touch p vaddr bits).mem other slot) := by
  rw [walk.touch_word other bound]
  split_ifs
  · exact .access _ access
  · exact .access _ (.inl rfl)
  · exact .refl _

theorem Walk.touch_flag (access : AccessBits bits) (other : ℕ) {slot i : ℕ} (bound : slot < 1024) (low : i < 5) :
    hasFlag (frameWord (s.touch p vaddr bits).mem other slot) (BitVec.twoPow 32 i) =
      hasFlag (frameWord s.mem other slot) (BitVec.twoPow 32 i) := by
  rw [walk.touch_word other bound]
  split_ifs
  · exact hasFlag_access _ access low
  · exact hasFlag_access _ (.inl rfl) low
  · rfl

theorem Walk.touch_sameFrame {other : ℕ} (directoryApart : other ≠ directory) (tableApart : other ≠ table) :
    SameFrame s.mem (s.touch p vaddr bits).mem other := by
  rw [walk.touch_mem]
  exact (SameFrame.writeWord _ _ directoryApart (getDirectoryIndex_lt vaddr)).trans
    (SameFrame.writeWord _ _ tableApart (getTableIndex_lt vaddr))

end Touch

section

variable (inv : MapInv scope s count next queue role)
include inv

/-- The walk of an access goes through a directory of the process and either a table of it or the kernel's. -/
theorem MapInv.walk (ready : p < count)
    (process : (s.pcb p).isThread = false) (present : hasFlag (pde s.mem (s.pcb p).pageDirectory vaddr) peP = true)
    (described : getDirectoryIndex vaddr ≠ 0 → scope.directorySlot (getDirectoryIndex vaddr)) :
    ∃ directory table, Walk s p vaddr directory table ∧ role directory = .directory p ∧
      ((getDirectoryIndex vaddr = 0 ∧ table = 2) ∨ TableOk scope s.mem role p table) := by
  obtain ⟨directory, pointer, ok⟩ := inv.spaces p ready process
  rw [pointer] at present
  rcases eq_or_ne (getDirectoryIndex vaddr) 0 with kernel | user
  · refine ⟨directory, 2, ⟨pointer, by rw [kernel, ok.kernel_base], ?_⟩, ok.role_eq, .inl ⟨kernel, rfl⟩⟩
    exact (inv.kernel_ne ok.role_eq).2.symm
  · obtain ⟨table, base, table_ok⟩ := ok.tables _ (getDirectoryIndex_lt vaddr) (described user) present
    refine ⟨directory, table, ⟨pointer, base, ?_⟩, ok.role_eq, .inr table_ok⟩
    exact ne_of_role table_ok.role_eq ok.role_eq nofun

theorem MapInv.touch (walk : Walk s p vaddr directory table)
    (access : AccessBits bits) : MapInv scope (s.touch p vaddr bits) count next queue role := by
  apply inv.congr le_rfl
  · intro frame _ slot bound
    exact walk.touch_entry access frame bound
  · intros
    rfl
  · intros
    rfl

theorem MapInv.writeByte {address : ℕ} (byte : BitVec 8)
    (outside : ∀ frame, Structural count role frame → SameFrame s.mem (s.mem.writeByte address byte) frame) :
    MapInv scope { s with mem := s.mem.writeByte address byte } count next queue role := by
  apply inv.congr le_rfl
  · intro frame structural slot bound
    rw [(outside frame structural).word bound]
    exact .refl _
  · intros
    rfl
  · intros
    rfl

end

end MicroOs.Paging
