import MicroOs.Paging.Transitions

/-! # Frames as tables

Every store of the memory manager goes to a frame. Each operation is described by the frames it leaves alone
and by the entries of the frames it writes: the kernel's identity map, the image map of a new process, and the
single stores of directory and table entries.
-/

namespace MicroOs.Paging

open BitMask Memory

variable {page : ℕ}

def SameFrame (left right : Memory) (index : ℕ) : Prop :=
  ∀ query, framePaddr index ≤ query → query < framePaddr index + pageSize → right query = left query

namespace SameFrame

variable {left middle right : Memory} {index other slot : ℕ}

theorem refl (mem : Memory) (index : ℕ) : SameFrame mem mem index := fun _ _ _ => rfl

theorem trans (first : SameFrame left middle index) (second : SameFrame middle right index) :
    SameFrame left right index := fun query lower upper => by rw [second query lower upper, first query lower upper]

theorem word (same : SameFrame left right index) (bound : slot < 1024) :
    frameWord right index slot = frameWord left index slot :=
  frameWord_congr bound fun query lower upper => same query lower (by rwa [pageSize])

theorem writeWord (mem : Memory) (word : BitVec 32) (different : other ≠ index) (bound : slot < 1024) :
    SameFrame mem (mem.writeWord (framePaddr index + 4 * slot) word) other := by
  intro query lower upper
  apply writeWord_outside
  rw [framePaddr_eq] at *
  rw [pageSize] at upper
  omega

theorem writeByte {offset : ℕ} (mem : Memory) (byte : BitVec 8) (different : other ≠ index)
    (bound : offset < pageSize) : SameFrame mem (mem.writeByte (framePaddr index + offset) byte) other := by
  intro query lower upper
  apply writeByte_ne
  rw [framePaddr_eq] at *
  rw [pageSize] at *
  omega

theorem blit {count : ℕ} (mem source : Memory) (outside : other < index ∨ index + count ≤ other) :
    SameFrame mem (mem.blit (framePaddr index) (count * pageSize) source) other := by
  intro query lower upper
  apply blit_outside
  rw [framePaddr_eq] at *
  rw [pageSize] at *
  omega

theorem blit_one (mem source : Memory) (different : other ≠ index) :
    SameFrame mem (mem.blit (framePaddr index) pageSize source) other := by
  have same : SameFrame mem (mem.blit (framePaddr index) (1 * pageSize) source) other := blit mem source (by omega)
  rwa [Nat.one_mul] at same

end SameFrame

variable {mem : Memory} {directory table other slot : ℕ}

theorem frameWord_tableMapPage (vaddr paddr mode : BitVec 32) (bound : slot < 1024) :
    frameWord (tableMapPage mem (framePaddr table) vaddr paddr mode) other slot =
      if other = table ∧ slot = getTableIndex vaddr then tableEntry paddr mode else frameWord mem other slot :=
  frameWord_writeWord mem _ (getTableIndex_lt vaddr) bound

theorem frameWord_dirInsTable (vaddr mode : BitVec 32) (paddr : ℕ) (bound : slot < 1024) :
    frameWord (dirInsTable mem (framePaddr directory) vaddr paddr mode) other slot =
      if other = directory ∧ slot = getDirectoryIndex vaddr then dirEntry (BitVec.ofNat 32 paddr) mode
      else frameWord mem other slot :=
  frameWord_writeWord mem _ (getDirectoryIndex_lt vaddr) bound

theorem sameFrame_tableMapPage (vaddr paddr mode : BitVec 32) (different : other ≠ table) :
    SameFrame mem (tableMapPage mem (framePaddr table) vaddr paddr mode) other :=
  SameFrame.writeWord mem _ different (getTableIndex_lt vaddr)

theorem sameFrame_dirInsTable (vaddr mode : BitVec 32) (paddr : ℕ) (different : other ≠ directory) :
    SameFrame mem (dirInsTable mem (framePaddr directory) vaddr paddr mode) other :=
  SameFrame.writeWord mem _ different (getDirectoryIndex_lt vaddr)

theorem pde_frame (mem : Memory) (directory : ℕ) (vaddr : BitVec 32) :
    pde mem (framePaddr directory) vaddr = frameWord mem directory (getDirectoryIndex vaddr) := rfl

theorem pte_frame {vaddr : BitVec 32} (base : entryBase (pde mem (framePaddr directory) vaddr) = framePaddr table) :
    pte mem (framePaddr directory) vaddr = frameWord mem table (getTableIndex vaddr) := by
  rw [pte, pteAddr, base, frameWord]

/-- An entry that one of the stores of a list goes to. -/
def Enters (offsets : List ℕ) (slot : ℕ) : Prop :=
  ∃ offset ∈ offsets, getTableIndex (processVaddr + BitVec.ofNat 32 offset) = slot

instance (offsets : List ℕ) (slot : ℕ) : Decidable (Enters offsets slot) :=
  inferInstanceAs (Decidable (∃ offset ∈ offsets, _))

theorem frameWord_mapImagePages {pcb : Pcb} (bound : slot < 1024)
    (outside : ¬Enters (pagesFrom 0 (imageBytes pcb).toNat) slot) :
    frameWord (mapImagePages mem pcb (framePaddr table)) table slot = frameWord mem table slot := by
  rw [mapImagePages]
  generalize pagesFrom 0 (imageBytes pcb).toNat = offsets at outside ⊢
  induction offsets generalizing mem with
  | nil => rfl
  | cons offset rest ih =>
    have outsideRest : ¬Enters rest slot := by
      rintro ⟨query, member, same⟩
      exact outside ⟨query, by simp [member], same⟩
    rw [List.foldl_cons, ih outsideRest, frameWord_tableMapPage _ _ _ bound, if_neg]
    exact fun here => outside ⟨offset, by simp, here.2.symm⟩

theorem absent_mapImagePages {pcb : Pcb} (bound : slot < 1024)
    (inside : Enters (pagesFrom 0 (imageBytes pcb).toNat) slot) :
    hasFlag (frameWord (mapImagePages mem pcb (framePaddr table)) table slot) peP = false := by
  have absent (paddr : BitVec 32) : hasFlag (tableEntry paddr (peRw ||| peUs)) peP = false := by
    rw [peP, hasFlag_tableEntry _ _ (by decide)]
    decide
  -- the entry is absent once it has been stored, and the later stores keep it so
  suffices kept : ∀ offsets : List ℕ, ∀ mem : Memory,
      Enters offsets slot ∨ hasFlag (frameWord mem table slot) peP = false →
      hasFlag (frameWord (offsets.foldl (fun mem offset =>
        tableMapPage mem (framePaddr table) (processVaddr + BitVec.ofNat 32 offset)
          (pcb.swapLoc * BitVec.ofNat 32 sectorSize + BitVec.ofNat 32 offset) (peRw ||| peUs)) mem) table slot) peP =
        false from kept _ mem (.inl inside)
  intro offsets
  induction offsets with
  | nil =>
    rintro mem (⟨_, member, -⟩ | before)
    · cases member
    · exact before
  | cons offset rest ih =>
    intro mem before
    apply ih
    rw [frameWord_tableMapPage _ _ _ bound]
    split_ifs with written
    · exact .inr (absent _)
    · rcases before with ⟨query, member, same⟩ | before
      · rcases List.mem_cons.mp member with rfl | later
        · exact absurd ⟨rfl, same.symm⟩ written
        · exact .inl ⟨query, later, same⟩
      · exact .inr before

theorem sameFrame_mapImagePages (pcb : Pcb) (different : other ≠ table) :
    SameFrame mem (mapImagePages mem pcb (framePaddr table)) other := by
  rw [mapImagePages]
  generalize pagesFrom 0 (imageBytes pcb).toNat = offsets
  induction offsets generalizing mem with
  | nil => exact .refl mem other
  | cons offset rest ih => exact (sameFrame_tableMapPage _ _ _ different).trans ih

theorem mem_pagesFrom {low high : ℕ} :
    page ∈ pagesFrom low high ↔ ∃ i, i < (high - low + (pageSize - 1)) / pageSize ∧ low + pageSize * i = page := by
  simp [pagesFrom]

/-- An identity mapped page of the first four megabytes. -/
def LowPage (page : ℕ) : Prop := ∃ i, i < 1024 ∧ page = 4096 * i

theorem lowPage_of_mem {low high : ℕ} (aligned : low % 4096 = 0) (bound : low ≤ high ∧ high ≤ 0x400000)
    (member : page ∈ pagesFrom low high) : LowPage page := by
  obtain ⟨i, small, rfl⟩ := mem_pagesFrom.mp member
  rw [pageSize] at *
  exact ⟨low / 4096 + i, by omega, by omega⟩

theorem lowPage_toNat (low : LowPage page) : (BitVec.ofNat 32 page).toNat = page := by
  obtain ⟨i, small, rfl⟩ := low
  rw [BitVec.toNat_ofNat]
  omega

theorem getDirectoryIndex_lowPage (low : LowPage page) : getDirectoryIndex (BitVec.ofNat 32 page) = 0 := by
  rw [getDirectoryIndex_eq, lowPage_toNat low]
  obtain ⟨i, small, rfl⟩ := low
  omega

theorem getTableIndex_lowPage (low : LowPage page) : getTableIndex (BitVec.ofNat 32 page) = page / 4096 := by
  rw [getTableIndex_eq, lowPage_toNat low]
  obtain ⟨i, small, rfl⟩ := low
  omega

section IdentityMap

variable {fillTable : Bool} {pages : List ℕ}

theorem frameWord_foldl_directory (distinct : directory ≠ table) (low : ∀ page ∈ pages, LowPage page)
    (bound : slot < 1024) (later : slot ≠ 0) :
    frameWord (pages.foldl (identityMapPage (framePaddr directory) (framePaddr table) fillTable) mem) directory slot =
      frameWord mem directory slot := by
  induction pages generalizing mem with
  | nil => rfl
  | cons page rest ih =>
    rw [List.foldl_cons, ih fun page member => low page (by simp [member]), identityMapPage,
      frameWord_dirInsTable _ _ _ bound, getDirectoryIndex_lowPage (low page (by simp)), if_neg (by simp [later])]
    cases fillTable with
    | false => rfl
    | true => exact (sameFrame_tableMapPage _ _ _ distinct).word bound

theorem frameWord_foldl_table (distinct : directory ≠ table) (low : ∀ page ∈ pages, LowPage page)
    (bound : slot < 1024) :
    frameWord (pages.foldl (identityMapPage (framePaddr directory) (framePaddr table) true) mem) table slot =
      if 4096 * slot ∈ pages then tableEntry (BitVec.ofNat 32 (4096 * slot)) kernelMode
      else frameWord mem table slot := by
  induction pages generalizing mem with
  | nil => simp
  | cons page rest ih =>
    have first := low page (by simp)
    rw [List.foldl_cons, ih fun page member => low page (by simp [member]), identityMapPage,
      (sameFrame_dirInsTable _ _ _ distinct.symm).word bound]
    simp only [if_true, frameWord_tableMapPage _ _ _ bound, getTableIndex_lowPage first, true_and, List.mem_cons]
    obtain ⟨i, small, rfl⟩ := first
    by_cases here : slot = i
    · subst here
      simp
    · have apart : ¬4096 * slot = 4096 * i := by omega
      have apart' : ¬slot = 4096 * i / 4096 := by omega
      simp only [apart, apart', if_false, false_or]

theorem sameFrame_foldl (mem : Memory) (pages : List ℕ) (directoryApart : other ≠ directory)
    (tableApart : fillTable = true → other ≠ table) :
    SameFrame mem (pages.foldl (identityMapPage (framePaddr directory) (framePaddr table) fillTable) mem) other := by
  induction pages generalizing mem with
  | nil => exact .refl mem other
  | cons page rest ih =>
    refine SameFrame.trans ?_ (ih _)
    refine SameFrame.trans ?_ (sameFrame_dirInsTable _ _ _ directoryApart)
    cases fillTable with
    | false => exact .refl mem other
    | true => exact sameFrame_tableMapPage _ _ _ (tableApart rfl)

theorem lowPage_kernelRegion (member : page ∈ pagesFrom 0 kernelSize) : LowPage page :=
  lowPage_of_mem (by decide) (by decide) member

theorem lowPage_pagingArea (member : page ∈ pagesFrom pagingAreaMinPaddr pagingAreaMaxPaddr) : LowPage page :=
  lowPage_of_mem (by decide) (by decide) member

theorem lowPage_vga : LowPage vgaTextPaddr := ⟨0xb8, by decide, by decide⟩

/-- The first directory entry leads to the kernel's table, with the mode of the video page. -/
theorem frameWord_identityMapKernel_directory (mode : BitVec 32) (distinct : directory ≠ table) (bound : slot < 1024) :
    frameWord (identityMapKernel mem (framePaddr directory) (framePaddr table) fillTable mode) directory slot =
      if slot = 0 then dirEntry (BitVec.ofNat 32 (framePaddr table)) mode else frameWord mem directory slot := by
  have zero : getDirectoryIndex 0#32 = 0 := by decide
  have vga := getDirectoryIndex_lowPage lowPage_vga
  simp only [identityMapKernel, frameWord_dirInsTable _ _ _ bound, vga, true_and]
  by_cases first : slot = 0
  · simp [first]
  simp only [first, if_false]
  have skipTable (mem : Memory) (vaddr paddr : BitVec 32) :
      frameWord (if fillTable then tableMapPage mem (framePaddr table) vaddr paddr mode else mem) directory slot =
        frameWord mem directory slot := by
    cases fillTable with
    | false => rfl
    | true => exact (sameFrame_tableMapPage _ _ _ distinct).word bound
  rw [skipTable, frameWord_dirInsTable _ _ _ bound, zero, if_neg (by simp [first]),
    frameWord_foldl_directory distinct (fun _ member => lowPage_pagingArea member) bound first,
    frameWord_foldl_directory distinct (fun _ member => lowPage_kernelRegion member) bound first]

/-- The table maps the first four megabytes to themselves, for the kernel except for the video page. -/
theorem frameWord_identityMapKernel_table (mode : BitVec 32) (distinct : directory ≠ table) (bound : slot < 1024) :
    frameWord (identityMapKernel mem (framePaddr directory) (framePaddr table) true mode) table slot =
      if slot = 0xb8 then tableEntry (BitVec.ofNat 32 vgaTextPaddr) mode
      else tableEntry (BitVec.ofNat 32 (4096 * slot)) kernelMode := by
  have vga : getTableIndex (BitVec.ofNat 32 vgaTextPaddr) = 0xb8 := by
    rfl
  have skipDirectory (mem : Memory) (vaddr mode : BitVec 32) :
      frameWord (dirInsTable mem (framePaddr directory) vaddr (framePaddr table) mode) table slot =
        frameWord mem table slot := (sameFrame_dirInsTable _ _ _ distinct.symm).word bound
  have covered : 4096 * slot ∈ pagesFrom 0 kernelSize :=
    mem_pagesFrom.mpr ⟨slot, by rw [kernelSize, pageSize]; omega, by rw [pageSize]; omega⟩
  simp only [identityMapKernel, if_true, skipDirectory, frameWord_tableMapPage _ _ _ bound, vga, true_and]
  by_cases video : slot = 0xb8
  · simp [video]
  · rw [if_neg video, if_neg video, frameWord_foldl_table distinct (fun _ member => lowPage_pagingArea member) bound,
      frameWord_foldl_table distinct (fun _ member => lowPage_kernelRegion member) bound, if_pos covered, ite_self]

theorem sameFrame_identityMapKernel (mode : BitVec 32) (directoryApart : other ≠ directory)
    (tableApart : fillTable = true → other ≠ table) :
    SameFrame mem (identityMapKernel mem (framePaddr directory) (framePaddr table) fillTable mode) other := by
  have regions := ((sameFrame_foldl mem (pagesFrom 0 kernelSize) directoryApart tableApart).trans
    (sameFrame_foldl _ (pagesFrom pagingAreaMinPaddr pagingAreaMaxPaddr) directoryApart tableApart)).trans
    (sameFrame_dirInsTable 0#32 kernelMode (framePaddr table) directoryApart)
  refine SameFrame.trans ?_ (sameFrame_dirInsTable _ _ _ directoryApart)
  cases fillTable with
  | false => exact regions
  | true => exact regions.trans (sameFrame_tableMapPage _ _ _ (tableApart rfl))

end IdentityMap

end MicroOs.Paging
