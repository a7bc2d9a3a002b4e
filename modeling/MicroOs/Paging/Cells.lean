import MicroOs.Library.WriteBackCell
import MicroOs.Paging.Sectors

/-! # Image bytes as cells behind a cache

Each byte of an image is a cell: the disk is its backing store, and the frame that its page is in, if any, holds the
copy. Allocating frames evicts the copy of some page, loading makes one, and everything else leaves the cells alone.
-/

namespace MicroOs.Paging

open BitMask Memory Kernel

variable {sector : BitVec 32}

/-- The cell of an image byte. -/
def Kernel.cell (s : Kernel) (p : ℕ) (vaddr : BitVec 32) : Cell (BitVec 8) :=
  let entry := pte s.mem (s.pcb p).pageDirectory vaddr
  { cached :=
      if hasFlag entry peP then some (s.mem (entryBase entry + vaddr.toNat % pageSize), hasFlag entry peD) else none
    backing := s.disk (imageSector (s.pcb p) vaddr) (vaddr.toNat % sectorSize) }

/-- What is asked of the first `count` processes and of the device. -/
structure Images (sizes : ℕ → BitVec 32) (s : Kernel) (count : ℕ) : Prop where
  short : ∀ p < count, (s.pcb p).isThread = false → ShortImage (s.pcb p).swapSize
  size : ∀ p < count, sizes p = (s.pcb p).swapSize
  disjoint : ∀ p < count, ∀ q < count, p ≠ q → (s.pcb p).isThread = false → (s.pcb q).isThread = false → ∀ sector,
    OwnsSector (s.pcb p) sector → ¬OwnsSector (s.pcb q) sector
  good : ∀ n, s.scsi n = .good

structure Place (s : Kernel) (role : ℕ → Role) (p : ℕ) (vaddr : BitVec 32) (directory table : ℕ) : Prop where
  walk : Walk s p vaddr directory table
  directory_role : role directory = .directory p
  table_role : role table = .table p
  page : hasFlag (frameWord s.mem table (getTableIndex vaddr)) peP = true → ∃ frame,
    entryBase (frameWord s.mem table (getTableIndex vaddr)) = framePaddr frame ∧
      role frame = .page p table (getTableIndex vaddr)

variable {sizes : ℕ → BitVec 32} {s s' : Kernel} {count next next' p q frame directory table : ℕ}
  {queue queue' : List ℕ}
  {role : ℕ → Role} {vaddr : BitVec 32}

theorem Images.congr (images : Images sizes s count) (pcb : ∀ p < count, s'.pcb p = s.pcb p) (scsi : s'.scsi = s.scsi) :
    Images sizes s' count where
  short p ready := by
    rw [pcb p ready]
    exact images.short p ready
  size p ready := by
    rw [pcb p ready]
    exact images.size p ready
  disjoint p ready q readyq := by
    rw [pcb p ready, pcb q readyq]
    exact images.disjoint p ready q readyq
  good := by
    rw [scsi]
    exact images.good

theorem MapInv.place (map : MapInv (imageScope sizes) s count next queue role) (images : Images sizes s count)
    (ready : p < count) (process : (s.pcb p).isThread = false) (inside : InImage (s.pcb p) vaddr) :
    ∃ directory table, Place s role p vaddr directory table := by
  have short := images.short p ready process
  have image := inside.getDirectoryIndex short
  have small : getTableIndex vaddr < imagePages (sizes p) := by
    rw [images.size p ready]
    exact (inside.getTableIndex short).2
  have present : hasFlag (pde s.mem (s.pcb p).pageDirectory vaddr) peP = true := by
    obtain ⟨directory, pointer, ok⟩ := map.spaces p ready process
    rw [pointer, pde_frame, image, ok.present 4 (.inr rfl)]
  obtain ⟨directory, table, walk, isDirectory, kernel | table_ok⟩ := map.walk ready process present fun _ => image
  · rw [kernel.1] at image
    cases image
  · exact ⟨directory, table, walk, isDirectory, table_ok.role_eq, table_ok.pages _ (getTableIndex_lt vaddr) small⟩

theorem Walk.cell_eq (walk : Walk s p vaddr directory table) :
    s.cell p vaddr =
      { cached := if hasFlag (frameWord s.mem table (getTableIndex vaddr)) peP then
          some (s.mem (entryBase (frameWord s.mem table (getTableIndex vaddr)) + vaddr.toNat % pageSize),
            hasFlag (frameWord s.mem table (getTableIndex vaddr)) peD) else none
        backing := s.disk (imageSector (s.pcb p) vaddr) (vaddr.toNat % sectorSize) } := by
  simp [cell, walk.pte_eq]

theorem SameFrame.byte {left right : Memory} (same : SameFrame left right frame) (vaddr : BitVec 32) :
    right (framePaddr frame + vaddr.toNat % pageSize) = left (framePaddr frame + vaddr.toNat % pageSize) := by
  have small : vaddr.toNat % pageSize < pageSize := Nat.mod_lt _ (by decide)
  exact same _ (by omega) (by omega)

section Congruence

variable (place : Place s role p vaddr directory table) (pcb : s'.pcb p = s.pcb p)
  (directoryEntry : SameEntry (frameWord s.mem directory (getDirectoryIndex vaddr))
    (frameWord s'.mem directory (getDirectoryIndex vaddr)))
  (tableEntry : SameEntry (frameWord s.mem table (getTableIndex vaddr)) (frameWord s'.mem table (getTableIndex vaddr)))
  (contents : ∀ frame, role frame = .page p table (getTableIndex vaddr) →
    s'.mem (framePaddr frame + vaddr.toNat % pageSize) = s.mem (framePaddr frame + vaddr.toNat % pageSize))
  (disk : s'.disk (imageSector (s.pcb p) vaddr) = s.disk (imageSector (s.pcb p) vaddr))

include place pcb directoryEntry tableEntry contents disk

/-- A cell changes in its mark only when the entries on the way to it, the byte and the sector stay. -/
theorem Place.cell_marked :
    s'.cell p vaddr = { s.cell p vaddr with
      cached := (s.cell p vaddr).cached.map fun copy =>
        (copy.1, hasFlag (frameWord s'.mem table (getTableIndex vaddr)) peD) } := by
  have walk' : Walk s' p vaddr directory table := by
    refine ⟨?_, directoryEntry.base.trans place.walk.base, place.walk.apart⟩
    rw [pcb, place.walk.pointer]
  rw [walk'.cell_eq, place.walk.cell_eq, tableEntry.present, tableEntry.base, pcb, disk]
  cases present : hasFlag (frameWord s.mem table (getTableIndex vaddr)) peP with
  | false => rfl
  | true =>
    obtain ⟨frame, base, isPage⟩ := place.page present
    rw [base, contents frame isPage]
    rfl

theorem Place.cell_congr (dirty : hasFlag (frameWord s'.mem table (getTableIndex vaddr)) peD =
      hasFlag (frameWord s.mem table (getTableIndex vaddr)) peD) : s'.cell p vaddr = s.cell p vaddr := by
  rw [place.cell_marked pcb directoryEntry tableEntry contents disk, dirty, place.walk.cell_eq]
  cases hasFlag (frameWord s.mem table (getTableIndex vaddr)) peP with
  | false => rfl
  | true => rfl

end Congruence

theorem Place.cell_sameFrame (place : Place s role p vaddr directory table) (pcb : s'.pcb p = s.pcb p)
    (frames : ∀ frame, role frame = .directory p ∨ role frame = .table p ∨
      role frame = .page p table (getTableIndex vaddr) → SameFrame s.mem s'.mem frame)
    (disk : s'.disk (imageSector (s.pcb p) vaddr) = s.disk (imageSector (s.pcb p) vaddr)) :
    s'.cell p vaddr = s.cell p vaddr := by
  have directoryWord := (frames directory (.inl place.directory_role)).word (getDirectoryIndex_lt vaddr)
  have tableWord := (frames table (.inr (.inl place.table_role))).word (getTableIndex_lt vaddr)
  apply place.cell_congr pcb
  · rw [directoryWord]
    exact .refl _
  · rw [tableWord]
    exact .refl _
  · exact fun frame isPage => (frames frame (.inr (.inr isPage))).byte vaddr
  · exact disk
  · rw [tableWord]

theorem MapInv.cell_quiet (map : MapInv (imageScope sizes) s count next queue role) (images : Images sizes s count)
    (quiet : Quiet count role s s') (ready : p < count) (process : (s.pcb p).isThread = false)
    (inside : InImage (s.pcb p) vaddr) : s'.cell p vaddr = s.cell p vaddr := by
  obtain ⟨directory, table, place⟩ := map.place images ready process inside
  apply place.cell_sameFrame (quiet.pcb p ready)
  · intro frame used
    refine quiet.frames frame ⟨p, ready, used.imp_right fun rest => rest.imp_right fun isPage => ?_⟩
    exact ⟨table, _, isPage⟩
  · rw [quiet.disk]

theorem InImage.pageIndex_eq {pcb : Pcb} (inside : InImage pcb vaddr) (short : ShortImage pcb.swapSize) :
    pageIndex vaddr = MicroOs.Paging.getTableIndex vaddr := (inside.getTableIndex short).1.symm

theorem Resident.onImagePage (resident : Resident (imageScope sizes) s role frame p directory table)
    (size : sizes p = (s.pcb p).swapSize) :
    OnImagePage (s.pcb p) (s.pageFrameInfo frame).vaddr ∧
      pageIndex (s.pageFrameInfo frame).vaddr = getTableIndex (s.pageFrameInfo frame).vaddr := by
  have slot : getDirectoryIndex (s.pageFrameInfo frame).vaddr = 4 := resident.directory_slot
  have small : getTableIndex (s.pageFrameInfo frame).vaddr < imagePages (sizes p) := resident.table_slot
  rw [size] at small
  rw [getDirectoryIndex_eq] at slot
  rw [OnImagePage, pageIndex]
  rw [getTableIndex_eq] at small ⊢
  simp only [processVaddr, BitVec.reduceToNat, pageSize]
  omega

theorem Resident.pde_present (resident : Resident (imageScope sizes) s role frame p directory table) :
    hasFlag (pde s.mem (s.pcb p).pageDirectory (s.pageFrameInfo frame).vaddr) peP = true := by
  rw [resident.pointer, pde_frame, resident.directory_present]

theorem Kernel.evictFrame_disk (good : s.scsi s.scsiCount = .good)
    (present : hasFlag (pde s.mem (s.pcb p).pageDirectory (s.pageFrameInfo frame).vaddr) peP = true)
    (page : OnImagePage (s.pcb p) (s.pageFrameInfo frame).vaddr) :
    (s.evictFrame frame p).disk sector =
      if hasFlag (pte s.mem (s.pcb p).pageDirectory (s.pageFrameInfo frame).vaddr) peD = true ∧
          sector - diskLoc (s.pcb p) (s.pageFrameInfo frame).vaddr <
            blockCount (s.pcb p) (s.pageFrameInfo frame).vaddr then
        fun offset => s.mem (framePaddr frame +
          (sectorSize * (sector - diskLoc (s.pcb p) (s.pageFrameInfo frame).vaddr).toNat + offset))
      else s.disk sector := by
  have start : ¬(s.pcb p).swapSize < diskOffset (s.pageFrameInfo frame).vaddr := by
    rw [BitVec.lt_def, diskOffset_toNat page.1]
    exact page.blockCount_toNat.1.not_gt
  change (s.chosen.writeBack frame p).disk sector = _
  simp only [writeBack, isPageDirty, chosen, present]
  cases dirty : hasFlag (pte s.mem (s.pcb p).pageDirectory (s.pageFrameInfo frame).vaddr) peD with
  | false => simp
  | true =>
    simp [writePageBackToDisk, start, getPageTable, present, scsiWrite, good]

/-- Where a byte of a page is found in the transfer of the page. -/
theorem imageSector_offset {pcb : Pcb} {page : BitVec 32} (lower : processVaddr.toNat ≤ vaddr.toNat)
    (pageLower : processVaddr.toNat ≤ page.toNat) (same : pageIndex page = pageIndex vaddr) :
    sectorSize * (imageSector pcb vaddr - diskLoc pcb page).toNat + vaddr.toNat % sectorSize =
      vaddr.toNat % pageSize := by
  have offsets : diskOffset page = diskOffset vaddr := by
    apply BitVec.eq_of_toNat_eq
    rw [diskOffset_toNat lower, diskOffset_toNat pageLower, same]
  have start : diskLoc pcb page = diskLoc pcb vaddr := by rw [diskLoc, offsets, diskLoc]
  rw [start, imageSector_eq lower, BitVec.add_comm, BitVec.add_sub_cancel, BitVec.toNat_ofNat, sectorSize, pageSize]
  omega

theorem Resident.evictFrame_disk_eq (images : Images sizes s count)
    (resident : Resident (imageScope sizes) s role frame q directory table) (readyq : q < count)
    (other : ¬(OwnsSector (s.pcb q) sector ∧
      (sector - (s.pcb q).swapLoc).toNat / 8 = getTableIndex (s.pageFrameInfo frame).vaddr)) :
    (s.evictFrame frame q).disk sector = s.disk sector := by
  obtain ⟨page, index⟩ := resident.onImagePage (images.size q readyq)
  rw [evictFrame_disk (images.good _) resident.pde_present page, if_neg]
  rintro ⟨-, transferred⟩
  rw [page.transfer_iff, index] at transferred
  exact other transferred

section Evict

variable {rest : List ℕ} (map : MapInv (imageScope sizes) s count next (frame :: rest) role)
  (images : Images sizes s count) (resident : Resident (imageScope sizes) s role frame q directory table)
  (readyq : q < count) (processq : (s.pcb q).isThread = false)

include map images resident readyq processq

theorem MapInv.cell_victim (inside : InImage (s.pcb q) vaddr)
    (slot : getTableIndex vaddr = getTableIndex (s.pageFrameInfo frame).vaddr) :
    (s.evictFrame frame q).cell q vaddr = (s.cell q vaddr).evict := by
  obtain ⟨directory', table', place⟩ := map.place images readyq processq inside
  have short := images.short q readyq processq
  obtain ⟨page, index⟩ := resident.onImagePage (images.size q readyq)
  have sameIndex : pageIndex (s.pageFrameInfo frame).vaddr = pageIndex vaddr := by
    rw [index, inside.pageIndex_eq short, slot]
  -- both walks start in the same directory and leave it at the entry of the image
  obtain rfl : directory' = directory := framePaddr_injective (place.walk.pointer.symm.trans resident.pointer)
  have image := Eq.trans resident.directory_slot (inside.getDirectoryIndex short).symm
  obtain rfl : table' = table := by
    apply framePaddr_injective
    rw [← place.walk.base, ← resident.directory_base, image]
  have present := resident.table_present
  have base := resident.table_base
  have dirty : pte s.mem (s.pcb q).pageDirectory (s.pageFrameInfo frame).vaddr =
      frameWord s.mem table' (getTableIndex vaddr) := by
    rw [resident.pointer, pte_frame (by rw [pde_frame, resident.directory_base]), slot]
  rw [← slot] at present base
  have walk' : Walk (s.evictFrame frame q) q vaddr directory' table' := by
    refine ⟨by rw [evictFrame_pcb, place.walk.pointer], ?_, place.walk.apart⟩
    rw [(sameFrame_evictFrame resident place.walk.apart).word (getDirectoryIndex_lt vaddr), place.walk.base]
  have transferred := page.transfer_iff.mpr ⟨inside.ownsSector, by rw [imageSector_page inside.1, sameIndex]⟩
  have unmapped : hasFlag (frameWord (s.evictFrame frame q).mem table' (getTableIndex vaddr)) peP = false := by
    rw [resident.evictFrame_word _ (getTableIndex_lt vaddr), if_pos ⟨rfl, slot⟩, not_present_tableEntry_zero]
  rw [walk'.cell_eq, place.walk.cell_eq, unmapped, evictFrame_pcb,
    evictFrame_disk (images.good _) resident.pde_present page, dirty, present, base]
  cases hasFlag (frameWord s.mem table' (getTableIndex vaddr)) peD with
  | false => simp [Cell.evict]
  | true =>
    simp only [Cell.evict, transferred, imageSector_offset inside.1 page.1 sameIndex, and_self, if_true,
      Bool.false_eq_true, if_false]

theorem MapInv.cell_evictFrame (ready : p < count) (process : (s.pcb p).isThread = false)
    (inside : InImage (s.pcb p) vaddr) :
    (s.evictFrame frame q).cell p vaddr =
      if p = q ∧ getTableIndex vaddr = getTableIndex (s.pageFrameInfo frame).vaddr then (s.cell p vaddr).evict
      else s.cell p vaddr := by
  split_ifs with victim
  · obtain ⟨rfl, slot⟩ := victim
    exact map.cell_victim images resident readyq processq inside slot
  obtain ⟨directory', table', place⟩ := map.place images ready process inside
  have keptDirectory : frameWord (s.evictFrame frame q).mem directory' (getDirectoryIndex vaddr) =
      frameWord s.mem directory' (getDirectoryIndex vaddr) := by
    apply (sameFrame_evictFrame resident ?_).word (getDirectoryIndex_lt vaddr)
    exact ne_of_role resident.table_role place.directory_role nofun
  have keptTable : frameWord (s.evictFrame frame q).mem table' (getTableIndex vaddr) =
      frameWord s.mem table' (getTableIndex vaddr) := by
    rw [resident.evictFrame_word _ (getTableIndex_lt vaddr), if_neg]
    rintro ⟨rfl, slot⟩
    exact victim ⟨by simpa using place.table_role.symm.trans resident.table_role, slot⟩
  apply place.cell_congr (by rw [evictFrame_pcb])
  · rw [keptDirectory]
    exact .refl _
  · rw [keptTable]
    exact .refl _
  · intro other isPage
    apply (sameFrame_evictFrame resident ?_).byte vaddr
    exact ne_of_role resident.table_role isPage nofun
  · apply resident.evictFrame_disk_eq images readyq
    rintro ⟨owns, index⟩
    rcases eq_or_ne p q with rfl | apart
    · rw [imageSector_page inside.1, inside.pageIndex_eq (images.short p ready process)] at index
      exact victim ⟨rfl, index⟩
    · exact images.disjoint p ready q readyq apart process processq _ inside.ownsSector owns
  · rw [keptTable]

end Evict

/-- Allocating a frame evicts at most one page. -/
theorem MapInv.cell_allocated (map : MapInv (imageScope sizes) s count next queue role) (images : Images sizes s count)
    (allocated : Allocated s next queue frame s' next' queue') (ready : p < count)
    (process : (s.pcb p).isThread = false) (inside : InImage (s.pcb p) vaddr) :
    (s.cell p vaddr).Maintained (s'.cell p vaddr) := by
  cases allocated with
  | free available =>
    rw [map.cell_quiet images map.quiet_takeFree ready process inside]
    exact .refl
  | @evict _ q _ owner unmapped =>
    obtain ⟨q', directory, table, readyq, processq, resident⟩ := map.queued frame (by simp)
    obtain rfl : q' = q := by simpa using resident.owner.symm.trans owner
    rw [map.cell_evictFrame images resident readyq processq ready process inside]
    split_ifs
    · exact .evict .refl
    · exact .refl

theorem MapInv.disk_allocated (map : MapInv (imageScope sizes) s count next queue role) (images : Images sizes s count)
    (allocated : Allocated s next queue frame s' next' queue')
    (unowned : ∀ p < count, (s.pcb p).isThread = false → ¬OwnsSector (s.pcb p) sector) :
    s'.disk sector = s.disk sector := by
  cases allocated with
  | free available => rfl
  | @evict _ q _ owner unmapped =>
    obtain ⟨q', directory, table, readyq, processq, resident⟩ := map.queued frame (by simp)
    obtain rfl : q' = q := by simpa using resident.owner.symm.trans owner
    exact resident.evictFrame_disk_eq images readyq fun owned => unowned q' readyq processq owned.1

section Evolves

variable {role' : ℕ → Role} (evolves : Evolves count s next queue role s' next' queue' role')

include evolves

theorem Evolves.static : (∀ p < count, s'.pcb p = s.pcb p) ∧ s'.scsi = s.scsi := by
  induction evolves with
  | refl => exact ⟨fun _ _ => rfl, rfl⟩
  | alloc _ allocated ih =>
    refine ⟨fun p ready => ?_, allocated.static.scsi.trans ih.2⟩
    rw [allocated.pcb, ih.1 p ready]
  | quiet _ quiet _ ih => exact ⟨fun p ready => (quiet.pcb p ready).trans (ih.1 p ready), quiet.scsi.trans ih.2⟩
  | assign _ _ _ _ _ ih => exact ih

variable (alloc : AllocInv s next queue) (map : MapInv (imageScope sizes) s count next queue role)
  (images : Images sizes s count)

include alloc map images

/-- What is done beside the complete address spaces maintains their cells. -/
theorem Evolves.cell (ready : p < count) (process : (s.pcb p).isThread = false) (inside : InImage (s.pcb p) vaddr) :
    (s.cell p vaddr).Maintained (s'.cell p vaddr) := by
  induction evolves with
  | refl => exact .refl
  | alloc before allocated ih =>
    obtain ⟨pcb, scsi⟩ := before.static
    refine ih.trans ((before.inv alloc map).2.cell_allocated (images.congr pcb scsi) allocated ready ?_ ?_)
    · rw [pcb p ready, process]
    · rw [pcb p ready]
      exact inside
  | quiet before quiet _ ih =>
    obtain ⟨pcb, scsi⟩ := before.static
    rw [(before.inv alloc map).2.cell_quiet (images.congr pcb scsi) quiet ready (by rw [pcb p ready, process])
      (by rwa [pcb p ready])]
    exact ih
  | assign _ _ _ _ _ ih => exact ih

theorem Evolves.disk (unowned : ∀ p < count, (s.pcb p).isThread = false → ¬OwnsSector (s.pcb p) sector) :
    s'.disk sector = s.disk sector := by
  induction evolves with
  | refl => rfl
  | alloc before allocated ih =>
    obtain ⟨pcb, scsi⟩ := before.static
    refine ((before.inv alloc map).2.disk_allocated (images.congr pcb scsi) allocated ?_).trans ih
    intro p ready
    rw [pcb p ready]
    exact unowned p ready
  | quiet _ quiet _ ih => rw [quiet.disk, ih]
  | assign _ _ _ _ _ ih => exact ih

end Evolves

section Loading

variable {a : BitVec 32} (map : MapInv (imageScope sizes) s count next queue role) (images : Images sizes s count)
  (full : next ≤ pageablePages) (vacant : Vacant (imageScope sizes) s role p directory table vaddr)
  (insidep : InImage (s.pcb p) vaddr) (inUse : frame < next) (free : role frame = .free)
  (contents : ∀ offset < pageSize, s.mem (framePaddr frame + offset) =
    readBuffer s.disk (diskLoc (s.pcb p) vaddr) (blockCount (s.pcb p) vaddr) offset)

include images full vacant insidep inUse free contents in
/-- The bytes of a page that is entered are copied from its sectors. -/
theorem Place.cell_entered (place : Place s role p a directory table) (readyp : p < count)
    (processp : (s.pcb p).isThread = false) (tableBound : table < pageablePages) (inside : InImage (s.pcb p) a)
    (slot : getTableIndex a = getTableIndex vaddr) :
    (s.cell p a).cached = none ∧ (s.withPage p frame (framePaddr table) vaddr).cell p a = (s.cell p a).load := by
  have short := images.short p readyp processp
  have offsets : diskOffset vaddr = diskOffset a := by
    apply BitVec.eq_of_toNat_eq
    rw [diskOffset_toNat insidep.1, diskOffset_toNat inside.1, insidep.pageIndex_eq short, inside.pageIndex_eq short,
      slot]
  have absent := vacant.absent
  have word : frameWord (s.withPage p frame (framePaddr table) vaddr).mem table (getTableIndex a) =
      tableEntry (BitVec.ofNat 32 (framePaddr frame)) userMode := by
    rw [vacant.word (getTableIndex_lt a), if_neg fun here => vacant.apart here.1.symm, if_pos ⟨rfl, slot⟩]
  have walk' : Walk (s.withPage p frame (framePaddr table) vaddr) p a directory table := by
    refine ⟨place.walk.pointer, ?_, place.walk.apart⟩
    rw [(vacant.directory_entry frame tableBound place.directory_role (getDirectoryIndex_lt a)).base, place.walk.base]
  have same : SameFrame s.mem (s.withPage p frame (framePaddr table) vaddr).mem frame := by
    apply vacant.sameFrame
    · exact ne_of_role vacant.directory_role free nofun
    · exact ne_of_role vacant.table_role free nofun
  have loaded := contents (a.toNat % pageSize) (Nat.mod_lt _ (by decide))
  have clean : hasFlag (tableEntry (BitVec.ofNat 32 (framePaddr frame)) userMode) peD = false := by
    rw [peD, hasFlag_tableEntry _ _ (by decide)]
    decide
  rw [blockCount, diskLoc, offsets, ← diskLoc, ← blockCount, inside.readBuffer_eq] at loaded
  rw [← slot] at absent
  rw [walk'.cell_eq, place.walk.cell_eq, word, present_userMode_table, absent, clean,
    entryBase_tableEntry_frame (inUse.trans_le full), same.byte a, loaded]
  exact ⟨rfl, rfl⟩

include map images full vacant insidep inUse free contents in
theorem MapInv.cell_withPage (readyp : p < count) (processp : (s.pcb p).isThread = false) (ready : q < count)
    (process : (s.pcb q).isThread = false) (inside : InImage (s.pcb q) a) :
    (s.cell q a).Maintained ((s.withPage p frame (framePaddr table) vaddr).cell q a) := by
  obtain ⟨directory', table', place⟩ := map.place images ready process inside
  have tableBound : table < pageablePages := (map.bound (by simp [vacant.table_role])).trans_le full
  by_cases entered : table' = table ∧ getTableIndex a = getTableIndex vaddr
  · obtain ⟨rfl, slot⟩ := entered
    obtain rfl : q = p := by simpa using place.table_role.symm.trans vacant.table_role
    obtain rfl : directory' = directory := framePaddr_injective (place.walk.pointer.symm.trans vacant.pointer)
    obtain ⟨absent, loaded⟩ :=
      place.cell_entered images full vacant insidep inUse free contents ready process tableBound inside slot
    rw [loaded]
    exact .load .refl absent
  · have word : frameWord (s.withPage p frame (framePaddr table) vaddr).mem table' (getTableIndex a) =
        frameWord s.mem table' (getTableIndex a) := by
      rw [vacant.word (getTableIndex_lt a), if_neg, if_neg entered]
      rintro ⟨rfl, -⟩
      exact Role.noConfusion (place.table_role.symm.trans vacant.directory_role)
    have same : (s.withPage p frame (framePaddr table) vaddr).cell q a = s.cell q a := by
      apply place.cell_congr
      · rfl
      · exact vacant.directory_entry frame tableBound place.directory_role (getDirectoryIndex_lt a)
      · rw [word]
        exact .refl _
      · intro other isPage
        apply (vacant.sameFrame ?_ ?_).byte a
        · exact ne_of_role vacant.directory_role isPage nofun
        · exact ne_of_role vacant.table_role isPage nofun
      · rfl
      · rw [word]
    rw [same]
    exact .refl

end Loading

theorem hasFlag_peD_read (entry : BitVec 32) : hasFlag (entry ||| peA) peD = hasFlag entry peD := by
  rw [peA, peD, hasFlag_or_twoPow _ (by decide)]
  simp

theorem hasFlag_peD_write (entry : BitVec 32) : hasFlag (entry ||| (peA ||| peD)) peD = true := by
  rw [← BitVec.or_assoc, peD, hasFlag_or_twoPow _ (by decide)]
  simp

section Accesses

variable {a bits : BitVec 32} (walk : Walk s p vaddr directory table) (directory_role : role directory = .directory p)
  (table_role : role table = .table p)

include walk directory_role table_role

theorem Walk.cell_touch {directory' table' : ℕ} (place : Place s role q a directory' table')
    (access : AccessBits bits) : (s.cell q a).Maintained ((s.touch p vaddr bits).cell q a) := by
  have notDirectory : table' ≠ directory := ne_of_role directory_role place.table_role nofun
  have contents (other : ℕ) (isPage : role other = .page q table' (getTableIndex a)) :
      (s.touch p vaddr bits).mem (framePaddr other + a.toNat % pageSize) =
        s.mem (framePaddr other + a.toNat % pageSize) := by
    apply (walk.touch_sameFrame ?_ ?_).byte a
    · exact ne_of_role directory_role isPage nofun
    · exact ne_of_role table_role isPage nofun
  have pcb : (s.touch p vaddr bits).pcb q = s.pcb q := rfl
  have directoryEntry := walk.touch_entry access directory' (getDirectoryIndex_lt a)
  have tableEntry := walk.touch_entry access table' (getTableIndex_lt a)
  have word : frameWord (s.touch p vaddr bits).mem table' (getTableIndex a) = _ :=
    walk.touch_word table' (getTableIndex_lt a)
  by_cases marked : (table' = table ∧ getTableIndex a = getTableIndex vaddr) ∧ bits = peA ||| peD
  · obtain ⟨here, rfl⟩ := marked
    rw [place.cell_marked pcb directoryEntry tableEntry contents rfl, word, if_pos here, hasFlag_peD_write]
    exact .soil .refl
  · rw [place.cell_congr pcb directoryEntry tableEntry contents rfl ?_]
    · exact .refl
    rw [word]
    split_ifs with here there
    · obtain rfl : bits = peA := access.resolve_right fun write => marked ⟨here, write⟩
      exact hasFlag_peD_read _
    · exact absurd there.1 notDirectory
    · rfl

end Accesses

/-- A byte of one page is another byte of memory than that of any other address. -/
theorem Images.store_other {a : BitVec 32} {table' other : ℕ} (images : Images sizes s count) (readyq : q < count)
    (processq : (s.pcb q).isThread = false)
    (insideq : InImage (s.pcb q) a) (isPage : role other = .page q table' (getTableIndex a))
    (ready : p < count) (process : (s.pcb p).isThread = false) (inside : InImage (s.pcb p) vaddr)
    (page_role : role frame = .page p table (getTableIndex vaddr)) (different : ¬(q = p ∧ a = vaddr)) :
    framePaddr other + a.toNat % pageSize ≠ framePaddr frame + vaddr.toNat % pageSize := by
  intro same
  obtain ⟨rfl, offset⟩ : other = frame ∧ a.toNat % pageSize = vaddr.toNat % pageSize := by
    rw [framePaddr_eq, framePaddr_eq, pageSize] at *
    omega
  obtain ⟨rfl, rfl, slot⟩ := Role.page.inj (isPage.symm.trans page_role)
  have directories := (insideq.getDirectoryIndex (images.short q readyq processq)).trans
    (inside.getDirectoryIndex (images.short q ready process)).symm
  apply different
  refine ⟨rfl, BitVec.eq_of_toNat_eq ?_⟩
  rw [getDirectoryIndex_eq, getDirectoryIndex_eq] at directories
  rw [getTableIndex_eq, getTableIndex_eq] at slot
  rw [pageSize] at offset
  omega

section Store

variable {a : BitVec 32} {byte : BitVec 8} (page_role : role frame = .page p table (getTableIndex vaddr))

include page_role

theorem sameFrame_store (other : ℕ) (structural : ∀ q table slot, role other ≠ .page q table slot) :
    SameFrame s.mem (s.mem.writeByte (framePaddr frame + vaddr.toNat % pageSize) byte) other := by
  apply SameFrame.writeByte
  · rintro rfl
    exact structural _ _ _ page_role
  · exact Nat.mod_lt _ (by decide)

theorem MapInv.cell_store (map : MapInv (imageScope sizes) s count next queue role) (images : Images sizes s count)
    (ready : p < count) (process : (s.pcb p).isThread = false) (inside : InImage (s.pcb p) vaddr)
    (readyq : q < count) (processq : (s.pcb q).isThread = false) (insideq : InImage (s.pcb q) a)
    (different : ¬(q = p ∧ a = vaddr)) :
    cell { s with mem := s.mem.writeByte (framePaddr frame + vaddr.toNat % pageSize) byte } q a =
      s.cell q a := by
  obtain ⟨directory', table', place⟩ := map.place images readyq processq insideq
  have keptDirectory : SameFrame s.mem (s.mem.writeByte (framePaddr frame + vaddr.toNat % pageSize) byte) directory' :=
    sameFrame_store page_role directory' (by simp [place.directory_role])
  have keptTable : SameFrame s.mem (s.mem.writeByte (framePaddr frame + vaddr.toNat % pageSize) byte) table' :=
    sameFrame_store page_role table' (by simp [place.table_role])
  apply place.cell_congr
  · rfl
  · simp only [keptDirectory.word (getDirectoryIndex_lt a)]
    exact .refl _
  · simp only [keptTable.word (getTableIndex_lt a)]
    exact .refl _
  · intro other isPage
    apply writeByte_ne
    exact images.store_other readyq processq insideq isPage ready process inside page_role different
  · rfl
  · simp [keptTable.word (getTableIndex_lt a)]

end Store

theorem PageAt.page_role (at_frame : PageAt s queue role p vaddr frame directory table) :
    role frame = .page p table (getTableIndex vaddr) := by
  rw [at_frame.resident.page_role, ← getTableIndex_pageBase, at_frame.page, getTableIndex_pageBase]

theorem PageAt.cell_write (byte : BitVec 8) (at_frame : PageAt s queue role p vaddr frame directory table) :
    cell { s.touch p vaddr (peA ||| peD) with
      mem := (s.touch p vaddr (peA ||| peD)).mem.writeByte (framePaddr frame + vaddr.toNat % pageSize) byte } p vaddr =
      (s.cell p vaddr).write byte := by
  have walk := at_frame.walk
  have access : AccessBits (peA ||| peD) := .inr rfl
  generalize touched_eq : s.touch p vaddr (peA ||| peD) = touched
  have keptDirectory : SameFrame touched.mem
      (touched.mem.writeByte (framePaddr frame + vaddr.toNat % pageSize) byte) directory :=
    sameFrame_store at_frame.page_role directory (by simp [at_frame.resident.directory_role])
  have keptTable : SameFrame touched.mem
      (touched.mem.writeByte (framePaddr frame + vaddr.toNat % pageSize) byte) table :=
    sameFrame_store at_frame.page_role table (by simp [at_frame.resident.table_role])
  have directoryEntry := walk.touch_entry access directory (getDirectoryIndex_lt vaddr)
  have tableWord : frameWord (s.touch p vaddr (peA ||| peD)).mem table (getTableIndex vaddr) = _ :=
    walk.touch_word table (getTableIndex_lt vaddr)
  rw [touched_eq] at tableWord
  rw [touched_eq] at directoryEntry
  have pcb : touched.pcb = s.pcb := by
    rw [← touched_eq]
    rfl
  have disk : touched.disk = s.disk := by
    rw [← touched_eq]
    rfl
  have walk' : Walk { touched with
      mem := touched.mem.writeByte (framePaddr frame + vaddr.toNat % pageSize) byte } p vaddr directory table := by
    refine ⟨?_, ?_, walk.apart⟩
    · simp [pcb, walk.pointer]
    · simp [keptDirectory.word (getDirectoryIndex_lt vaddr), directoryEntry.base, walk.base]
  rw [walk'.cell_eq, walk.cell_eq]
  simp [keptTable.word (getTableIndex_lt vaddr), tableWord, (SameEntry.access _ access).present,
    (SameEntry.access _ access).base, hasFlag_peD_write, at_frame.present, at_frame.base, writeByte_same, pcb, disk,
    Cell.write]

end MicroOs.Paging
