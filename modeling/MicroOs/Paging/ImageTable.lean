import MicroOs.Paging.Image

/-! # The page table of an image

`setup_process_vmem` enters the pages of an image into one page table, each with its address on the disk, and then the
stack into the same table. The slot of a page is its number modulo 1024 and the stack has slot 1023, so the table holds
an image of 1023 pages. Longer images overwrite their own entries, and where the length in bytes ends in the last page
of the 32-bit range the loop does not stop. An entry keeps the upper twenty bits of an address only.
-/

namespace MicroOs.Paging

open BitMask Memory BitVec List

variable {mem : Memory} {pcb : Pcb} {ptable count k : ℕ} {swapSize : BitVec 32}

def imageSlot (k : ℕ) : ℕ := getTableIndex (pageAddress k)

def diskAddress (pcb : Pcb) (k : ℕ) : ℕ := sectorSize * (pcb.swapLoc.toNat + pageSize / sectorSize * k)

/-- Each page of the image has an entry of its own, with its place on the disk. -/
structure ImageDescribed (mem : Memory) (ptable : ℕ) (pcb : Pcb) : Prop where
  address : ∀ k < imagePages pcb.swapSize, entryBase (mem.readWord (ptable + 4 * imageSlot k)) = diskAddress pcb k
  apart : ∀ j < imagePages pcb.swapSize, ∀ k < imagePages pcb.swapSize, imageSlot j = imageSlot k → j = k
  stack : ∀ k < imagePages pcb.swapSize, imageSlot k ≠ getTableIndex processStackVaddr

/-- The mapping loop of `setup_process_vmem`, with its 32-bit counter, if there are enough rounds. -/
def mapImageLoop (pcb : Pcb) (ptable : ℕ) : ℕ → BitVec 32 → Memory → Option Memory
  | 0, _, _ => none
  | rounds + 1, offset, mem =>
    if offset < imageBytes pcb then
      mapImageLoop pcb ptable rounds (offset + BitVec.ofNat 32 pageSize)
        (tableMapPage mem ptable (processVaddr + offset) (pcb.swapLoc * BitVec.ofNat 32 sectorSize + offset)
          (peRw ||| peUs))
    else some mem

/-- The mapping loop ends, and the image is described once the stack is in the table, wherever it is. -/
def SetsUpImage (mem : Memory) (pcb : Pcb) (ptable : ℕ) : Prop :=
  ∃ mapped, (∃ rounds, mapImageLoop pcb ptable rounds 0#32 mem = some mapped) ∧
    ∀ stackPage, ImageDescribed (tableMapPage mapped ptable processStackVaddr stackPage userMode) ptable pcb

/-- The image leaves room for the stack, and its pages are aligned in the first 4 GiB of the disk. -/
structure FitsTable (pcb : Pcb) : Prop where
  short : ShortImage pcb.swapSize
  aligned : pcb.swapSize ≠ 0#32 → pcb.swapLoc.toNat % 8 = 0
  reachable : ∀ k < imagePages pcb.swapSize, diskAddress pcb k < 2 ^ 32

theorem imageSlot_eq (k : ℕ) : imageSlot k = k % 1024 := by
  rw [imageSlot, pageAddress, getTableIndex_eq, toNat_add, toNat_ofNat, processVaddr, toNat_ofNat, pageSize]
  omega

theorem imageSlot_of_lt (small : k < 1024) : imageSlot k = k := by
  rw [imageSlot_eq, Nat.mod_eq_of_lt small]

/-- A page whose slot is the one of the stack is there in every image that is not short. -/
theorem shortImage_iff :
    ShortImage swapSize ↔ ∀ k < imagePages swapSize, imageSlot k ≠ getTableIndex processStackVaddr := by
  rw [getTableIndex_processStackVaddr, ShortImage]
  constructor
  · intro short k inside
    rw [imageSlot_of_lt (by omega)]
    omega
  · intro apart
    by_contra long
    exact apart 1023 (not_le.mp long) (imageSlot_of_lt (by decide))

theorem ShortImage.imageSlot (short : ShortImage swapSize) (inside : k < imagePages swapSize) : imageSlot k = k := by
  rw [ShortImage] at short
  exact imageSlot_of_lt (by omega)

/-- A limit in the last page of the range of addresses is behind every page boundary, so the counter wraps around. -/
theorem mapImageLoop_diverges (long : 2 ^ 32 - pageSize < (imageBytes pcb).toNat) (rounds : ℕ) {offset : BitVec 32}
    (aligned : offset.toNat % 4096 = 0) : mapImageLoop pcb ptable rounds offset mem = none := by
  induction rounds generalizing offset mem with
  | zero => rfl
  | succ rounds ih =>
    have below : offset < imageBytes pcb := by
      rw [lt_def]
      rw [pageSize] at long
      omega
    rw [mapImageLoop, if_pos below]
    apply ih
    rw [toNat_add, toNat_ofNat, pageSize]
    omega

/-- Otherwise the counter passes the limit behind the last page. -/
theorem mapImageLoop_rest (finite : (imageBytes pcb).toNat ≤ 2 ^ 32 - pageSize) (rest : ℕ) {first rounds : ℕ}
    (last : first + rest = ((imageBytes pcb).toNat + (pageSize - 1)) / pageSize) (enough : rest < rounds) :
    mapImageLoop pcb ptable rounds (BitVec.ofNat 32 (pageSize * first)) mem =
      some ((range' first rest).foldl (fun mem i =>
        tableMapPage mem ptable (processVaddr + BitVec.ofNat 32 (pageSize * i))
          (pcb.swapLoc * BitVec.ofNat 32 sectorSize + BitVec.ofNat 32 (pageSize * i)) (peRw ||| peUs)) mem) := by
  obtain ⟨rounds, rfl⟩ : ∃ less, rounds = less + 1 := ⟨rounds - 1, by omega⟩
  induction rest generalizing first rounds mem with
  | zero =>
    have passed : ¬BitVec.ofNat 32 (pageSize * first) < imageBytes pcb := by
      rw [lt_def, toNat_ofNat]
      rw [pageSize] at *
      omega
    rw [mapImageLoop, if_neg passed]
    rfl
  | succ rest ih =>
    have below : BitVec.ofNat 32 (pageSize * first) < imageBytes pcb := by
      rw [lt_def, toNat_ofNat]
      rw [pageSize] at *
      omega
    have step : BitVec.ofNat 32 (pageSize * first) + BitVec.ofNat 32 pageSize =
        BitVec.ofNat 32 (pageSize * (first + 1)) := by
      rw [Nat.mul_succ, ofNat_add]
    obtain ⟨rounds, rfl⟩ : ∃ less, rounds = less + 1 := ⟨rounds - 1, by omega⟩
    rw [mapImageLoop, if_pos below, step, ih (by omega) _ (by omega)]
    rfl

theorem mapImageLoop_mono {rounds more : ℕ} {offset : BitVec 32} {mapped : Memory}
    (returned : mapImageLoop pcb ptable rounds offset mem = some mapped) (enough : rounds ≤ more) :
    mapImageLoop pcb ptable more offset mem = some mapped := by
  induction rounds generalizing more offset mem with
  | zero => cases returned
  | succ rounds ih =>
    obtain ⟨more, rfl⟩ : ∃ less, more = less + 1 := ⟨more - 1, by omega⟩
    rw [mapImageLoop] at returned ⊢
    split_ifs at returned ⊢ with below
    · exact ih returned (by omega)
    · exact returned

/-- The loop returns exactly when the limit is not in the last page of the range, and has then entered all pages. -/
theorem mapImageLoop_returns_iff {mapped : Memory} :
    (∃ rounds, mapImageLoop pcb ptable rounds 0#32 mem = some mapped) ↔
      (imageBytes pcb).toNat ≤ 2 ^ 32 - pageSize ∧ mapped = mapImagePages mem pcb ptable := by
  have all (finite : (imageBytes pcb).toNat ≤ 2 ^ 32 - pageSize) (rounds : ℕ)
      (enough : ((imageBytes pcb).toNat + (pageSize - 1)) / pageSize < rounds) :
      mapImageLoop pcb ptable rounds 0#32 mem = some (mapImagePages mem pcb ptable) := by
    rw [mapImagePages, pagesFrom, foldl_map, range_eq_range']
    simp only [Nat.zero_add]
    exact mapImageLoop_rest finite _ (Nat.zero_add _) enough
  constructor
  · rintro ⟨rounds, returned⟩
    have finite : (imageBytes pcb).toNat ≤ 2 ^ 32 - pageSize := by
      by_contra long
      rw [mapImageLoop_diverges (not_le.mp long) rounds rfl] at returned
      cases returned
    refine ⟨finite, ?_⟩
    have later := mapImageLoop_mono returned
      (Nat.le_add_right rounds (((imageBytes pcb).toNat + (pageSize - 1)) / pageSize + 1))
    rw [all finite _ (Nat.lt_add_left rounds (Nat.lt_succ_self _))] at later
    exact (Option.some.inj later).symm
  · rintro ⟨finite, rfl⟩
    exact ⟨_, all finite _ (Nat.lt_succ_self _)⟩

/-- `mapImage` is the loop. -/
theorem Kernel.mapImage_eq_ok_iff {s s' : Kernel} :
    s.mapImage pcb ptable = .ok s' ↔
      ∃ mapped, (∃ rounds, mapImageLoop pcb ptable rounds 0#32 s.mem = some mapped) ∧
        s' = { s with mem := mapped } := by
  rw [Kernel.mapImage]
  simp only [mapImageLoop_returns_iff]
  split_ifs with long
  · constructor
    · intro impossible
      cases impossible
    · rintro ⟨mapped, ⟨finite, -⟩, -⟩
      exact absurd long (not_lt.mpr finite)
  · constructor
    · intro ran
      cases ran
      exact ⟨_, ⟨not_lt.mp long, rfl⟩, rfl⟩
    · rintro ⟨mapped, ⟨-, rfl⟩, rfl⟩
      rfl

def imageEntry (pcb : Pcb) (k : ℕ) : BitVec 32 :=
  tableEntry (pcb.swapLoc * BitVec.ofNat 32 sectorSize + BitVec.ofNat 32 (pageSize * k)) (peRw ||| peUs)

theorem readWord_tableMapPage (vaddr paddr mode : BitVec 32) (slot : ℕ) :
    (tableMapPage mem ptable vaddr paddr mode).readWord (ptable + 4 * slot) =
      if slot = getTableIndex vaddr then tableEntry paddr mode else mem.readWord (ptable + 4 * slot) := by
  rw [tableMapPage]
  split_ifs with same
  · rw [same, readWord_writeWord]
  · exact readWord_writeWord_disjoint mem _ (by omega)

theorem readWord_mapPages (room : count ≤ 1024) (inside : k < count) :
    ((range count).foldl (fun mem i =>
      tableMapPage mem ptable (processVaddr + BitVec.ofNat 32 (pageSize * i))
        (pcb.swapLoc * BitVec.ofNat 32 sectorSize + BitVec.ofNat 32 (pageSize * i)) (peRw ||| peUs)) mem).readWord
      (ptable + 4 * k) = imageEntry pcb k := by
  induction count with
  | zero => exact absurd inside (Nat.not_lt_zero k)
  | succ count ih =>
    have slot : getTableIndex (processVaddr + BitVec.ofNat 32 (pageSize * count)) = count :=
      imageSlot_of_lt (by omega)
    rw [range_succ, foldl_append, foldl_cons, foldl_nil, readWord_tableMapPage, slot]
    split_ifs with last
    · rw [last, imageEntry]
    · exact ih (by omega) (by omega)

theorem ShortImage.readWord_mapImagePages (short : ShortImage pcb.swapSize) (inside : k < imagePages pcb.swapSize) :
    (mapImagePages mem pcb ptable).readWord (ptable + 4 * k) = imageEntry pcb k := by
  have count : ((MicroOs.Paging.imageBytes pcb).toNat - 0 + (pageSize - 1)) / pageSize = imagePages pcb.swapSize := by
    rw [short.imageBytes, imagePages, pageSize, sectorSize]
    omega
  have room : imagePages pcb.swapSize ≤ 1023 := short
  rw [mapImagePages, pagesFrom, count, foldl_map]
  simp only [Nat.zero_add]
  exact readWord_mapPages (by omega) inside

/-- An entry holds the address of its page rounded down to a page boundary, modulo the range of addresses. -/
theorem entryBase_imageEntry (pcb : Pcb) (k : ℕ) :
    entryBase (imageEntry pcb k) = diskAddress pcb k % 2 ^ 32 / 4096 * 4096 := by
  rw [imageEntry, entryBase_tableEntry, toNat_add, toNat_mul, toNat_ofNat, toNat_ofNat,
    diskAddress, sectorSize, pageSize]
  omega

theorem entryBase_imageEntry_iff (pcb : Pcb) (k : ℕ) :
    entryBase (imageEntry pcb k) = diskAddress pcb k ↔ pcb.swapLoc.toNat % 8 = 0 ∧ diskAddress pcb k < 2 ^ 32 := by
  rw [entryBase_imageEntry, diskAddress, sectorSize, pageSize]
  omega

theorem imagePages_pos : 0 < imagePages swapSize ↔ swapSize ≠ 0#32 := by
  rw [imagePages, ne_eq, ← toNat_inj, toNat_ofNat]
  omega

/-- A table whose image entries are those of the loop describes the image exactly when it fits. -/
theorem imageDescribed_iff (words : ShortImage pcb.swapSize → ∀ k < imagePages pcb.swapSize,
      mem.readWord (ptable + 4 * k) = imageEntry pcb k) : ImageDescribed mem ptable pcb ↔ FitsTable pcb := by
  constructor
  · rintro ⟨address, -, stack⟩
    have short := shortImage_iff.mpr stack
    have exact (k : ℕ) (inside : k < imagePages pcb.swapSize) :
        pcb.swapLoc.toNat % 8 = 0 ∧ diskAddress pcb k < 2 ^ 32 := by
      rw [← entryBase_imageEntry_iff, ← words short k inside, ← address k inside, short.imageSlot inside]
    exact ⟨short, fun pages => (exact 0 (imagePages_pos.mpr pages)).1, fun k inside => (exact k inside).2⟩
  · rintro ⟨short, aligned, reachable⟩
    refine ⟨?_, ?_, shortImage_iff.mp short⟩
    · intro k inside
      have pages := imagePages_pos.mp (Nat.zero_lt_of_lt inside)
      rw [short.imageSlot inside, words short k inside, entryBase_imageEntry_iff]
      exact ⟨aligned pages, reachable k inside⟩
    · intro j first k second same
      rwa [short.imageSlot first, short.imageSlot second] at same

/-- Wherever the stack is, its entry leaves those of a short image alone. -/
theorem ShortImage.readWord_stack (short : ShortImage pcb.swapSize) (stackPage : BitVec 32)
    (inside : k < imagePages pcb.swapSize) :
    (tableMapPage (mapImagePages mem pcb ptable) ptable processStackVaddr stackPage userMode).readWord
      (ptable + 4 * k) = imageEntry pcb k := by
  have apart := shortImage_iff.mp short k inside
  rw [short.imageSlot inside] at apart
  rw [readWord_tableMapPage, if_neg apart, short.readWord_mapImagePages inside]

/-- The address space is set up as it should be exactly when the image fits into the table. -/
theorem image_set_up_iff (mem : Memory) (pcb : Pcb) (ptable : ℕ) : SetsUpImage mem pcb ptable ↔ FitsTable pcb := by
  have described (stackPage : BitVec 32) :
      ImageDescribed (tableMapPage (mapImagePages mem pcb ptable) ptable processStackVaddr stackPage userMode) ptable
        pcb ↔ FitsTable pcb :=
    imageDescribed_iff fun short k inside => short.readWord_stack stackPage inside
  constructor
  · rintro ⟨mapped, returned, holds⟩
    obtain ⟨-, rfl⟩ := mapImageLoop_returns_iff.mp returned
    exact (described 0#32).mp (holds 0#32)
  · intro fits
    refine ⟨_, mapImageLoop_returns_iff.mpr ⟨fits.short.finite, rfl⟩, ?_⟩
    intro stackPage
    exact (described stackPage).mpr fits

/-- The table of an image of two pages. -/
theorem image_set_up_two_pages : SetsUpImage (fun _ => 0#8) { swapLoc := 8#32, swapSize := 16#32 } (framePaddr 4) := by
  refine (image_set_up_iff ..).mpr ⟨by decide, fun _ => rfl, ?_⟩
  intro k inside
  have small : k < 2 := inside
  simp only [diskAddress, sectorSize, pageSize, toNat_ofNat]
  omega

/-- The last page of an image of 1024 pages has the slot of the stack. -/
theorem image_meets_stack : ¬SetsUpImage (fun _ => 0#8) { swapLoc := 0#32, swapSize := 8192#32 } (framePaddr 4) := by
  rintro ⟨mapped, -, described⟩
  exact (described 0#32).stack 1023 (by decide) (by decide)

end MicroOs.Paging
