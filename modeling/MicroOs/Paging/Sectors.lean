import MicroOs.Paging.Image

/-! # Where an image lies on the disk

`load_page_from_disk` and `write_page_back_to_disk` compute the sectors of a page in unsigned 32-bit arithmetic. For the
pages of an image these are the sectors of the image that belong to the page, also for a partial last page.
-/

namespace MicroOs.Paging

open BitMask Memory BitVec

/-- The sectors of the image of a process, counted from `swap_loc` on. -/
def OwnsSector (pcb : Pcb) (sector : BitVec 32) : Prop := sector - pcb.swapLoc < pcb.swapSize

instance (pcb : Pcb) (sector : BitVec 32) : Decidable (OwnsSector pcb sector) := inferInstanceAs (Decidable (_ < _))

def pageIndex (vaddr : BitVec 32) : ℕ := (vaddr.toNat - processVaddr.toNat) / pageSize

/-- The address lies on a page of the image, which may be partial. -/
def OnImagePage (pcb : Pcb) (vaddr : BitVec 32) : Prop :=
  processVaddr.toNat ≤ vaddr.toNat ∧ pageIndex vaddr < imagePages pcb.swapSize

def imageSector (pcb : Pcb) (vaddr : BitVec 32) : BitVec 32 :=
  pcb.swapLoc + BitVec.ofNat 32 ((vaddr.toNat - processVaddr.toNat) / sectorSize)

variable {pcb : Pcb} {vaddr sector : BitVec 32}

theorem InImage.onImagePage (inside : InImage pcb vaddr) : OnImagePage pcb vaddr := by
  obtain ⟨lower, upper⟩ := inside
  refine ⟨lower, ?_⟩
  simp only [pageIndex, imagePages, sectorSize, pageSize] at *
  omega

/-- The offset of a page in sectors, without overflow. -/
theorem diskOffset_eq (vaddr : BitVec 32) :
    (diskOffset vaddr).toNat = 8 * ((vaddr - processVaddr).toNat / pageSize) := by
  have whole : BitVec.ofNat 32 (pageSize / sectorSize) = 8#32 := by decide
  rw [diskOffset, whole, toNat_mul, toNat_udiv, pageSize]
  simp only [toNat_ofNat, Nat.reducePow, Nat.reduceMod]
  omega

theorem blockCount_eq (pcb : Pcb) (vaddr : BitVec 32) :
    (blockCount pcb vaddr).toNat = min 8 (pcb.swapSize - diskOffset vaddr).toNat := by
  have whole : BitVec.ofNat 32 (pageSize / sectorSize) = 8#32 := by decide
  simp only [blockCount, whole]
  split_ifs with longer
  · rw [lt_def] at longer
    simp only [reduceToNat] at longer ⊢
    omega
  · rw [lt_def] at longer
    simp only [reduceToNat] at longer
    omega

theorem sub_processVaddr_toNat (lower : processVaddr.toNat ≤ vaddr.toNat) :
    (vaddr - processVaddr).toNat = vaddr.toNat - processVaddr.toNat := toNat_sub_of_le lower

theorem diskOffset_toNat (lower : processVaddr.toNat ≤ vaddr.toNat) :
    (diskOffset vaddr).toNat = 8 * pageIndex vaddr := by
  rw [diskOffset_eq, sub_processVaddr_toNat lower, pageIndex]

theorem OnImagePage.blockCount_toNat (page : OnImagePage pcb vaddr) :
    8 * pageIndex vaddr < pcb.swapSize.toNat ∧
      (blockCount pcb vaddr).toNat = min 8 (pcb.swapSize.toNat - 8 * pageIndex vaddr) := by
  obtain ⟨lower, upper⟩ := page
  have offset := diskOffset_toNat lower
  rw [imagePages] at upper
  have start : 8 * pageIndex vaddr < pcb.swapSize.toNat := by omega
  refine ⟨start, ?_⟩
  rw [blockCount_eq, toNat_sub_of_le (by rw [le_def, offset]; exact start.le), offset]

theorem OnImagePage.transfer_iff (page : OnImagePage pcb vaddr) :
    sector - diskLoc pcb vaddr < blockCount pcb vaddr ↔
      OwnsSector pcb sector ∧ (sector - pcb.swapLoc).toNat / 8 = pageIndex vaddr := by
  obtain ⟨start, count⟩ := page.blockCount_toNat
  have offset := diskOffset_toNat page.1
  have split : sector - diskLoc pcb vaddr = sector - pcb.swapLoc - diskOffset vaddr := by
    rw [diskLoc, sub_sub]
  rw [split, lt_def, toNat_sub, count, OwnsSector, lt_def]
  omega

theorem imageSector_sub (lower : processVaddr.toNat ≤ vaddr.toNat) :
    (imageSector pcb vaddr - pcb.swapLoc).toNat = (vaddr.toNat - processVaddr.toNat) / sectorSize := by
  have cancel : imageSector pcb vaddr - pcb.swapLoc =
      BitVec.ofNat 32 ((vaddr.toNat - processVaddr.toNat) / sectorSize) := by
    rw [imageSector, add_comm, add_sub_cancel]
  rw [cancel, toNat_ofNat, sectorSize]
  omega

theorem InImage.ownsSector (inside : InImage pcb vaddr) : OwnsSector pcb (imageSector pcb vaddr) := by
  obtain ⟨lower, upper⟩ := inside
  rw [OwnsSector, lt_def, imageSector_sub lower]
  rw [sectorSize] at *
  omega

theorem imageSector_page (lower : processVaddr.toNat ≤ vaddr.toNat) :
    (imageSector pcb vaddr - pcb.swapLoc).toNat / 8 = pageIndex vaddr := by
  rw [imageSector_sub lower, pageIndex, sectorSize, pageSize]
  omega

theorem imageSector_eq (lower : processVaddr.toNat ≤ vaddr.toNat) :
    imageSector pcb vaddr = diskLoc pcb vaddr + BitVec.ofNat 32 (vaddr.toNat % pageSize / sectorSize) := by
  have offset := diskOffset_toNat lower
  have sum : BitVec.ofNat 32 ((vaddr.toNat - processVaddr.toNat) / sectorSize) =
      diskOffset vaddr + BitVec.ofNat 32 (vaddr.toNat % pageSize / sectorSize) := by
    apply eq_of_toNat_eq
    rw [toNat_add, offset, pageIndex, toNat_ofNat, toNat_ofNat]
    simp only [pageSize, sectorSize, processVaddr, reduceToNat] at *
    omega
  rw [imageSector, sum, diskLoc, add_assoc]

theorem InImage.lt_blockCount (inside : InImage pcb vaddr) :
    vaddr.toNat % pageSize < sectorSize * (blockCount pcb vaddr).toNat := by
  obtain ⟨-, count⟩ := inside.onImagePage.blockCount_toNat
  obtain ⟨lower, upper⟩ := inside
  rw [count, pageIndex]
  simp only [pageSize, sectorSize, processVaddr, reduceToNat] at *
  omega

theorem InImage.readBuffer_eq (inside : InImage pcb vaddr) (disk : BitVec 32 → Memory) :
    readBuffer disk (diskLoc pcb vaddr) (blockCount pcb vaddr) (vaddr.toNat % pageSize) =
      disk (imageSector pcb vaddr) (vaddr.toNat % sectorSize) := by
  have offset : vaddr.toNat % pageSize % sectorSize = vaddr.toNat % sectorSize := by
    rw [pageSize, sectorSize]
    omega
  rw [readBuffer, if_pos inside.lt_blockCount, imageSector_eq inside.1, offset]

end MicroOs.Paging
