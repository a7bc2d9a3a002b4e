import MicroOs.Paging.Access

/-! # The state after `init_memory`

Three frames are taken for the kernel: its page directory, its page table and the table that it shares with the
processes. The latter is still empty; the first process fills it.
-/

namespace MicroOs.Paging

open BitMask Memory Kernel

variable (mem : Memory) (disk : BitVec 32 → Memory) (scsi : ℕ → ScsiResult) (ticks : ℕ → BitVec 64)

namespace Kernel

def blank : Kernel := { (boot mem disk scsi ticks).initializePageFrameInfos with fifoQueue := {} }

def withKernelPdir : Kernel :=
  { (blank mem disk scsi ticks).takeFree 0 with kernelPdir := framePaddr 0 }.occupy 0 .dummyKernel
    (BitVec.ofNat 32 (framePaddr 0)) (peInfoPinned ||| peInfoKernelDummy)

def withKernelPtable : Kernel :=
  let recorded := ((withKernelPdir mem disk scsi ticks).takeFree 1).occupy 1 .dummyKernel
    (BitVec.ofNat 32 (framePaddr 1)) peInfoPinned
  { recorded with mem := identityMapKernel recorded.mem (framePaddr 0) (framePaddr 1) true (kernelMode ||| pePcd) }

/-- The state in which processes are set up. -/
def initial : Kernel :=
  { (withKernelPtable mem disk scsi ticks).takeFree 2 with userKernelPtable := framePaddr 2 }.occupy 2 .dummyKernel
    (BitVec.ofNat 32 (framePaddr 2)) (peInfoPinned ||| peInfoKernelDummy)

end Kernel

theorem freeList_blank : FreeList (Kernel.blank mem disk scsi ticks) 0 where
  bound := Nat.zero_le _
  head := rfl
  link i _ upper := by simp [Kernel.blank, initializePageFrameInfos, upper]
  blank i _ upper := by simp [Kernel.blank, initializePageFrameInfos, upper, FrameInfo.Blank]
  paddr i upper := by simp [Kernel.blank, initializePageFrameInfos, upper]
  unshared i upper := by simp [Kernel.blank, initializePageFrameInfos, upper]

theorem freeList_withKernelPdir : FreeList (Kernel.withKernelPdir mem disk scsi ticks) 1 := by
  have taken := (freeList_blank mem disk scsi ticks).takeFree (by decide)
  exact (taken.occupy (show 0 < 1 by decide) .dummyKernel (BitVec.ofNat 32 (framePaddr 0))
    (peInfoPinned ||| peInfoKernelDummy)).congr rfl rfl

theorem freeList_withKernelPtable : FreeList (Kernel.withKernelPtable mem disk scsi ticks) 2 := by
  have taken := (freeList_withKernelPdir mem disk scsi ticks).takeFree (by decide)
  exact (taken.occupy (by decide) _ _ _).congr rfl rfl

theorem freeList_initial : FreeList (Kernel.initial mem disk scsi ticks) 3 := by
  have taken := (freeList_withKernelPtable mem disk scsi ticks).takeFree (by decide)
  exact (taken.occupy (show 2 < 3 by decide) .dummyKernel (BitVec.ofNat 32 (framePaddr 2))
    (peInfoPinned ||| peInfoKernelDummy)).congr rfl rfl

/-- `init_memory` returns, in the state described above, with any settings. -/
theorem initMemory_initial (cfg : Config) : (Kernel.boot mem disk scsi ticks).initMemory cfg =
    .ok (Kernel.initial mem disk scsi ticks) := by
  have first := (freeList_blank mem disk scsi ticks).allocatePage cfg (by decide)
  have second := (freeList_withKernelPdir mem disk scsi ticks).allocatePage cfg (by decide)
  have third := (freeList_withKernelPtable mem disk scsi ticks).allocatePage cfg (by decide)
  have blank₀ := (freeList_blank mem disk scsi ticks).blank 0 (by decide) (by decide)
  have blank₁ := (freeList_withKernelPdir mem disk scsi ticks).blank 1 (by decide) (by decide)
  have blank₂ := (freeList_withKernelPtable mem disk scsi ticks).blank 2 (by decide) (by decide)
  simp only [initMemory, setupKernelVmem, setupKernelVmemCommon, Outcome.bind_eq_ok_iff,
    Prod.exists, processesShareKernelPageTable, if_true]
  refine ⟨_, _, first, _, insertPageFrameInfo_blank (by decide) ?_ _ _ _, _,
    ⟨_, _, second, _, insertPageFrameInfo_blank (by decide) ?_ _ _ _, rfl⟩,
    _, _, third, insertPageFrameInfo_blank (by decide) ?_ _ _ _⟩
  · simpa [takeFree, FrameInfo.Blank] using blank₀
  · simpa [takeFree, FrameInfo.Blank] using blank₁
  · simpa [takeFree, FrameInfo.Blank] using blank₂

theorem initMemory_eq : (Kernel.boot mem disk scsi ticks).initMemory config =
    .ok (Kernel.initial mem disk scsi ticks) := initMemory_initial mem disk scsi ticks config

theorem allocInv_initial : AllocInv (Kernel.initial mem disk scsi ticks) 3 [] where
  toFreeList := freeList_initial mem disk scsi ticks
  started := by decide
  represents := FifoQueue.represents_init
  nodup := List.nodup_nil
  inUse := by simp
  evictable := by simp

theorem initial_kernelPdir {slot : ℕ} (bound : slot < 1024) :
    frameWord (Kernel.initial mem disk scsi ticks).mem 0 slot =
      if slot = 0 then dirEntry (BitVec.ofNat 32 (framePaddr 1)) (kernelMode ||| pePcd) else 0#32 := by
  have last : SameFrame (Kernel.withKernelPtable mem disk scsi ticks).mem (Kernel.initial mem disk scsi ticks).mem 0 :=
    sameFrame_takeFree (.inl (by decide))
  have taken : SameFrame (Kernel.withKernelPdir mem disk scsi ticks).mem
      ((Kernel.withKernelPdir mem disk scsi ticks).takeFree 1).mem 0 := sameFrame_takeFree (.inl (by decide))
  have zero : frameWord (Kernel.withKernelPdir mem disk scsi ticks).mem 0 slot = 0#32 := frameWord_takeFree bound
  have filled : frameWord (Kernel.withKernelPtable mem disk scsi ticks).mem 0 slot = _ :=
    frameWord_identityMapKernel_directory (kernelMode ||| pePcd) (show 0 ≠ 1 by decide) bound
  rw [last.word bound, filled]
  split_ifs
  · rfl
  · exact (taken.word bound).trans zero

end MicroOs.Paging
