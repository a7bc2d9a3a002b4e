import MicroOs.Paging.Layout

/-! # State of the memory manager

The static data of `memory.c`, the process control blocks it reads, physical memory and the disk. Kernel
data and paged physical memory are kept apart: the arrays below are not addressed through page tables. A call
that does not return (`abortk`, a failed assertion, a null dereference, an endless loop) ends in `Halt`, and so does
one that would overwrite the kernel's data through a page table, since its effect is not described here.

`trace` is a ghost record of what the pager did. Nothing reads it.
-/

namespace MicroOs.Paging

open BitMask

/-- Why a kernel call does not return. -/
inductive Halt
  /-- `abortk`, reached directly or through a failed assertion -/
  | abortk
  /-- a null pointer is dereferenced, or a table entry is stored into the kernel's own data: runs are followed no
  further -/
  | wild
  /-- a loop without end -/
  | diverges
deriving DecidableEq, Repr

/-- The result of a kernel call that may not return. -/
abbrev Outcome := Except Halt

theorem Outcome.bind_eq_ok_iff {α β : Type} {first : Outcome α} {next : α → Outcome β} {result : β} :
    (first >>= next) = .ok result ↔ ∃ value, first = .ok value ∧ next value = .ok result := by
  cases first with
  | error halt | ok value => simp [bind, Except.bind]

theorem Outcome.check_eq_ok_iff {α β : Type} {failed : Prop} [Decidable failed] {halt : Halt} {skipped : α → Outcome β}
    {next : Outcome β} {result : β} :
    (if failed then (Except.error halt : Outcome α) >>= skipped else next) = .ok result ↔
      ¬failed ∧ next = .ok result := by
  split_ifs with check
  · simp [check, bind, Except.bind]
  · simp [check]

inductive EvictionStrategy
  | fifo
  | random
deriving DecidableEq, Repr

/-- The settings of `config.h` that `memory.c` branches on. `retries` bounds the search loop of `evict_random_page`.
-/
structure Config where
  evictionStrategy : EvictionStrategy := .fifo
  pinShell : Bool := false
  retries : ℕ := 0

/-- A `pcb_t *`: the static dummy of the kernel, or an entry of the `pcb` table. -/
inductive PcbPtr
  | dummyKernel
  | pcb (index : ℕ)
deriving DecidableEq, Repr

/-- The fields of `struct pcb` that the memory manager reads. -/
structure Pcb where
  pid : BitVec 32 := 0#32
  isThread : Bool := false
  pageDirectory : ℕ := 0
  swapLoc : BitVec 32 := 0#32
  swapSize : BitVec 32 := 0#32
deriving DecidableEq, Repr

/-- `struct page_frame_info`; the two links are array indices. -/
structure FrameInfo where
  owner : Option PcbPtr := none
  nextSharedInfo : Option ℕ := none
  nextFreePage : Option ℕ := none
  paddr : ℕ := 0
  vaddr : BitVec 32 := 0#32
  infoMode : BitVec 32 := 0#32
deriving DecidableEq, Repr

def peInfoUserMode : BitVec 32 := BitVec.twoPow 32 0
def peInfoKernelDummy : BitVec 32 := BitVec.twoPow 32 1
def peInfoPinned : BitVec 32 := BitVec.twoPow 32 2
def peInfoStack : BitVec 32 := BitVec.twoPow 32 3

def FrameInfo.pinned (info : FrameInfo) : Bool := hasFlag info.infoMode peInfoPinned

structure FifoQueue where
  nextIn : ℕ := 0
  nextOut : ℕ := 0
  queue : ℕ → ℕ := fun _ => 0
  items : BitVec 32 := 0#32

/-- The outcome of one transfer command. A failed write may leave anything in its sectors. -/
inductive ScsiResult
  | good
  | bad (garbage : ℕ → BitVec 8)

/-- Pages loaded and evicted, transfers requested, and page frames that `fifo_enqueue` would not take. -/
inductive PageEvent
  | loaded (index owner : ℕ) (vaddr : BitVec 32)
  | evicted (index : ℕ)
  | refused (index : ℕ)
  | diskRead (sector count : BitVec 32)
  | diskWrite (sector count : BitVec 32)
deriving DecidableEq, Repr

structure Kernel where
  mem : Memory
  /-- contents of each sector, by sector number and offset -/
  disk : BitVec 32 → Memory
  /-- outcomes of the transfers to come, and how many have been made -/
  scsi : ℕ → ScsiResult
  scsiCount : ℕ := 0
  pageFrameInfo : ℕ → FrameInfo := fun _ => {}
  pageFrameInfoShared : ℕ → FrameInfo := fun _ => {}
  pageFreeHead : Option ℕ := none
  fifoQueue : FifoQueue := {}
  kernelPdir : ℕ := 0
  userKernelPtable : ℕ := 0
  firstProcess : Bool := true
  firstProcessPid : BitVec 32 := 0#32
  /-- the `pcb` table in the order of allocation, and the number of entries handed out -/
  pcb : ℕ → Pcb := fun _ => {}
  pcbCount : ℕ := 0
  randomIndexVal : BitVec 32 := 45#32
  /-- the time stamp counter at its successive readings -/
  ticks : ℕ → BitVec 64 := fun _ => 0#64
  tickCount : ℕ := 0
  trace : List PageEvent := []

def dummyKernelPcb : Pcb := { isThread := true }

namespace Kernel

variable (s : Kernel)

def pcbOf : PcbPtr → Pcb
  | .dummyKernel => dummyKernelPcb
  | .pcb index => s.pcb index

def setInfo (index : ℕ) (info : FrameInfo) : Kernel :=
  { s with pageFrameInfo := Function.update s.pageFrameInfo index info }

def setSharedInfo (index : ℕ) (info : FrameInfo) : Kernel :=
  { s with pageFrameInfoShared := Function.update s.pageFrameInfoShared index info }

def record (event : PageEvent) : Kernel := { s with trace := s.trace ++ [event] }

end Kernel

end MicroOs.Paging
