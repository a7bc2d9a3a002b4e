import MicroOs.Paging.Fifo

/-! # The functions of `memory.c`

Page frame allocation, eviction, demand loading and the construction of address spaces, as one call after
another executes them under `page_map_lock`. Translation caches are not modelled here, so `invalidate_page` has no
counterpart. Messages to the log and the counter of pinned frames, which nothing reads, are left out.
-/

namespace MicroOs.Paging

open BitMask Memory

namespace Kernel

variable (s : Kernel)

/-- Link every frame to its successor, and put the first one at the head of the free list. -/
def initializePageFrameInfos : Kernel :=
  { s with
    pageFreeHead := some 0
    pageFrameInfo := fun i => if i < pageablePages then
        { s.pageFrameInfo i with
          owner := none, nextSharedInfo := none, infoMode := 0#32, paddr := framePaddr i
          nextFreePage := if i + 1 < pageablePages then some (i + 1) else none }
      else s.pageFrameInfo i
    pageFrameInfoShared := fun i => if i < pageablePages then
        { s.pageFrameInfoShared i with owner := none, nextSharedInfo := none, infoMode := 0#32, paddr := 0 }
      else s.pageFrameInfoShared i }

def addPageFrameToFreeListInfo (paddr : ℕ) : Kernel :=
  let index := calculateInfoIndex paddr
  { s.setInfo index { s.pageFrameInfo index with nextFreePage := s.pageFreeHead } with pageFreeHead := some index }

def removePageFrameFromFreeListInfo : Option ℕ × Kernel :=
  match s.pageFreeHead with
  | none => (none, s)
  | some index =>
    (some index, { s.setInfo index { s.pageFrameInfo index with nextFreePage := none } with
      pageFreeHead := (s.pageFrameInfo index).nextFreePage })

/-- Follow the shared records from `next` on; `last` is the record seen before it. -/
def lastSharedInfo (shared : ℕ → FrameInfo) : ℕ → Option ℕ → Option ℕ → Outcome (Option ℕ)
  | _, last, none => .ok last
  | 0, _, some _ => .error .diverges
  | fuel + 1, _, some index => lastSharedInfo shared fuel (some index) (shared index).nextSharedInfo

/-- The record of an occupied frame gets a further record chained to it. -/
def insertSharedInfo (paddr : ℕ) (vaddr : BitVec 32) (owner : PcbPtr) (infoMode : BitVec 32) : Outcome Kernel := do
  let index := calculateInfoIndex paddr
  let info := s.pageFrameInfo index
  let last ← lastSharedInfo s.pageFrameInfoShared (pageablePages + 1) none info.nextSharedInfo
  match (List.range pageablePages).find? fun i => (s.pageFrameInfoShared i).owner.isNone with
  | none => pure s
  | some slot =>
    let linked := match last with
      | none => s.setInfo index { info with nextSharedInfo := some slot }
      | some last => s.setSharedInfo last { s.pageFrameInfoShared last with nextSharedInfo := some slot }
    pure (linked.setSharedInfo slot { linked.pageFrameInfoShared slot with
      owner := some owner, paddr, vaddr, infoMode })

def insertPageFrameInfo (paddr : ℕ) (vaddr : BitVec 32) (owner : PcbPtr) (infoMode : BitVec 32) : Outcome Kernel :=
  let index := calculateInfoIndex paddr
  let info := s.pageFrameInfo index
  let vaddr := pageBase vaddr
  match info.owner with
  | none => .ok (s.setInfo index { info with owner := some owner, nextSharedInfo := none, vaddr, infoMode })
  | some occupant =>
    if !(s.pcbOf occupant).isThread && !(pagingAreaMinPaddr ≤ vaddr.toNat && vaddr.toNat < pagingAreaMaxPaddr) then
      .error .abortk
    else s.insertSharedInfo paddr vaddr owner infoMode

/-- Queue a frame for eviction unless it is pinned. The answer of `fifo_enqueue` is dropped; the ghost trace keeps a
refusal. -/
def fifoEnqueueInfo (paddr : ℕ) : Kernel :=
  let index := calculateInfoIndex paddr
  if (s.pageFrameInfo index).pinned then s
  else
    let (accepted, queue) := s.fifoQueue.enqueue index
    if accepted then { s with fifoQueue := queue } else { s with fifoQueue := queue }.record (.refused index)

/-- Zero out a page through a `uint32_t *`. The loop counts `PAGE_SIZE` words, not bytes. -/
def zeroOut (mem : Memory) (paddr : ℕ) : Memory :=
  (List.range pageSize).foldl (fun mem i => mem.writeWord (paddr + 4 * i) 0#32) mem

def allocatePageInternal : Option ℕ × Kernel :=
  match s.removePageFrameFromFreeListInfo with
  | (none, s) => (none, s)
  | (some index, s) =>
    let paddr := (s.pageFrameInfo index).paddr
    (some paddr, { s with mem := zeroOut s.mem paddr })

end Kernel

def pde (mem : Memory) (pdir : ℕ) (vaddr : BitVec 32) : BitVec 32 :=
  mem.readWord (pdir + 4 * getDirectoryIndex vaddr)

/-- Where the page table entry for an address is stored. -/
def pteAddr (mem : Memory) (pdir : ℕ) (vaddr : BitVec 32) : ℕ :=
  entryBase (pde mem pdir vaddr) + 4 * getTableIndex vaddr

def pte (mem : Memory) (pdir : ℕ) (vaddr : BitVec 32) : BitVec 32 := mem.readWord (pteAddr mem pdir vaddr)

def getPageTable (mem : Memory) (vaddr : BitVec 32) (pdir : ℕ) : Option ℕ :=
  if hasFlag (pde mem pdir vaddr) peP then some (entryBase (pde mem pdir vaddr)) else none

/-- A table that starts here lies among the kernel's own data. -/
def inKernelArea (table : ℕ) : Bool := table < pagingAreaMinPaddr

def isPageDirty (mem : Memory) (vaddr : BitVec 32) (pdir : ℕ) : Bool :=
  hasFlag (pde mem pdir vaddr) peP && hasFlag (pte mem pdir vaddr) peD

namespace Kernel

variable (s : Kernel)

/-- Set the twelve least significant bits in a page table entry. -/
def pageSetMode (pdir : ℕ) (vaddr mode : BitVec 32) : Outcome Kernel :=
  if !hasFlag (pde s.mem pdir vaddr) peP then .error .abortk
  else if inKernelArea (entryBase (pde s.mem pdir vaddr)) then .error .wild
  else .ok { s with mem := s.mem.writeWord (pteAddr s.mem pdir vaddr) (tableEntry (pte s.mem pdir vaddr) mode) }

def unmapPhysicalPage (pdir : ℕ) (vaddr : BitVec 32) : Outcome Kernel := s.pageSetMode pdir vaddr 0#32

/-- The records that describe one frame: its own and the shared ones chained to it. -/
inductive InfoRef
  | main (index : ℕ)
  | shared (index : ℕ)

def info : InfoRef → FrameInfo
  | .main index => s.pageFrameInfo index
  | .shared index => s.pageFrameInfoShared index

def putInfo : InfoRef → FrameInfo → Kernel
  | .main index, info => s.setInfo index info
  | .shared index, info => s.setSharedInfo index info

/-- The loop of `page_free` over the records of a frame. -/
def pageFreeRecords (paddr : ℕ) (evict : Bool) : ℕ → InfoRef → Kernel → Outcome Kernel
  | 0, _, _ => .error .diverges
  | fuel + 1, ref, s =>
    match (s.info ref).owner with
    | none => .error .wild
    | some owner => do
      if owner = .dummyKernel ∨ (s.pcbOf owner).pageDirectory = s.kernelPdir then .error .abortk
      let s ← if evict then s.unmapPhysicalPage (s.pcbOf owner).pageDirectory (s.info ref).vaddr
        else pure (s.addPageFrameToFreeListInfo paddr)
      let record := s.info ref
      let s := s.putInfo ref { record with owner := none, vaddr := 0#32, infoMode := 0#32, nextSharedInfo := none }
      match record.nextSharedInfo with
      | none => pure s
      | some next => pageFreeRecords paddr evict fuel (.shared next) s

def pageFree (paddr : ℕ) (evict : Bool) : Outcome Kernel :=
  pageFreeRecords paddr evict (pageablePages + 1) (.main (calculateInfoIndex paddr)) s

end Kernel

/-- First sector of a page within the image, in unsigned arithmetic. -/
def diskOffset (vaddr : BitVec 32) : BitVec 32 :=
  (vaddr - processVaddr) / BitVec.ofNat 32 pageSize * BitVec.ofNat 32 (pageSize / sectorSize)

/-- `MIN(PAGE_SIZE / SECTOR_SIZE, swap_size - disk_offset)`, compared as unsigned numbers. -/
def blockCount (pcb : Pcb) (vaddr : BitVec 32) : BitVec 32 :=
  let whole := BitVec.ofNat 32 (pageSize / sectorSize)
  let rest := pcb.swapSize - diskOffset vaddr
  if whole < rest then whole else rest

def diskLoc (pcb : Pcb) (vaddr : BitVec 32) : BitVec 32 := pcb.swapLoc + diskOffset vaddr

/-- The read buffer after `count` sectors have been read into it; it is cleared before. -/
def readBuffer (disk : BitVec 32 → Memory) (sector count : BitVec 32) : Memory := fun i =>
  if i < sectorSize * count.toNat then disk (sector + BitVec.ofNat 32 (i / sectorSize)) (i % sectorSize) else 0#8

namespace Kernel

variable (s : Kernel)

/-- Write `count` sectors from memory. The answer is whether the device reported success. -/
def scsiWrite (sector count : BitVec 32) (paddr : ℕ) : Bool × Kernel :=
  let transfer (source : Memory) : BitVec 32 → Memory := fun query =>
    if query - sector < count then fun offset => source (sectorSize * (query - sector).toNat + offset)
    else s.disk query
  let done := { s with scsiCount := s.scsiCount + 1 }.record (.diskWrite sector count)
  match s.scsi s.scsiCount with
  | .good => (true, { done with disk := transfer fun i => s.mem (paddr + i) })
  | .bad garbage => (false, { done with disk := transfer garbage })

/-- Read sectors into the read buffer and copy the buffer to a frame. -/
def diskLoader (sector count : BitVec 32) (frameref : ℕ) : Bool × Kernel :=
  let done := { s with scsiCount := s.scsiCount + 1 }.record (.diskRead sector count)
  match s.scsi s.scsiCount with
  | .good => (true, { done with mem := s.mem.blit frameref pageSize (readBuffer s.disk sector count) })
  | .bad _ => (false, done)

def writePageBackToDisk (vaddr : BitVec 32) (pcb : Pcb) (paddr : ℕ) : Bool × Kernel :=
  if pcb.swapSize < diskOffset vaddr then (false, s)
  else match getPageTable s.mem vaddr pcb.pageDirectory with
    | none => (false, s)
    | some _ => s.scsiWrite (diskLoc pcb vaddr) (blockCount pcb vaddr) paddr

/-- FIFO eviction algorithm -/
def selectPageForEvictionV1 : Outcome (ℕ × Kernel) :=
  let (index, error, queue) := s.fifoQueue.dequeue
  if error then .error .abortk else .ok ((s.pageFrameInfo index).paddr, { s with fifoQueue := queue })

def randomIndexGenerator : ℕ × Kernel :=
  let value := s.randomIndexVal * 1103515245#32 + 12345#32 + (s.ticks s.tickCount % 2397#64).setWidth 32
  ((value / 65536#32).toNat % pageablePages, { s with randomIndexVal := value, tickCount := s.tickCount + 1 })

def evictRandomPage : ℕ → Kernel → Outcome (ℕ × Kernel)
  | 0, _ => .error .diverges
  | retries + 1, s =>
    let (index, s) := s.randomIndexGenerator
    if (s.pageFrameInfo index).pinned then evictRandomPage retries s else .ok ((s.pageFrameInfo index).paddr, s)

def selectPageForEviction (cfg : Config) : Outcome (ℕ × Kernel) :=
  match cfg.evictionStrategy with
  | .random => evictRandomPage cfg.retries s
  | .fifo => s.selectPageForEvictionV1

/-- Count the dirty mappings of a frame over its records; `-1` for a record of the kernel. -/
def checkDirtyRecords : ℕ → FrameInfo → ℤ → Outcome ℤ
  | 0, _, _ => .error .diverges
  | fuel + 1, info, dirty =>
    match info.owner with
    | none => .ok dirty
    | some owner =>
      if hasFlag info.infoMode peInfoKernelDummy then .ok (-1)
      else
        let dirty := dirty + if isPageDirty s.mem info.vaddr (s.pcbOf owner).pageDirectory then 1 else 0
        match info.nextSharedInfo with
        | none => .ok dirty
        | some next => checkDirtyRecords fuel (s.pageFrameInfoShared next) dirty

def pageFrameCheckDirty (paddr : ℕ) : Outcome ℤ :=
  s.checkDirtyRecords (pageablePages + 1) (s.pageFrameInfo (calculateInfoIndex paddr)) 0

/-- Write the page of a frame back when a mapping is dirty. A failed write is not looked at. -/
def writeBackIfDirty (paddr : ℕ) : Outcome Kernel := do
  let info := s.pageFrameInfo (calculateInfoIndex paddr)
  let dirty ← s.pageFrameCheckDirty paddr
  if dirty ≠ 0 then
    match info.owner with
    | none => .error .wild
    | some owner => pure (s.writePageBackToDisk info.vaddr (s.pcbOf owner) info.paddr).2
  else pure s

/-- Choose a victim, write it back if it is dirty and unmap it. -/
def tryEvictPage (cfg : Config) : Outcome (ℕ × Kernel) := do
  let (paddr, s) ← s.selectPageForEviction cfg
  -- without a page frame `try_evict_page` returns null, on which `allocate_page` aborts
  if paddr = 0 then .error .abortk
  let index := calculateInfoIndex paddr
  let info := s.pageFrameInfo index
  if info.pinned then .error .abortk
  if hasFlag info.infoMode peInfoKernelDummy then .error .abortk
  let s ← s.writeBackIfDirty paddr
  let s ← s.pageFree info.paddr true
  pure (paddr, s.record (.evicted index))

def allocatePage (cfg : Config) : Outcome (ℕ × Kernel) :=
  match s.allocatePageInternal with
  | (some paddr, s) => .ok (paddr, s)
  | (none, s) => s.tryEvictPage cfg

end Kernel

end MicroOs.Paging
