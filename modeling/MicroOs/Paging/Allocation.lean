import MicroOs.Paging.AddressSpace
import Mathlib.Order.Interval.Finset.Nat

/-! # Frame allocation

The free list is consumed in the order of the frames and never refilled, so a single number describes it.
When it is used up, `allocate_page` evicts the oldest queued frame. Both paths are given here as equations
between `allocatePage` and an explicit state, and the frame records and the queue are shown to keep their
invariant. What the evicted frame held is described by the modules that follow.
-/

namespace MicroOs.Paging

open BitMask Memory Kernel List

variable {frame next' : ℕ} {queue' rest : List ℕ}

/-- A record as `initialize_page_frame_infos` and `page_free` leave it. -/
def FrameInfo.Blank (info : FrameInfo) : Prop := info.owner = none ∧ info.infoMode = 0#32

/-- The frames from `next` on form the free list, in order. -/
structure FreeList (s : Kernel) (next : ℕ) : Prop where
  bound : next ≤ pageablePages
  head : s.pageFreeHead = if next < pageablePages then some next else none
  link : ∀ i, next ≤ i → i < pageablePages →
    (s.pageFrameInfo i).nextFreePage = if i + 1 < pageablePages then some (i + 1) else none
  blank : ∀ i, next ≤ i → i < pageablePages → (s.pageFrameInfo i).Blank
  paddr : ∀ i, i < pageablePages → (s.pageFrameInfo i).paddr = framePaddr i
  unshared : ∀ i, i < pageablePages → (s.pageFrameInfo i).nextSharedInfo = none

/-- The free list and the frames that are queued for eviction, oldest first. -/
structure AllocInv (s : Kernel) (next : ℕ) (queue : List ℕ) : Prop extends FreeList s next where
  started : 0 < next
  represents : s.fifoQueue.Represents queue
  nodup : queue.Nodup
  inUse : ∀ f ∈ queue, 0 < f ∧ f < next
  evictable : ∀ f ∈ queue, (s.pageFrameInfo f).infoMode = peInfoUserMode ∧
    ∃ p, (s.pageFrameInfo f).owner = some (.pcb p)

namespace Kernel

variable (s : Kernel)

/-- The state after the head of the free list is taken. Four frames are cleared. -/
def takeFree (index : ℕ) : Kernel :=
  { s with
    mem := s.mem.blit (framePaddr index) (4 * pageSize) fun _ => 0#8
    pageFreeHead := (s.pageFrameInfo index).nextFreePage
    pageFrameInfo := Function.update s.pageFrameInfo index { s.pageFrameInfo index with nextFreePage := none } }

/-- Write the page of a frame back to the image of its owner if it is dirty. -/
def writeBack (index p : ℕ) : Kernel :=
  let vaddr := (s.pageFrameInfo index).vaddr
  if isPageDirty s.mem vaddr (s.pcb p).pageDirectory then
    (s.writePageBackToDisk vaddr (s.pcb p) (framePaddr index)).2
  else s

def chosen : Kernel := { s with fifoQueue := s.fifoQueue.dequeue.2.2 }

/-- The state after the oldest queued frame, owned by `p`, is evicted. -/
def evictFrame (index p : ℕ) : Kernel :=
  let vaddr := (s.pageFrameInfo index).vaddr
  let pdir := (s.pcb p).pageDirectory
  let written := s.chosen.writeBack index p
  ({ written with
    mem := s.mem.writeWord (pteAddr s.mem pdir vaddr) (tableEntry (pte s.mem pdir vaddr) 0#32)
    pageFrameInfo := Function.update s.pageFrameInfo index
      { s.pageFrameInfo index with owner := none, vaddr := 0#32, infoMode := 0#32, nextSharedInfo := none } }).record
    (.evicted index)

end Kernel

variable {s s' : Kernel} {next index p : ℕ} {queue : List ℕ}

theorem Kernel.scsiWrite_eq (s : Kernel) (sector count : BitVec 32) (paddr : ℕ) :
    ∃ disk, (s.scsiWrite sector count paddr).2 =
      { s with disk, scsiCount := s.scsiCount + 1, trace := s.trace ++ [.diskWrite sector count] } := by
  unfold scsiWrite
  cases s.scsi s.scsiCount with
  | good | bad garbage => exact ⟨_, rfl⟩

/-- A write-back changes the disk and the record of transfers only. -/
theorem Kernel.writeBack_eq (s : Kernel) (index p : ℕ) :
    ∃ disk scsiCount io, s.writeBack index p = { s with disk, scsiCount, trace := s.trace ++ io } ∧
      ∀ event ∈ io, ∃ sector count, event = .diskWrite sector count := by
  simp only [Kernel.writeBack, writePageBackToDisk]
  have unchanged : ∃ disk scsiCount io, s = { s with disk, scsiCount, trace := s.trace ++ io } ∧
      ∀ event ∈ io, ∃ sector count, event = PageEvent.diskWrite sector count :=
    ⟨s.disk, s.scsiCount, [], by simp, by simp⟩
  split_ifs with dirty past
  · exact unchanged
  · cases getPageTable s.mem (s.pageFrameInfo index).vaddr (s.pcb p).pageDirectory with
    | none => exact unchanged
    | some table =>
      obtain ⟨disk, written⟩ := s.scsiWrite_eq (diskLoc (s.pcb p) (s.pageFrameInfo index).vaddr)
        (blockCount (s.pcb p) (s.pageFrameInfo index).vaddr) (framePaddr index)
      exact ⟨disk, _, _, written, by simp⟩
  · exact unchanged

theorem Kernel.evictFrame_eq (s : Kernel) (index p : ℕ) :
    ∃ mem pageFrameInfo disk scsiCount io, s.evictFrame index p = { s with
        mem, pageFrameInfo, disk, scsiCount, fifoQueue := s.fifoQueue.dequeue.2.2
        trace := s.trace ++ io ++ [.evicted index] } ∧
      ∀ event ∈ io, ∃ sector count, event = .diskWrite sector count := by
  obtain ⟨disk, scsiCount, io, written, writes⟩ := s.chosen.writeBack_eq index p
  refine ⟨(s.evictFrame index p).mem, (s.evictFrame index p).pageFrameInfo, disk, scsiCount, io, ?_, writes⟩
  simp only [Kernel.evictFrame, written]
  rfl

section

variable (free : FreeList s next)
include free

theorem FreeList.allocatePage (cfg : Config) (available : next < pageablePages) :
    s.allocatePage cfg = .ok (framePaddr next, s.takeFree next) := by
  have head := free.head
  rw [if_pos available] at head
  simp [Kernel.allocatePage, allocatePageInternal, removePageFrameFromFreeListInfo, head, setInfo,
    free.paddr next available, zeroOut, foldl_writeWord_zero, Kernel.takeFree]

theorem FreeList.update {info : FrameInfo} (grown : next ≤ next')
    (bound : next' ≤ pageablePages) (inUse : frame < next')
    (head : s'.pageFreeHead = if next' < pageablePages then some next' else none)
    (records : s'.pageFrameInfo = Function.update s.pageFrameInfo frame info)
    (paddr : info.paddr = (s.pageFrameInfo frame).paddr) (unshared : info.nextSharedInfo = none) :
    FreeList s' next' where
  bound := bound
  head := head
  link i lower upper := by
    rw [records, Function.update_of_ne (by omega), free.link i (grown.trans lower) upper]
  blank i lower upper := by
    rw [records, Function.update_of_ne (by omega)]
    exact free.blank i (grown.trans lower) upper
  paddr i upper := by
    rw [records]
    rcases eq_or_ne i frame with rfl | apart
    · rw [Function.update_self, paddr, free.paddr i upper]
    · rw [Function.update_of_ne apart, free.paddr i upper]
  unshared i upper := by
    rw [records]
    rcases eq_or_ne i frame with rfl | apart
    · rw [Function.update_self, unshared]
    · rw [Function.update_of_ne apart, free.unshared i upper]

theorem FreeList.takeFree (available : next < pageablePages) : FreeList (s.takeFree next) (next + 1) :=
  free.update next.le_succ available next.lt_succ_self (free.link next le_rfl available) rfl rfl
    (free.unshared next available)

theorem FreeList.congr (head : s'.pageFreeHead = s.pageFreeHead)
    (info : s'.pageFrameInfo = s.pageFrameInfo) : FreeList s' next where
  bound := free.bound
  head := head ▸ free.head
  link := info ▸ free.link
  blank := info ▸ free.blank
  paddr := info ▸ free.paddr
  unshared := info ▸ free.unshared

end

theorem AllocInv.takeFree (inv : AllocInv s next queue) (available : next < pageablePages) :
    AllocInv (s.takeFree next) (next + 1) queue where
  toFreeList := inv.toFreeList.takeFree available
  started := by omega
  represents := inv.represents
  nodup := inv.nodup
  inUse f member := by
    have := inv.inUse f member
    omega
  evictable f member := by
    have used := inv.inUse f member
    simpa [Kernel.takeFree, Function.update_of_ne (show f ≠ next by omega)] using inv.evictable f member

theorem AllocInv.selectPageForEviction (inv : AllocInv s next (index :: rest)) :
    s.selectPageForEviction config = .ok (framePaddr index, s.chosen) := by
  obtain ⟨head, nonempty, -⟩ := inv.represents.dequeue
  have used := (inv.inUse index (by simp)).2
  simp only [Kernel.selectPageForEviction, selectPageForEvictionV1, head, nonempty,
    inv.paddr index (by have := inv.bound; omega)]
  rfl

theorem FreeList.pageFrameCheckDirty (free : FreeList s next) (bound : index < pageablePages)
    (owner : (s.pageFrameInfo index).owner = some (.pcb p)) (mode : (s.pageFrameInfo index).infoMode = peInfoUserMode) :
    s.pageFrameCheckDirty (framePaddr index) =
      .ok (if isPageDirty s.mem (s.pageFrameInfo index).vaddr (s.pcb p).pageDirectory then 1 else 0) := by
  have notDummy : hasFlag peInfoUserMode peInfoKernelDummy = false := by decide
  simp only [Kernel.pageFrameCheckDirty, calculateInfoIndex_framePaddr bound, checkDirtyRecords, owner, mode,
    notDummy, free.unshared index bound, pcbOf]
  simp

theorem FreeList.writeBackIfDirty (free : FreeList s next) (bound : index < pageablePages)
    (owner : (s.pageFrameInfo index).owner = some (.pcb p)) (mode : (s.pageFrameInfo index).infoMode = peInfoUserMode) :
    s.writeBackIfDirty (framePaddr index) = .ok (s.writeBack index p) := by
  simp only [Kernel.writeBackIfDirty, calculateInfoIndex_framePaddr bound, free.paddr index bound,
    free.pageFrameCheckDirty bound owner mode, owner]
  cases dirty : isPageDirty s.mem (s.pageFrameInfo index).vaddr (s.pcb p).pageDirectory with
  | false => simp [Kernel.writeBack, dirty, bind, Except.bind, pure, Except.pure]
  | true => simp [Kernel.writeBack, dirty, bind, Except.bind, pure, Except.pure, pcbOf]

/-- Why a frame owned by `p` cannot be unmapped, if so. -/
def Kernel.unmapHalt (s : Kernel) (index p : ℕ) : Option Halt :=
  let entry := pde s.mem (s.pcb p).pageDirectory (s.pageFrameInfo index).vaddr
  if (s.pcb p).pageDirectory = s.kernelPdir ∨ hasFlag entry peP = false then some .abortk
  else if inKernelArea (entryBase entry) then some .wild
  else none

/-- `page_free` of a frame with a single record unmaps the page and clears the record. -/
theorem FreeList.pageFree (free : FreeList s next) (bound : index < pageablePages)
    (owner : (s.pageFrameInfo index).owner = some (.pcb p)) :
    s.pageFree (framePaddr index) true = match s.unmapHalt index p with
      | some halt => .error halt
      | none => .ok { s with
          mem := s.mem.writeWord (pteAddr s.mem (s.pcb p).pageDirectory (s.pageFrameInfo index).vaddr)
            (tableEntry (pte s.mem (s.pcb p).pageDirectory (s.pageFrameInfo index).vaddr) 0#32)
          pageFrameInfo := Function.update s.pageFrameInfo index
            { s.pageFrameInfo index with
              owner := none, vaddr := 0#32, infoMode := 0#32, nextSharedInfo := none } } := by
  simp only [Kernel.pageFree, pageFreeRecords, Kernel.info, calculateInfoIndex_framePaddr bound, owner,
    pcbOf, unmapPhysicalPage, pageSetMode, unmapHalt]
  by_cases kernelDir : (s.pcb p).pageDirectory = s.kernelPdir
  · simp [kernelDir, bind, Except.bind]
  cases present : hasFlag (pde s.mem (s.pcb p).pageDirectory (s.pageFrameInfo index).vaddr) peP with
  | false => simp [bind, Except.bind]
  | true =>
    cases area : inKernelArea (entryBase (pde s.mem (s.pcb p).pageDirectory (s.pageFrameInfo index).vaddr)) with
    | true => simp [kernelDir, bind, Except.bind]
    | false =>
      simp [kernelDir, bind, Except.bind, pure, Except.pure, free.unshared index bound, putInfo, setInfo]

theorem FreeList.allocatePage_empty (free : FreeList s pageablePages) (cfg : Config) :
    s.allocatePage cfg = s.tryEvictPage cfg := by
  have head := free.head
  simp [Kernel.allocatePage, allocatePageInternal, removePageFrameFromFreeListInfo, head]

/-- The state after the page of a chosen frame, owned by `p`, is written back and unmapped. -/
def Kernel.dropPage (s : Kernel) (index p : ℕ) : Kernel :=
  let vaddr := (s.pageFrameInfo index).vaddr
  let pdir := (s.pcb p).pageDirectory
  ({ s.writeBack index p with
    mem := s.mem.writeWord (pteAddr s.mem pdir vaddr) (tableEntry (pte s.mem pdir vaddr) 0#32)
    pageFrameInfo := Function.update s.pageFrameInfo index
      { s.pageFrameInfo index with owner := none, vaddr := 0#32, infoMode := 0#32, nextSharedInfo := none } }).record
    (.evicted index)

theorem FreeList.tryEvictPage {cfg : Config} {s₁ : Kernel} (free : FreeList s₁ next) (bound : index < pageablePages)
    (selected : s.selectPageForEviction cfg = .ok (framePaddr index, s₁))
    (owner : (s₁.pageFrameInfo index).owner = some (.pcb p))
    (mode : (s₁.pageFrameInfo index).infoMode = peInfoUserMode) :
    s.tryEvictPage cfg = match s₁.unmapHalt index p with
      | some halt => .error halt
      | none => .ok (framePaddr index, s₁.dropPage index p) := by
  have notPinned : hasFlag peInfoUserMode peInfoPinned = false := by decide
  have notDummy : hasFlag peInfoUserMode peInfoKernelDummy = false := by decide
  have nonzero : framePaddr index ≠ 0 := by
    rw [framePaddr_eq]
    omega
  -- the record is not touched before `page_free`, so the facts about it carry over to the later states
  obtain ⟨disk, scsiCount, io, written, -⟩ := s₁.writeBack_eq index p
  have free₂ : FreeList (s₁.writeBack index p) next := by
    rw [written]
    exact free.congr rfl rfl
  have released := free₂.pageFree bound (p := p) (by rwa [written])
  have sameHalt : (s₁.writeBack index p).unmapHalt index p = s₁.unmapHalt index p := by
    rw [written]
    rfl
  simp only [Kernel.tryEvictPage, selected, bind, Except.bind, nonzero, if_false, calculateInfoIndex_framePaddr bound,
    FrameInfo.pinned, mode, notPinned, notDummy, Bool.false_eq_true, pure, Except.pure,
    free.writeBackIfDirty bound owner mode, free.paddr index bound, released, sameHalt]
  cases halt : s₁.unmapHalt index p with
  | some halt => rfl
  | none => simp only [dropPage, written]

/-- The oldest queued frame is evicted, unless its page cannot be unmapped. -/
theorem AllocInv.tryEvictPage (inv : AllocInv s next (index :: rest))
    (owner : (s.pageFrameInfo index).owner = some (.pcb p)) :
    s.tryEvictPage config = match s.unmapHalt index p with
      | some halt => .error halt
      | none => .ok (framePaddr index, s.evictFrame index p) := by
  have bound : index < pageablePages := (inv.inUse index (by simp)).2.trans_le inv.bound
  have chosen : FreeList s.chosen next := inv.toFreeList.congr rfl rfl
  exact chosen.tryEvictPage bound inv.selectPageForEviction owner (inv.evictable index (by simp)).1

theorem AllocInv.allocatePage_evict (inv : AllocInv s pageablePages (index :: rest))
    (owner : (s.pageFrameInfo index).owner = some (.pcb p)) :
    s.allocatePage config = match s.unmapHalt index p with
      | some halt => .error halt
      | none => .ok (framePaddr index, s.evictFrame index p) := by
  rw [inv.toFreeList.allocatePage_empty, inv.tryEvictPage owner]

theorem AllocInv.tryEvictPage_none (inv : AllocInv s next []) : s.tryEvictPage config = .error .abortk := by
  have empty := inv.represents.isEmpty_iff.mpr rfl
  simp [Kernel.tryEvictPage, Kernel.selectPageForEviction, config, selectPageForEvictionV1, FifoQueue.dequeue, empty,
    bind, Except.bind]

/-- The data that allocations do not touch. -/
structure SameStatic (s s' : Kernel) : Prop where
  pcb : s'.pcb = s.pcb
  pcbCount : s'.pcbCount = s.pcbCount
  kernelPdir : s'.kernelPdir = s.kernelPdir
  userKernelPtable : s'.userKernelPtable = s.userKernelPtable
  firstProcess : s'.firstProcess = s.firstProcess
  scsi : s'.scsi = s.scsi

section Fields

variable (s : Kernel) (index p : ℕ)

@[simp] theorem Kernel.evictFrame_mem : (s.evictFrame index p).mem =
    s.mem.writeWord (pteAddr s.mem (s.pcb p).pageDirectory (s.pageFrameInfo index).vaddr)
      (tableEntry (pte s.mem (s.pcb p).pageDirectory (s.pageFrameInfo index).vaddr) 0#32) := rfl

@[simp] theorem Kernel.evictFrame_pageFrameInfo : (s.evictFrame index p).pageFrameInfo =
    Function.update s.pageFrameInfo index { s.pageFrameInfo index with
      owner := none, vaddr := 0#32, infoMode := 0#32, nextSharedInfo := none } := rfl

theorem Kernel.evictFrame_static : SameStatic s (s.evictFrame index p) := by
  obtain ⟨_, _, _, _, _, result, -⟩ := s.evictFrame_eq index p
  rw [result]
  exact ⟨rfl, rfl, rfl, rfl, rfl, rfl⟩

@[simp] theorem Kernel.evictFrame_pcb : (s.evictFrame index p).pcb = s.pcb := (s.evictFrame_static index p).pcb

end Fields

/-- Eviction removes the frame from the queue and leaves a blank record. -/
theorem AllocInv.evictFrame (inv : AllocInv s pageablePages (index :: rest)) (p : ℕ) :
    AllocInv (s.evictFrame index p) pageablePages rest := by
  obtain ⟨-, -, dequeued⟩ := inv.represents.dequeue
  obtain ⟨absent, nodup⟩ := nodup_cons.mp inv.nodup
  obtain ⟨_, _, _, _, _, result, -⟩ := s.evictFrame_eq index p
  refine ⟨inv.toFreeList.update le_rfl le_rfl (inv.inUse index (by simp)).2 ?_ rfl rfl rfl, inv.started, ?_, nodup, ?_,
    ?_⟩
  · rw [result]
    exact inv.head
  · rw [result]
    exact dequeued
  · intro f member
    exact inv.inUse f (mem_cons_of_mem _ member)
  · intro f member
    have apart : f ≠ index := fun same => absent (same ▸ member)
    rw [Kernel.evictFrame_pageFrameInfo, Function.update_of_ne apart]
    exact inv.evictable f (mem_cons_of_mem _ member)

theorem AllocInv.allocatePage_none (inv : AllocInv s pageablePages []) : s.allocatePage config = .error .abortk := by
  rw [inv.toFreeList.allocatePage_empty, inv.tryEvictPage_none]

/-- `Allocated s next queue frame s' next' queue'`: in `s` a frame is allocated, which leads to `s'`. -/
inductive Allocated (s : Kernel) : ℕ → List ℕ → ℕ → Kernel → ℕ → List ℕ → Prop
  | free {next : ℕ} {queue : List ℕ} (available : next < pageablePages) :
      Allocated s next queue next (s.takeFree next) (next + 1) queue
  | evict {frame p : ℕ} {rest : List ℕ} (owner : (s.pageFrameInfo frame).owner = some (.pcb p))
      (unmapped : s.unmapHalt frame p = none) :
      Allocated s pageablePages (frame :: rest) frame (s.evictFrame frame p) pageablePages rest

theorem AllocInv.allocatePage_ok {paddr : ℕ} (inv : AllocInv s next queue)
    (ran : s.allocatePage config = .ok (paddr, s')) :
    ∃ frame next' queue', paddr = framePaddr frame ∧ Allocated s next queue frame s' next' queue' := by
  rcases Nat.lt_or_eq_of_le inv.bound with available | full
  · rw [inv.toFreeList.allocatePage config available] at ran
    obtain ⟨rfl, rfl⟩ := Prod.mk.inj (Except.ok.inj ran)
    exact ⟨next, _, _, rfl, .free available⟩
  subst full
  cases queue with
  | nil =>
    rw [inv.allocatePage_none] at ran
    cases ran
  | cons frame rest =>
    obtain ⟨p, owner⟩ := (inv.evictable frame (by simp)).2
    rw [inv.allocatePage_evict owner] at ran
    cases halt : s.unmapHalt frame p with
    | some halt => simp [halt] at ran
    | none =>
      rw [halt] at ran
      obtain ⟨rfl, rfl⟩ := Prod.mk.inj (Except.ok.inj ran)
      exact ⟨frame, _, _, rfl, .evict owner halt⟩

theorem Allocated.ran (inv : AllocInv s next queue) (allocated : Allocated s next queue frame s' next' queue') :
    s.allocatePage config = .ok (framePaddr frame, s') := by
  cases allocated with
  | free available => exact inv.toFreeList.allocatePage config available
  | evict owner unmapped => rw [inv.allocatePage_evict owner, unmapped]

/-- What holds of a frame that has been allocated and not yet recorded. -/
structure Fresh (s : Kernel) (next : ℕ) (queue : List ℕ) (frame : ℕ) : Prop where
  positive : 0 < frame
  inUse : frame < next
  unqueued : frame ∉ queue
  blank : (s.pageFrameInfo frame).Blank

theorem Allocated.inv (inv : AllocInv s next queue) (allocated : Allocated s next queue frame s' next' queue') :
    AllocInv s' next' queue' ∧ Fresh s' next' queue' frame := by
  cases allocated with
  | free available =>
    refine ⟨inv.takeFree available, inv.started, Nat.lt_succ_self _, ?_, ?_⟩
    · intro member
      exact lt_irrefl _ (inv.inUse _ member).2
    · simpa [Kernel.takeFree, FrameInfo.Blank] using inv.blank _ le_rfl available
  | @evict frame p rest owner unmapped =>
    obtain ⟨absent, -⟩ := nodup_cons.mp inv.nodup
    obtain ⟨positive, used⟩ := inv.inUse frame (by simp)
    exact ⟨inv.evictFrame p, positive, used, absent, by simp [FrameInfo.Blank]⟩

/-- A frame in use that is not queued is not handed out again. -/
theorem Allocated.ne {other : ℕ}
    (allocated : Allocated s next queue frame s' next' queue') (inUse : other < next) (unqueued : other ∉ queue) :
    other ≠ frame := by
  cases allocated with
  | free available => omega
  | evict owner unmapped =>
    rintro rfl
    exact unqueued (by simp)

theorem Allocated.fresh {other : ℕ}
    (allocated : Allocated s next queue frame s' next' queue') (fresh : Fresh s next queue other) :
    Fresh s' next' queue' other := by
  have different := allocated.ne fresh.inUse fresh.unqueued
  cases allocated with
  | free available =>
    refine ⟨fresh.positive, Nat.lt_succ_of_lt fresh.inUse, fresh.unqueued, ?_⟩
    simpa [Kernel.takeFree, Function.update_of_ne different] using fresh.blank
  | evict owner unmapped =>
    refine ⟨fresh.positive, fresh.inUse, ?_, ?_⟩
    · intro member
      exact fresh.unqueued (by simp [member])
    · simpa [Function.update_of_ne different] using fresh.blank

def Kernel.occupy (s : Kernel) (frame : ℕ) (owner : PcbPtr) (vaddr infoMode : BitVec 32) : Kernel :=
  s.setInfo frame { s.pageFrameInfo frame with
    owner := some owner, nextSharedInfo := none, vaddr := pageBase vaddr, infoMode }

def Kernel.enqueued (s : Kernel) (frame : ℕ) : Kernel := { s with fifoQueue := (s.fifoQueue.enqueue frame).2 }

theorem Kernel.insertPageFrameInfo_blank (bound : frame < pageablePages)
    (blank : (s.pageFrameInfo frame).Blank) (vaddr : BitVec 32) (owner : PcbPtr) (infoMode : BitVec 32) :
    s.insertPageFrameInfo (framePaddr frame) vaddr owner infoMode = .ok (s.occupy frame owner vaddr infoMode) := by
  simp [insertPageFrameInfo, calculateInfoIndex_framePaddr bound, blank.1, Kernel.occupy]

theorem FreeList.occupy (free : FreeList s next) (inUse : frame < next) (owner : PcbPtr)
    (vaddr infoMode : BitVec 32) : FreeList (s.occupy frame owner vaddr infoMode) next :=
  free.update le_rfl free.bound inUse free.head rfl rfl rfl

theorem AllocInv.occupy (inv : AllocInv s next queue) (inUse : frame < next) (unqueued : frame ∉ queue)
    (owner : PcbPtr) (vaddr infoMode : BitVec 32) : AllocInv (s.occupy frame owner vaddr infoMode) next queue where
  toFreeList := inv.toFreeList.occupy inUse owner vaddr infoMode
  started := inv.started
  represents := inv.represents
  nodup := inv.nodup
  inUse := inv.inUse
  evictable f member := by
    have different : f ≠ frame := fun same => unqueued (same ▸ member)
    simpa [Kernel.occupy, setInfo, Function.update_of_ne different] using inv.evictable f member

theorem AllocInv.congr (inv : AllocInv s next queue) (head : s'.pageFreeHead = s.pageFreeHead)
    (info : s'.pageFrameInfo = s.pageFrameInfo) (fifo : s'.fifoQueue = s.fifoQueue) : AllocInv s' next queue where
  toFreeList := inv.toFreeList.congr head info
  started := inv.started
  represents := fifo ▸ inv.represents
  nodup := inv.nodup
  inUse := inv.inUse
  evictable := info ▸ inv.evictable

/-- Frame 0 is never queued, so distinct frames to be queued leave a cell of the queue unused. -/
theorem length_lt_pageablePages {frames : List ℕ} (distinct : frames.Nodup)
    (used : ∀ f ∈ frames, 0 < f ∧ f < pageablePages) : frames.length < pageablePages := by
  have included : frames.toFinset ⊆ Finset.Ico 1 pageablePages := by
    intro f member
    rw [Finset.mem_Ico]
    exact used f (mem_toFinset.mp member)
  have count := Finset.card_le_card included
  rw [toFinset_card_of_nodup distinct, Nat.card_Ico, pageablePages] at count
  rw [pageablePages]
  omega

/-- The queue always has room for a fresh frame. -/
theorem AllocInv.room (inv : AllocInv s next queue) (fresh : Fresh s next queue frame) :
    queue.length + 1 < pageablePages := by
  refine length_lt_pageablePages (nodup_cons.mpr ⟨fresh.unqueued, inv.nodup⟩) ?_
  intro f member
  rcases mem_cons.mp member with rfl | queued
  · exact ⟨fresh.positive, lt_of_lt_of_le fresh.inUse inv.bound⟩
  · obtain ⟨positive, inUse⟩ := inv.inUse f queued
    exact ⟨positive, lt_of_lt_of_le inUse inv.bound⟩

/-- `fifo_enqueue` accepts a blank frame while there is room. -/
theorem Kernel.fifoEnqueueInfo_blank (bound : frame < pageablePages)
    (represents : s.fifoQueue.Represents queue) (room : queue.length + 1 < pageablePages)
    (blank : (s.pageFrameInfo frame).Blank) : s.fifoEnqueueInfo (framePaddr frame) = s.enqueued frame := by
  have accepted := (represents.enqueue frame room).1
  have unpinned : (s.pageFrameInfo frame).pinned = false := by rw [FrameInfo.pinned, blank.2, hasFlag_zero]
  simp only [Kernel.fifoEnqueueInfo, calculateInfoIndex_framePaddr bound, unpinned, accepted, enqueued]
  simp

theorem AllocInv.fifoEnqueueInfo (inv : AllocInv s next queue) (fresh : Fresh s next queue frame) :
    s.fifoEnqueueInfo (framePaddr frame) = s.enqueued frame :=
  Kernel.fifoEnqueueInfo_blank (lt_of_lt_of_le fresh.inUse inv.bound) inv.represents (inv.room fresh) fresh.blank

/-- A fresh frame that is queued and recorded for a process is evictable. -/
theorem AllocInv.install (inv : AllocInv s next queue) (fresh : Fresh s next queue frame) (p : ℕ) (vaddr : BitVec 32) :
    AllocInv ((s.enqueued frame).occupy frame (.pcb p) vaddr peInfoUserMode) next (queue ++ [frame]) := by
  have free : FreeList (s.enqueued frame) next := inv.toFreeList.congr rfl rfl
  refine ⟨free.occupy fresh.inUse (.pcb p) vaddr peInfoUserMode, inv.started, ?_, ?_, ?_, ?_⟩
  · exact (inv.represents.enqueue frame (inv.room fresh)).2
  · rw [nodup_append]
    refine ⟨inv.nodup, nodup_singleton _, ?_⟩
    intro f member other same
    rw [mem_singleton] at same
    subst same
    exact fun equal => fresh.unqueued (equal ▸ member)
  · intro f member
    rcases mem_append.mp member with queued | new
    · exact inv.inUse f queued
    · rw [mem_singleton] at new
      exact new ▸ ⟨fresh.positive, fresh.inUse⟩
  · intro f member
    by_cases same : f = frame
    · subst same
      simp [Kernel.occupy, setInfo]
    · have queued : f ∈ queue := by simpa [same] using member
      simpa [Kernel.occupy, setInfo, enqueued, Function.update_of_ne same] using inv.evictable f queued

end MicroOs.Paging
