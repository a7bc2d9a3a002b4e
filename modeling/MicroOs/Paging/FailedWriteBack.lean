import MicroOs.Paging.BlankFrames

/-! # Write-backs that fail

`try_evict_page_v2` does not look at what `write_page_back_to_disk` returns. When a dirty page cannot be written,
because the disk reports an error or the page lies behind the image, the page is unmapped, its record is cleared and its
frame is handed out as after a successful write: what the owner wrote is lost.
-/

namespace MicroOs.Paging

open BitMask Memory Kernel

variable {s s₀ s₁ s' : Kernel} {next frame p : ℕ} {queue : List ℕ} {events : List Event}

/-- The victim is a dirty page of `p`, and `write_page_back_to_disk` fails for it. -/
structure Kernel.WriteBackFails (s : Kernel) (frame p : ℕ) : Prop where
  selected : s.selectPageForEviction config = .ok (framePaddr frame, s.chosen)
  owner : (s.pageFrameInfo frame).owner = some (.pcb p)
  dirty : isPageDirty s.mem (s.pageFrameInfo frame).vaddr (s.pcb p).pageDirectory = true
  failed : (s.chosen.writePageBackToDisk (s.pageFrameInfo frame).vaddr (s.pcb p) (framePaddr frame)).1 = false

/-- The page is still there, with its entry and record, and its frame is not handed out. -/
structure PageKept (s : Kernel) (frame p paddr : ℕ) (s' : Kernel) : Prop where
  entry : pte s'.mem (s.pcb p).pageDirectory (s.pageFrameInfo frame).vaddr =
    pte s.mem (s.pcb p).pageDirectory (s.pageFrameInfo frame).vaddr
  record : s'.pageFrameInfo frame = s.pageFrameInfo frame
  contents : SameFrame s.mem s'.mem frame
  unused : paddr ≠ framePaddr frame

/-- An eviction that returns although the victim could not be saved has kept it. -/
def KeepsUnsavedPage (s : Kernel) : Prop :=
  ∀ frame p, s.WriteBackFails frame p → ∀ paddr s', s.tryEvictPage config = .ok (paddr, s') →
    PageKept s frame p paddr s'

/-- A dirty page has a page table, so two of the three points of failure are left. -/
theorem Kernel.writePageBackToDisk_fails_iff {vaddr : BitVec 32} {pcb : Pcb} {paddr : ℕ}
    (dirty : isPageDirty s.mem vaddr pcb.pageDirectory = true) :
    (s.writePageBackToDisk vaddr pcb paddr).1 = false ↔
      pcb.swapSize < diskOffset vaddr ∨ s.scsi s.scsiCount ≠ .good := by
  rw [isPageDirty, Bool.and_eq_true] at dirty
  rw [writePageBackToDisk, getPageTable, if_pos dirty.1]
  split_ifs with behind
  · exact iff_of_true rfl (.inl behind)
  · simp only [scsiWrite, behind]
    cases s.scsi s.scsiCount with
    | good => simp
    | bad garbage => simp

theorem Kernel.WriteBackFails.cause (fails : s.WriteBackFails frame p) :
    (s.pcb p).swapSize < diskOffset (s.pageFrameInfo frame).vaddr ∨ s.scsi s.scsiCount ≠ .good := by
  have dirty : isPageDirty s.chosen.mem (s.pageFrameInfo frame).vaddr (s.pcb p).pageDirectory = true := fails.dirty
  exact (writePageBackToDisk_fails_iff dirty).mp fails.failed

theorem Kernel.WriteBackFails.queue_eq (fails : s.WriteBackFails frame p) (alloc : AllocInv s next queue) :
    ∃ rest, queue = frame :: rest := by
  have selected := fails.selected
  cases queue with
  | nil =>
    have empty := alloc.represents.isEmpty_iff.mpr rfl
    simp [selectPageForEviction, config, selectPageForEvictionV1, FifoQueue.dequeue, empty] at selected
  | cons oldest rest =>
    rw [alloc.selectPageForEviction] at selected
    have same := (Prod.mk.inj (Except.ok.inj selected)).1
    exact ⟨rest, by rw [framePaddr_injective same]⟩

/-- A page that cannot be saved is evicted like any other. -/
theorem Kernel.WriteBackFails.tryEvictPage (fails : s.WriteBackFails frame p) (alloc : AllocInv s next queue) :
    s.tryEvictPage config = match s.unmapHalt frame p with
      | some halt => .error halt
      | none => .ok (framePaddr frame, s.evictFrame frame p) := by
  obtain ⟨rest, rfl⟩ := fails.queue_eq alloc
  exact alloc.tryEvictPage fails.owner

/-- In every reached state, a page that could not be saved is kept only if the kernel aborts when it unmaps the page.
-/
theorem unsaved_page_kept_iff {mem : Memory} {disk : BitVec 32 → Memory} {scsi : ℕ → ScsiResult}
    {ticks : ℕ → BitVec 64} (booted : (boot mem disk scsi ticks).initMemory config = .ok s₀)
    (run : Run (Step config) s₀ events s) (asks : Asks s s₁) :
    KeepsUnsavedPage s₁ ↔ ∀ frame p, s₁.WriteBackFails frame p → s₁.unmapHalt frame p ≠ none := by
  obtain ⟨_, _, alloc, -⟩ := residency_of_run booted run
  obtain ⟨next, queue, alloc₁⟩ := alloc.asks asks
  constructor
  · intro keeps frame p fails unmapped
    have returned := fails.tryEvictPage alloc₁
    rw [unmapped] at returned
    exact (keeps frame p fails _ _ returned).unused rfl
  · intro halts frame p fails paddr s' returned
    rw [fails.tryEvictPage alloc₁] at returned
    cases halt : s₁.unmapHalt frame p with
    | none => exact absurd halt (halts frame p fails)
    | some reason =>
      rw [halt] at returned
      cases returned

/-- The disk answers every transfer, and the dirty page is saved. -/
theorem unsaved_page_kept_good_disk : ∃ s₀ events s,
    (boot (fun _ => 0#8) (fun _ _ => 0#8) (fun _ => .good) fun _ => 0#64).initMemory config = .ok s₀ ∧
      Run (Step config) s₀ events s ∧ isPageDirty s.mem 0x1000000#32 (s.pcb 0).pageDirectory = true ∧
      KeepsUnsavedPage s := by
  obtain ⟨s₀, events, s, role, booted, run, -, inv, size, owner, page, -, dirty, answer, -⟩ :=
    first_page_dirty (fun _ => .good) fun _ _ => rfl
  have unguarded := run.mono And.right
  refine ⟨s₀, events, s, booted, unguarded, dirty, (unsaved_page_kept_iff booted unguarded .page).mpr ?_⟩
  intro frame p fails
  exfalso
  obtain ⟨rest, head⟩ := fails.queue_eq inv.system.alloc
  obtain rfl : frame = 6 := by
    exact (List.cons.inj head).1.symm
  obtain rfl : p = 0 := by simpa using fails.owner.symm.trans owner
  rcases fails.cause with behind | bad
  · rw [size, page] at behind
    exact absurd behind (by decide)
  · exact bad answer

/-- The disk fails when the oldest page is written back: the frame of the page is handed out all the same. -/
theorem unsaved_page_lost : ∃ s₀ events s s',
    (boot (fun _ => 0#8) (fun _ _ => 0#8) (fun n => if n < 27 then .good else .bad fun _ => 0#8)
      fun _ => 0#64).initMemory config = .ok s₀ ∧ Run (Step config) s₀ events s ∧ s.pageFreeHead = none ∧
      s.WriteBackFails 6 0 ∧ s.tryEvictPage config = .ok (framePaddr 6, s') ∧ ¬KeepsUnsavedPage s := by
  obtain ⟨s₀, events, s, role, booted, run, free, inv, -, owner, page, -, dirty, answer, -⟩ :=
    first_page_dirty (fun n => if n < 27 then .good else .bad fun _ => 0#8) fun n small => if_pos small
  rw [← page] at dirty
  have fails : s.WriteBackFails 6 0 := by
    refine ⟨inv.system.alloc.selectPageForEviction, owner, dirty, ?_⟩
    refine (writePageBackToDisk_fails_iff (s := s.chosen) dirty).mpr (.inr ?_)
    have bad : s.chosen.scsi s.chosen.scsiCount = .bad fun _ => 0#8 := answer
    rw [bad]
    exact nofun
  obtain ⟨p, directory, table, -, -, resident⟩ := inv.system.map.queued 6 (by simp)
  obtain rfl : p = 0 := by simpa using resident.owner.symm.trans owner
  have notKernel : directory ≠ 0 := (inv.system.map.kernel_ne resident.directory_role).1.symm
  have returned := fails.tryEvictPage inv.system.alloc
  rw [resident.unmapHalt inv.system.kernel notKernel] at returned
  refine ⟨s₀, events, s, _, booted, run.mono And.right, free, fails, returned, ?_⟩
  intro keeps
  exact (keeps 6 0 fails _ _ returned).unused rfl

end MicroOs.Paging
