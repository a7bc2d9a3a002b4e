import MicroOs.Paging.Eviction
import MicroOs.Paging.Residency

/-! # What a new frame holds

`allocate_page` clears a frame that it takes from the free list. A frame that it takes from another page is handed out
as that page left it: write-back and `page_free` change the disk, the record of the frame and the entry that mapped it.
Directories and tables are built in such frames, so they start with the old contents.
-/

namespace MicroOs.Paging

open BitMask Memory

variable {s s₀ s₁ s' : Kernel} {next frame p paddr : ℕ} {queue : List ℕ} {events : List Event}

def BlankFrame (mem : Memory) (paddr : ℕ) : Prop := ∀ i < pageSize, mem (paddr + i) = 0#8

namespace Kernel

variable (s : Kernel)

def victim : ℕ := s.fifoQueue.dequeue.1

/-- Memory once the entry that maps the page of the victim is cleared. -/
def unmapVictim : Memory :=
  match (s.pageFrameInfo s.victim).owner with
  | some (.pcb p) =>
    s.mem.writeWord (pteAddr s.mem (s.pcb p).pageDirectory (s.pageFrameInfo s.victim).vaddr)
      (tableEntry (pte s.mem (s.pcb p).pageDirectory (s.pageFrameInfo s.victim).vaddr) 0#32)
  | _ => s.mem

end Kernel

/-- The states in which `allocate_page` is called while the kernel handles an event. -/
inductive Asks (s : Kernel) : Kernel → Prop
  | directory (swapLoc swapSize : BitVec 32) : Asks s (s.withPcb false swapLoc swapSize)
  | table {swapLoc swapSize : BitVec 32} {pdir : ℕ} {s₁ : Kernel}
      (first : (s.withPcb false swapLoc swapSize).setupDirectory config s.pcbCount = .ok (pdir, s₁)) : Asks s s₁
  | stack {swapLoc swapSize : BitVec 32} {pdir ptable : ℕ} {s₁ s₂ s₃ : Kernel}
      (first : (s.withPcb false swapLoc swapSize).setupDirectory config s.pcbCount = .ok (pdir, s₁))
      (second : s₁.setupTable config s.pcbCount pdir = .ok (ptable, s₂))
      (image : s₂.mapImage (s₂.pcb s.pcbCount) ptable = .ok s₃) :
      Asks s { s₃ with mem := dirInsTable s₃.mem pdir processStackVaddr ptable userMode }
  | page : Asks s s
  | pageTable {p paddr : ℕ} {vaddr : BitVec 32} {s₁ : Kernel} (first : s.allocatePage config = .ok (paddr, s₁)) :
      Asks s (s₁.diskLoader (diskLoc (s.pcb p) vaddr) (blockCount (s.pcb p) vaddr) paddr).2

section

variable (alloc : AllocInv s next queue)
include alloc

theorem AllocInv.setupDirectory {pdir : ℕ} (ran : s.setupDirectory config p = .ok (pdir, s₁)) :
    ∃ directory next₁ queue₁, pdir = framePaddr directory ∧ AllocInv s₁ next₁ queue₁ := by
  obtain ⟨⟨_, middle⟩, allocates, -⟩ := Outcome.bind_eq_ok_iff.mp ran
  obtain ⟨directory, next₁, queue₁, rfl, allocated⟩ := alloc.allocatePage_ok allocates
  obtain ⟨alloc₁, fresh⟩ := allocated.inv alloc
  rw [Kernel.setupDirectory_eq (fresh.bound alloc₁) fresh.blank allocates] at ran
  cases ran
  exact ⟨directory, next₁, queue₁, rfl, alloc₁.withDirectory fresh p⟩

theorem AllocInv.setupTable {directory ptable : ℕ}
    (ran : s.setupTable config p (framePaddr directory) = .ok (ptable, s₁)) :
    ∃ next₁ queue₁, AllocInv s₁ next₁ queue₁ := by
  obtain ⟨⟨_, middle⟩, allocates, -⟩ := Outcome.bind_eq_ok_iff.mp ran
  obtain ⟨table, next₁, queue₁, rfl, allocated⟩ := alloc.allocatePage_ok allocates
  obtain ⟨alloc₁, fresh⟩ := allocated.inv alloc
  rw [Kernel.setupTable_eq (fresh.bound alloc₁) fresh.blank allocates] at ran
  cases ran
  refine ⟨next₁, queue₁, AllocInv.occupy ?_ fresh.inUse fresh.unqueued _ _ _⟩
  exact alloc₁.congr rfl rfl rfl

theorem AllocInv.diskLoader (sector count : BitVec 32) (frameref : ℕ) :
    AllocInv (s.diskLoader sector count frameref).2 next queue := by
  unfold Kernel.diskLoader
  cases s.scsi s.scsiCount with
  | good | bad garbage => exact alloc.congr rfl rfl rfl

theorem AllocInv.asks (asks : Asks s s₁) : ∃ next₁ queue₁, AllocInv s₁ next₁ queue₁ := by
  cases asks with
  | directory swapLoc swapSize => exact ⟨next, queue, alloc.withPcb false swapLoc swapSize⟩
  | @table swapLoc swapSize pdir _ first =>
    obtain ⟨-, next₁, queue₁, -, alloc₁⟩ := (alloc.withPcb false swapLoc swapSize).setupDirectory first
    exact ⟨next₁, queue₁, alloc₁⟩
  | @stack swapLoc swapSize pdir ptable _ _ s₃ first second image =>
    obtain ⟨directory, next₁, queue₁, rfl, alloc₁⟩ := (alloc.withPcb false swapLoc swapSize).setupDirectory first
    obtain ⟨next₂, queue₂, alloc₂⟩ := alloc₁.setupTable second
    unfold Kernel.mapImage at image
    split_ifs at image
    cases image
    exact ⟨next₂, queue₂, alloc₂.congr rfl rfl rfl⟩
  | page => exact ⟨next, queue, alloc⟩
  | pageTable first =>
    obtain ⟨frame, next₁, queue₁, rfl, allocated⟩ := alloc.allocatePage_ok first
    exact ⟨next₁, queue₁, (allocated.inv alloc).1.diskLoader _ _ _⟩

theorem Allocated.blankFrame_iff {next' : ℕ} {queue' : List ℕ}
    (allocated : Allocated s next queue frame s' next' queue') :
    BlankFrame s'.mem (framePaddr frame) ↔ s.pageFreeHead ≠ none ∨ BlankFrame s.unmapVictim (framePaddr s.victim) := by
  cases allocated with
  | free available =>
    have head : s.pageFreeHead ≠ none := by simp [alloc.head, available]
    refine iff_of_true ?_ (.inl head)
    intro i small
    have inside : framePaddr next ≤ framePaddr next + i ∧ framePaddr next + i < framePaddr next + 4 * pageSize := by
      omega
    exact blit_inside s.mem (fun _ => 0#8) inside
  | @evict _ p rest owner unmapped =>
    have head : s.pageFreeHead = none := by simp [alloc.head]
    have victim : s.victim = frame := alloc.represents.dequeue.1
    have mem : (s.evictFrame frame p).mem = s.unmapVictim := by
      rw [Kernel.evictFrame_mem, Kernel.unmapVictim, victim, owner]
    rw [mem, victim]
    simp [head]

end

/-- A frame from `allocate_page` is blank exactly when it came from the free list, or when the page it was taken from
is. -/
theorem new_frame_blank_iff {mem : Memory} {disk : BitVec 32 → Memory} {scsi : ℕ → ScsiResult} {ticks : ℕ → BitVec 64}
    (booted : (Kernel.boot mem disk scsi ticks).initMemory config = .ok s₀) (run : Run (Step config) s₀ events s)
    (asks : Asks s s₁) (returned : s₁.allocatePage config = .ok (paddr, s')) :
    BlankFrame s'.mem paddr ↔ s₁.pageFreeHead ≠ none ∨ BlankFrame s₁.unmapVictim (framePaddr s₁.victim) := by
  obtain ⟨next, queue, alloc, -⟩ := residency_of_run booted run
  obtain ⟨next₁, queue₁, alloc₁⟩ := alloc.asks asks
  obtain ⟨frame, next', queue', rfl, allocated⟩ := alloc₁.allocatePage_ok returned
  exact allocated.blankFrame_iff alloc₁

/-- The first process gets a blank directory. -/
theorem new_frame_blank_first_directory : ∃ s₀ s',
    (Kernel.boot (fun _ => 1#8) (fun _ _ => 0#8) (fun _ => .good) fun _ => 0#64).initMemory config = .ok s₀ ∧
      (s₀.withPcb false 0#32 16#32).allocatePage config = .ok (framePaddr 3, s') ∧
        BlankFrame s'.mem (framePaddr 3) := by
  have alloc := allocInv_initial (fun _ => 1#8) (fun _ _ => 0#8) (fun _ => .good) fun _ => 0#64
  have started := alloc.withPcb false 0#32 16#32
  have returned := started.toFreeList.allocatePage config (by decide)
  refine ⟨_, _, initMemory_eq .., returned, ?_⟩
  refine (new_frame_blank_iff (initMemory_eq ..) (.nil _) (.directory 0#32 16#32) returned).mpr (.inl ?_)
  exact Option.some_ne_none _

/-- A page in which a byte is 1 is evicted, and its frame is handed out with this byte. -/
theorem evicted_frame_not_blank : ∃ s₀ events s s',
    (Kernel.boot (fun _ => 0#8) (fun _ _ => 0#8) (fun _ => .good) fun _ => 0#64).initMemory config = .ok s₀ ∧
      Run (Step config) s₀ events s ∧ s.allocatePage config = .ok (framePaddr 6, s') ∧
      s'.mem (framePaddr 6) = 1#8 := by
  obtain ⟨s₀, events, s, role, booted, run, -, inv, -, -, -, byte, -⟩ :=
    first_page_dirty (fun _ => .good) fun _ _ => rfl
  obtain ⟨p, directory, table, -, -, resident⟩ := inv.system.map.queued 6 (by simp)
  have notKernel : directory ≠ 0 := (inv.system.map.kernel_ne resident.directory_role).1.symm
  have apart : 6 ≠ table := by
    rintro rfl
    cases resident.page_role.symm.trans resident.table_role
  have allocated : Allocated s pageablePages (6 :: (List.range 26).map (7 + ·)) 6 (s.evictFrame 6 p) pageablePages _ :=
    .evict resident.owner (resident.unmapHalt inv.system.kernel notKernel)
  refine ⟨s₀, events, s, _, booted, run.mono And.right, allocated.ran inv.system.alloc, ?_⟩
  have same := sameFrame_evictFrame resident apart (framePaddr 6) le_rfl (by decide)
  exact same.trans byte

end MicroOs.Paging
