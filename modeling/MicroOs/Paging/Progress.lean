import MicroOs.Paging.System

/-! # When a frame can be had

Under the walk invariant an allocation succeeds as long as there is a free frame or a queued one, since the page in a
queued frame can always be unmapped. Setting up a process uses up three such frames for good. A page fault in the image
takes one and queues it again.
-/

namespace MicroOs.Paging

open BitMask Memory

variable {scope : Scope} {s s' : Kernel} {count next next' p frame directory table : ℕ} {queue queue' : List ℕ}
  {role : ℕ → Role} {vaddr : BitVec 32}

/-- How many frames can still be allocated: those on the free list and those in the queue. -/
def allocatable (next : ℕ) (queue : List ℕ) : ℕ := pageablePages - next + queue.length

theorem Allocated.allocatable (allocated : Allocated s next queue frame s' next' queue') :
    allocatable next' queue' + 1 = allocatable next queue := by
  cases allocated with
  | free available =>
    simp only [MicroOs.Paging.allocatable]
    omega
  | evict owner unmapped => simp [MicroOs.Paging.allocatable]

/-- While there are free frames, they are handed out in order. -/
theorem Allocated.of_free (allocated : Allocated s next queue frame s' next' queue')
    (available : next < pageablePages) : frame = next ∧ s' = s.takeFree next ∧ next' = next + 1 ∧ queue' = queue := by
  cases allocated with
  | free _ => exact ⟨rfl, rfl, rfl, rfl⟩
  | evict _ _ => exact absurd available (lt_irrefl _)

theorem Resident.unmapHalt (resident : Resident scope s role frame p directory table) (kernel : KernelMap s)
    (notKernel : directory ≠ 0) : s.unmapHalt frame p = none := by
  have apart : framePaddr directory ≠ framePaddr 0 := fun same => notKernel (framePaddr_injective same)
  simp [Kernel.unmapHalt, resident.pointer, pde_frame, kernel.kernelPdir, apart, resident.directory_present,
    resident.directory_base, inKernelArea_framePaddr]

/-- A frame can be allocated as long as there is one. -/
theorem MapInv.allocate (map : MapInv scope s count next queue role) (alloc : AllocInv s next queue)
    (kernel : KernelMap s)
    (room : 0 < allocatable next queue) : ∃ frame s' next' queue', Allocated s next queue frame s' next' queue' := by
  rcases Nat.lt_or_eq_of_le alloc.bound with available | rfl
  · exact ⟨_, _, _, _, .free available⟩
  cases queue with
  | nil =>
    exact absurd room (lt_irrefl _)
  | cons frame rest =>
    obtain ⟨p, directory, table, -, -, resident⟩ := map.queued frame (by simp)
    exact ⟨_, _, _, _, .evict resident.owner
      (resident.unmapHalt kernel (map.kernel_ne resident.directory_role).1.symm)⟩

theorem AllocInv.allocatePage_exhausted (alloc : AllocInv s next queue) (none : allocatable next queue = 0) :
    s.allocatePage config = .error .abortk := by
  have bound := alloc.bound
  simp only [allocatable] at none
  obtain rfl : next = pageablePages := by omega
  obtain rfl : queue = [] := List.eq_nil_of_length_eq_zero (by omega)
  exact alloc.allocatePage_none

theorem SystemInv.construct_exhausted (inv : SystemInv scope s next queue role) (swapLoc swapSize : BitVec 32)
    (none : allocatable next queue = 0) : s.createPcb config false swapLoc swapSize = .error .abortk := by
  have alloc := inv.alloc.withPcb false swapLoc swapSize
  have failed := alloc.allocatePage_exhausted none
  rw [createPcb_eq, Kernel.setupProcessVmem, withPcb_self]
  simp [Kernel.setupDirectory, failed, bind, Except.bind]

theorem SystemInv.construct {swapSize : BitVec 32} (inv : SystemInv scope s next queue role) (swapLoc : BitVec 32)
    (room : 3 ≤ allocatable next queue) (finite : (swapSize * BitVec.ofNat 32 sectorSize).toNat ≤ 2 ^ 32 - pageSize) :
    ∃ s' next' queue', s.createPcb config false swapLoc swapSize = .ok s' ∧
      Constructed (s.withPcb false swapLoc swapSize) next queue s.pcbCount s' next' queue' := by
  have quiet := quiet_withPcb s role false swapLoc swapSize
  have alloc := inv.alloc.withPcb false swapLoc swapSize
  have map := inv.map.quiet le_rfl quiet
  have kernel := quiet.kernel inv.kernel
  obtain ⟨directory, s₁, next₁, queue₁, first⟩ := map.allocate alloc kernel (by omega)
  have used₁ := first.allocatable
  have evolves₁ := Evolves.addDirectory alloc map kernel.userKernelPtable le_rfl first
  obtain ⟨alloc₁, map₁⟩ := evolves₁.inv alloc map
  have kernel₁ := evolves₁.kernel alloc map kernel
  obtain ⟨table, s₂, next₂, queue₂, second⟩ := map₁.allocate alloc₁ kernel₁ (by omega)
  have used₂ := second.allocatable
  have evolves₂ := Evolves.addTable alloc₁ map₁ (Function.update_self ..) le_rfl second
  obtain ⟨alloc₂, map₂⟩ := evolves₂.inv alloc₁ map₁
  have kernel₂ := evolves₂.kernel alloc₁ map₁ kernel₁
  obtain ⟨stack, s₃, next₃, queue₃, third⟩ := map₂.allocate alloc₂ kernel₂ (by omega)
  have constructed : Constructed (s.withPcb false swapLoc swapSize) next queue s.pcbCount _ next₃ queue₃ :=
    .mk first second (by rwa [withPcb_self]) third
  refine ⟨_, _, _, ?_, constructed⟩
  exact (alloc.setupProcessVmem_iff (by rw [withPcb_self])).mpr ⟨_, _, constructed⟩

theorem Constructed.allocatable (constructed : Constructed s next queue p s' next' queue') :
    allocatable next' queue' + 3 = allocatable next queue := by
  obtain ⟨first, second, -, third⟩ := constructed
  have := first.allocatable
  have := second.allocatable
  have := third.allocatable
  omega

theorem Constructed.of_free (constructed : Constructed s next queue p s' next' queue')
    (available : next + 3 ≤ pageablePages) :
    next' = next + 3 ∧ queue' = queue ∧ s'.disk = s.disk ∧ s'.scsiCount = s.scsiCount := by
  obtain ⟨first, second, -, third⟩ := constructed
  obtain ⟨-, rfl, rfl, rfl⟩ := first.of_free (by omega)
  obtain ⟨-, rfl, rfl, rfl⟩ := second.of_free (by omega)
  obtain ⟨-, rfl, rfl, rfl⟩ := third.of_free (by omega)
  exact ⟨rfl, rfl, rfl, rfl⟩

/-- The transfer that follows an allocation succeeds if all do. -/
theorem Allocated.good (allocated : Allocated s next queue frame s' next' queue') (good : ∀ n, s.scsi n = .good) :
    s'.scsi s'.scsiCount = .good := by
  rw [allocated.static.scsi]
  exact good _

theorem SystemInv.load {errorCode : BitVec 32} (inv : SystemInv scope s next queue role) (known : p < s.pcbCount)
    (process : (s.pcb p).isThread = false) (covers : scope.Covers p vaddr) (image : getDirectoryIndex vaddr = 4)
    (room : 0 < allocatable next queue)
    (good : ∀ {frame s₁ next₁ queue₁}, Allocated s next queue frame s₁ next₁ queue₁ → s₁.scsi s₁.scsiCount = .good)
    (notPresent : hasFlag errorCode 1#32 = false) :
    ∃ s' next' queue', s.pageFaultHandler config p vaddr errorCode = .ok s' ∧
      Loaded s next queue p vaddr s' next' queue' := by
  obtain ⟨frame, s₁, next₁, queue₁, first⟩ := inv.map.allocate inv.alloc inv.kernel room
  have good₁ := good first
  obtain ⟨directory, pointer, ok⟩ := inv.map.spaces p known process
  have present : hasFlag (pde s.mem (s.pcb p).pageDirectory vaddr) peP = true := by
    rw [pointer, pde_frame, image, ok.present 4 (.inr rfl)]
  obtain ⟨table, base, -⟩ : ∃ table, entryBase (pde s.mem (s.pcb p).pageDirectory vaddr) = framePaddr table ∧
      TableOk scope s.mem role p table := by
    rw [pointer] at present ⊢
    exact ok.tables _ (getDirectoryIndex_lt vaddr) covers.1 present
  have same : pde (s₁.readInto p frame vaddr).mem (s.pcb p).pageDirectory vaddr =
      pde s.mem (s.pcb p).pageDirectory vaddr := inv.map.pde_read known process good₁ first
  have loaded := Loaded.found first good₁ (by rw [same, present]) (by rw [same, base, inKernelArea_framePaddr])
  exact ⟨_, _, _, inv.alloc.pageFaultHandler_iff.mpr ⟨notPresent, process, _, _, loaded⟩, loaded⟩

end MicroOs.Paging
