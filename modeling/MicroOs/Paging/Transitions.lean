import MicroOs.Paging.Allocation

/-! # What one event does

Setting up an address space and handling a page fault are taken apart into allocations and the states between
them. The proofs about whole runs start from these descriptions and do not look at the code again.
-/

namespace MicroOs.Paging

open BitMask Memory Kernel Outcome Function

namespace Kernel

variable (s : Kernel) {queue' : List ℕ} {next' : ℕ}

/-- Record the page directory of a process and enter the kernel's pages. -/
def withDirectory (p directory : ℕ) : Kernel :=
  let recorded := s.occupy directory (.pcb p) (BitVec.ofNat 32 (framePaddr directory)) (peInfoUserMode ||| peInfoPinned)
  { recorded with
    firstProcess := false
    firstProcessPid := if s.firstProcess then (s.pcb p).pid else s.firstProcessPid
    mem := identityMapKernel s.mem (framePaddr directory) s.userKernelPtable s.firstProcess (userMode ||| pePcd) }

/-- Record the page table of a process and enter it for the image and for the stack. -/
def withTable (p directory table : ℕ) : Kernel :=
  let mem := dirInsTable s.mem (framePaddr directory) processVaddr (framePaddr table) userMode
  let mem := mapImagePages mem (s.pcb p) (framePaddr table)
  { s.occupy table (.pcb p) (BitVec.ofNat 32 (framePaddr table)) (peInfoUserMode ||| peInfoPinned) with
    mem := dirInsTable mem (framePaddr directory) processStackVaddr (framePaddr table) userMode }

/-- Record and map the stack and hand the directory to the process. -/
def withStack (p directory table stack : ℕ) : Kernel :=
  { s.occupy stack (.pcb p) processStackVaddr (peInfoUserMode ||| peInfoPinned ||| peInfoStack) with
    mem := tableMapPage s.mem (framePaddr table) processStackVaddr (BitVec.ofNat 32 (framePaddr stack)) userMode
    pcb := update s.pcb p { s.pcb p with pageDirectory := framePaddr directory } }

/-- Read a page of the image of a process into a frame. -/
def readInto (p frame : ℕ) (vaddr : BitVec 32) : Kernel :=
  (s.diskLoader (diskLoc (s.pcb p) vaddr) (blockCount (s.pcb p) vaddr) (framePaddr frame)).2

/-- Record a page table that a fault adds and enter it into the directory. -/
def withNewTable (p table : ℕ) (vaddr : BitVec 32) : Kernel :=
  { s.occupy table (.pcb p) vaddr peInfoUserMode with
    mem := dirInsTable s.mem (s.pcb p).pageDirectory vaddr (framePaddr table) userMode }

/-- Queue, record and map a page that has been read. -/
def withPage (p frame table : ℕ) (vaddr : BitVec 32) : Kernel :=
  let mem := tableMapPage s.mem table vaddr (BitVec.ofNat 32 (framePaddr frame)) userMode
  { (s.enqueued frame).occupy frame (.pcb p) vaddr peInfoUserMode with
    mem := dirInsTable mem (s.pcb p).pageDirectory vaddr table userMode
    trace := s.trace ++ [.loaded frame p (pageBase vaddr)] }

def withPcb (isThread : Bool) (swapLoc swapSize : BitVec 32) : Kernel :=
  { s with
    pcbCount := s.pcbCount + 1
    pcb := update s.pcb s.pcbCount { pid := BitVec.ofNat 32 s.pcbCount, isThread, swapLoc, swapSize } }

end Kernel

variable {s s' : Kernel} {next p : ℕ} {queue : List ℕ} {vaddr : BitVec 32}

/-- An address space is constructed: three frames are allocated, for the directory, the table and the stack. -/
inductive Constructed (s : Kernel) (next : ℕ) (queue : List ℕ) (p : ℕ) : Kernel → ℕ → List ℕ → Prop
  | mk {directory table stack next₁ next₂ next₃ : ℕ} {queue₁ queue₂ queue₃ : List ℕ} {s₁ s₂ s₃ : Kernel}
      (first : Allocated s next queue directory s₁ next₁ queue₁)
      (second : Allocated (s₁.withDirectory p directory) next₁ queue₁ table s₂ next₂ queue₂)
      (finite : (imageBytes (s.pcb p)).toNat ≤ 2 ^ 32 - pageSize)
      (third : Allocated (s₂.withTable p directory table) next₂ queue₂ stack s₃ next₃ queue₃) :
      Constructed s next queue p (s₃.withStack p directory table stack) next₃ queue₃

theorem AllocInv.withDirectory {directory : ℕ} (inv : AllocInv s next queue) (fresh : Fresh s next queue directory)
    (p : ℕ) : AllocInv (s.withDirectory p directory) next queue :=
  (inv.occupy fresh.inUse fresh.unqueued _ _ _).congr rfl rfl rfl

theorem AllocInv.withTable {table : ℕ} (inv : AllocInv s next queue) (fresh : Fresh s next queue table)
    (p directory : ℕ) : AllocInv (s.withTable p directory table) next queue :=
  (inv.occupy fresh.inUse fresh.unqueued _ _ _).congr rfl rfl rfl

theorem AllocInv.withStack {stack : ℕ} (inv : AllocInv s next queue) (fresh : Fresh s next queue stack)
    (p directory table : ℕ) : AllocInv (s.withStack p directory table stack) next queue :=
  (inv.occupy fresh.inUse fresh.unqueued _ _ _).congr rfl rfl rfl

theorem Fresh.bound {frame : ℕ} (fresh : Fresh s next queue frame) (inv : AllocInv s next queue) :
    frame < pageablePages := lt_of_lt_of_le fresh.inUse inv.bound

section Parts

variable {s₁ : Kernel} {directory table stack : ℕ} {cfg : Config}

theorem Kernel.setupDirectory_eq (bound : directory < pageablePages) (blank : (s₁.pageFrameInfo directory).Blank)
    (ran : s.allocatePage cfg = .ok (framePaddr directory, s₁)) :
    s.setupDirectory cfg p = .ok (framePaddr directory, s₁.withDirectory p directory) := by
  simp only [setupDirectory, ran, bind, Except.bind, processesShareKernelPageTable,
    insertPageFrameInfo_blank bound blank, Bool.not_true, Bool.false_eq_true, if_false, if_true]
  cases first : s₁.firstProcess with
  | false | true =>
    simp only [occupy, setInfo, first, Kernel.withDirectory]
    rfl

theorem Kernel.setupTable_eq (bound : table < pageablePages) (blank : (s₁.pageFrameInfo table).Blank)
    (ran : s.allocatePage cfg = .ok (framePaddr table, s₁)) :
    s.setupTable cfg p (framePaddr directory) = .ok (framePaddr table,
      { s₁ with mem := dirInsTable s₁.mem (framePaddr directory) processVaddr (framePaddr table) userMode }.occupy table
        (.pcb p) (BitVec.ofNat 32 (framePaddr table)) (peInfoUserMode ||| peInfoPinned)) := by
  have entered : ({ s₁ with
      mem := dirInsTable s₁.mem (framePaddr directory) processVaddr (framePaddr table) userMode }.pageFrameInfo
        table).Blank := blank
  simp only [setupTable, ran, bind, Except.bind, pure, Except.pure]
  rw [insertPageFrameInfo_blank bound entered]

theorem Kernel.mapStack_eq (bound : stack < pageablePages) (blank : (s₁.pageFrameInfo stack).Blank)
    (ran : s.allocatePage cfg = .ok (framePaddr stack, s₁)) :
    s.mapStack cfg p (framePaddr table) = .ok
      { s₁.occupy stack (.pcb p) processStackVaddr (peInfoUserMode ||| peInfoPinned ||| peInfoStack) with
        mem := tableMapPage s₁.mem (framePaddr table) processStackVaddr (BitVec.ofNat 32 (framePaddr stack))
          userMode } := by
  simp only [mapStack, ran, bind, Except.bind]
  rw [insertPageFrameInfo_blank bound blank]
  rfl

end Parts

theorem Allocated.static {frame : ℕ} (allocated : Allocated s next queue frame s' next' queue') : SameStatic s s' := by
  cases allocated with
  | free available => exact ⟨rfl, rfl, rfl, rfl, rfl, rfl⟩
  | evict owner unmapped => exact s.evictFrame_static _ _

theorem Allocated.pcb {frame : ℕ} (allocated : Allocated s next queue frame s' next' queue') :
    s'.pcb = s.pcb := allocated.static.pcb

/-- `setup_process_vmem` for a process returns exactly when its three allocations do and the image is not too long. -/
theorem AllocInv.setupProcessVmem_iff (inv : AllocInv s next queue) (process : (s.pcb p).isThread = false) :
    s.setupProcessVmem config p = .ok s' ↔ ∃ next' queue', Constructed s next queue p s' next' queue' := by
  simp only [setupProcessVmem, process, Bool.false_eq_true, if_false]
  constructor
  · intro ran
    simp only [bind_eq_ok_iff, Prod.exists] at ran
    obtain ⟨pdir, afterDirectory, setDirectory, ptable, afterTable, setTable, mapped, setImage, final, setStack,
      result⟩ := ran
    obtain ⟨⟨_, s₁⟩, ran₁, -⟩ := bind_eq_ok_iff.mp setDirectory
    obtain ⟨directory, next₁, queue₁, rfl, first⟩ := inv.allocatePage_ok ran₁
    obtain ⟨inv₁, fresh₁⟩ := first.inv inv
    rw [setupDirectory_eq (fresh₁.bound inv₁) fresh₁.blank ran₁] at setDirectory
    cases setDirectory
    obtain ⟨⟨_, s₂⟩, ran₂, -⟩ := bind_eq_ok_iff.mp setTable
    obtain ⟨table, next₂, queue₂, rfl, second⟩ := (inv₁.withDirectory fresh₁ p).allocatePage_ok ran₂
    obtain ⟨inv₂, fresh₂⟩ := second.inv (inv₁.withDirectory fresh₁ p)
    rw [setupTable_eq (fresh₂.bound inv₂) fresh₂.blank ran₂] at setTable
    cases setTable
    have samePcb : s₂.pcb p = s.pcb p := by
      rw [second.pcb]
      exact congrFun first.pcb p
    simp only [mapImage] at setImage
    split_ifs at setImage with long
    have finite : (imageBytes (s.pcb p)).toNat ≤ 2 ^ 32 - pageSize := by
      rw [← samePcb]
      exact not_lt.mp long
    cases setImage
    obtain ⟨⟨_, s₃⟩, ran₃, -⟩ := bind_eq_ok_iff.mp setStack
    have ready := inv₂.withTable fresh₂ p directory
    obtain ⟨stack, next₃, queue₃, rfl, third⟩ := ready.allocatePage_ok ran₃
    obtain ⟨inv₃, fresh₃⟩ := third.inv ready
    rw [mapStack_eq (fresh₃.bound inv₃) fresh₃.blank ran₃] at setStack
    cases setStack
    cases result
    exact ⟨next₃, queue₃, .mk first second finite third⟩
  · rintro ⟨next', queue', @⟨directory, table, stack, _, _, _, _, _, _, s₁, s₂, s₃, first, second, finite, third⟩⟩
    obtain ⟨inv₁, fresh₁⟩ := first.inv inv
    have ready₁ := inv₁.withDirectory fresh₁ p
    obtain ⟨inv₂, fresh₂⟩ := second.inv ready₁
    have ready₂ := inv₂.withTable fresh₂ p directory
    obtain ⟨inv₃, fresh₃⟩ := third.inv ready₂
    have samePcb : s₂.pcb p = s.pcb p := by
      rw [second.pcb]
      exact congrFun first.pcb p
    rw [← samePcb] at finite
    simp only [bind_eq_ok_iff, Prod.exists]
    exact ⟨_, _, setupDirectory_eq (fresh₁.bound inv₁) fresh₁.blank (first.ran inv),
      _, _, setupTable_eq (fresh₂.bound inv₂) fresh₂.blank (second.ran ready₁), _, if_neg (not_lt.mpr finite),
      _, mapStack_eq (fresh₃.bound inv₃) fresh₃.blank (third.ran ready₂), rfl⟩

theorem Constructed.inv (inv : AllocInv s next queue)
    (constructed : Constructed s next queue p s' next' queue') : AllocInv s' next' queue' := by
  obtain ⟨first, second, -, third⟩ := constructed
  obtain ⟨inv₁, fresh₁⟩ := first.inv inv
  obtain ⟨inv₂, fresh₂⟩ := second.inv (inv₁.withDirectory fresh₁ p)
  obtain ⟨inv₃, fresh₃⟩ := third.inv (inv₂.withTable fresh₂ p _)
  exact inv₃.withStack fresh₃ p _ _

/-- What a construction leaves in the data that allocations do not touch. -/
theorem Constructed.static (constructed : Constructed s next queue p s' next' queue') :
    (∃ pageDirectory, s'.pcb = update s.pcb p { s.pcb p with pageDirectory }) ∧ s'.pcbCount = s.pcbCount ∧
      s'.firstProcess = false ∧ s'.scsi = s.scsi := by
  obtain @⟨directory, table, stack, next₁, next₂, next₃, queue₁, queue₂, queue₃, s₁, s₂, s₃, first, second, -, third⟩ :=
    constructed
  have pcb : s₃.pcb = s.pcb := (third.static.pcb.trans second.static.pcb).trans first.static.pcb
  refine ⟨⟨framePaddr directory, ?_⟩, (third.static.pcbCount.trans second.static.pcbCount).trans first.static.pcbCount,
    third.static.firstProcess.trans second.static.firstProcess,
    (third.static.scsi.trans second.static.scsi).trans first.static.scsi⟩
  simp [Kernel.withStack, pcb]

/-- A page is loaded, with the page table that the directory has or with a new one. -/
inductive Loaded (s : Kernel) (next : ℕ) (queue : List ℕ) (p : ℕ) (vaddr : BitVec 32) : Kernel → ℕ → List ℕ → Prop
  | found {frame next₁ : ℕ} {queue₁ : List ℕ} {s₁ : Kernel} (first : Allocated s next queue frame s₁ next₁ queue₁)
      (good : s₁.scsi s₁.scsiCount = .good)
      (present : hasFlag (pde (s₁.readInto p frame vaddr).mem (s.pcb p).pageDirectory vaddr) peP = true)
      (outside : inKernelArea (entryBase (pde (s₁.readInto p frame vaddr).mem (s.pcb p).pageDirectory vaddr)) = false) :
      Loaded s next queue p vaddr ((s₁.readInto p frame vaddr).withPage p frame
        (entryBase (pde (s₁.readInto p frame vaddr).mem (s.pcb p).pageDirectory vaddr)) vaddr) next₁ (queue₁ ++ [frame])
  | added {frame table next₁ next₂ : ℕ} {queue₁ queue₂ : List ℕ} {s₁ s₂ : Kernel}
      (first : Allocated s next queue frame s₁ next₁ queue₁)
      (good : s₁.scsi s₁.scsiCount = .good)
      (absent : hasFlag (pde (s₁.readInto p frame vaddr).mem (s.pcb p).pageDirectory vaddr) peP = false)
      (second : Allocated (s₁.readInto p frame vaddr) next₁ queue₁ table s₂ next₂ queue₂) :
      Loaded s next queue p vaddr ((s₂.withNewTable p table vaddr).withPage p frame (framePaddr table) vaddr) next₂
        (queue₂ ++ [frame])

theorem Kernel.readInto_eq {frame : ℕ} (good : s.scsi s.scsiCount = .good) :
    s.readInto p frame vaddr = { s with
      scsiCount := s.scsiCount + 1
      trace := s.trace ++ [.diskRead (diskLoc (s.pcb p) vaddr) (blockCount (s.pcb p) vaddr)]
      mem := s.mem.blit (framePaddr frame) pageSize
        (readBuffer s.disk (diskLoc (s.pcb p) vaddr) (blockCount (s.pcb p) vaddr)) } := by
  simp only [Kernel.readInto, diskLoader, good]
  rfl

theorem Kernel.readInto_frame (s : Kernel) (p frame : ℕ) (vaddr : BitVec 32) :
    ∃ mem scsiCount io, s.readInto p frame vaddr = { s with mem, scsiCount, trace := s.trace ++ io } ∧
      io = [.diskRead (diskLoc (s.pcb p) vaddr) (blockCount (s.pcb p) vaddr)] := by
  simp only [Kernel.readInto, diskLoader]
  cases s.scsi s.scsiCount with
  | good | bad garbage => exact ⟨_, _, _, rfl, rfl⟩

variable {errorCode infoMode : BitVec 32}

section Parts

variable {frame table : ℕ}

theorem AllocInv.readInto (inv : AllocInv s next queue) (p frame : ℕ) (vaddr : BitVec 32) :
    AllocInv (s.readInto p frame vaddr) next queue := by
  obtain ⟨mem, scsiCount, io, result, -⟩ := s.readInto_frame p frame vaddr
  rw [result]
  exact inv.congr rfl rfl rfl

theorem Kernel.readInto_pcb (s : Kernel) (p frame : ℕ) (vaddr : BitVec 32) :
    (s.readInto p frame vaddr).pcb = s.pcb := by
  obtain ⟨mem, scsiCount, io, result, -⟩ := s.readInto_frame p frame vaddr
  rw [result]

theorem Fresh.readInto {other : ℕ} (fresh : Fresh s next queue other) (p frame : ℕ) (vaddr : BitVec 32) :
    Fresh (s.readInto p frame vaddr) next queue other := by
  obtain ⟨mem, scsiCount, io, result, -⟩ := s.readInto_frame p frame vaddr
  rw [result]
  exact ⟨fresh.positive, fresh.inUse, fresh.unqueued, fresh.blank⟩

theorem AllocInv.withNewTable (inv : AllocInv s next queue) (fresh : Fresh s next queue table) (p : ℕ)
    (vaddr : BitVec 32) : AllocInv (s.withNewTable p table vaddr) next queue :=
  (inv.occupy fresh.inUse fresh.unqueued _ _ _).congr rfl rfl rfl

theorem Fresh.withNewTable (fresh : Fresh s next queue frame) (different : frame ≠ table) (p : ℕ)
    (vaddr : BitVec 32) : Fresh (s.withNewTable p table vaddr) next queue frame := by
  refine ⟨fresh.positive, fresh.inUse, fresh.unqueued, ?_⟩
  simpa [Kernel.withNewTable, occupy, setInfo, update_of_ne different] using fresh.blank

theorem AllocInv.withPage (inv : AllocInv s next queue) (fresh : Fresh s next queue frame) (p table : ℕ)
    (vaddr : BitVec 32) : AllocInv (s.withPage p frame table vaddr) next (queue ++ [frame]) :=
  (inv.install fresh p vaddr).congr rfl rfl rfl

theorem Kernel.installPage_eq (inv : AllocInv s next queue) (fresh : Fresh s next queue frame) :
    s.installPage config p vaddr peInfoUserMode (framePaddr frame) table =
      if inKernelArea table then .error .wild else .ok (s.withPage p frame table vaddr) := by
  have unpinned : hasFlag peInfoUserMode peInfoPinned = false := by decide
  have queued := inv.fifoEnqueueInfo fresh
  have blank : ((s.enqueued frame).pageFrameInfo frame).Blank := fresh.blank
  simp only [installPage, unpinned, config, Bool.not_false, decide_true, Bool.and_true, if_true, queued,
    insertPageFrameInfo_blank (fresh.bound inv) blank,
    calculateInfoIndex_framePaddr (fresh.bound inv)]
  cases inKernelArea table with
  | true => rfl
  | false => rfl

theorem Kernel.loadInfoMode_config (s : Kernel) (p : ℕ) : s.loadInfoMode config p = peInfoUserMode := by
  simp [loadInfoMode, config]

theorem Kernel.loadPageFromDisk_ok_iff {cfg : Config} : s.loadPageFromDisk cfg vaddr p = .ok (true, s') ↔
    (s.pcb p).isThread = false ∧ ∃ frameref s₁ s₂ table s₃, s.allocatePage cfg = .ok (frameref, s₁) ∧
      s₁.diskLoader (diskLoc (s.pcb p) vaddr) (blockCount (s.pcb p) vaddr) frameref = (true, s₂) ∧
      s₂.findOrAddPageTable cfg p vaddr (s.loadInfoMode cfg p) = .ok (table, s₃) ∧
      s₃.installPage cfg p vaddr (s.loadInfoMode cfg p) frameref table = .ok s' := by
  cases thread : (s.pcb p).isThread with
  | true => simp [loadPageFromDisk, thread, bind, Except.bind]
  | false =>
    simp only [loadPageFromDisk, thread, Bool.false_eq_true, if_false, bind_eq_ok_iff, Prod.exists, true_and]
    constructor
    · rintro ⟨frameref, s₁, first, table, s₃, find, load⟩
      rcases loads : s₁.diskLoader (diskLoc (s.pcb p) vaddr) (blockCount (s.pcb p) vaddr) frameref with ⟨success, s₂⟩
      simp only [loads] at find load
      cases success with
      | false => cases load
      | true =>
        obtain ⟨_, install, result⟩ := bind_eq_ok_iff.mp load
        cases result
        exact ⟨frameref, s₁, s₂, table, s₃, first, loads, find, install⟩
    · rintro ⟨frameref, s₁, s₂, table, s₃, first, loads, find, install⟩
      refine ⟨frameref, s₁, first, ?_⟩
      simp only [loads]
      exact ⟨table, s₃, find, bind_eq_ok_iff.mpr ⟨s', install, rfl⟩⟩

theorem Kernel.pageFaultHandler_ok_iff {cfg : Config} :
    s.pageFaultHandler cfg p vaddr errorCode = .ok s' ↔
      hasFlag errorCode 1#32 = false ∧ s.loadPageFromDisk cfg vaddr p = .ok (true, s') := by
  cases violation : hasFlag errorCode 1#32 with
  | true => simp [pageFaultHandler, violation, bind, Except.bind]
  | false =>
    simp only [pageFaultHandler, violation, Bool.false_eq_true, if_false, bind_eq_ok_iff, Prod.exists, true_and]
    constructor
    · rintro ⟨success, final, load, result⟩
      cases success with
      | false => cases result
      | true =>
        cases result
        exact load
    · intro load
      exact ⟨true, s', load, rfl⟩

theorem Kernel.diskLoader_readInto {s₁ s₂ : Kernel} (p frame : ℕ) (vaddr : BitVec 32) :
    s₁.diskLoader (diskLoc (s₁.pcb p) vaddr) (blockCount (s₁.pcb p) vaddr) (framePaddr frame) = (true, s₂) ↔
      s₁.scsi s₁.scsiCount = .good ∧ s₁.readInto p frame vaddr = s₂ := by
  simp only [Kernel.readInto, diskLoader]
  cases s₁.scsi s₁.scsiCount with
  | good => simp
  | bad garbage => simp

theorem Kernel.findOrAddPageTable_found (cfg : Config)
    (present : hasFlag (pde s.mem (s.pcb p).pageDirectory vaddr) peP = true) :
    s.findOrAddPageTable cfg p vaddr infoMode = .ok (entryBase (pde s.mem (s.pcb p).pageDirectory vaddr), s) := by
  simp [findOrAddPageTable, getPageTable, present]

theorem Kernel.findOrAddPageTable_added {s₁ : Kernel} (inv : AllocInv s₁ next queue)
    (fresh : Fresh s₁ next queue table) (absent : hasFlag (pde s.mem (s.pcb p).pageDirectory vaddr) peP = false)
    (samePcb : s₁.pcb = s.pcb) (ran : s.allocatePage config = .ok (framePaddr table, s₁)) :
    s.findOrAddPageTable config p vaddr peInfoUserMode = .ok (framePaddr table, s₁.withNewTable p table vaddr) := by
  rw [← samePcb] at absent
  simp only [findOrAddPageTable, getPageTable, absent, ran, bind, Except.bind,
    insertPageFrameInfo_blank (fresh.bound inv) fresh.blank, pure, Except.pure, ← samePcb]
  rfl

end Parts

theorem inKernelArea_framePaddr (index : ℕ) : inKernelArea (framePaddr index) = false := by
  rw [framePaddr]
  exact decide_eq_false (by omega)

/-- A page is loaded in one of two ways. -/
theorem AllocInv.loadPageFromDisk_iff (inv : AllocInv s next queue) (process : (s.pcb p).isThread = false) :
    s.loadPageFromDisk config vaddr p = .ok (true, s') ↔
      ∃ next' queue', Loaded s next queue p vaddr s' next' queue' := by
  rw [loadPageFromDisk_ok_iff, s.loadInfoMode_config]
  constructor
  · rintro ⟨-, paddr, s₁, _, table, s₃, ran₁, loads, find, install⟩
    obtain ⟨frame, next₁, queue₁, rfl, first⟩ := inv.allocatePage_ok ran₁
    obtain ⟨inv₁, fresh₁⟩ := first.inv inv
    rw [← first.pcb] at loads
    obtain ⟨outcome, rfl⟩ := (diskLoader_readInto p frame vaddr).mp loads
    have inv₂ := inv₁.readInto p frame vaddr
    have fresh₂ := fresh₁.readInto p frame vaddr
    have samePcb : (s₁.readInto p frame vaddr).pcb = s.pcb := by rw [readInto_pcb, first.pcb]
    cases entry : hasFlag (pde (s₁.readInto p frame vaddr).mem (s.pcb p).pageDirectory vaddr) peP with
    | true =>
      rw [← samePcb] at entry
      rw [findOrAddPageTable_found config entry] at find
      cases find
      rw [installPage_eq inv₂ fresh₂] at install
      split_ifs at install with outside
      cases install
      rw [samePcb] at entry outside ⊢
      exact ⟨_, _, .found first outcome entry (Bool.eq_false_iff.mpr outside)⟩
    | false =>
      rw [← samePcb] at entry
      have allocation : ∃ paddr s₂, (s₁.readInto p frame vaddr).allocatePage config = .ok (paddr, s₂) := by
        simp only [findOrAddPageTable, getPageTable, entry, Bool.false_eq_true, if_false,
          bind_eq_ok_iff, Prod.exists] at find
        obtain ⟨paddr, s₂, ran₂, -⟩ := find
        exact ⟨paddr, s₂, ran₂⟩
      obtain ⟨paddr, s₂, ran₂⟩ := allocation
      obtain ⟨table, next₂, queue₂, rfl, second⟩ := inv₂.allocatePage_ok ran₂
      obtain ⟨inv₃, fresh₃⟩ := second.inv inv₂
      have different := second.ne fresh₂.inUse fresh₂.unqueued
      rw [findOrAddPageTable_added inv₃ fresh₃ entry second.pcb ran₂] at find
      cases find
      rw [installPage_eq (inv₃.withNewTable fresh₃ p vaddr)
        ((second.fresh fresh₂).withNewTable different p vaddr)] at install
      split_ifs at install with outside
      cases install
      rw [samePcb] at entry
      exact ⟨_, _, .added first outcome entry second⟩
  · rintro ⟨next', queue', loaded⟩
    refine ⟨process, ?_⟩
    cases loaded with
    | @found frame next₁ queue₁ s₁ first good present outside =>
      obtain ⟨inv₁, fresh₁⟩ := first.inv inv
      have inv₂ := inv₁.readInto p frame vaddr
      have fresh₂ := fresh₁.readInto p frame vaddr
      have samePcb : (s₁.readInto p frame vaddr).pcb = s.pcb := by rw [readInto_pcb, first.pcb]
      have loads := (diskLoader_readInto p frame vaddr).mpr ⟨good, rfl⟩
      rw [first.pcb] at loads
      rw [← samePcb] at present outside
      refine ⟨_, _, _, _, _, first.ran inv, loads, findOrAddPageTable_found config present, ?_⟩
      rw [installPage_eq inv₂ fresh₂, outside, samePcb]
      rfl
    | @added frame table next₁ next₂ queue₁ queue₂ s₁ s₂ first good absent second =>
      obtain ⟨inv₁, fresh₁⟩ := first.inv inv
      have inv₂ := inv₁.readInto p frame vaddr
      have fresh₂ := fresh₁.readInto p frame vaddr
      obtain ⟨inv₃, fresh₃⟩ := second.inv inv₂
      have different := second.ne fresh₂.inUse fresh₂.unqueued
      have samePcb : (s₁.readInto p frame vaddr).pcb = s.pcb := by rw [readInto_pcb, first.pcb]
      have loads := (diskLoader_readInto p frame vaddr).mpr ⟨good, rfl⟩
      rw [first.pcb] at loads
      rw [← samePcb] at absent
      refine ⟨_, _, _, _, _, first.ran inv, loads,
        findOrAddPageTable_added inv₃ fresh₃ absent second.pcb (second.ran inv₂), ?_⟩
      rw [installPage_eq (inv₃.withNewTable fresh₃ p vaddr)
        ((second.fresh fresh₂).withNewTable different p vaddr), inKernelArea_framePaddr]
      rfl

theorem Kernel.readInto_static (s : Kernel) (p frame : ℕ) (vaddr : BitVec 32) :
    SameStatic s (s.readInto p frame vaddr) := by
  obtain ⟨mem, scsiCount, io, result, -⟩ := s.readInto_frame p frame vaddr
  rw [result]
  exact ⟨rfl, rfl, rfl, rfl, rfl, rfl⟩

theorem SameStatic.trans {s₁ s₂ s₃ : Kernel} (first : SameStatic s₁ s₂) (second : SameStatic s₂ s₃) :
    SameStatic s₁ s₃ :=
  ⟨second.pcb.trans first.pcb, second.pcbCount.trans first.pcbCount, second.kernelPdir.trans first.kernelPdir,
    second.userKernelPtable.trans first.userKernelPtable, second.firstProcess.trans first.firstProcess,
    second.scsi.trans first.scsi⟩

theorem Loaded.static (loaded : Loaded s next queue p vaddr s' next' queue') : SameStatic s s' := by
  cases loaded with
  | @found frame next₁ queue₁ s₁ first good present outside =>
    exact (first.static.trans (s₁.readInto_static p frame vaddr)).trans ⟨rfl, rfl, rfl, rfl, rfl, rfl⟩
  | @added frame table next₁ next₂ queue₁ queue₂ s₁ s₂ first good absent second =>
    have read := (first.static.trans (s₁.readInto_static p frame vaddr)).trans second.static
    exact read.trans ⟨rfl, rfl, rfl, rfl, rfl, rfl⟩

theorem Loaded.inv (inv : AllocInv s next queue)
    (loaded : Loaded s next queue p vaddr s' next' queue') : AllocInv s' next' queue' := by
  cases loaded with
  | found first good present outside =>
    obtain ⟨inv₁, fresh₁⟩ := first.inv inv
    exact (inv₁.readInto p _ vaddr).withPage (fresh₁.readInto p _ vaddr) p _ vaddr
  | @added frame table next₁ next₂ queue₁ queue₂ s₁ s₂ first good absent second =>
    obtain ⟨inv₁, fresh₁⟩ := first.inv inv
    have fresh₂ := fresh₁.readInto p frame vaddr
    obtain ⟨inv₃, fresh₃⟩ := second.inv (inv₁.readInto p _ vaddr)
    have different := second.ne fresh₂.inUse fresh₂.unqueued
    exact (inv₃.withNewTable fresh₃ p vaddr).withPage ((second.fresh fresh₂).withNewTable different p vaddr) p _ vaddr

theorem AllocInv.pageFaultHandler_iff (inv : AllocInv s next queue) :
    s.pageFaultHandler config p vaddr errorCode = .ok s' ↔
      hasFlag errorCode 1#32 = false ∧ (s.pcb p).isThread = false ∧
        ∃ next' queue', Loaded s next queue p vaddr s' next' queue' := by
  rw [pageFaultHandler_ok_iff]
  constructor
  · rintro ⟨notPresent, load⟩
    obtain ⟨process, -⟩ := loadPageFromDisk_ok_iff.mp load
    exact ⟨notPresent, process, (inv.loadPageFromDisk_iff process).mp load⟩
  · rintro ⟨notPresent, process, loaded⟩
    exact ⟨notPresent, (inv.loadPageFromDisk_iff process).mpr loaded⟩

end MicroOs.Paging
