import MicroOs.Paging.Boot
import MicroOs.Library.Run

/-! # The invariant of the running system

The allocator, the walks and the kernel's own tables, for the processes and threads that have been set up. The lemmas
say what each kind of event asks for in order to keep the invariant; which runs satisfy this is decided by the modules
that follow, each with its own scope.
-/

namespace MicroOs.Paging

open BitMask Memory Function Kernel

variable {swapSize swapLoc : BitVec 32}

structure SystemInv (scope : Scope) (s : Kernel) (next : ℕ) (queue : List ℕ) (role : ℕ → Role) : Prop where
  alloc : AllocInv s next queue
  map : MapInv scope s s.pcbCount next queue role
  kernel : KernelMap s
  threads : ∀ p < s.pcbCount, (s.pcb p).isThread = true → (s.pcb p).pageDirectory = framePaddr 0
  started : ∀ p < s.pcbCount, (s.pcb p).isThread = false → s.firstProcess = false

variable {scope scope' : Scope} {s s' : Kernel} {next next' p count : ℕ} {queue queue' : List ℕ} {role : ℕ → Role}
  {vaddr : BitVec 32}

def kernelRoles (frame : ℕ) : Role := if frame < 3 then .kernel else .free

theorem systemInv_initial (scope : Scope) (mem : Memory) (disk : BitVec 32 → Memory) (scsi : ℕ → ScsiResult)
    (ticks : ℕ → BitVec 64) : SystemInv scope (initial mem disk scsi ticks) 3 [] kernelRoles where
  alloc := allocInv_initial mem disk scsi ticks
  map := {
    unused := fun frame large => if_neg (not_lt.mpr large)
    kernel := ⟨rfl, rfl, rfl⟩
    spaces := nofun
    owner := fun frame p table slot page => by
      simp only [kernelRoles] at page
      split_ifs at page
    queued := by simp }
  kernel := {
    kernelPdir := rfl
    userKernelPtable := rfl
    closed := fun slot bound => by
      rw [initial_kernelPdir mem disk scsi ticks bound]
      split_ifs
      · rw [peUs]
        decide
      · exact hasFlag_zero _
    single := fun slot bound present => by
      rw [initial_kernelPdir mem disk scsi ticks bound] at present ⊢
      split_ifs at present ⊢
      · exact entryBase_dirEntry_frame (by decide) _
      · rw [hasFlag_zero] at present
        cases present
    identity := fun started => nomatch started }
  threads p ready := absurd ready (Nat.not_lt_zero p)
  started p ready := absurd ready (Nat.not_lt_zero p)

/-- Only the slots of complete address spaces matter. -/
theorem MapInv.rescope (inv : MapInv scope s count next queue role)
    (directories : scope'.directorySlot = scope.directorySlot)
    (tables : ∀ p < count, scope'.tableSlot p = scope.tableSlot p) : MapInv scope' s count next queue role where
  unused := inv.unused
  kernel := inv.kernel
  spaces p ready process := by
    obtain ⟨directory, pointer, ok⟩ := inv.spaces p ready process
    refine ⟨directory, pointer, ok.role_eq, ok.present, ok.kernel_base, by rw [directories]; exact ok.opened, ?_⟩
    intro slot bound described present
    rw [directories] at described
    obtain ⟨table, base, table_ok⟩ := ok.tables slot bound described present
    refine ⟨table, base, table_ok.role_eq, ?_, ?_⟩
    · rw [tables p ready]
      exact table_ok.opened
    · rw [tables p ready]
      exact table_ok.pages
  owner := inv.owner
  queued frame member := by
    obtain ⟨p, directory, table, ready, process, resident⟩ := inv.queued frame member
    refine ⟨p, directory, table, ready, process, { resident with directory_slot := ?_, table_slot := ?_ }⟩
    · rw [directories]
      exact resident.directory_slot
    · rw [tables p ready]
      exact resident.table_slot

theorem quiet_withPcb (s : Kernel) (role : ℕ → Role) (isThread : Bool) (swapLoc swapSize : BitVec 32) :
    Quiet s.pcbCount role s (s.withPcb isThread swapLoc swapSize) where
  kernel kernel := kernel.congr rfl rfl rfl (.refl _ _) (.refl _ _)
  frames _ _ := .refl _ _
  pcb _ ready := update_of_ne ready.ne ..
  info _ _ := rfl
  disk := rfl
  scsi := rfl

theorem AllocInv.withPcb (alloc : AllocInv s next queue) (isThread : Bool) (swapLoc swapSize : BitVec 32) :
    AllocInv (s.withPcb isThread swapLoc swapSize) next queue := alloc.congr rfl rfl rfl

theorem createPcb_eq (cfg : Config) (isThread : Bool) (swapLoc swapSize : BitVec 32) :
    s.createPcb cfg isThread swapLoc swapSize =
      (s.withPcb isThread swapLoc swapSize).setupProcessVmem cfg s.pcbCount := rfl

theorem withPcb_self (isThread : Bool) (swapLoc swapSize : BitVec 32) :
    (s.withPcb isThread swapLoc swapSize).pcb s.pcbCount =
      { pid := BitVec.ofNat 32 s.pcbCount, isThread, swapLoc, swapSize } := update_self ..

theorem withPcb_earlier {isThread : Bool} (earlier : p < s.pcbCount) :
    (s.withPcb isThread swapLoc swapSize).pcb p = s.pcb p := update_of_ne earlier.ne ..

def Kernel.withThread (s : Kernel) (swapLoc swapSize : BitVec 32) : Kernel :=
  let thread : Pcb := {
    pid := BitVec.ofNat 32 s.pcbCount, isThread := true, pageDirectory := s.kernelPdir, swapLoc, swapSize }
  { s.withPcb true swapLoc swapSize with pcb := update s.pcb s.pcbCount thread }

theorem createThread_eq (swapLoc swapSize : BitVec 32) :
    s.createPcb config true swapLoc swapSize = .ok (s.withThread swapLoc swapSize) := by
  rw [createPcb_eq, setupProcessVmem]
  simp [withPcb, withThread, pure, Except.pure]

theorem quiet_withThread (swapLoc swapSize : BitVec 32) :
    Quiet s.pcbCount role s (s.withThread swapLoc swapSize) where
  kernel kernel := kernel.congr rfl rfl rfl (.refl _ _) (.refl _ _)
  frames _ _ := .refl _ _
  pcb _ ready := update_of_ne ready.ne ..
  info _ _ := rfl
  disk := rfl
  scsi := rfl

theorem withThread_self (swapLoc swapSize : BitVec 32) :
    ((s.withThread swapLoc swapSize).pcb s.pcbCount).isThread = true ∧
      ((s.withThread swapLoc swapSize).pcb s.pcbCount).pageDirectory = s.kernelPdir := by
  simp [withThread]

theorem withThread_earlier (earlier : p < s.pcbCount) :
    (s.withThread swapLoc swapSize).pcb p = s.pcb p := update_of_ne earlier.ne ..

section

variable (inv : SystemInv scope s next queue role)
include inv

theorem SystemInv.createThread (swapLoc swapSize : BitVec 32) :
    SystemInv scope (s.withThread swapLoc swapSize) next queue role := by
  have quiet : Quiet s.pcbCount role s (s.withThread swapLoc swapSize) := quiet_withThread swapLoc swapSize
  obtain ⟨isThread, pageDirectory⟩ := withThread_self (s := s) swapLoc swapSize
  constructor
  · exact inv.alloc.congr rfl rfl rfl
  · refine (inv.map.quiet le_rfl quiet).complete ?_
    intro process
    rw [isThread] at process
    cases process
  · exact quiet.kernel inv.kernel
  · intro p ready thread
    rcases Nat.lt_succ_iff_lt_or_eq.mp ready with old | rfl
    · rw [quiet.pcb p old] at thread ⊢
      exact inv.threads p old thread
    · rw [pageDirectory, inv.kernel.kernelPdir]
  · intro p ready process
    rcases Nat.lt_succ_iff_lt_or_eq.mp ready with old | rfl
    · rw [quiet.pcb p old] at process
      exact inv.started p old process
    · rw [isThread] at process
      cases process

theorem SystemInv.createProcess
    (ran : s.createPcb config false swapLoc swapSize = .ok s') (noKernel : ¬scope.directorySlot 0)
    (clean : Clean scope next ((s.withPcb false swapLoc swapSize).pcb s.pcbCount) s.pcbCount) :
    ∃ next' queue' role', SystemInv scope s' next' queue' role' ∧
      Constructed (s.withPcb false swapLoc swapSize) next queue s.pcbCount s' next' queue' ∧
      Evolves s.pcbCount (s.withPcb false swapLoc swapSize) next queue role s' next' queue' role' := by
  have quiet := quiet_withPcb s role false swapLoc swapSize
  have alloc := inv.alloc.withPcb false swapLoc swapSize
  have map := inv.map.quiet le_rfl quiet
  have kernel := quiet.kernel inv.kernel
  have process : ((s.withPcb false swapLoc swapSize).pcb s.pcbCount).isThread = false := by rw [withPcb_self]
  obtain ⟨next', queue', constructed⟩ := (alloc.setupProcessVmem_iff process).mp ran
  obtain ⟨role', directory, evolves, pointer, ok⟩ :=
    constructed.evolves alloc map kernel.userKernelPtable noKernel clean
  obtain ⟨⟨pageDirectory, pcb⟩, pcbCount, firstProcess, -⟩ := constructed.static
  have count : s'.pcbCount = s.pcbCount + 1 := pcbCount
  have earlier {p : ℕ} (old : p < s.pcbCount) : s'.pcb p = s.pcb p := by
    rw [pcb, update_of_ne old.ne, quiet.pcb p old]
  have last : (s'.pcb s.pcbCount).isThread = false := by rw [pcb, update_self, process]
  refine ⟨next', queue', role', ⟨constructed.inv alloc, ?_, evolves.kernel alloc map kernel, ?_, ?_⟩, constructed,
    evolves⟩
  · rw [count]
    exact (evolves.inv alloc map).2.complete fun _ => ⟨directory, pointer, ok⟩
  · intro p ready thread
    rw [count] at ready
    rcases Nat.lt_succ_iff_lt_or_eq.mp ready with old | rfl
    · rw [earlier old] at thread ⊢
      exact inv.threads p old thread
    · rw [last] at thread
      cases thread
  · intros
    exact firstProcess

theorem SystemInv.fault {errorCode : BitVec 32} (known : p < s.pcbCount)
    (absent : s.NotPresent p vaddr) (ran : s.pageFaultHandler config p vaddr errorCode = .ok s')
    (covers : scope.Covers p vaddr)
    (clean : hasFlag (pde s.mem (s.pcb p).pageDirectory vaddr) peP = false → next + 2 ≤ pageablePages) :
    ∃ next' queue' role', SystemInv scope s' next' queue' role' := by
  obtain ⟨-, process, next', queue', loaded⟩ := inv.alloc.pageFaultHandler_iff.mp ran
  obtain ⟨role', map, kernel⟩ := loaded.map inv.alloc inv.map known process covers absent clean
  have static := loaded.static
  refine ⟨next', queue', role', loaded.inv inv.alloc, ?_, kernel inv.kernel, ?_, ?_⟩
  · rw [static.pcbCount]
    exact map
  · rw [static.pcb, static.pcbCount]
    exact inv.threads
  · rw [static.pcb, static.pcbCount, static.firstProcess]
    exact inv.started

theorem SystemInv.touch {directory table : ℕ} {bits : BitVec 32}
    (walk : Walk s p vaddr directory table) (access : AccessBits bits) :
    SystemInv scope (s.touch p vaddr bits) next queue role where
  alloc := inv.alloc.congr rfl rfl rfl
  map := inv.map.touch walk access
  kernel := { inv.kernel with
    closed := fun slot bound => by
      rw [peUs, walk.touch_flag access 0 bound (by decide), ← peUs, inv.kernel.closed slot bound]
    single := fun slot bound present => by
      have entry := walk.touch_entry access 0 bound
      rw [entry.base]
      exact inv.kernel.single slot bound (entry.present ▸ present)
    identity := fun started slot bound => by
      have before := inv.kernel.identity started slot bound
      rw [peP, peUs, walk.touch_flag access 2 bound (by decide), walk.touch_flag access 2 bound (by decide),
        (walk.touch_entry access 2 bound).base]
      exact before }
  threads := inv.threads
  started := inv.started

theorem SystemInv.writeByte {address : ℕ} (byte : BitVec 8)
    (outside : ∀ frame, Structural s.pcbCount role frame ∨ role frame = .kernel →
      SameFrame s.mem (s.mem.writeByte address byte) frame) :
    SystemInv scope { s with mem := s.mem.writeByte address byte } next queue role where
  alloc := inv.alloc.congr rfl rfl rfl
  map := inv.map.writeByte byte fun frame structural => outside frame (.inl structural)
  kernel := inv.kernel.congr rfl rfl rfl (outside 0 (.inr inv.map.kernel.1)) (outside 2 (.inr inv.map.kernel.2.2))
  threads := inv.threads
  started := inv.started

theorem SystemInv.store {page : ℕ} (byte : BitVec 8) (offset : ℕ) (bound : offset < pageSize)
    (page_eq : page = vgaTextPaddr ∨ ∃ frame table slot, page = framePaddr frame ∧ role frame = .page p table slot) :
    SystemInv scope { s with mem := s.mem.writeByte (page + offset) byte } next queue role := by
  apply inv.writeByte byte
  intro other kind
  rcases page_eq with rfl | ⟨frame, table, slot, rfl, isPage⟩
  · intro query lower upper
    apply writeByte_ne
    rw [framePaddr_eq] at lower
    rw [vgaTextPaddr, pageSize] at *
    omega
  · apply SameFrame.writeByte s.mem byte _ bound
    rintro rfl
    rcases kind with ⟨q, -, isDirectory | isTable⟩ | isKernel
    · exact Role.noConfusion (isDirectory.symm.trans isPage)
    · exact Role.noConfusion (isTable.symm.trans isPage)
    · exact Role.noConfusion (isKernel.symm.trans isPage)

end

end MicroOs.Paging
