import MicroOs.Paging.Progress

/-! # Runs inside the images

An image of at most 1023 pages shares its page table with the stack and nothing else. The entries that faults and
accesses inside of the images go through have then all been written by `setup_process_vmem`, so that what is left over
in evicted frames does not matter.
-/

namespace MicroOs.Paging

open BitMask Memory Function Kernel List

variable {role' : ℕ → Role} {pcb : Pcb} {swapSize : BitVec 32} {i : ℕ}

def imagePages (swapSize : BitVec 32) : ℕ := (swapSize.toNat + 7) / 8

/-- An image that leaves the last entry of its table to the stack. -/
def ShortImage (swapSize : BitVec 32) : Prop := imagePages swapSize ≤ 1023

def InImage (pcb : Pcb) (vaddr : BitVec 32) : Prop :=
  processVaddr.toNat ≤ vaddr.toNat ∧ vaddr.toNat < processVaddr.toNat + sectorSize * pcb.swapSize.toNat

instance (swapSize : BitVec 32) : Decidable (ShortImage swapSize) := inferInstanceAs (Decidable (_ ≤ _))

instance (pcb : Pcb) (vaddr : BitVec 32) : Decidable (InImage pcb vaddr) := inferInstanceAs (Decidable (_ ∧ _))

/-- The events of runs that stay inside of short images. -/
def InsideImages (s : Kernel) : Event → Prop
  | .setup isThread _ swapSize => isThread = false → ShortImage swapSize
  | .fault p vaddr _ => InImage (s.pcb p) vaddr
  | .read p vaddr _ => InImage (s.pcb p) vaddr
  | .write p vaddr _ => InImage (s.pcb p) vaddr

def imageScope (sizes : ℕ → BitVec 32) : Scope where
  directorySlot slot := slot = 4
  tableSlot p slot := slot < imagePages (sizes p)

def Kernel.sizes (s : Kernel) (p : ℕ) : BitVec 32 := (s.pcb p).swapSize

variable {scope : Scope} {s s' : Kernel} {next next' p : ℕ} {queue queue' : List ℕ} {role : ℕ → Role}
  {vaddr : BitVec 32}

theorem InImage.getDirectoryIndex (inside : InImage pcb vaddr) (short : ShortImage pcb.swapSize) :
    getDirectoryIndex vaddr = 4 := by
  obtain ⟨lower, upper⟩ := inside
  simp only [ShortImage, imagePages] at short
  simp only [processVaddr, BitVec.reduceToNat, sectorSize] at lower upper
  rw [getDirectoryIndex_eq]
  omega

theorem InImage.getTableIndex (inside : InImage pcb vaddr) (short : ShortImage pcb.swapSize) :
    getTableIndex vaddr = (vaddr.toNat - processVaddr.toNat) / pageSize ∧
      getTableIndex vaddr < imagePages pcb.swapSize := by
  obtain ⟨lower, upper⟩ := inside
  simp only [ShortImage, imagePages] at short ⊢
  simp only [processVaddr, BitVec.reduceToNat, sectorSize, pageSize] at lower upper ⊢
  rw [getTableIndex_eq]
  omega

theorem InImage.covers (inside : InImage (s.pcb p) vaddr) (short : ShortImage (s.pcb p).swapSize) :
    (imageScope s.sizes).Covers p vaddr := ⟨inside.getDirectoryIndex short, (inside.getTableIndex short).2⟩

theorem ShortImage.imageBytes (short : ShortImage pcb.swapSize) :
    (imageBytes pcb).toNat = sectorSize * pcb.swapSize.toNat := by
  simp only [ShortImage, imagePages] at short
  rw [MicroOs.Paging.imageBytes, BitVec.toNat_mul, BitVec.toNat_ofNat, sectorSize]
  omega

theorem ShortImage.finite (short : ShortImage swapSize) :
    (swapSize * BitVec.ofNat 32 sectorSize).toNat ≤ 2 ^ 32 - pageSize := by
  simp only [ShortImage, imagePages] at short
  rw [BitVec.toNat_mul, BitVec.toNat_ofNat, sectorSize, pageSize]
  omega

theorem ShortImage.enters {slot : ℕ} (short : ShortImage pcb.swapSize)
    (inside : slot < imagePages pcb.swapSize) : Enters (pagesFrom 0 (MicroOs.Paging.imageBytes pcb).toNat) slot := by
  have bound := short
  simp only [ShortImage, imagePages] at bound inside
  refine ⟨pageSize * slot, mem_pagesFrom.mpr ⟨slot, ?_, Nat.zero_add _⟩, ?_⟩
  · rw [short.imageBytes, pageSize, sectorSize]
    omega
  · rw [getTableIndex_eq, BitVec.toNat_add, BitVec.toNat_ofNat, processVaddr, BitVec.toNat_ofNat, pageSize]
    omega

theorem ShortImage.clean {sizes : ℕ → BitVec 32} (short : ShortImage pcb.swapSize)
    (size : sizes p = pcb.swapSize) : Clean (imageScope sizes) next pcb p := by
  refine .inr ⟨fun slot => .inl, ?_⟩
  intro slot _ described
  have inside : slot < imagePages (sizes p) := described
  rw [size] at inside
  exact short.enters inside

structure ImageInv (s : Kernel) (next : ℕ) (queue : List ℕ) (role : ℕ → Role) : Prop where
  system : SystemInv (imageScope s.sizes) s next queue role
  short : ∀ p < s.pcbCount, (s.pcb p).isThread = false → ShortImage (s.pcb p).swapSize
  pages : PagesQueued role queue

theorem imageInv_initial (mem : Memory) (disk : BitVec 32 → Memory) (scsi : ℕ → ScsiResult) (ticks : ℕ → BitVec 64) :
    ImageInv (initial mem disk scsi ticks) 3 [] kernelRoles where
  system := systemInv_initial _ mem disk scsi ticks
  short p ready := absurd ready (Nat.not_lt_zero p)
  pages frame p table slot isPage := by
    simp only [kernelRoles] at isPage
    split_ifs at isPage

/-- The sizes of later processes do not matter. -/
theorem SystemInv.resize {sizes : ℕ → BitVec 32} (inv : SystemInv (imageScope s.sizes) s next queue role)
    (same : ∀ p < s.pcbCount, sizes p = s.sizes p) : SystemInv (imageScope sizes) s next queue role :=
  { inv with map := inv.map.rescope rfl fun p ready => by simp only [imageScope, same p ready] }

theorem ImageInv.createThread (inv : ImageInv s next queue role) (swapLoc swapSize : BitVec 32) :
    ImageInv (s.withThread swapLoc swapSize) next queue role := by
  have resized : SystemInv (imageScope (s.withThread swapLoc swapSize).sizes) s next queue role :=
    inv.system.resize fun p ready => by rw [sizes, withThread_earlier ready, sizes]
  refine ⟨resized.createThread swapLoc swapSize, ?_, inv.pages⟩
  intro p ready process
  rcases Nat.lt_succ_iff_lt_or_eq.mp ready with old | rfl
  · rw [withThread_earlier old] at process ⊢
    exact inv.short p old process
  · rw [(withThread_self swapLoc swapSize).1] at process
    cases process

theorem ImageInv.createProcess {swapLoc : BitVec 32} (inv : ImageInv s next queue role)
    (short : ShortImage swapSize) (ran : s.createPcb config false swapLoc swapSize = .ok s') :
    ∃ next' queue' role', ImageInv s' next' queue' role' ∧
      Constructed (s.withPcb false swapLoc swapSize) next queue s.pcbCount s' next' queue' ∧
      Evolves s.pcbCount (s.withPcb false swapLoc swapSize) next queue role s' next' queue' role' := by
  have earlier {p : ℕ} (ready : p < s.pcbCount) : (s.withPcb false swapLoc swapSize).sizes p = s.sizes p := by
    rw [sizes, withPcb_earlier ready, sizes]
  have last : (s.withPcb false swapLoc swapSize).sizes s.pcbCount = swapSize := by rw [sizes, withPcb_self]
  have clean : Clean (imageScope (s.withPcb false swapLoc swapSize).sizes) next
      ((s.withPcb false swapLoc swapSize).pcb s.pcbCount) s.pcbCount :=
    ShortImage.clean (by rwa [withPcb_self]) rfl
  have resized := inv.system.resize fun p ready => earlier ready
  obtain ⟨next', queue', role', system, constructed, evolves⟩ :=
    resized.createProcess ran (by simp [imageScope]) clean
  obtain ⟨⟨pageDirectory, pcb⟩, pcbCount, -⟩ := constructed.static
  have sizes : s'.sizes = (s.withPcb false swapLoc swapSize).sizes := by
    funext p
    rw [sizes, pcb, update_apply, sizes]
    split_ifs with same
    · rw [same]
    · rfl
  refine ⟨next', queue', role', ⟨sizes ▸ system, ?_, inv.pages.evolves evolves⟩, constructed, evolves⟩
  intro p ready process
  change ShortImage (s'.sizes p)
  rw [sizes]
  rw [pcbCount] at ready
  rcases Nat.lt_succ_iff_lt_or_eq.mp ready with old | rfl
  · rw [earlier old]
    rw [pcb, update_of_ne old.ne, withPcb_earlier old] at process
    exact inv.short p old process
  · rw [last]
    exact short

/-- A fault in an image: a frame is allocated, filled and entered in a vacant slot. -/
inductive ImageLoad (s : Kernel) (next : ℕ) (queue : List ℕ) (role : ℕ → Role) (p : ℕ) (vaddr : BitVec 32) :
    Kernel → ℕ → List ℕ → (ℕ → Role) → Prop
  | mk {frame next₁ directory table : ℕ} {queue₁ : List ℕ} {s₁ : Kernel}
      (first : Allocated s next queue frame s₁ next₁ queue₁) (good : s₁.scsi s₁.scsiCount = .good)
      (vacant : Vacant (imageScope s.sizes) (s₁.readInto p frame vaddr) (update role frame .free) p directory
        table vaddr) :
      ImageLoad s next queue role p vaddr ((s₁.readInto p frame vaddr).withPage p frame (framePaddr table) vaddr) next₁
        (queue₁ ++ [frame]) (update role frame (.page p table (getTableIndex vaddr)))

theorem ImageInv.present (inv : ImageInv s next queue role) (known : p < s.pcbCount)
    (process : (s.pcb p).isThread = false) (inside : InImage (s.pcb p) vaddr) :
    hasFlag (pde s.mem (s.pcb p).pageDirectory vaddr) peP = true := by
  obtain ⟨directory, pointer, ok⟩ := inv.system.map.spaces p known process
  rw [pointer, pde_frame, inside.getDirectoryIndex (inv.short p known process), ok.present 4 (.inr rfl)]

theorem ImageInv.load (inv : ImageInv s next queue role) (known : p < s.pcbCount)
    (process : (s.pcb p).isThread = false) (inside : InImage (s.pcb p) vaddr) (absent : s.NotPresent p vaddr)
    (loaded : Loaded s next queue p vaddr s' next' queue') :
    ∃ role', ImageLoad s next queue role p vaddr s' next' queue' role' := by
  have present := inv.present known process inside
  have covers := inside.covers (inv.short p known process)
  cases loaded with
  | added first good missing _ =>
    rw [inv.system.map.pde_read known process good first, present] at missing
    cases missing
  | @found frame next₁ queue₁ s₁ first good found outside =>
    obtain ⟨-, map⟩ := (Evolves.read (p := p) inv.system.alloc inv.system.map vaddr good first).inv inv.system.alloc
      inv.system.map
    have absent' := inv.system.map.notPresent_read inv.system.alloc known process covers good first absent
    have samePcb : (s₁.readInto p frame vaddr).pcb = s.pcb := by rw [readInto_pcb, first.pcb]
    rw [← samePcb] at found process ⊢
    obtain ⟨directory, table, base, vacant⟩ := map.vacant known process covers absent' found
    rw [base]
    exact ⟨_, .mk first good vacant⟩

theorem ImageLoad.static (load : ImageLoad s next queue role p vaddr s' next' queue' role') : SameStatic s s' := by
  obtain @⟨frame, _, _, _, _, s₁, first, -, -⟩ := load
  exact (first.static.trans (s₁.readInto_static p frame vaddr)).trans ⟨rfl, rfl, rfl, rfl, rfl, rfl⟩

theorem ImageLoad.inv (load : ImageLoad s next queue role p vaddr s' next' queue' role')
    (inv : ImageInv s next queue role) (known : p < s.pcbCount) (process : (s.pcb p).isThread = false) :
    ImageInv s' next' queue' role' := by
  have static := load.static
  have sizes : s'.sizes = s.sizes := by
    funext p
    rw [sizes, static.pcb, sizes]
  obtain @⟨frame, next₁, directory, table, queue₁, s₁, first, good, vacant⟩ := load
  obtain ⟨alloc₁, fresh₁⟩ := first.inv inv.system.alloc
  have evolves := Evolves.read (p := p) inv.system.alloc inv.system.map vaddr good first
  obtain ⟨alloc₂, map₂⟩ := evolves.inv inv.system.alloc inv.system.map
  have process₂ : ((s₁.readInto p frame vaddr).pcb p).isThread = false := by
    rw [readInto_pcb, first.pcb, process]
  have map := map₂.withPage known process₂ fresh₁.inUse alloc₁.bound (update_self ..) vacant
  rw [update_idem] at map
  refine ⟨⟨alloc₂.withPage (fresh₁.readInto p frame vaddr) p _ vaddr, ?_,
    map₂.kernel_withPage vacant (evolves.kernel inv.system.alloc inv.system.map inv.system.kernel), ?_, ?_⟩, ?_, ?_⟩
  · rw [sizes, static.pcbCount]
    exact map
  · rw [static.pcb, static.pcbCount]
    exact inv.system.threads
  · rw [static.pcb, static.pcbCount, static.firstProcess]
    exact inv.system.started
  · rw [static.pcb, static.pcbCount]
    exact inv.short
  · intro other q table' slot isPage
    rcases eq_or_ne other frame with rfl | apart
    · simp
    · rw [update_of_ne apart] at isPage
      have kept := inv.pages.allocated first other q table' slot (by rw [update_of_ne apart, isPage])
      exact kept.imp_right fun member => by simp [member]

theorem ImageInv.fault {errorCode : BitVec 32} (inv : ImageInv s next queue role) (known : p < s.pcbCount)
    (inside : InImage (s.pcb p) vaddr) (absent : s.NotPresent p vaddr)
    (ran : s.pageFaultHandler config p vaddr errorCode = .ok s') :
    ∃ next' queue' role', ImageInv s' next' queue' role' ∧
      ImageLoad s next queue role p vaddr s' next' queue' role' := by
  obtain ⟨-, process, next', queue', loaded⟩ := inv.system.alloc.pageFaultHandler_iff.mp ran
  obtain ⟨role', load⟩ := inv.load known process inside absent loaded
  exact ⟨next', queue', role', load.inv inv known process, load⟩

/-- A present image page is in a queued frame that is recorded for it. -/
structure PageAt (s : Kernel) (queue : List ℕ) (role : ℕ → Role) (p : ℕ) (vaddr : BitVec 32)
    (frame directory table : ℕ) :
    Prop where
  known : p < s.pcbCount
  process : (s.pcb p).isThread = false
  inside : InImage (s.pcb p) vaddr
  queued : frame ∈ queue
  walk : Walk s p vaddr directory table
  present : hasFlag (frameWord s.mem table (getTableIndex vaddr)) peP = true
  base : entryBase (frameWord s.mem table (getTableIndex vaddr)) = framePaddr frame
  resident : Resident (imageScope s.sizes) s role frame p directory table
  page : pageBase (s.pageFrameInfo frame).vaddr = pageBase vaddr

section

variable (inv : ImageInv s next queue role)
include inv

theorem ImageInv.pageAt (known : p < s.pcbCount)
    (process : (s.pcb p).isThread = false) (inside : InImage (s.pcb p) vaddr)
    (present : hasFlag (pte s.mem (s.pcb p).pageDirectory vaddr) peP = true) :
    ∃ frame directory table, PageAt s queue role p vaddr frame directory table := by
  have short := inv.short p known process
  have image := inside.getDirectoryIndex short
  obtain ⟨index, small⟩ := inside.getTableIndex short
  obtain ⟨directory, table, walk, isDirectory, kernel | table_ok⟩ :=
    inv.system.map.walk known process (inv.present known process inside) fun _ => image
  · rw [kernel.1] at image
    cases image
  rw [walk.pte_eq] at present
  obtain ⟨frame, base, isPage⟩ := table_ok.pages _ (getTableIndex_lt vaddr) small present
  have queued : frame ∈ queue := by
    refine (inv.pages frame p table _ isPage).resolve_left ?_
    rw [ShortImage] at short
    omega
  obtain ⟨q, directory', table', -, -, resident⟩ := inv.system.map.queued frame queued
  obtain ⟨rfl, rfl, slot⟩ := Role.page.inj (resident.page_role.symm.trans isPage)
  obtain rfl : directory' = directory := framePaddr_injective (resident.pointer.symm.trans walk.pointer)
  refine ⟨frame, directory', table', known, process, inside, queued, walk, present, base, resident,
    pageBase_eq_of_indices ?_ slot⟩
  rw [image]
  exact resident.directory_slot

theorem ImageInv.userPage (known : p < s.pcbCount)
    (process : (s.pcb p).isThread = false) (inside : InImage (s.pcb p) vaddr)
    (present : hasFlag (pte s.mem (s.pcb p).pageDirectory vaddr) peP = true) :
    ∃ page, s.userPage p vaddr = some page ∧ s.bothHave p vaddr peRw = true := by
  have short := inv.short p known process
  have image := inside.getDirectoryIndex short
  have directoryPresent := inv.present known process inside
  obtain ⟨directory, pointer, ok⟩ := inv.system.map.spaces p known process
  rw [pointer] at directoryPresent
  have directoryOpen := ok.opened _ (getDirectoryIndex_lt vaddr) image directoryPresent
  obtain ⟨table, base, table_ok⟩ := ok.tables _ (getDirectoryIndex_lt vaddr) image directoryPresent
  have entry := pte_frame (by rw [pde_frame, base])
  rw [pointer, entry] at present
  have tableOpen := table_ok.opened _ (getTableIndex_lt vaddr) (inside.getTableIndex short).2 present
  refine ⟨entryBase (frameWord s.mem table (getTableIndex vaddr)), ?_, ?_⟩
  · rw [userPage_eq_some, pointer, entry]
    exact ⟨directoryPresent, present, directoryOpen.1, tableOpen.1, rfl⟩
  · rw [bothHave, pointer, entry, pde_frame, directoryOpen.2, tableOpen.2]
    rfl

theorem ImageInv.touch {directory table : ℕ} {bits : BitVec 32}
    (walk : Walk s p vaddr directory table) (access : AccessBits bits) :
    ImageInv (s.touch p vaddr bits) next queue role := ⟨inv.system.touch walk access, inv.short, inv.pages⟩

theorem ImageInv.store {frame table slot offset : ℕ}
    (isPage : role frame = .page p table slot) (byte : BitVec 8) (bound : offset < pageSize) :
    ImageInv { s with mem := s.mem.writeByte (framePaddr frame + offset) byte } next queue role :=
  ⟨inv.system.store byte offset bound (.inr ⟨frame, table, slot, rfl, isPage⟩), inv.short, inv.pages⟩

end

/-- What an event does to a system that stays inside of its images. -/
inductive ImageStep (s : Kernel) (next : ℕ) (queue : List ℕ) (role : ℕ → Role) :
    Event → Kernel → ℕ → List ℕ → (ℕ → Role) → Prop
  | thread (swapLoc swapSize : BitVec 32) :
      ImageStep s next queue role (.setup true swapLoc swapSize) (s.withThread swapLoc swapSize) next queue role
  | process {swapLoc swapSize : BitVec 32} {s' : Kernel} {next' : ℕ} {queue' : List ℕ} {role' : ℕ → Role}
      (short : ShortImage swapSize)
      (constructed : Constructed (s.withPcb false swapLoc swapSize) next queue s.pcbCount s' next' queue')
      (evolves : Evolves s.pcbCount (s.withPcb false swapLoc swapSize) next queue role s' next' queue' role') :
      ImageStep s next queue role (.setup false swapLoc swapSize) s' next' queue' role'
  | fault {p : ℕ} {vaddr errorCode : BitVec 32} {s' : Kernel} {next' : ℕ} {queue' : List ℕ} {role' : ℕ → Role}
      (known : p < s.pcbCount) (process : (s.pcb p).isThread = false) (inside : InImage (s.pcb p) vaddr)
      (load : ImageLoad s next queue role p vaddr s' next' queue' role') :
      ImageStep s next queue role (.fault p vaddr errorCode) s' next' queue' role'
  | read {p frame directory table : ℕ} {vaddr : BitVec 32}
    (at_frame : PageAt s queue role p vaddr frame directory table) :
      ImageStep s next queue role (.read p vaddr (s.mem (framePaddr frame + vaddr.toNat % pageSize)))
        (s.touch p vaddr peA) next queue role
  | write {p frame directory table : ℕ} {vaddr : BitVec 32} {byte : BitVec 8}
      (at_frame : PageAt s queue role p vaddr frame directory table) :
      ImageStep s next queue role (.write p vaddr byte)
        { s.touch p vaddr (peA ||| peD) with
          mem := (s.touch p vaddr (peA ||| peD)).mem.writeByte (framePaddr frame + vaddr.toNat % pageSize) byte }
        next queue role

/-- Every event is one of the described transitions and keeps the invariant. -/
theorem ImageInv.step {event : Event} (inv : ImageInv s next queue role)
    (taken : Guarded InsideImages (Step config) s event s') :
    ∃ next' queue' role', ImageInv s' next' queue' role' ∧ ImageStep s next queue role event s' next' queue' role' := by
  obtain ⟨guard, step⟩ := taken
  cases step with
  | @setup _ isThread swapLoc swapSize ran =>
    cases isThread with
    | true =>
      rw [createThread_eq] at ran
      cases ran
      exact ⟨next, queue, role, inv.createThread swapLoc swapSize, .thread swapLoc swapSize⟩
    | false =>
      obtain ⟨next', queue', role', inv', constructed, evolves⟩ := inv.createProcess (guard rfl) ran
      exact ⟨next', queue', role', inv', .process (guard rfl) constructed evolves⟩
  | fault known absent ran =>
    obtain ⟨-, process, -⟩ := inv.system.alloc.pageFaultHandler_iff.mp ran
    obtain ⟨next', queue', role', inv', load⟩ := inv.fault known guard absent ran
    exact ⟨next', queue', role', inv', .fault known process guard load⟩
  | read known user ran =>
    obtain ⟨page, reached, result⟩ := Option.map_eq_some_iff.mp ran
    cases result
    obtain ⟨-, present, -, -, base⟩ := userPage_eq_some.mp reached
    obtain ⟨frame, directory, table, at_frame⟩ := inv.pageAt known user guard present
    rw [at_frame.walk.pte_eq, at_frame.base] at base
    subst base
    exact ⟨next, queue, role, inv.touch at_frame.walk (.inl rfl), .read at_frame⟩
  | write known user ran =>
    simp only [userWrite, Option.ite_none_right_eq_some, Option.map_eq_some_iff] at ran
    obtain ⟨-, page, reached, rfl⟩ := ran
    obtain ⟨-, present, -, -, base⟩ := userPage_eq_some.mp reached
    obtain ⟨frame, directory, table, at_frame⟩ := inv.pageAt known user guard present
    rw [at_frame.walk.pte_eq, at_frame.base] at base
    subst base
    exact ⟨next, queue, role, (inv.touch at_frame.walk (.inr rfl)).store at_frame.resident.page_role _
      (Nat.mod_lt _ (by decide)), .write at_frame⟩

section

variable (inv : ImageInv s next queue role)
include inv

theorem ImageInv.newProcess (number : s.pcbCount = p) (swapLoc : BitVec 32)
    (short : ShortImage swapSize) (available : next + 3 ≤ pageablePages) :
    ∃ s' role', s.createPcb config false swapLoc swapSize = .ok s' ∧ ImageInv s' (next + 3) queue role' ∧
      Constructed (s.withPcb false swapLoc swapSize) next queue p s' (next + 3) queue ∧ s'.pcbCount = p + 1 ∧
      s'.disk = s.disk ∧ s'.scsi = s.scsi ∧ s'.scsiCount = s.scsiCount ∧ (∀ q < p, s'.pcb q = s.pcb q) ∧
      (s'.pcb p).isThread = false ∧ (s'.pcb p).swapLoc = swapLoc ∧ (s'.pcb p).swapSize = swapSize := by
  subst number
  have room : 3 ≤ allocatable next queue := by
    rw [allocatable]
    omega
  obtain ⟨s', _, _, ran, -⟩ := inv.system.construct swapLoc room short.finite
  obtain ⟨next', queue', role', inv', constructed, -⟩ := inv.createProcess short ran
  obtain ⟨rfl, rfl, disk, transfers⟩ := constructed.of_free available
  obtain ⟨⟨pageDirectory, pcb⟩, count, -, scsi⟩ := constructed.static
  refine ⟨s', role', ran, inv', constructed, count, disk, scsi, transfers, fun p old => ?_, ?_⟩
  · rw [pcb, update_of_ne old.ne, withPcb_earlier old]
  · rw [pcb, update_self, withPcb_self]
    exact ⟨rfl, rfl, rfl⟩

/-- So can several, one after another. -/
theorem ImageInv.createProcesses (swapLoc : BitVec 32)
    (short : ShortImage swapSize) (n : ℕ) (available : next + 3 * n ≤ pageablePages) :
    ∃ s' role', Run (Guarded InsideImages (Step config)) s (replicate n (.setup false swapLoc swapSize)) s' ∧
      ImageInv s' (next + 3 * n) queue role' ∧ s'.pcbCount = s.pcbCount + n ∧ s'.disk = s.disk ∧ s'.scsi = s.scsi ∧
      (∀ p < s.pcbCount, s'.pcb p = s.pcb p) ∧ ∀ p < s'.pcbCount, s.pcbCount ≤ p →
        (s'.pcb p).isThread = false ∧ (s'.pcb p).swapLoc = swapLoc ∧ (s'.pcb p).swapSize = swapSize := by
  induction n with
  | zero => exact ⟨s, role, .nil s, inv, rfl, rfl, rfl, fun _ _ => rfl, fun p bound old => absurd bound old.not_gt⟩
  | succ n ih =>
    obtain ⟨s₁, role₁, run, inv₁, count, disk, scsi, older, newer⟩ := ih (by omega)
    obtain ⟨s', role', ran, inv', -, last, disk', scsi', -, earlier, new⟩ :=
      inv₁.newProcess rfl swapLoc short (by omega)
    refine ⟨s', role', ?_, inv', by omega, disk'.trans disk, scsi'.trans scsi, ?_, ?_⟩
    · rw [replicate_succ']
      exact run.snoc ⟨fun _ => short, .setup ran⟩
    · intro p old
      rw [earlier p (by omega), older p old]
    · intro p bound old
      rcases Nat.lt_or_ge p s₁.pcbCount with before | after
      · rw [earlier p before]
        exact newer p before old
      · obtain rfl : p = s₁.pcbCount := by omega
        exact new

/-- A page of an image can be loaded as long as there is a frame. -/
theorem ImageInv.canLoad (known : p < s.pcbCount)
    (process : (s.pcb p).isThread = false) (inside : InImage (s.pcb p) vaddr) (absent : s.NotPresent p vaddr)
    (room : 0 < allocatable next queue)
    (good : ∀ {frame s₁ next₁ queue₁}, Allocated s next queue frame s₁ next₁ queue₁ → s₁.scsi s₁.scsiCount = .good)
    {errorCode : BitVec 32} (notPresent : hasFlag errorCode 1#32 = false) :
    ∃ s' next' queue' role', Guarded InsideImages (Step config) s (.fault p vaddr errorCode) s' ∧
      ImageInv s' next' queue' role' ∧ ImageLoad s next queue role p vaddr s' next' queue' role' := by
  have short := inv.short p known process
  obtain ⟨s', _, _, ran, -⟩ := inv.system.load known process (inside.covers short) (inside.getDirectoryIndex short) room
    good notPresent
  obtain ⟨next', queue', role', inv', load⟩ := inv.fault known inside absent ran
  exact ⟨s', next', queue', role', ⟨inside, .fault known absent ran⟩, inv', load⟩

theorem ImageInv.notPresent (known : p < s.pcbCount)
    (process : (s.pcb p).isThread = false) (inside : InImage (s.pcb p) vaddr)
    (other : ∀ frame ∈ queue, pageBase (s.pageFrameInfo frame).vaddr ≠ pageBase vaddr) : s.NotPresent p vaddr := by
  by_contra present
  simp only [Kernel.NotPresent, not_or, Bool.not_eq_false] at present
  obtain ⟨frame, _, _, at_frame⟩ := inv.pageAt known process inside present.2
  exact other frame at_frame.queued at_frame.page

end

theorem ImageLoad.of_free (load : ImageLoad s next queue role p vaddr s' next' queue' role')
    (inv : ImageInv s next queue role) (available : next < pageablePages) :
    next' = next + 1 ∧ queue' = queue ++ [next] ∧ (s'.pageFrameInfo next).vaddr = pageBase vaddr ∧
      (∀ slot < 1024, frameWord s'.mem next slot =
        (readBuffer s.disk (diskLoc (s.pcb p) vaddr) (blockCount (s.pcb p) vaddr)).readWord (4 * slot)) ∧
      s'.scsiCount = s.scsiCount + 1 ∧
      ∀ frame ∈ queue, SameFrame s.mem s'.mem frame ∧ s'.pageFrameInfo frame = s.pageFrameInfo frame := by
  obtain @⟨frame, next₁, directory, table, queue₁, s₁, first, good, vacant⟩ := load
  obtain ⟨rfl, rfl, rfl, rfl⟩ := first.of_free available
  have directoryRole := vacant.directory_role
  have tableRole := vacant.table_role
  have apart (other : ℕ) (notDirectory : update role frame .free other ≠ .directory p)
      (notTable : update role frame .free other ≠ .table p) : other ≠ directory ∧ other ≠ table := by
    constructor
    · rintro rfl
      exact notDirectory directoryRole
    · rintro rfl
      exact notTable tableRole
  refine ⟨rfl, rfl, withPage_vaddr, ?_, ?_, ?_⟩
  · intro slot bound
    obtain ⟨directoryApart, tableApart⟩ := apart frame (by simp) (by simp)
    rw [(vacant.sameFrame directoryApart tableApart).word bound, readInto_eq good, frameWord,
      readWord_blit_inside _ _ (by omega) (by rw [pageSize]; omega), Nat.add_sub_cancel_left]
    rfl
  · rw [readInto_eq good]
    rfl
  · intro other member
    obtain ⟨q, _, _, -, -, resident⟩ := inv.system.map.queued other member
    have used := inv.system.alloc.inUse other member
    have isPage : update role frame .free other = _ :=
      (update_of_ne used.2.ne ..).trans resident.page_role
    obtain ⟨directoryApart, tableApart⟩ := apart other (by simp [isPage])
      (by simp [isPage])
    refine ⟨((sameFrame_takeFree (.inl used.2)).trans (sameFrame_readInto good used.2.ne vaddr)).trans
      (vacant.sameFrame directoryApart tableApart), ?_⟩
    rw [withPage_info used.2.ne, readInto_eq good]
    exact update_of_ne used.2.ne ..

theorem ImageLoad.userPage (load : ImageLoad s next queue role p vaddr s' next' queue' role')
    (alloc : AllocInv s next queue) (map : MapInv (imageScope s.sizes) s s.pcbCount next queue role) :
    ∃ frame, s'.userPage p vaddr = some (framePaddr frame) ∧ s'.bothHave p vaddr peRw = true ∧
      frame ∈ queue' := by
  obtain @⟨frame, next₁, directory, table, queue₁, s₁, first, good, vacant⟩ := load
  obtain ⟨alloc₁, fresh₁⟩ := first.inv alloc
  obtain ⟨-, map₁⟩ := (Evolves.read (p := p) alloc map vaddr good first).inv alloc map
  have tableBound : table < pageablePages := (map₁.bound (by simp [vacant.table_role])).trans_le alloc₁.bound
  have entry : pde ((s₁.readInto p frame vaddr).withPage p frame (framePaddr table) vaddr).mem (framePaddr directory)
      vaddr = dirEntry (BitVec.ofNat 32 (framePaddr table)) userMode := by
    rw [pde_frame, vacant.word (getDirectoryIndex_lt vaddr), if_pos ⟨rfl, rfl⟩]
  have page : pte ((s₁.readInto p frame vaddr).withPage p frame (framePaddr table) vaddr).mem (framePaddr directory)
      vaddr = tableEntry (BitVec.ofNat 32 (framePaddr frame)) userMode := by
    rw [pte_frame (by rw [entry, entryBase_dirEntry_frame tableBound]), vacant.word (getTableIndex_lt vaddr),
      if_neg fun here => vacant.apart here.1.symm, if_pos ⟨rfl, rfl⟩]
  have pointer : (((s₁.readInto p frame vaddr).withPage p frame (framePaddr table) vaddr).pcb p).pageDirectory =
      framePaddr directory := vacant.pointer
  refine ⟨frame, ?_, ?_, by simp⟩
  · rw [userPage_eq_some, pointer, entry, page, peP, peUs, hasFlag_dirEntry _ _ (by decide),
      hasFlag_tableEntry _ _ (by decide), hasFlag_dirEntry _ _ (by decide), hasFlag_tableEntry _ _ (by decide),
      entryBase_tableEntry_frame (fresh₁.bound alloc₁)]
    exact ⟨by decide, by decide, by decide, by decide, rfl⟩
  · rw [bothHave, pointer, entry, page, peRw, hasFlag_dirEntry _ _ (by decide),
      hasFlag_tableEntry _ _ (by decide)]
    decide

def pageAddress (i : ℕ) : BitVec 32 := processVaddr + BitVec.ofNat 32 (pageSize * i)

theorem pageAddress_toNat (small : i < 1024) : (pageAddress i).toNat = 0x1000000 + 4096 * i := by
  rw [pageAddress, BitVec.toNat_add, BitVec.toNat_ofNat, processVaddr, BitVec.toNat_ofNat, pageSize]
  omega

theorem ShortImage.inImage (short : ShortImage pcb.swapSize) (inside : i < imagePages pcb.swapSize) :
    InImage pcb (pageAddress i) := by
  rw [ShortImage] at short
  rw [InImage, pageAddress_toNat (by omega), sectorSize, processVaddr, BitVec.toNat_ofNat]
  rw [imagePages] at inside
  omega

theorem pageBase_pageAddress_ne {j : ℕ} (smaller : i < j) (small : j < 1024) :
    pageBase (pageAddress i) ≠ pageBase (pageAddress j) := by
  intro same
  have addresses := congrArg BitVec.toNat same
  rw [pageBase_toNat, pageBase_toNat, pageAddress_toNat small, pageAddress_toNat (by omega)] at addresses
  omega

/-- A process touches its pages one after another while there are free frames. -/
theorem ImageInv.loadPages (guard : Kernel → Event → Prop) (inv : ImageInv s next [] role) (known : p < s.pcbCount)
    (process : (s.pcb p).isThread = false)
    (allowed : ∀ s vaddr, InImage (s.pcb p) vaddr → guard s (.fault p vaddr 4#32)) (n : ℕ)
    (good : ∀ k < n, s.scsi (s.scsiCount + k) = .good) (available : next + n ≤ pageablePages)
    (pages : n ≤ imagePages (s.pcb p).swapSize) :
    ∃ s' role', Run (Guarded guard (Step config)) s ((range n).map fun i => .fault p (pageAddress i) 4#32) s' ∧
      ImageInv s' (next + n) ((range n).map (next + ·)) role' ∧ SameStatic s s' ∧
      s'.scsiCount = s.scsiCount + n ∧
      ∀ i < n, (s'.pageFrameInfo (next + i)).vaddr = pageBase (pageAddress i) := by
  have short := inv.short p known process
  induction n with
  | zero =>
    exact ⟨s, role, .nil s, inv, ⟨rfl, rfl, rfl, rfl, rfl, rfl⟩, rfl, nofun⟩
  | succ n ih =>
    obtain ⟨s₁, role₁, run, inv₁, static, made, records⟩ :=
      ih (fun k bound => good k (Nat.lt_succ_of_lt bound)) (by omega) (by omega)
    have inside : InImage (s₁.pcb p) (pageAddress n) := by
      rw [static.pcb]
      exact short.inImage (by omega)
    rw [ShortImage] at short
    have known₁ : p < s₁.pcbCount := by rwa [static.pcbCount]
    have process₁ : (s₁.pcb p).isThread = false := by rwa [static.pcb]
    have absent : s₁.NotPresent p (pageAddress n) := by
      refine inv₁.notPresent known₁ process₁ inside ?_
      intro frame member
      obtain ⟨i, bound, rfl⟩ := mem_map.mp member
      rw [mem_range] at bound
      rw [records i bound, pageBase_pageBase]
      exact pageBase_pageAddress_ne bound (by omega)
    have room : 0 < allocatable (next + n) ((range n).map (next + ·)) := by
      rw [allocatable]
      omega
    have good₁ {frame s₂ next₂ queue₂} (first : Allocated s₁ (next + n) ((range n).map (next + ·)) frame s₂ next₂
        queue₂) : s₂.scsi s₂.scsiCount = .good := by
      obtain ⟨-, rfl, -, -⟩ := first.of_free (by omega)
      change s₁.scsi s₁.scsiCount = .good
      rw [static.scsi, made]
      exact good n (Nat.lt_succ_self n)
    obtain ⟨s', next', queue', role', ⟨-, step⟩, inv', load⟩ := inv₁.canLoad known₁ process₁ inside absent room
      good₁ (show hasFlag 4#32 1#32 = false by decide)
    obtain ⟨rfl, rfl, record, -, transfers, kept⟩ := load.of_free inv₁ (by omega)
    refine ⟨s', role', ?_, ?_, static.trans load.static, by omega, ?_⟩
    · rw [range_succ, map_append]
      exact run.snoc ⟨allowed s₁ _ inside, step⟩
    · rw [range_succ, map_append]
      exact inv'
    · intro i bound
      rcases Nat.lt_succ_iff_lt_or_eq.mp bound with earlier | rfl
      · rw [(kept (next + i) (mem_map.mpr ⟨i, mem_range.mpr earlier, rfl⟩)).2, records i earlier]
      · exact record

/-- The first process, with two image pages, loads one of them. -/
theorem first_page_loaded (disk : BitVec 32 → Memory) : ∃ s₁ s role,
    Guarded InsideImages (Step config) (initial (fun _ => 0#8) disk (fun _ => .good) fun _ => 0#64)
      (.setup false 0#32 16#32) s₁ ∧
    Guarded InsideImages (Step config) s₁ (.fault 0 0x1000000#32 4#32) s ∧
    ImageInv s 7 [6] role ∧ s.pcbCount = 1 ∧ (s.pcb 0).isThread = false ∧ (s.pcb 0).swapSize = 16#32 ∧
    s.userPage 0 0x1000000#32 = some (framePaddr 6) ∧ s.bothHave 0 0x1000000#32 peRw = true := by
  have inv := imageInv_initial (fun _ => 0#8) disk (fun _ => .good) fun _ => 0#64
  have short : ShortImage 16#32 := by decide
  obtain ⟨s₁, role₁, ran, inv₁, -, count, -, scsi, -, -, process, -, size⟩ :=
    inv.newProcess (p := 0) rfl 0#32 short (by decide)
  have known : 0 < s₁.pcbCount := count.symm ▸ Nat.one_pos
  have inside : InImage (s₁.pcb 0) 0x1000000#32 := by
    rw [InImage, size]
    decide
  obtain ⟨s, next, queue, role, step, inv', load⟩ := inv₁.canLoad known process inside
    (inv₁.notPresent known process inside (by simp)) (by decide) (fun first => first.good fun n => by rw [scsi]; rfl)
    (show hasFlag 4#32 1#32 = false by decide)
  obtain ⟨frame, reached, writable, member⟩ := load.userPage inv₁.system.alloc inv₁.system.map
  obtain ⟨rfl, rfl, -⟩ := load.of_free inv₁ (by decide)
  obtain rfl : frame = 6 := by simpa using member
  have static := load.static
  refine ⟨s₁, s, role, ⟨fun _ => short, .setup ran⟩, step, inv', static.pcbCount.trans count, ?_, ?_, reached, writable⟩
  · rw [static.pcb, process]
  · rw [static.pcb, size]

end MicroOs.Paging
