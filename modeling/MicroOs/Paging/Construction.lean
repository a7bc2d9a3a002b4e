import MicroOs.Paging.Mapping

/-! # New address spaces and new pages

`setup_process_vmem` and `load_page_from_disk` keep the walk invariant. A new address space joins it only when its
directory is handed to the process; what its directory and table are built on matters where the scope reaches
beyond the entries that are written.
-/

namespace MicroOs.Paging

open BitMask Memory Function Kernel

variable {scope : Scope} {s s' : Kernel} {count next next' p : ℕ} {queue queue' : List ℕ} {role : ℕ → Role}
  {slot frame : ℕ} {role' : ℕ → Role}

theorem getDirectoryIndex_processVaddr : getDirectoryIndex processVaddr = 4 := by decide

theorem getDirectoryIndex_processStackVaddr : getDirectoryIndex processStackVaddr = 959 := by decide

theorem getTableIndex_processStackVaddr : getTableIndex processStackVaddr = 1023 := by decide

/-- Frames are allocated, and what is done with them does not concern the complete address spaces. -/
inductive Evolves (count : ℕ) (s : Kernel) (next : ℕ) (queue : List ℕ) (role : ℕ → Role) :
    Kernel → ℕ → List ℕ → (ℕ → Role) → Prop
  | refl : Evolves count s next queue role s next queue role
  | alloc {s₁ s₂ : Kernel} {next₁ next₂ frame : ℕ} {queue₁ queue₂ : List ℕ} {role₁ : ℕ → Role} :
      Evolves count s next queue role s₁ next₁ queue₁ role₁ → Allocated s₁ next₁ queue₁ frame s₂ next₂ queue₂ →
      Evolves count s next queue role s₂ next₂ queue₂ (update role₁ frame .free)
  | quiet {s₁ s₂ : Kernel} {next₁ : ℕ} {queue₁ : List ℕ} {role₁ : ℕ → Role} :
      Evolves count s next queue role s₁ next₁ queue₁ role₁ → Quiet count role₁ s₁ s₂ → AllocInv s₂ next₁ queue₁ →
      Evolves count s next queue role s₂ next₁ queue₁ role₁
  | assign {s₁ : Kernel} {next₁ frame p : ℕ} {queue₁ : List ℕ} {role₁ : ℕ → Role} {new : Role} :
      Evolves count s next queue role s₁ next₁ queue₁ role₁ → role₁ frame = .free → frame < next₁ → count ≤ p →
      (new = .directory p ∨ new = .table p ∨ ∃ table, new = .page p table 1023 ∧
        (s₁.pageFrameInfo frame).owner = some (.pcb p)) →
      Evolves count s next queue role s₁ next₁ queue₁ (update role₁ frame new)

theorem Evolves.trans {s₁ s₂ : Kernel} {next₁ next₂ : ℕ} {queue₁ queue₂ : List ℕ} {role₁ role₂ : ℕ → Role}
    (before : Evolves count s next queue role s₁ next₁ queue₁ role₁)
    (after : Evolves count s₁ next₁ queue₁ role₁ s₂ next₂ queue₂ role₂) :
    Evolves count s next queue role s₂ next₂ queue₂ role₂ := by
  induction after with
  | refl => exact before
  | alloc _ allocated ih => exact .alloc ih allocated
  | quiet _ quiet alloc ih => exact .quiet ih quiet alloc
  | assign _ free inUse incomplete new ih => exact .assign ih free inUse incomplete new

/-- The invariants are carried along. -/
theorem Evolves.inv (evolves : Evolves count s next queue role s' next' queue' role')
    (alloc : AllocInv s next queue) (map : MapInv scope s count next queue role) :
    AllocInv s' next' queue' ∧ MapInv scope s' count next' queue' role' := by
  induction evolves with
  | refl => exact ⟨alloc, map⟩
  | alloc _ allocated ih => exact ⟨(allocated.inv ih.1).1, ih.2.allocated ih.1 allocated⟩
  | quiet _ quiet alloc ih => exact ⟨alloc, ih.2.quiet le_rfl quiet⟩
  | assign _ free inUse incomplete new ih =>
    refine ⟨ih.1, ih.2.assign free inUse ?_⟩
    rintro p table slot rfl
    rcases new with new | new | ⟨_, same, owner⟩
    · cases new
    · cases new
    · cases same
      exact owner

theorem Evolves.kernel (evolves : Evolves count s next queue role s' next' queue' role')
    (alloc : AllocInv s next queue) (map : MapInv scope s count next queue role) (kernel : KernelMap s) :
    KernelMap s' := by
  induction evolves with
  | refl => exact kernel
  | alloc before allocated ih => exact (before.inv alloc map).2.kernel_allocated allocated ih
  | quiet _ quiet _ ih => exact quiet.kernel ih
  | assign _ _ _ _ _ ih => exact ih

/-- All pages are queued, except for the stacks. -/
def PagesQueued (role : ℕ → Role) (queue : List ℕ) : Prop :=
  ∀ frame p table slot, role frame = .page p table slot → slot = 1023 ∨ frame ∈ queue

theorem PagesQueued.allocated (pages : PagesQueued role queue)
    (allocated : Allocated s next queue frame s' next' queue') : PagesQueued (update role frame .free) queue' := by
  intro other p table slot isPage
  have apart : other ≠ frame := by
    rintro rfl
    rw [update_self] at isPage
    cases isPage
  rw [update_of_ne apart] at isPage
  apply (pages other p table slot isPage).imp_right
  intro member
  cases allocated with
  | free _ => exact member
  | evict _ _ => exact (List.mem_cons.mp member).resolve_left apart

theorem PagesQueued.evolves (pages : PagesQueued role queue)
    (evolves : Evolves count s next queue role s' next' queue' role') : PagesQueued role' queue' := by
  induction evolves with
  | refl => exact pages
  | alloc _ allocated ih => exact ih.allocated allocated
  | quiet _ _ _ ih => exact ih
  | @assign s₁ next₁ frame p queue₁ role₁ new before free inUse incomplete kind ih =>
    intro other q table slot isPage
    rcases eq_or_ne other frame with rfl | apart
    · rw [update_self] at isPage
      rcases kind with rfl | rfl | ⟨_, rfl, -⟩
      · cases isPage
      · cases isPage
      · exact .inl (Role.page.inj isPage).2.2.symm
    · rw [update_of_ne apart] at isPage
      exact ih other q table slot isPage

section Parts

variable {directory table stack : ℕ}

theorem sameFrame_withDirectory {other : ℕ} (kernelTable : s.userKernelPtable = framePaddr 2)
    (directoryApart : other ≠ directory) (kernelApart : other ≠ 2) :
    SameFrame s.mem (s.withDirectory p directory).mem other := by
  simp only [withDirectory, kernelTable]
  exact sameFrame_identityMapKernel _ directoryApart fun _ => kernelApart

/-- The table that the first process fills. -/
theorem identityMapKernel_user {mem : Memory} (apart : directory ≠ table) (bound : slot < 1024) :
    let word :=
      frameWord (identityMapKernel mem (framePaddr directory) (framePaddr table) true (userMode ||| pePcd)) table slot
    hasFlag word peP = true ∧ entryBase word = 4096 * slot ∧ (hasFlag word peUs = true → slot = 0xb8) := by
  simp only
  rw [frameWord_identityMapKernel_table _ apart bound]
  split_ifs with video
  · refine ⟨by decide, ?_, fun _ => video⟩
    rw [video]
    decide
  · rw [peP, peUs, hasFlag_tableEntry _ _ (by decide), hasFlag_tableEntry _ _ (by decide), entryBase_tableEntry,
      BitVec.toNat_ofNat]
    refine ⟨by decide, by omega, ?_⟩
    intro user
    exact absurd user (by decide)

theorem MapInv.quiet_withDirectory (inv : MapInv scope s count next queue role)
    (kernelTable : s.userKernelPtable = framePaddr 2) (free : role directory = .free) :
    Quiet count role s (s.withDirectory p directory) where
  kernel kernel := by
    obtain ⟨zero, two⟩ := inv.kernel_ne free
    refine ⟨kernel.kernelPdir, kernelTable, ?_, ?_, ?_⟩
    · intro slot bound
      rw [(sameFrame_withDirectory kernelTable zero (by decide)).word bound, kernel.closed slot bound]
    · intro slot bound
      rw [(sameFrame_withDirectory kernelTable zero (by decide)).word bound]
      exact kernel.single slot bound
    · intro _ slot bound
      cases first : s.firstProcess with
      | false =>
        simp only [withDirectory, kernelTable, first]
        rw [(sameFrame_identityMapKernel _ two (by simp)).word bound]
        exact kernel.identity first slot bound
      | true =>
        simp only [withDirectory, kernelTable, first]
        exact identityMapKernel_user two.symm bound
  frames other held := sameFrame_withDirectory kernelTable (held.ne_of_role (.inl free))
    (held.ne_of_role (.inr (.inl inv.kernel.2.2)))
  pcb _ _ := rfl
  info other used := update_of_ne (by rintro rfl; exact used free) ..
  disk := rfl
  scsi := rfl

theorem sameFrame_withTable {other : ℕ} (directoryApart : other ≠ directory) (tableApart : other ≠ table) :
    SameFrame s.mem (s.withTable p directory table).mem other :=
  ((sameFrame_dirInsTable _ _ _ directoryApart).trans (sameFrame_mapImagePages _ tableApart)).trans
    (sameFrame_dirInsTable _ _ _ directoryApart)

theorem MapInv.quiet_withTable (inv : MapInv scope s count next queue role)
    (isDirectory : role directory = .directory p)
    (incomplete : count ≤ p) (free : role table = .free) : Quiet count role s (s.withTable p directory table) where
  kernel kernel := kernel.congr rfl rfl rfl
    (sameFrame_withTable (inv.kernel_ne isDirectory).1 (inv.kernel_ne free).1)
    (sameFrame_withTable (inv.kernel_ne isDirectory).2 (inv.kernel_ne free).2)
  frames other held := sameFrame_withTable (held.ne_of_role (.inr (.inr ⟨p, incomplete, .inl isDirectory⟩)))
    (held.ne_of_role (.inl free))
  pcb _ _ := rfl
  info other used := update_of_ne (by rintro rfl; exact used free) ..
  disk := rfl
  scsi := rfl

theorem MapInv.quiet_withStack (inv : MapInv scope s count next queue role) (isTable : role table = .table p)
    (incomplete : count ≤ p) (free : role stack = .free) :
    Quiet count role s (s.withStack p directory table stack) where
  kernel kernel := kernel.congr rfl rfl rfl (sameFrame_tableMapPage _ _ _ (inv.kernel_ne isTable).1)
    (sameFrame_tableMapPage _ _ _ (inv.kernel_ne isTable).2)
  frames other held := sameFrame_tableMapPage _ _ _ (held.ne_of_role (.inr (.inr ⟨p, incomplete, .inr isTable⟩)))
  pcb _ ready := update_of_ne (by omega) ..
  info other used := update_of_ne (by rintro rfl; exact used free) ..
  disk := rfl
  scsi := rfl

/-! What the new directory and table hold -/

theorem withDirectory_word (kernelTable : s.userKernelPtable = framePaddr 2) (apart : directory ≠ 2)
    (bound : slot < 1024) :
    frameWord (s.withDirectory p directory).mem directory slot =
      if slot = 0 then dirEntry (BitVec.ofNat 32 (framePaddr 2)) (userMode ||| pePcd)
      else frameWord s.mem directory slot := by
  simp only [withDirectory, kernelTable]
  exact frameWord_identityMapKernel_directory _ apart bound

theorem withTable_directory_word (apart : directory ≠ table) (bound : slot < 1024) :
    frameWord (s.withTable p directory table).mem directory slot =
      if slot = 4 ∨ slot = 959 then dirEntry (BitVec.ofNat 32 (framePaddr table)) userMode
      else frameWord s.mem directory slot := by
  simp only [withTable]
  rw [frameWord_dirInsTable _ _ _ bound, (sameFrame_mapImagePages _ apart).word bound,
    frameWord_dirInsTable _ _ _ bound, getDirectoryIndex_processVaddr, getDirectoryIndex_processStackVaddr]
  by_cases image : slot = 4
  · simp [image]
  · by_cases stack : slot = 959
    all_goals simp [stack]

theorem withTable_table_rest (apart : directory ≠ table) (bound : slot < 1024)
    (outside : ¬Enters (pagesFrom 0 (imageBytes (s.pcb p)).toNat) slot) :
    frameWord (s.withTable p directory table).mem table slot = frameWord s.mem table slot := by
  simp only [withTable]
  rw [(sameFrame_dirInsTable _ _ _ apart.symm).word bound, frameWord_mapImagePages bound outside,
    (sameFrame_dirInsTable _ _ _ apart.symm).word bound]

theorem withTable_image_absent (apart : directory ≠ table) (bound : slot < 1024)
    (inside : Enters (pagesFrom 0 (imageBytes (s.pcb p)).toNat) slot) :
    hasFlag (frameWord (s.withTable p directory table).mem table slot) peP = false := by
  simp only [withTable]
  rw [(sameFrame_dirInsTable _ _ _ apart.symm).word bound, absent_mapImagePages bound inside]

theorem withStack_table_word (bound : slot < 1024) :
    frameWord (s.withStack p directory table stack).mem table slot =
      if slot = 1023 then tableEntry (BitVec.ofNat 32 (framePaddr stack)) userMode else frameWord s.mem table slot := by
  simp only [withStack]
  rw [frameWord_tableMapPage _ _ _ bound, getTableIndex_processStackVaddr]
  simp

end Parts

/-- The frames of a new directory and a new table come from the free list, where frames are cleared, or the scope
does not reach beyond the entries that are written. -/
def Clean (scope : Scope) (next : ℕ) (pcb : Pcb) (p : ℕ) : Prop :=
  next + 2 ≤ pageablePages ∨ (∀ slot, scope.directorySlot slot → slot = 4 ∨ slot = 959) ∧
    ∀ slot < 1024, scope.tableSlot p slot → Enters (pagesFrom 0 (imageBytes pcb).toNat) slot

theorem Allocated.word_zero (allocated : Allocated s next queue frame s' next' queue')
    (available : next < pageablePages) (bound : slot < 1024) :
    next' = next + 1 ∧ frameWord s'.mem frame slot = 0#32 := by
  cases allocated with
  | free _ => exact ⟨rfl, frameWord_takeFree bound⟩
  | evict _ _ => exact absurd available (lt_irrefl _)

section Phases

variable {s₁ : Kernel} {next₁ directory table stack : ℕ} {queue₁ : List ℕ}

section

variable (alloc : AllocInv s next queue)
include alloc

section

variable (map : MapInv scope s count next queue role)
include map

/-- A frame is allocated, and then the address space that it is for is extended. -/
theorem Evolves.phase {new : Role} (allocated : Allocated s next queue frame s₁ next₁ queue₁)
    (quiet : MapInv scope s₁ count next₁ queue₁ (update role frame .free) →
      Quiet count (update role frame .free) s₁ s') (alloc' : AllocInv s' next₁ queue₁) (incomplete : count ≤ p)
    (kind : new = .directory p ∨ new = .table p ∨ ∃ table, new = .page p table 1023 ∧
      (s'.pageFrameInfo frame).owner = some (.pcb p)) :
    Evolves count s next queue role s' next₁ queue₁ (update role frame new) := by
  obtain ⟨alloc₁, fresh⟩ := allocated.inv alloc
  have step := (Evolves.refl.alloc allocated).quiet (quiet (map.allocated alloc allocated)) alloc'
  have assigned := step.assign (update_self ..) fresh.inUse incomplete kind
  rwa [update_idem] at assigned

theorem Evolves.addDirectory (kernelTable : s.userKernelPtable = framePaddr 2) (incomplete : count ≤ p)
    (allocated : Allocated s next queue directory s₁ next₁ queue₁) :
    Evolves count s next queue role (s₁.withDirectory p directory) next₁ queue₁
      (update role directory (.directory p)) := by
  obtain ⟨alloc₁, fresh⟩ := allocated.inv alloc
  refine Evolves.phase alloc map allocated ?_ (alloc₁.withDirectory fresh p) incomplete (.inl rfl)
  intro map₁
  exact map₁.quiet_withDirectory (allocated.static.userKernelPtable.trans kernelTable) (update_self ..)

theorem Evolves.addTable (isDirectory : role directory = .directory p) (incomplete : count ≤ p)
    (allocated : Allocated s next queue table s₁ next₁ queue₁) :
    Evolves count s next queue role (s₁.withTable p directory table) next₁ queue₁ (update role table (.table p)) := by
  obtain ⟨alloc₁, fresh⟩ := allocated.inv alloc
  have apart : directory ≠ table := map.allocated_ne allocated (by simp [isDirectory]) (by simp [isDirectory])
  refine Evolves.phase alloc map allocated ?_ (alloc₁.withTable fresh p directory) incomplete (.inr (.inl rfl))
  intro map₁
  exact map₁.quiet_withTable (by rw [update_of_ne apart, isDirectory]) incomplete (update_self ..)

end

end

theorem Evolves.addStack (directory : ℕ) (alloc : AllocInv s next queue) (map : MapInv scope s count next queue role)
    (isTable : role table = .table p) (incomplete : count ≤ p)
    (allocated : Allocated s next queue stack s₁ next₁ queue₁) :
    Evolves count s next queue role (s₁.withStack p directory table stack) next₁ queue₁
      (update role stack (.page p table 1023)) := by
  obtain ⟨alloc₁, fresh⟩ := allocated.inv alloc
  have apart : table ≠ stack := map.allocated_ne allocated (by simp [isTable]) (by simp [isTable])
  refine Evolves.phase alloc map allocated ?_ (alloc₁.withStack fresh p directory table) incomplete
    (.inr (.inr ⟨table, rfl, ?_⟩))
  · intro map₁
    exact map₁.quiet_withStack (by rw [update_of_ne apart, isTable]) incomplete (update_self ..)
  · simp [withStack, occupy, setInfo]

end Phases

/-- An address space as a construction leaves it: the roles of its frames, and its entries in terms of what the
frames held before. -/
structure NewSpace (s : Kernel) (role : ℕ → Role) (p directory table stack : ℕ) (oldDirectory oldTable : Memory) :
    Prop where
  pointer : (s.pcb p).pageDirectory = framePaddr directory
  directory_role : role directory = .directory p
  table_role : role table = .table p
  stack_role : role stack = .page p table 1023
  table_bound : table < pageablePages
  stack_bound : stack < pageablePages
  directory_word : ∀ slot < 1024, frameWord s.mem directory slot =
    if slot = 4 ∨ slot = 959 then dirEntry (BitVec.ofNat 32 (framePaddr table)) userMode
    else if slot = 0 then dirEntry (BitVec.ofNat 32 (framePaddr 2)) (userMode ||| pePcd)
    else frameWord oldDirectory directory slot
  stack_word : frameWord s.mem table 1023 = tableEntry (BitVec.ofNat 32 (framePaddr stack)) userMode
  image_absent : ∀ slot < 1024, slot ≠ 1023 → Enters (pagesFrom 0 (imageBytes (s.pcb p)).toNat) slot →
    hasFlag (frameWord s.mem table slot) peP = false
  table_rest : ∀ slot < 1024, slot ≠ 1023 → ¬Enters (pagesFrom 0 (imageBytes (s.pcb p)).toNat) slot →
    frameWord s.mem table slot = frameWord oldTable table slot

/-- A new address space is built beside the complete ones. -/
theorem Constructed.space (constructed : Constructed s next queue p s' next' queue') (alloc : AllocInv s next queue)
    (map : MapInv scope s p next queue role) (kernelTable : s.userKernelPtable = framePaddr 2) :
    ∃ directory table stack next₁ next₂ queue₁ queue₂ s₁ s₂ role',
      Allocated s next queue directory s₁ next₁ queue₁ ∧
      Allocated (s₁.withDirectory p directory) next₁ queue₁ table s₂ next₂ queue₂ ∧
      Evolves p s next queue role s' next' queue' role' ∧
      NewSpace s' role' p directory table stack s₁.mem s₂.mem := by
  obtain @⟨directory, table, stack, next₁, next₂, next₃, queue₁, queue₂, queue₃, s₁, s₂, s₃, first, second, -, third⟩ :=
    constructed
  have evolves₁ := Evolves.addDirectory alloc map kernelTable le_rfl first
  obtain ⟨alloc₁, map₁⟩ := evolves₁.inv alloc map
  have role₁ : update role directory (.directory p) directory = .directory p := update_self ..
  have directory_table : directory ≠ table :=
    map₁.allocated_ne second (by simp)
      (by simp)
  have evolves₂ := Evolves.addTable alloc₁ map₁ role₁ le_rfl second
  obtain ⟨alloc₂, map₂⟩ := evolves₂.inv alloc₁ map₁
  generalize role₂_eq : update (update role directory (.directory p)) table (.table p) = role₂ at *
  have isDirectory : role₂ directory = .directory p := by
    rw [← role₂_eq, update_of_ne directory_table, role₁]
  have isTable : role₂ table = .table p := by rw [← role₂_eq, update_self]
  have directory_stack : directory ≠ stack := map₂.allocated_ne third (by simp [isDirectory]) (by simp [isDirectory])
  have table_stack : table ≠ stack := map₂.allocated_ne third (by simp [isTable]) (by simp [isTable])
  have evolves₃ := Evolves.addStack directory alloc₂ map₂ isTable le_rfl third
  obtain ⟨alloc₃, fresh₃⟩ := third.inv alloc₂
  have directory_two : 2 ≠ directory := map.allocated_ne first (by simp [map.kernel]) (by simp [map.kernel])
  have kernelTable₁ := first.static.userKernelPtable.trans kernelTable
  have same₂ := map₁.allocated_sameFrame second (by rw [role₁]; exact Role.noConfusion)
    (by rw [role₁]; exact fun _ _ => Role.noConfusion)
  have same₃ : SameFrame (s₂.withTable p directory table).mem s₃.mem directory :=
    map₂.allocated_sameFrame third (by simp [isDirectory]) (by simp [isDirectory])
  have sameTable : SameFrame (s₂.withTable p directory table).mem s₃.mem table :=
    map₂.allocated_sameFrame third (by simp [isTable]) (by simp only [isTable, ne_eq, Role.table.injEq]; omega)
  have last : SameFrame s₃.mem (s₃.withStack p directory table stack).mem directory :=
    sameFrame_tableMapPage _ _ _ directory_table
  have image : imageBytes ((s₃.withStack p directory table stack).pcb p) = imageBytes (s₂.pcb p) := by
    have samePcb : s₃.pcb = s₂.pcb := third.pcb
    simp [withStack, imageBytes, samePcb]
  have tableWord (slot : ℕ) (bound : slot < 1024) (other : slot ≠ 1023) :
      frameWord (s₃.withStack p directory table stack).mem table slot =
        frameWord (s₂.withTable p directory table).mem table slot := by
    rw [withStack_table_word bound, if_neg other, sameTable.word bound]
  refine ⟨directory, table, stack, next₁, next₂, queue₁, queue₂, s₁, s₂,
    update role₂ stack (.page p table 1023), first, second, (evolves₁.trans evolves₂).trans evolves₃, ?_⟩
  constructor
  · simp [withStack]
  · rw [update_of_ne directory_stack, isDirectory]
  · rw [update_of_ne table_stack, isTable]
  · exact update_self ..
  · exact (map₂.bound (by simp [isTable])).trans_le alloc₂.bound
  · exact fresh₃.bound alloc₃
  · intro slot bound
    rw [last.word bound, same₃.word bound, withTable_directory_word directory_table bound, same₂.word bound,
      withDirectory_word kernelTable₁ directory_two.symm bound]
  · rw [withStack_table_word (by decide), if_pos rfl]
  · intro slot bound other inside
    rw [image] at inside
    rw [tableWord slot bound other, withTable_image_absent directory_table bound inside]
  · intro slot bound other outside
    rw [image] at outside
    rw [tableWord slot bound other, withTable_table_rest directory_table bound outside]

theorem openEntry_table (paddr : BitVec 32) : OpenEntry (tableEntry paddr userMode) := by
  rw [OpenEntry, peUs, peRw, hasFlag_tableEntry _ _ (by decide), hasFlag_tableEntry _ _ (by decide)]
  decide

theorem openEntry_directory (taddr : BitVec 32) : OpenEntry (dirEntry taddr userMode) := by
  rw [OpenEntry, peUs, peRw, hasFlag_dirEntry _ _ (by decide), hasFlag_dirEntry _ _ (by decide)]
  decide

section NewSpace

variable {directory table stack : ℕ} {oldDirectory oldTable : Memory}
  (space : NewSpace s role p directory table stack oldDirectory oldTable)
  (clean : (∀ slot < 1024, frameWord oldDirectory directory slot = 0#32 ∧ frameWord oldTable table slot = 0#32) ∨
    (∀ slot, scope.directorySlot slot → slot = 4 ∨ slot = 959) ∧
      ∀ slot < 1024, scope.tableSlot p slot → Enters (pagesFrom 0 (imageBytes (s.pcb p)).toNat) slot)

include space clean

theorem NewSpace.stack_only (bound : slot < 1024) (described : scope.tableSlot p slot)
    (present : hasFlag (frameWord s.mem table slot) peP = true) : slot = 1023 := by
  by_contra other
  by_cases inside : Enters (pagesFrom 0 (imageBytes (s.pcb p)).toNat) slot
  · rw [space.image_absent slot bound other inside] at present
    cases present
  · rcases clean with cleared | ⟨-, slots⟩
    · rw [space.table_rest slot bound other inside, (cleared slot bound).2] at present
      cases present
    · exact inside (slots slot bound described)

theorem NewSpace.table_only (noKernel : ¬scope.directorySlot 0) (bound : slot < 1024)
    (described : scope.directorySlot slot) (present : hasFlag (frameWord s.mem directory slot) peP = true) :
    frameWord s.mem directory slot = dirEntry (BitVec.ofNat 32 (framePaddr table)) userMode := by
  rw [space.directory_word slot bound] at present ⊢
  split_ifs at present ⊢ with image kernel
  · rfl
  · exact absurd (kernel ▸ described) noKernel
  · rcases clean with cleared | ⟨directories, -⟩
    · rw [(cleared slot bound).1] at present
      cases present
    · exact absurd (directories slot described) image

theorem NewSpace.directoryOk (noKernel : ¬scope.directorySlot 0) : DirectoryOk scope s.mem role p directory := by
  refine ⟨space.directory_role, ?_, ?_, ?_, ?_⟩
  · rintro slot (rfl | rfl)
    · rw [space.directory_word 0 (by decide), if_neg (by decide), if_pos rfl, peP]
      decide
    · rw [space.directory_word 4 (by decide), if_pos (.inl rfl), peP, hasFlag_dirEntry _ _ (by decide)]
      decide
  · rw [space.directory_word 0 (by decide), if_pos rfl]
    exact entryBase_dirEntry_frame (by decide) _
  · intro slot bound described present
    rw [space.table_only clean noKernel bound described present]
    exact openEntry_directory _
  · intro slot bound described present
    refine ⟨table, ?_, space.table_role, ?_, ?_⟩
    · rw [space.table_only clean noKernel bound described present, entryBase_dirEntry_frame space.table_bound]
    · intro entry entryBound entryDescribed entryPresent
      rw [space.stack_only clean entryBound entryDescribed entryPresent, space.stack_word]
      exact openEntry_table _
    · intro entry entryBound entryDescribed entryPresent
      rw [space.stack_only clean entryBound entryDescribed entryPresent, space.stack_word]
      exact ⟨stack, entryBase_tableEntry_frame space.stack_bound _, space.stack_role⟩

end NewSpace

/-- A new address space can be added to the complete ones. -/
theorem Constructed.evolves (constructed : Constructed s next queue p s' next' queue') (alloc : AllocInv s next queue)
    (map : MapInv scope s p next queue role) (kernelTable : s.userKernelPtable = framePaddr 2)
    (noKernel : ¬scope.directorySlot 0) (clean : Clean scope next (s.pcb p) p) :
    ∃ role' directory, Evolves p s next queue role s' next' queue' role' ∧
      (s'.pcb p).pageDirectory = framePaddr directory ∧ DirectoryOk scope s'.mem role' p directory := by
  obtain ⟨⟨pageDirectory, pcb⟩, -⟩ := constructed.static
  obtain ⟨directory, table, stack, next₁, next₂, queue₁, queue₂, s₁, s₂, role', first, second, evolves, space⟩ :=
    constructed.space alloc map kernelTable
  refine ⟨role', directory, evolves, space.pointer, space.directoryOk ?_ noKernel⟩
  rcases clean with available | written
  · refine .inl fun slot bound => ?_
    obtain ⟨grown, directoryZero⟩ := first.word_zero (by omega) bound
    exact ⟨directoryZero, (second.word_zero (by omega) bound).2⟩
  · have image : imageBytes (s'.pcb p) = imageBytes (s.pcb p) := by simp [pcb, imageBytes]
    rw [image]
    exact .inr written

end MicroOs.Paging
