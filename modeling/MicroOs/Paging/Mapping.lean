import MicroOs.Paging.Tables

/-! # The frames behind an address space

A ghost assignment says what each frame is used for. The invariant follows the walk of an address: from the
directory of a process only tables of this process are reached, and from those only its pages, each from a
single slot. It also says where the mapping of each evictable frame is found.

A freed frame is not cleared when it is evicted, so a directory or a table may be built on what is left of a
page. The scope names the entries that are described; entries outside of it may hold anything.
-/

namespace MicroOs.Paging

open BitMask Memory Function Kernel

variable {other slot : ℕ} {queue' : List ℕ} {mem mem' : Memory}

/-- What a frame is used for. A page remembers the only slot that maps it. -/
inductive Role
  | free
  | kernel
  | directory (p : ℕ)
  | table (p : ℕ)
  | page (p table slot : ℕ)
deriving DecidableEq, Repr

/-- The directory slots, and the table slots of each process, that are described. -/
structure Scope where
  directorySlot : ℕ → Prop
  tableSlot : ℕ → ℕ → Prop

def OpenEntry (entry : BitVec 32) : Prop := hasFlag entry peUs = true ∧ hasFlag entry peRw = true

/-- The described entries of a table lead to pages of its process, which may use them. -/
structure TableOk (scope : Scope) (mem : Memory) (role : ℕ → Role) (p table : ℕ) : Prop where
  role_eq : role table = .table p
  opened : ∀ slot < 1024, scope.tableSlot p slot → hasFlag (frameWord mem table slot) peP = true →
    OpenEntry (frameWord mem table slot)
  pages : ∀ slot < 1024, scope.tableSlot p slot → hasFlag (frameWord mem table slot) peP = true →
    ∃ frame, entryBase (frameWord mem table slot) = framePaddr frame ∧ role frame = .page p table slot

/-- The described entries of a directory lead to tables of its process, the first one to the kernel's. This one and
that of the image are present. -/
structure DirectoryOk (scope : Scope) (mem : Memory) (role : ℕ → Role) (p directory : ℕ) : Prop where
  role_eq : role directory = .directory p
  present : ∀ slot, slot = 0 ∨ slot = 4 → hasFlag (frameWord mem directory slot) peP = true
  kernel_base : entryBase (frameWord mem directory 0) = framePaddr 2
  opened : ∀ slot < 1024, scope.directorySlot slot → hasFlag (frameWord mem directory slot) peP = true →
    OpenEntry (frameWord mem directory slot)
  tables : ∀ slot < 1024, scope.directorySlot slot → hasFlag (frameWord mem directory slot) peP = true →
    ∃ table, entryBase (frameWord mem directory slot) = framePaddr table ∧ TableOk scope mem role p table

/-- The page in a frame is mapped where the record of the frame says. -/
structure Resident (scope : Scope) (s : Kernel) (role : ℕ → Role) (frame p directory table : ℕ) : Prop where
  owner : (s.pageFrameInfo frame).owner = some (.pcb p)
  pointer : (s.pcb p).pageDirectory = framePaddr directory
  directory_role : role directory = .directory p
  directory_slot : scope.directorySlot (getDirectoryIndex (s.pageFrameInfo frame).vaddr)
  directory_present : hasFlag (frameWord s.mem directory (getDirectoryIndex (s.pageFrameInfo frame).vaddr)) peP = true
  directory_base :
    entryBase (frameWord s.mem directory (getDirectoryIndex (s.pageFrameInfo frame).vaddr)) = framePaddr table
  table_role : role table = .table p
  table_slot : scope.tableSlot p (getTableIndex (s.pageFrameInfo frame).vaddr)
  table_present : hasFlag (frameWord s.mem table (getTableIndex (s.pageFrameInfo frame).vaddr)) peP = true
  table_base : entryBase (frameWord s.mem table (getTableIndex (s.pageFrameInfo frame).vaddr)) = framePaddr frame
  page_role : role frame = .page p table (getTableIndex (s.pageFrameInfo frame).vaddr)

/-- The address spaces of the first `count` entries of the `pcb` table are complete. -/
structure MapInv (scope : Scope) (s : Kernel) (count next : ℕ) (queue : List ℕ) (role : ℕ → Role) : Prop where
  unused : ∀ frame, next ≤ frame → role frame = .free
  kernel : role 0 = .kernel ∧ role 1 = .kernel ∧ role 2 = .kernel
  spaces : ∀ p < count, (s.pcb p).isThread = false →
    ∃ directory, (s.pcb p).pageDirectory = framePaddr directory ∧ DirectoryOk scope s.mem role p directory
  owner : ∀ frame p table slot, role frame = .page p table slot → (s.pageFrameInfo frame).owner = some (.pcb p)
  queued : ∀ frame ∈ queue, ∃ p directory table, p < count ∧ (s.pcb p).isThread = false ∧
    Resident scope s role frame p directory table

/-- The right entry leads where the left one does, and is as open. -/
structure SameEntry (left right : BitVec 32) : Prop where
  base : entryBase right = entryBase left
  present : hasFlag right peP = hasFlag left peP
  opened : OpenEntry left → OpenEntry right

theorem SameEntry.refl (entry : BitVec 32) : SameEntry entry entry := ⟨rfl, rfl, id⟩

variable {scope : Scope} {s s' : Kernel} {count next next' frame p : ℕ} {queue : List ℕ} {role : ℕ → Role}

theorem MapInv.bound (inv : MapInv scope s count next queue role) (used : role frame ≠ .free) : frame < next := by
  by_contra large
  exact used (inv.unused frame (not_lt.mp large))

/-- The frames that hold the tables of complete address spaces. -/
def Structural (count : ℕ) (role : ℕ → Role) (frame : ℕ) : Prop :=
  ∃ p < count, role frame = .directory p ∨ role frame = .table p

variable {role' : ℕ → Role}

theorem TableOk.transfer {table : ℕ} (ok : TableOk scope mem role p table)
    (kept : role' table = .table p) (same : ∀ slot < 1024, hasFlag (frameWord mem' table slot) peP = true →
      SameEntry (frameWord mem table slot) (frameWord mem' table slot) ∧
        ∀ frame, role frame = .page p table slot → role' frame = .page p table slot) :
    TableOk scope mem' role' p table := by
  refine ⟨kept, ?_, ?_⟩
  · intro slot bound described present
    obtain ⟨entry, -⟩ := same slot bound present
    exact entry.opened (ok.opened slot bound described (entry.present ▸ present))
  · intro slot bound described present
    obtain ⟨entry, pages⟩ := same slot bound present
    obtain ⟨frame, base, page⟩ := ok.pages slot bound described (entry.present ▸ present)
    exact ⟨frame, entry.base.trans base, pages frame page⟩

theorem DirectoryOk.transfer {directory : ℕ} (ok : DirectoryOk scope mem role p directory)
    (kept : role' directory = .directory p)
    (same : ∀ slot < 1024, SameEntry (frameWord mem directory slot) (frameWord mem' directory slot))
    (tables : ∀ table, TableOk scope mem role p table → TableOk scope mem' role' p table) :
    DirectoryOk scope mem' role' p directory := by
  refine ⟨kept, ?_, (same 0 (by decide)).base.trans ok.kernel_base, ?_, ?_⟩
  · intro slot fixed
    exact (same slot (by omega)).present.trans (ok.present slot fixed)
  · intro slot bound described present
    have entry := same slot bound
    exact entry.opened (ok.opened slot bound described (entry.present ▸ present))
  · intro slot bound described present
    have entry := same slot bound
    obtain ⟨table, base, table_ok⟩ := ok.tables slot bound described (entry.present ▸ present)
    exact ⟨table, entry.base.trans base, tables table table_ok⟩

theorem Resident.transfer {directory table : ℕ} (old : Resident scope s role frame p directory table)
    (info : s'.pageFrameInfo frame = s.pageFrameInfo frame) (samePcb : s'.pcb p = s.pcb p)
    (directoryRole : role' directory = role directory) (tableRole : role' table = role table)
    (pageRole : role' frame = role frame)
    (directoryEntry : SameEntry (frameWord s.mem directory (getDirectoryIndex (s.pageFrameInfo frame).vaddr))
      (frameWord s'.mem directory (getDirectoryIndex (s.pageFrameInfo frame).vaddr)))
    (tableEntry : SameEntry (frameWord s.mem table (getTableIndex (s.pageFrameInfo frame).vaddr))
      (frameWord s'.mem table (getTableIndex (s.pageFrameInfo frame).vaddr))) :
    Resident scope s' role' frame p directory table where
  owner := by rw [info, old.owner]
  pointer := by rw [samePcb, old.pointer]
  directory_role := directoryRole.trans old.directory_role
  directory_slot := info ▸ old.directory_slot
  directory_present := by rw [info, directoryEntry.present, old.directory_present]
  directory_base := by rw [info, directoryEntry.base, old.directory_base]
  table_role := tableRole.trans old.table_role
  table_slot := info ▸ old.table_slot
  table_present := by rw [info, tableEntry.present, old.table_present]
  table_base := by rw [info, tableEntry.base, old.table_base]
  page_role := by rw [info, pageRole, old.page_role]

/-- The invariant depends on the tables of complete address spaces and on the records of frames in use. -/
theorem MapInv.congr (inv : MapInv scope s count next queue role) (grown : next ≤ next')
    (words : ∀ frame, Structural count role frame → ∀ slot < 1024,
      SameEntry (frameWord s.mem frame slot) (frameWord s'.mem frame slot)) (samePcb : ∀ p < count, s'.pcb p = s.pcb p)
    (sameInfo : ∀ frame, role frame ≠ .free → s'.pageFrameInfo frame = s.pageFrameInfo frame) :
    MapInv scope s' count next' queue role where
  unused frame large := inv.unused frame (grown.trans large)
  kernel := inv.kernel
  spaces p ready process := by
    rw [samePcb p ready] at process ⊢
    obtain ⟨directory, pointer, ok⟩ := inv.spaces p ready process
    refine ⟨directory, pointer, ok.transfer ok.role_eq (words directory ⟨p, ready, .inl ok.role_eq⟩) ?_⟩
    intro table table_ok
    have same := words table ⟨p, ready, .inr table_ok.role_eq⟩
    exact table_ok.transfer table_ok.role_eq fun slot bound _ => ⟨same slot bound, fun _ => id⟩
  owner frame p table slot page := by
    rw [sameInfo frame (by simp [page])]
    exact inv.owner frame p table slot page
  queued frame member := by
    obtain ⟨p, directory, table, ready, process, resident⟩ := inv.queued frame member
    have info := sameInfo frame (by simp [resident.page_role])
    refine ⟨p, directory, table, ready, by rwa [samePcb p ready], ?_⟩
    exact resident.transfer info (samePcb p ready) rfl rfl rfl
      (words directory ⟨p, ready, .inl resident.directory_role⟩ _ (getDirectoryIndex_lt _))
      (words table ⟨p, ready, .inr resident.table_role⟩ _ (getTableIndex_lt _))

def Held (count : ℕ) (role : ℕ → Role) (frame : ℕ) : Prop :=
  ∃ p < count, role frame = .directory p ∨ role frame = .table p ∨ ∃ table slot, role frame = .page p table slot

theorem Structural.held (structural : Structural count role frame) : Held count role frame := by
  obtain ⟨p, ready, used⟩ := structural
  exact ⟨p, ready, used.imp_right .inl⟩

theorem Held.ne_free (held : Held count role frame) : role frame ≠ .free := by
  obtain ⟨p, -, used | used | ⟨table, slot, used⟩⟩ := held
  all_goals simp [used]

theorem Held.ne_of_role (held : Held count role other) (apart : role frame = .free ∨ role frame = .kernel ∨
    ∃ p, count ≤ p ∧ (role frame = .directory p ∨ role frame = .table p)) : other ≠ frame := by
  rintro rfl
  obtain ⟨p, ready, used⟩ := held
  rcases apart with free | kernel | ⟨q, incomplete, table⟩
  · simp [free] at used
  · simp [kernel] at used
  · rcases table with table | table <;>
      simp only [table, reduceCtorEq, Role.directory.injEq, Role.table.injEq, exists_false, or_false, false_or]
        at used <;>
      omega

/-- The kernel's own directory is closed to user mode and has one table. The table that all processes share maps the
first four megabytes to themselves, open to user mode in the video page only. -/
structure KernelMap (s : Kernel) : Prop where
  kernelPdir : s.kernelPdir = framePaddr 0
  userKernelPtable : s.userKernelPtable = framePaddr 2
  closed : ∀ slot < 1024, hasFlag (frameWord s.mem 0 slot) peUs = false
  single : ∀ slot < 1024, hasFlag (frameWord s.mem 0 slot) peP = true →
    entryBase (frameWord s.mem 0 slot) = framePaddr 1
  identity : s.firstProcess = false → ∀ slot < 1024, hasFlag (frameWord s.mem 2 slot) peP = true ∧
    entryBase (frameWord s.mem 2 slot) = 4096 * slot ∧ (hasFlag (frameWord s.mem 2 slot) peUs = true → slot = 0xb8)

theorem KernelMap.congr (kernel : KernelMap s) (kernelPdir : s'.kernelPdir = s.kernelPdir)
    (userKernelPtable : s'.userKernelPtable = s.userKernelPtable) (firstProcess : s'.firstProcess = s.firstProcess)
    (zero : SameFrame s.mem s'.mem 0) (two : SameFrame s.mem s'.mem 2) : KernelMap s' where
  kernelPdir := kernelPdir.trans kernel.kernelPdir
  userKernelPtable := userKernelPtable.trans kernel.userKernelPtable
  closed slot bound := by rw [zero.word bound, kernel.closed slot bound]
  single slot bound present := by
    rw [zero.word bound] at present ⊢
    exact kernel.single slot bound present
  identity started slot bound := by
    rw [two.word bound]
    exact kernel.identity (firstProcess.symm.trans started) slot bound

/-- A change that does not concern the complete address spaces. -/
structure Quiet (count : ℕ) (role : ℕ → Role) (s s' : Kernel) : Prop where
  kernel : KernelMap s → KernelMap s'
  frames : ∀ frame, Held count role frame → SameFrame s.mem s'.mem frame
  pcb : ∀ p < count, s'.pcb p = s.pcb p
  info : ∀ frame, role frame ≠ .free → s'.pageFrameInfo frame = s.pageFrameInfo frame
  disk : s'.disk = s.disk
  scsi : s'.scsi = s.scsi

theorem MapInv.quiet (inv : MapInv scope s count next queue role) (grown : next ≤ next')
    (quiet : Quiet count role s s') : MapInv scope s' count next' queue role := by
  refine inv.congr grown ?_ quiet.pcb quiet.info
  intro frame structural slot bound
  rw [(quiet.frames frame structural.held).word bound]
  exact .refl _

theorem Resident.pteAddr_eq {directory table : ℕ} (resident : Resident scope s role frame p directory table) :
    pteAddr s.mem (s.pcb p).pageDirectory (s.pageFrameInfo frame).vaddr =
      framePaddr table + 4 * getTableIndex (s.pageFrameInfo frame).vaddr := by
  rw [pteAddr, resident.pointer, pde_frame, resident.directory_base]

/-- Eviction stores one entry, which is not present. -/
theorem Resident.evictFrame_word {directory table : ℕ}
    (resident : Resident scope s role frame p directory table) (other : ℕ) (bound : slot < 1024) :
    frameWord (s.evictFrame frame p).mem other slot =
      if other = table ∧ slot = getTableIndex (s.pageFrameInfo frame).vaddr then
        tableEntry (pte s.mem (s.pcb p).pageDirectory (s.pageFrameInfo frame).vaddr) 0#32
      else frameWord s.mem other slot := by
  rw [evictFrame_mem, resident.pteAddr_eq, frameWord_writeWord _ _ (getTableIndex_lt _) bound]

theorem sameFrame_evictFrame {directory table : ℕ}
    (resident : Resident scope s role frame p directory table) (different : other ≠ table) :
    SameFrame s.mem (s.evictFrame frame p).mem other := by
  rw [evictFrame_mem, resident.pteAddr_eq]
  exact SameFrame.writeWord _ _ different (getTableIndex_lt _)

theorem not_present_tableEntry_zero (paddr : BitVec 32) : hasFlag (tableEntry paddr 0#32) peP = false := by
  rw [peP, hasFlag_tableEntry _ _ (by decide)]
  decide

variable {old new : Role}

theorem ne_of_role (was : role frame = old) (is : role other = new) (different : new ≠ old) : other ≠ frame := by
  rintro rfl
  exact different (is.symm.trans was)

theorem update_role_ne (was : role frame = old) (is : role other = new)
    (different : new ≠ old) (value : Role) : update role frame value other = new := by
  rw [update_of_ne (ne_of_role was is different), is]

theorem TableOk.assign {table : ℕ} (ok : TableOk scope mem role p table) (free : role frame = .free)
    (words : ∀ slot < 1024, frameWord mem' table slot = frameWord mem table slot) (new : Role) :
    TableOk scope mem' (update role frame new) p table := by
  refine ok.transfer (update_role_ne free ok.role_eq nofun _) fun slot bound _ => ⟨?_, ?_⟩
  · rw [words slot bound]
    exact .refl _
  · intro target page
    exact update_role_ne free page nofun _

theorem TableOk.of_absent {table : ℕ} (isTable : role table = .table p)
    (absent : ∀ slot < 1024, scope.tableSlot p slot → hasFlag (frameWord mem table slot) peP = false) :
    TableOk scope mem role p table := by
  refine ⟨isTable, ?_, ?_⟩
  all_goals
    intro slot bound described present
    cases (absent slot bound described).symm.trans present

section Evicting

variable {directory table : ℕ} (resident : Resident scope s role frame p directory table)

include resident

theorem Resident.evictFrame_directory {q directory' : ℕ} (isDirectory : role directory' = .directory q)
    (bound : slot < 1024) : frameWord (s.evictFrame frame p).mem directory' slot = frameWord s.mem directory' slot := by
  rw [resident.evictFrame_word _ bound, if_neg]
  exact fun here => ne_of_role resident.table_role isDirectory Role.noConfusion here.1

theorem Resident.evictFrame_present {table' : ℕ} (bound : slot < 1024)
    (present : hasFlag (frameWord (s.evictFrame frame p).mem table' slot) peP = true) :
    ¬(table' = table ∧ slot = getTableIndex (s.pageFrameInfo frame).vaddr) ∧
      frameWord (s.evictFrame frame p).mem table' slot = frameWord s.mem table' slot := by
  rw [resident.evictFrame_word _ bound] at present ⊢
  split_ifs at present ⊢ with changed
  · rw [not_present_tableEntry_zero] at present
    cases present
  · exact ⟨changed, rfl⟩

theorem Resident.evictFrame_tableOk {q table' : ℕ} (ok : TableOk scope s.mem role q table') :
    TableOk scope (s.evictFrame frame p).mem (update role frame .free) q table' := by
  have victim := resident.page_role
  refine ok.transfer (update_role_ne victim ok.role_eq nofun _) fun slot bound present => ?_
  obtain ⟨changed, word⟩ := resident.evictFrame_present bound present
  rw [word]
  refine ⟨.refl _, fun target page => update_role_ne victim page ?_ _⟩
  intro same
  obtain ⟨-, sameTable, sameSlot⟩ := Role.page.inj same
  exact changed ⟨sameTable, sameSlot⟩

end Evicting

theorem MapInv.reassign (inv : MapInv scope s count next queue role) (was : role frame = old)
    (notKernel : .kernel ≠ old) (inUse : new ≠ .free → frame < next) (samePcb : s'.pcb = s.pcb)
    (info : ∀ other ≠ frame, s'.pageFrameInfo other = s.pageFrameInfo other)
    (owner : ∀ p table slot, new = .page p table slot → (s'.pageFrameInfo frame).owner = some (.pcb p))
    (spaces : ∀ q directory, DirectoryOk scope s.mem role q directory →
      DirectoryOk scope s'.mem (update role frame new) q directory)
    (queued : ∀ other ∈ queue', ∃ q directory table, q < count ∧ (s.pcb q).isThread = false ∧
      Resident scope s' (update role frame new) other q directory table) :
    MapInv scope s' count next queue' (update role frame new) where
  unused other large := by
    by_cases same : other = frame
    · rw [same, update_self]
      by_contra used
      exact (inUse used).not_ge (same ▸ large)
    · rw [update_of_ne same]
      exact inv.unused other large
  kernel := by
    obtain ⟨zero, one, two⟩ := inv.kernel
    exact ⟨update_role_ne was zero notKernel _, update_role_ne was one notKernel _, update_role_ne was two notKernel _⟩
  spaces q ready process := by
    rw [samePcb] at process ⊢
    obtain ⟨directory, pointer, ok⟩ := inv.spaces q ready process
    exact ⟨directory, pointer, spaces q directory ok⟩
  owner other q table slot page := by
    by_cases same : other = frame
    · rw [same, update_self] at page
      rw [same]
      exact owner q table slot page
    · rw [update_of_ne same] at page
      rw [info other same]
      exact inv.owner other q table slot page
  queued := by
    rw [samePcb]
    exact queued

theorem MapInv.evictFrame {directory table : ℕ} {rest : List ℕ}
    (inv : MapInv scope s count next (frame :: rest) role) (nodup : (frame :: rest).Nodup)
    (resident : Resident scope s role frame p directory table) :
    MapInv scope (s.evictFrame frame p) count next rest (update role frame .free) := by
  have victim := resident.page_role
  have info (other : ℕ) (same : other ≠ frame) :
      (s.evictFrame frame p).pageFrameInfo other = s.pageFrameInfo other := by
    rw [evictFrame_pageFrameInfo, update_of_ne same]
  have sameEntry {q directory' : ℕ} (isDirectory : role directory' = .directory q) (slot : ℕ) (bound : slot < 1024) :
      SameEntry (frameWord s.mem directory' slot) (frameWord (s.evictFrame frame p).mem directory' slot) := by
    rw [resident.evictFrame_directory isDirectory bound]
    exact .refl _
  refine inv.reassign victim Role.noConfusion (absurd rfl) (evictFrame_pcb ..) info
    (nofun) ?_ ?_
  · intro q directory' ok
    exact ok.transfer (update_role_ne victim ok.role_eq nofun _) (sameEntry ok.role_eq)
      fun _ => resident.evictFrame_tableOk
  · intro other member
    have same : other ≠ frame := by
      rintro rfl
      exact (List.nodup_cons.mp nodup).1 member
    obtain ⟨q, directory', table', ready, process, old⟩ := inv.queued other (by simp [member])
    refine ⟨q, directory', table', ready, process, old.transfer (info other same) (by rw [evictFrame_pcb])
      (update_of_ne (ne_of_role victim old.directory_role nofun) ..)
      (update_of_ne (ne_of_role victim old.table_role nofun) ..) (update_of_ne same ..)
      (sameEntry old.directory_role _ (getDirectoryIndex_lt _)) ?_⟩
    rw [resident.evictFrame_word _ (getTableIndex_lt _), if_neg]
    · exact .refl _
    · rintro ⟨rfl, sameSlot⟩
      have base := old.table_base
      rw [sameSlot, resident.table_base] at base
      exact same (framePaddr_injective base.symm)

theorem MapInv.kernel_ne (inv : MapInv scope s count next queue role) (has : role frame = old)
    (other : old ≠ .kernel := by exact Role.noConfusion) : 0 ≠ frame ∧ 2 ≠ frame := by
  obtain ⟨zero, -, two⟩ := inv.kernel
  constructor
  · rintro rfl
    exact other (has.symm.trans zero)
  · rintro rfl
    exact other (has.symm.trans two)

theorem sameFrame_takeFree (apart : other < frame ∨ frame + 4 ≤ other) : SameFrame s.mem (s.takeFree frame).mem other :=
  SameFrame.blit s.mem (fun _ => 0#8) apart

theorem frameWord_takeFree (bound : slot < 1024) : frameWord (s.takeFree frame).mem frame slot = 0#32 := by
  apply readWord_blit_zero
  · omega
  · rw [pageSize]
    omega

section

variable (inv : MapInv scope s count next queue role)
include inv

theorem MapInv.kernel_lt : 0 < next ∧ 2 < next :=
  ⟨inv.bound (by simp [inv.kernel]), inv.bound (by simp [inv.kernel])⟩

theorem MapInv.quiet_takeFree : Quiet count role s (s.takeFree next) where
  kernel kernel := kernel.congr rfl rfl rfl (sameFrame_takeFree (.inl inv.kernel_lt.1))
    (sameFrame_takeFree (.inl inv.kernel_lt.2))
  frames _ held := sameFrame_takeFree (.inl (inv.bound held.ne_free))
  pcb _ _ := rfl
  info _ used := update_of_ne (inv.bound used).ne ..
  disk := rfl
  scsi := rfl

/-- The role a frame had is forgotten when it is allocated. -/
theorem MapInv.allocated (alloc : AllocInv s next queue) (allocated : Allocated s next queue frame s' next' queue') :
    MapInv scope s' count next' queue' (update role frame .free) := by
  cases allocated with
  | free available =>
    rw [update_eq_self_iff.mpr (inv.unused _ le_rfl).symm]
    exact inv.quiet (Nat.le_succ _) inv.quiet_takeFree
  | @evict _ p _ owner unmapped =>
    obtain ⟨q, directory, table, -, -, resident⟩ := inv.queued frame (by simp)
    obtain rfl : q = p := by simpa using resident.owner.symm.trans owner
    exact inv.evictFrame alloc.nodup resident

section

variable (allocated : Allocated s next queue frame s' next' queue')
include allocated

/-- A frame in use keeps its contents during an allocation, unless it is a table in a complete address space. -/
theorem MapInv.allocated_sameFrame (used : role other ≠ .free)
    (notTable : ∀ p < count, role other ≠ .table p) : SameFrame s.mem s'.mem other := by
  cases allocated with
  | free available => exact sameFrame_takeFree (.inl (inv.bound used))
  | @evict _ p _ owner unmapped =>
    obtain ⟨q, directory, table, ready, -, resident⟩ := inv.queued frame (by simp)
    obtain rfl : q = p := by simpa using resident.owner.symm.trans owner
    apply sameFrame_evictFrame resident
    rintro rfl
    exact notTable _ ready resident.table_role

theorem MapInv.kernel_allocated (kernel : KernelMap s) : KernelMap s' :=
  kernel.congr allocated.static.kernelPdir allocated.static.userKernelPtable allocated.static.firstProcess
    (inv.allocated_sameFrame allocated (by simp [inv.kernel]) (by simp [inv.kernel]))
    (inv.allocated_sameFrame allocated (by simp [inv.kernel]) (by simp [inv.kernel]))

theorem MapInv.allocated_ne (used : role other ≠ .free)
    (notPage : ∀ p table slot, role other ≠ .page p table slot) : other ≠ frame := by
  cases allocated with
  | free available => exact (inv.bound used).ne
  | evict owner unmapped =>
    obtain ⟨_, _, _, -, -, resident⟩ := inv.queued frame (by simp)
    rintro rfl
    exact notPage _ _ _ resident.page_role

end

end

theorem sameFrame_readInto (good : s.scsi s.scsiCount = .good) (different : other ≠ frame)
    (vaddr : BitVec 32) : SameFrame s.mem (s.readInto p frame vaddr).mem other := by
  rw [readInto_eq good]
  exact SameFrame.blit_one s.mem _ different

section

variable (inv : MapInv scope s count next queue role)
include inv

theorem MapInv.quiet_readInto (good : s.scsi s.scsiCount = .good)
    (free : role frame = .free) (vaddr : BitVec 32) : Quiet count role s (s.readInto p frame vaddr) where
  kernel kernel := by
    obtain ⟨zero, two⟩ := inv.kernel_ne free
    have static : (s.readInto p frame vaddr).kernelPdir = s.kernelPdir ∧
        (s.readInto p frame vaddr).userKernelPtable = s.userKernelPtable ∧
        (s.readInto p frame vaddr).firstProcess = s.firstProcess := by
      rw [readInto_eq good]
      exact ⟨rfl, rfl, rfl⟩
    exact kernel.congr static.1 static.2.1 static.2.2 (sameFrame_readInto good zero vaddr)
      (sameFrame_readInto good two vaddr)
  frames other held := sameFrame_readInto good (held.ne_of_role (.inl free)) vaddr
  pcb _ _ := by rw [readInto_pcb]
  info _ _ := by rw [readInto_eq good]
  disk := by rw [readInto_eq good]
  scsi := by rw [readInto_eq good]

/-- A frame without a role gets one in an address space that is not complete. -/
theorem MapInv.assign (free : role frame = .free) (inUse : frame < next)
    (owner : ∀ p table slot, new = .page p table slot → (s.pageFrameInfo frame).owner = some (.pcb p)) :
    MapInv scope s count next queue (update role frame new) := by
  have kept {other : ℕ} {old : Role} (is : role other = old) (used : old ≠ .free) :
      update role frame new other = old := update_role_ne free is used new
  refine inv.reassign free nofun (fun _ => inUse) rfl (fun _ _ => rfl) owner ?_ ?_
  · intro q directory ok
    exact ok.transfer (kept ok.role_eq nofun) (fun _ _ => .refl _)
      fun _ table_ok => table_ok.assign free (fun _ _ => rfl) new
  · intro other member
    obtain ⟨p, directory, table, ready, process, old⟩ := inv.queued other member
    exact ⟨p, directory, table, ready, process, { old with
      directory_role := kept old.directory_role nofun
      table_role := kept old.table_role nofun
      page_role := kept old.page_role Role.noConfusion }⟩

/-- One more address space is complete. -/
theorem MapInv.complete (last : (s.pcb count).isThread = false →
      ∃ directory, (s.pcb count).pageDirectory = framePaddr directory ∧ DirectoryOk scope s.mem role count directory) :
    MapInv scope s (count + 1) next queue role where
  unused := inv.unused
  kernel := inv.kernel
  spaces p ready process := by
    rcases Nat.lt_succ_iff_lt_or_eq.mp ready with earlier | rfl
    · exact inv.spaces p earlier process
    · exact last process
  owner := inv.owner
  queued frame member := by
    obtain ⟨p, directory, table, ready, rest⟩ := inv.queued frame member
    exact ⟨p, directory, table, Nat.lt_succ_of_lt ready, rest⟩

end

end MicroOs.Paging
