import MicroOs.Paging.Construction

/-! # Loading a page

`load_page_from_disk` fills a frame, finds or adds the page table of the address and enters the frame. The address
was not present when the fault occurred, and allocating frames cannot have made it present, so no other page is
hidden by the new entry.
-/

namespace MicroOs.Paging

open BitMask Memory Function Kernel

variable {scope : Scope} {s s' : Kernel} {count next next' p frame directory table : ℕ} {queue queue' : List ℕ}
  {role : ℕ → Role} {vaddr : BitVec 32} {other slot : ℕ}

/-- Allocating a frame does not make an entry present. -/
theorem MapInv.allocated_absent (inv : MapInv scope s count next queue role)
    (allocated : Allocated s next queue frame s' next' queue') (used : role table ≠ .free) (bound : slot < 1024)
    (absent : hasFlag (frameWord s.mem table slot) peP = false) :
    hasFlag (frameWord s'.mem table slot) peP = false := by
  cases allocated with
  | free available => rwa [(sameFrame_takeFree (.inl (inv.bound used))).word bound]
  | @evict _ q _ owner unmapped =>
    obtain ⟨q', _, _, -, -, resident⟩ := inv.queued frame (by simp)
    obtain rfl : q' = q := by simpa using resident.owner.symm.trans owner
    rw [resident.evictFrame_word _ bound]
    split_ifs
    · exact not_present_tableEntry_zero _
    · exact absent

theorem present_userMode_table (paddr : BitVec 32) : hasFlag (tableEntry paddr userMode) peP = true := by
  rw [peP, hasFlag_tableEntry _ _ (by decide)]
  decide

theorem present_userMode_directory (taddr : BitVec 32) : hasFlag (dirEntry taddr userMode) peP = true := by
  rw [peP, hasFlag_dirEntry _ _ (by decide)]
  decide

/-- The slot that an address is entered in. -/
structure Vacant (scope : Scope) (s : Kernel) (role : ℕ → Role) (p directory table : ℕ) (vaddr : BitVec 32) : Prop where
  pointer : (s.pcb p).pageDirectory = framePaddr directory
  directory_role : role directory = .directory p
  directory_slot : scope.directorySlot (getDirectoryIndex vaddr)
  directory_present : hasFlag (frameWord s.mem directory (getDirectoryIndex vaddr)) peP = true
  directory_base : entryBase (frameWord s.mem directory (getDirectoryIndex vaddr)) = framePaddr table
  table_role : role table = .table p
  table_slot : scope.tableSlot p (getTableIndex vaddr)
  absent : hasFlag (frameWord s.mem table (getTableIndex vaddr)) peP = false

section Entering

variable (vacant : Vacant scope s role p directory table vaddr)

include vacant

theorem Vacant.apart : directory ≠ table := ne_of_role vacant.table_role vacant.directory_role Role.noConfusion

theorem Vacant.word (bound : slot < 1024) :
    frameWord (s.withPage p frame (framePaddr table) vaddr).mem other slot =
      if other = directory ∧ slot = getDirectoryIndex vaddr then dirEntry (BitVec.ofNat 32 (framePaddr table)) userMode
      else if other = table ∧ slot = getTableIndex vaddr then tableEntry (BitVec.ofNat 32 (framePaddr frame)) userMode
      else frameWord s.mem other slot := by
  simp only [withPage, vacant.pointer]
  rw [frameWord_dirInsTable _ _ _ bound, frameWord_tableMapPage _ _ _ bound]

theorem Vacant.sameFrame (directoryApart : other ≠ directory) (tableApart : other ≠ table) :
    SameFrame s.mem (s.withPage p frame (framePaddr table) vaddr).mem other := by
  simp only [withPage, vacant.pointer]
  exact (sameFrame_tableMapPage _ _ _ tableApart).trans (sameFrame_dirInsTable _ _ _ directoryApart)

theorem Vacant.directory_entry {q : ℕ} (frame : ℕ) (tableBound : table < pageablePages)
    (isDirectory : role other = .directory q) (bound : slot < 1024) :
    SameEntry (frameWord s.mem other slot)
      (frameWord (s.withPage p frame (framePaddr table) vaddr).mem other slot) := by
  have apart : other ≠ table := ne_of_role vacant.table_role isDirectory nofun
  rw [vacant.word bound]
  split_ifs with written entered
  · obtain ⟨rfl, rfl⟩ := written
    exact ⟨by rw [entryBase_dirEntry_frame tableBound, vacant.directory_base],
      by rw [present_userMode_directory, vacant.directory_present], fun _ => openEntry_directory _⟩
  · exact absurd entered.1 apart
  · exact .refl _

theorem Vacant.table_ok {q : ℕ} (frameBound : frame < pageablePages) (free : role frame = .free)
    (ok : TableOk scope s.mem role q other) :
    TableOk scope (s.withPage p frame (framePaddr table) vaddr).mem
      (update role frame (.page p table (getTableIndex vaddr))) q other := by
  have isTable := ok.role_eq
  have notDirectory : other ≠ directory := ne_of_role vacant.directory_role isTable nofun
  refine ⟨update_role_ne free isTable nofun _, ?_, ?_⟩
  all_goals
    intro slot bound described present
    rw [vacant.word bound, if_neg fun here => notDirectory here.1] at present ⊢
    split_ifs at present ⊢ with entered
  · exact openEntry_table _
  · exact ok.opened slot bound described present
  · obtain ⟨rfl, rfl⟩ := entered
    obtain rfl : q = p := by simpa using isTable.symm.trans vacant.table_role
    exact ⟨frame, entryBase_tableEntry_frame frameBound _, update_self ..⟩
  · obtain ⟨target, base, page⟩ := ok.pages slot bound described present
    exact ⟨target, base, update_role_ne free page nofun _⟩

end Entering

theorem withPage_info (different : other ≠ frame) :
    (s.withPage p frame table vaddr).pageFrameInfo other = s.pageFrameInfo other := update_of_ne different ..

theorem withPage_owner : ((s.withPage p frame table vaddr).pageFrameInfo frame).owner = some (.pcb p) := by
  simp [withPage, occupy, setInfo]

theorem withPage_vaddr : ((s.withPage p frame table vaddr).pageFrameInfo frame).vaddr = pageBase vaddr := by
  simp [withPage, occupy, setInfo]

theorem Vacant.resident {role' : ℕ → Role} (vacant : Vacant scope s role p directory table vaddr)
    (frameBound : frame < pageablePages) (tableBound : table < pageablePages)
    (directoryRole : role' directory = .directory p) (tableRole : role' table = .table p)
    (pageRole : role' frame = .page p table (getTableIndex vaddr)) :
    Resident scope (s.withPage p frame (framePaddr table) vaddr) role' frame p directory table := by
  have directoryWord : frameWord (s.withPage p frame (framePaddr table) vaddr).mem directory (getDirectoryIndex vaddr) =
      dirEntry (BitVec.ofNat 32 (framePaddr table)) userMode := by
    rw [vacant.word (getDirectoryIndex_lt _), if_pos ⟨rfl, rfl⟩]
  have tableWord : frameWord (s.withPage p frame (framePaddr table) vaddr).mem table (getTableIndex vaddr) =
      tableEntry (BitVec.ofNat 32 (framePaddr frame)) userMode := by
    rw [vacant.word (getTableIndex_lt _), if_neg fun here => vacant.apart here.1.symm, if_pos ⟨rfl, rfl⟩]
  constructor
  all_goals try rw [withPage_vaddr]
  all_goals try rw [getDirectoryIndex_pageBase]
  all_goals try rw [getTableIndex_pageBase]
  · exact withPage_owner
  · exact vacant.pointer
  · exact directoryRole
  · exact vacant.directory_slot
  · rw [directoryWord, present_userMode_directory]
  · rw [directoryWord, entryBase_dirEntry_frame tableBound]
  · exact tableRole
  · exact vacant.table_slot
  · rw [tableWord, present_userMode_table]
  · rw [tableWord, entryBase_tableEntry_frame frameBound]
  · exact pageRole

section

variable (inv : MapInv scope s count next queue role)
include inv

theorem MapInv.withPage (ready : p < count)
    (process : (s.pcb p).isThread = false) (inUse : frame < next) (full : next ≤ pageablePages)
    (free : role frame = .free) (vacant : Vacant scope s role p directory table vaddr) :
    MapInv scope (s.withPage p frame (framePaddr table) vaddr) count next (queue ++ [frame])
      (update role frame (.page p table (getTableIndex vaddr))) := by
  have frameBound : frame < pageablePages := by omega
  have tableBound : table < pageablePages := (inv.bound (by simp [vacant.table_role])).trans_le full
  refine inv.reassign free nofun (fun _ => inUse) rfl (fun _ => withPage_info) ?_ ?_ ?_
  · intro q table' slot page
    obtain ⟨rfl, -, -⟩ := Role.page.inj page
    exact withPage_owner
  · intro q directory' ok
    exact ok.transfer (update_role_ne free ok.role_eq nofun _)
      (fun _ => vacant.directory_entry frame tableBound ok.role_eq) fun _ => vacant.table_ok frameBound free
  · intro other member
    rcases List.mem_append.mp member with old | new
    · obtain ⟨q, directory', table', readyq, processq, resident⟩ := inv.queued other old
      have others := ne_of_role free resident.page_role nofun
      refine ⟨q, directory', table', readyq, processq, resident.transfer (withPage_info others) rfl
        (update_of_ne (ne_of_role free resident.directory_role nofun) ..)
        (update_of_ne (ne_of_role free resident.table_role nofun) ..) (update_of_ne others ..)
        (vacant.directory_entry frame tableBound resident.directory_role (getDirectoryIndex_lt _)) ?_⟩
      -- the slot of a resident page is present, so it is not the vacant one
      rw [vacant.word (getTableIndex_lt _), if_neg, if_neg]
      · exact .refl _
      · rintro ⟨rfl, slot⟩
        have present := resident.table_present
        rw [slot, vacant.absent] at present
        cases present
      · exact fun here => ne_of_role vacant.directory_role resident.table_role Role.noConfusion here.1
    · rw [List.mem_singleton] at new
      subst new
      exact ⟨p, directory, table, ready, process, vacant.resident frameBound tableBound
        (update_role_ne free vacant.directory_role nofun _)
        (update_role_ne free vacant.table_role nofun _) (update_self ..)⟩

theorem MapInv.kernel_withPage (vacant : Vacant scope s role p directory table vaddr) (kernel : KernelMap s) :
    KernelMap (s.withPage p frame (framePaddr table) vaddr) := by
  obtain ⟨zeroDirectory, twoDirectory⟩ := inv.kernel_ne vacant.directory_role
  obtain ⟨zeroTable, twoTable⟩ := inv.kernel_ne vacant.table_role
  exact kernel.congr rfl rfl rfl (vacant.sameFrame zeroDirectory zeroTable) (vacant.sameFrame twoDirectory twoTable)

theorem MapInv.withNewTable (inUse : table < next) (full : next ≤ pageablePages) (free : role table = .free)
    (pointer : (s.pcb p).pageDirectory = framePaddr directory) (isDirectory : role directory = .directory p)
    (absent : hasFlag (frameWord s.mem directory (getDirectoryIndex vaddr)) peP = false)
    (cleared : ∀ slot < 1024, scope.tableSlot p slot → hasFlag (frameWord s.mem table slot) peP = false) :
    MapInv scope (s.withNewTable p table vaddr) count next queue (update role table (.table p)) := by
  have apart : directory ≠ table := ne_of_role free isDirectory (by simp)
  have word (other : ℕ) {slot : ℕ} (bound : slot < 1024) : frameWord (s.withNewTable p table vaddr).mem other slot =
      if other = directory ∧ slot = getDirectoryIndex vaddr then dirEntry (BitVec.ofNat 32 (framePaddr table)) userMode
      else frameWord s.mem other slot := by
    simp only [Kernel.withNewTable, pointer]
    exact frameWord_dirInsTable _ _ _ bound
  have keptTable {q other slot : ℕ} (isTable : role other = .table q) (bound : slot < 1024) :
      frameWord (s.withNewTable p table vaddr).mem other slot = frameWord s.mem other slot := by
    rw [word other bound, if_neg]
    exact fun here => ne_of_role isDirectory isTable Role.noConfusion here.1
  have vacantEntry (slot : ℕ) (bound : slot < 1024) (described : scope.tableSlot p slot) :
      hasFlag (frameWord (s.withNewTable p table vaddr).mem table slot) peP = false := by
    rw [word table bound, if_neg fun here => apart here.1.symm, cleared slot bound described]
  have info (other : ℕ) (different : other ≠ table) :
      (s.withNewTable p table vaddr).pageFrameInfo other = s.pageFrameInfo other := update_of_ne different ..
  refine inv.reassign free (by simp) (fun _ => inUse) rfl info (by simp) ?_ ?_
  · intro q directory' ok
    have fixedWord {slot : ℕ} (fixed : slot = 0 ∨ slot = 4) :
        frameWord (s.withNewTable p table vaddr).mem directory' slot = frameWord s.mem directory' slot := by
      rw [word directory' (by omega), if_neg]
      rintro ⟨rfl, slot⟩
      rw [← slot, ok.present _ fixed] at absent
      cases absent
    refine ⟨update_role_ne free ok.role_eq (by simp) _,
      fun slot fixed => by rw [fixedWord fixed, ok.present slot fixed],
      by rw [fixedWord (.inl rfl), ok.kernel_base], ?_, ?_⟩
    all_goals
      intro slot bound described present
      rw [word directory' bound] at present ⊢
      split_ifs at present ⊢ with written
    · exact openEntry_directory _
    · exact ok.opened slot bound described present
    · obtain ⟨rfl, -⟩ := written
      obtain rfl : q = p := by simpa using ok.role_eq.symm.trans isDirectory
      exact ⟨table, entryBase_dirEntry_frame (by omega) _, .of_absent (update_self ..) vacantEntry⟩
    · obtain ⟨table', base, table_ok⟩ := ok.tables slot bound described present
      exact ⟨table', base, table_ok.assign free (fun _ => keptTable table_ok.role_eq) _⟩
  · intro other member
    obtain ⟨q, directory', table', ready, process, resident⟩ := inv.queued other member
    have others := ne_of_role free resident.page_role (by simp)
    refine ⟨q, directory', table', ready, process, resident.transfer (info other others) rfl
      (update_of_ne (ne_of_role free resident.directory_role (by simp)) ..)
      (update_of_ne (ne_of_role free resident.table_role (by simp)) ..) (update_of_ne others ..) ?_ ?_⟩
    · rw [word directory' (getDirectoryIndex_lt _), if_neg]
      · exact .refl _
      · rintro ⟨rfl, slot⟩
        have present := resident.directory_present
        rw [slot, absent] at present
        cases present
    · rw [keptTable resident.table_role (getTableIndex_lt _)]
      exact .refl _

end

/-- The address of a fault lies in the scope. -/
def Scope.Covers (scope : Scope) (p : ℕ) (vaddr : BitVec 32) : Prop :=
  scope.directorySlot (getDirectoryIndex vaddr) ∧ scope.tableSlot p (getTableIndex vaddr)

section

variable (inv : MapInv scope s count next queue role)
include inv

/-- An address that is not present, under a directory entry that is, has a vacant slot. -/
theorem MapInv.vacant (ready : p < count)
    (process : (s.pcb p).isThread = false) (covers : scope.Covers p vaddr) (absent : s.NotPresent p vaddr)
    (present : hasFlag (pde s.mem (s.pcb p).pageDirectory vaddr) peP = true) :
    ∃ directory table, entryBase (pde s.mem (s.pcb p).pageDirectory vaddr) = framePaddr table ∧
      Vacant scope s role p directory table vaddr := by
  obtain ⟨directory, pointer, ok⟩ := inv.spaces p ready process
  simp only [Kernel.NotPresent, pointer] at absent present ⊢
  obtain ⟨table, base, table_ok⟩ := ok.tables _ (getDirectoryIndex_lt vaddr) covers.1 present
  refine ⟨directory, table, base, pointer, ok.role_eq, covers.1, present, base, table_ok.role_eq, covers.2, ?_⟩
  rw [present, pte_frame (by rw [pde_frame, base])] at absent
  simpa using absent

/-- An address stays absent when the directory entry stays and an absent table entry does. -/
theorem MapInv.notPresent_of (ready : p < count)
    (process : (s.pcb p).isThread = false) (covers : scope.Covers p vaddr) (samePcb : s'.pcb p = s.pcb p)
    (directoryWord : ∀ {directory}, role directory = .directory p →
      frameWord s'.mem directory (getDirectoryIndex vaddr) = frameWord s.mem directory (getDirectoryIndex vaddr))
    (tableAbsent : ∀ {table}, role table = .table p →
      hasFlag (frameWord s.mem table (getTableIndex vaddr)) peP = false →
      hasFlag (frameWord s'.mem table (getTableIndex vaddr)) peP = false)
    (absent : s.NotPresent p vaddr) : s'.NotPresent p vaddr := by
  obtain ⟨directory, pointer, ok⟩ := inv.spaces p ready process
  have sameWord := directoryWord ok.role_eq
  simp only [Kernel.NotPresent, samePcb, pointer, pde_frame, sameWord] at absent ⊢
  cases present : hasFlag (frameWord s.mem directory (getDirectoryIndex vaddr)) peP with
  | false => exact .inl rfl
  | true =>
    obtain ⟨table, base, table_ok⟩ := ok.tables _ (getDirectoryIndex_lt vaddr) covers.1 present
    rw [present, pte_frame (by rw [pde_frame, base])] at absent
    rw [pte_frame (by rw [pde_frame, sameWord, base])]
    exact .inr (tableAbsent table_ok.role_eq (by simpa using absent))

theorem MapInv.notPresent_allocated (ready : p < count)
    (process : (s.pcb p).isThread = false) (covers : scope.Covers p vaddr)
    (allocated : Allocated s next queue frame s' next' queue') (absent : s.NotPresent p vaddr) :
    s'.NotPresent p vaddr := by
  refine inv.notPresent_of ready process covers (by rw [allocated.pcb]) ?_ ?_ absent
  · intro directory isDirectory
    exact (inv.allocated_sameFrame allocated (by simp [isDirectory]) (by simp [isDirectory])).word
      (getDirectoryIndex_lt vaddr)
  · intro table isTable
    exact inv.allocated_absent allocated (by simp [isTable]) (getTableIndex_lt vaddr)

theorem MapInv.notPresent_quiet (ready : p < count)
    (process : (s.pcb p).isThread = false) (covers : scope.Covers p vaddr) (quiet : Quiet count role s s')
    (absent : s.NotPresent p vaddr) : s'.NotPresent p vaddr := by
  refine inv.notPresent_of ready process covers (quiet.pcb p ready) ?_ ?_ absent
  · intro directory isDirectory
    exact (quiet.frames directory ⟨p, ready, .inl isDirectory⟩).word (getDirectoryIndex_lt vaddr)
  · intro table isTable notThere
    rw [(quiet.frames table ⟨p, ready, .inr (.inl isTable)⟩).word (getTableIndex_lt vaddr), notThere]

end

theorem Evolves.read (alloc : AllocInv s next queue) (map : MapInv scope s count next queue role) (vaddr : BitVec 32)
    (good : s'.scsi s'.scsiCount = .good) (allocated : Allocated s next queue frame s' next' queue') :
    Evolves count s next queue role (s'.readInto p frame vaddr) next' queue' (update role frame .free) :=
  (Evolves.refl.alloc allocated).quiet
    ((map.allocated alloc allocated).quiet_readInto good (update_self ..) vaddr)
      ((allocated.inv alloc).1.readInto p frame vaddr)

section

variable (map : MapInv scope s count next queue role)
include map

/-- The slot for the page is still vacant when the page has been read. -/
theorem MapInv.notPresent_read (alloc : AllocInv s next queue)
    (ready : p < count) (process : (s.pcb p).isThread = false) (covers : scope.Covers p vaddr)
    (good : s'.scsi s'.scsiCount = .good) (allocated : Allocated s next queue frame s' next' queue')
    (absent : s.NotPresent p vaddr) : (s'.readInto p frame vaddr).NotPresent p vaddr := by
  have map₁ := map.allocated alloc allocated
  have process₁ : (s'.pcb p).isThread = false := by
    rw [allocated.pcb]
    exact process
  exact map₁.notPresent_quiet ready process₁ covers (map₁.quiet_readInto good (update_self ..) vaddr)
    (map.notPresent_allocated ready process covers allocated absent)

/-- The directory entry that the handler finds is the one at the time of the fault. -/
theorem MapInv.pde_read (ready : p < count) (process : (s.pcb p).isThread = false) (good : s'.scsi s'.scsiCount = .good)
    (allocated : Allocated s next queue frame s' next' queue') :
    pde (s'.readInto p frame vaddr).mem (s.pcb p).pageDirectory vaddr = pde s.mem (s.pcb p).pageDirectory vaddr := by
  obtain ⟨directory, pointer, ok⟩ := map.spaces p ready process
  have first : SameFrame s.mem s'.mem directory :=
    map.allocated_sameFrame allocated (by simp [ok.role_eq]) (by simp [ok.role_eq])
  have different : directory ≠ frame := map.allocated_ne allocated (by simp [ok.role_eq]) (by simp [ok.role_eq])
  rw [pointer, pde_frame, pde_frame, ((first.trans (sameFrame_readInto good different vaddr)).word
    (getDirectoryIndex_lt vaddr))]

/-- A page that has been read is entered in a new table from the free list. -/
theorem MapInv.added (alloc : AllocInv s next queue) (ready : p < count)
    (process : (s.pcb p).isThread = false) (covers : scope.Covers p vaddr)
    (absent : hasFlag (pde s.mem (s.pcb p).pageDirectory vaddr) peP = false) (fresh : Fresh s next queue frame)
    (free : role frame = .free) (available : next < pageablePages)
    (allocated : Allocated s next queue table s' next' queue') :
    ∃ role', MapInv scope ((s'.withNewTable p table vaddr).withPage p frame (framePaddr table) vaddr) count next'
      (queue' ++ [frame]) role' ∧
      (KernelMap s → KernelMap ((s'.withNewTable p table vaddr).withPage p frame (framePaddr table) vaddr)) := by
  obtain ⟨alloc', fresh'⟩ := allocated.inv alloc
  obtain ⟨directory, pointer, ok⟩ := map.spaces p ready process
  have frame_table : frame ≠ table := allocated.ne fresh.inUse fresh.unqueued
  have directory_table : directory ≠ table := map.allocated_ne allocated (by simp [ok.role_eq]) (by simp [ok.role_eq])
  have cleared {slot : ℕ} (bound : slot < 1024) : frameWord s'.mem table slot = 0#32 :=
    (allocated.word_zero available bound).2
  have directoryWord : frameWord s'.mem directory (getDirectoryIndex vaddr) =
      frameWord s.mem directory (getDirectoryIndex vaddr) :=
    (map.allocated_sameFrame allocated (by simp [ok.role_eq]) (by simp [ok.role_eq])).word (getDirectoryIndex_lt vaddr)
  rw [pointer, pde_frame, ← directoryWord] at absent
  have pointer' : (s'.pcb p).pageDirectory = framePaddr directory := by rw [allocated.pcb, pointer]
  have process' : (s'.pcb p).isThread = false := by rw [allocated.pcb, process]
  have forgotten : update role table .free directory = .directory p := by
    rw [update_of_ne directory_table, ok.role_eq]
  have entered := (map.allocated alloc allocated).withNewTable fresh'.inUse alloc'.bound (update_self ..)
    pointer' forgotten absent fun slot bound _ => by rw [cleared bound, hasFlag_zero]
  rw [update_idem] at entered
  have isDirectory : update role table (.table p) directory = .directory p := by
    rw [update_of_ne directory_table, ok.role_eq]
  have tableBound := fresh'.bound alloc'
  have newDirectory : frameWord (s'.withNewTable p table vaddr).mem directory (getDirectoryIndex vaddr) =
      dirEntry (BitVec.ofNat 32 (framePaddr table)) userMode := by
    simp only [Kernel.withNewTable, pointer']
    rw [frameWord_dirInsTable _ _ _ (getDirectoryIndex_lt vaddr), if_pos ⟨rfl, rfl⟩]
  have newTable : frameWord (s'.withNewTable p table vaddr).mem table (getTableIndex vaddr) = 0#32 := by
    simp only [Kernel.withNewTable, pointer']
    rw [(sameFrame_dirInsTable _ _ _ directory_table.symm).word (getTableIndex_lt vaddr),
      cleared (getTableIndex_lt vaddr)]
  have vacant : Vacant scope (s'.withNewTable p table vaddr) (update role table (.table p)) p directory table
      vaddr := ⟨pointer', isDirectory, covers.1, by rw [newDirectory, present_userMode_directory],
    by rw [newDirectory, entryBase_dirEntry_frame tableBound], update_self .., covers.2,
    by rw [newTable, hasFlag_zero]⟩
  refine ⟨_, entered.withPage ready process' (allocated.fresh fresh).inUse alloc'.bound ?_ vacant, ?_⟩
  · rw [update_of_ne frame_table, free]
  · intro kernel
    obtain ⟨zero, two⟩ := map.kernel_ne ok.role_eq
    have entry {other : ℕ} (apart : other ≠ directory) :
        SameFrame s'.mem (s'.withNewTable p table vaddr).mem other := by
      simp only [Kernel.withNewTable, pointer']
      exact sameFrame_dirInsTable _ _ _ apart
    exact entered.kernel_withPage vacant
      ((map.kernel_allocated allocated kernel).congr rfl rfl rfl (entry zero) (entry two))

end

/-- A handled fault keeps the walk invariant, if a table that it adds is built in a frame from the free list. -/
theorem Loaded.map (loaded : Loaded s next queue p vaddr s' next' queue') (alloc : AllocInv s next queue)
    (map : MapInv scope s count next queue role) (ready : p < count) (process : (s.pcb p).isThread = false)
    (covers : scope.Covers p vaddr) (absent : s.NotPresent p vaddr)
    (clean : hasFlag (pde s.mem (s.pcb p).pageDirectory vaddr) peP = false → next + 2 ≤ pageablePages) :
    ∃ role', MapInv scope s' count next' queue' role' ∧ (KernelMap s → KernelMap s') := by
  cases loaded with
  | @found frame next₁ queue₁ s₁ first good present outside =>
    obtain ⟨alloc₁, fresh₁⟩ := first.inv alloc
    have evolves := Evolves.read (p := p) alloc map vaddr good first
    obtain ⟨-, map₂⟩ := evolves.inv alloc map
    have absent₂ := map.notPresent_read alloc ready process covers good first absent
    have samePcb : (s₁.readInto p frame vaddr).pcb = s.pcb := by rw [readInto_pcb, first.pcb]
    rw [← samePcb] at present process ⊢
    obtain ⟨directory, table, base, vacant⟩ := map₂.vacant ready process covers absent₂ present
    rw [base]
    exact ⟨_, map₂.withPage ready process fresh₁.inUse alloc₁.bound (update_self ..) vacant,
      fun kernel => map₂.kernel_withPage vacant (evolves.kernel alloc map kernel)⟩
  | @added frame table next₁ next₂ queue₁ queue₂ s₁ s₂ first good absentDirectory second =>
    obtain ⟨alloc₁, fresh₁⟩ := first.inv alloc
    have evolves := Evolves.read (p := p) alloc map vaddr good first
    obtain ⟨alloc₂, map₂⟩ := evolves.inv alloc map
    have available : next + 2 ≤ pageablePages := by
      apply clean
      rw [← map.pde_read ready process good first, absentDirectory]
    have grown : next₁ = next + 1 := (first.word_zero (by omega) (show 0 < 1024 by decide)).1
    have samePcb : (s₁.readInto p frame vaddr).pcb = s.pcb := by rw [readInto_pcb, first.pcb]
    rw [← samePcb] at absentDirectory process
    obtain ⟨role', map', kernel'⟩ := map₂.added alloc₂ ready process covers absentDirectory
      (fresh₁.readInto p frame vaddr) (update_self ..) (by omega) second
    exact ⟨role', map', fun kernel => kernel' (evolves.kernel alloc map kernel)⟩

end MicroOs.Paging
