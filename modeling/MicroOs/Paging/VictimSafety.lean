import MicroOs.Paging.Eviction
import MicroOs.Paging.Ledger

/-! # Which frames are chosen for eviction

With the FIFO strategy a victim is a page that `load_page_from_disk` has queued. The random strategy looks at the
pinned flag only: it may choose a page table that a fault has added, which is recorded like a page, or the frame that
was handed out for the same fault just before, which is not recorded yet. The ledger of the frames is carried along runs
with any settings, and into the calls of `allocate_page` while an event is handled.
-/

namespace MicroOs.Paging

open BitMask Memory Kernel Function

variable {cfg : Config} {s s₀ s₁ s₂ s' : Kernel} {next frame paddr p : ℕ} {use use₁ use' : ℕ → Use} {event : Event}
  {events : List Event} {vaddr : BitVec 32} {directory table : ℕ}

/-- Enter a frame into the ledger. -/
def grant (use : ℕ → Use) (paddr : ℕ) (kind : Use) : ℕ → Use := update use (calculateInfoIndex paddr) kind

/-- Read a page of a process from the disk into a frame, as `load_page_from_disk` does. -/
def Kernel.fillFrame (s : Kernel) (pcb : Pcb) (vaddr : BitVec 32) (paddr : ℕ) : Kernel :=
  (s.diskLoader (diskLoc pcb vaddr) (blockCount pcb vaddr) paddr).2

/-- The ledger after an event, with the frames handed out for it. -/
inductive Takes (cfg : Config) (s : Kernel) (use : ℕ → Use) : Event → (ℕ → Use) → Prop
  | thread {swapLoc swapSize : BitVec 32} : Takes cfg s use (.setup true swapLoc swapSize) use
  | process {swapLoc swapSize : BitVec 32} {pdir ptable stackPage : ℕ} {s₁ s₂ s₃ s₄ : Kernel}
      (first : (s.withPcb false swapLoc swapSize).setupDirectory cfg s.pcbCount = .ok (pdir, s₁))
      (second : s₁.setupTable cfg s.pcbCount pdir = .ok (ptable, s₂))
      (image : s₂.mapImage (s₂.pcb s.pcbCount) ptable = .ok s₃)
      (third : { s₃ with mem := dirInsTable s₃.mem pdir processStackVaddr ptable userMode }.allocatePage cfg =
        .ok (stackPage, s₄)) :
      Takes cfg s use (.setup false swapLoc swapSize)
        (grant (grant (grant use pdir .directory) ptable .table) stackPage .stack)
  | found {p frameref table : ℕ} {vaddr errorCode : BitVec 32} {s₁ : Kernel}
      (first : s.allocatePage cfg = .ok (frameref, s₁))
      (present : getPageTable (s₁.fillFrame (s.pcb p) vaddr frameref).mem vaddr (s₁.pcb p).pageDirectory = some table) :
      Takes cfg s use (.fault p vaddr errorCode) (grant use frameref .page)
  | added {p frameref table : ℕ} {vaddr errorCode : BitVec 32} {s₁ s₂ : Kernel}
      (first : s.allocatePage cfg = .ok (frameref, s₁))
      (missing : getPageTable (s₁.fillFrame (s.pcb p) vaddr frameref).mem vaddr (s₁.pcb p).pageDirectory = none)
      (second : (s₁.fillFrame (s.pcb p) vaddr frameref).allocatePage cfg = .ok (table, s₂)) :
      Takes cfg s use (.fault p vaddr errorCode) (grant (grant use frameref .page) table .addedTable)
  | read {p : ℕ} {vaddr : BitVec 32} {byte : BitVec 8} : Takes cfg s use (.read p vaddr byte) use
  | write {p : ℕ} {vaddr : BitVec 32} {byte : BitVec 8} : Takes cfg s use (.write p vaddr byte) use

/-- The states in which `allocate_page` is called during an event, with the frames handed out so far. -/
inductive AsksFor (cfg : Config) (s : Kernel) (use : ℕ → Use) : Kernel → (ℕ → Use) → Prop
  | directory (swapLoc swapSize : BitVec 32) : AsksFor cfg s use (s.withPcb false swapLoc swapSize) use
  | table {swapLoc swapSize : BitVec 32} {pdir : ℕ} {s₁ : Kernel}
      (first : (s.withPcb false swapLoc swapSize).setupDirectory cfg s.pcbCount = .ok (pdir, s₁)) :
      AsksFor cfg s use s₁ (grant use pdir .directory)
  | stack {swapLoc swapSize : BitVec 32} {pdir ptable : ℕ} {s₁ s₂ s₃ : Kernel}
      (first : (s.withPcb false swapLoc swapSize).setupDirectory cfg s.pcbCount = .ok (pdir, s₁))
      (second : s₁.setupTable cfg s.pcbCount pdir = .ok (ptable, s₂))
      (image : s₂.mapImage (s₂.pcb s.pcbCount) ptable = .ok s₃) :
      AsksFor cfg s use { s₃ with mem := dirInsTable s₃.mem pdir processStackVaddr ptable userMode }
        (grant (grant use pdir .directory) ptable .table)
  | page {p : ℕ} {vaddr : BitVec 32} (known : p < s.pcbCount) (process : (s.pcb p).isThread = false)
      (absent : s.NotPresent p vaddr) : AsksFor cfg s use s use
  | pageTable {p frameref : ℕ} {vaddr : BitVec 32} {s₁ : Kernel} (known : p < s.pcbCount)
      (process : (s.pcb p).isThread = false) (absent : s.NotPresent p vaddr)
      (first : s.allocatePage cfg = .ok (frameref, s₁))
      (missing : getPageTable (s₁.fillFrame (s.pcb p) vaddr frameref).mem vaddr (s₁.pcb p).pageDirectory = none) :
      AsksFor cfg s use (s₁.fillFrame (s.pcb p) vaddr frameref) (grant use frameref .handed)

def LedgerStep (cfg : Config) (before : Kernel × (ℕ → Use)) (event : Event) (after : Kernel × (ℕ → Use)) : Prop :=
  Step cfg before.1 event after.1 ∧ Takes cfg before.1 before.2 event after.2

structure SafeVictim (s : Kernel) (use : ℕ → Use) (paddr : ℕ) : Prop where
  owned : (s.pageFrameInfo (calculateInfoIndex paddr)).owner ≠ none
  unpinned : (s.pageFrameInfo (calculateInfoIndex paddr)).pinned = false
  notDirectory : use (calculateInfoIndex paddr) ≠ .directory
  notTable : use (calculateInfoIndex paddr) ≠ .table ∧ use (calculateInfoIndex paddr) ≠ .addedTable
  notStack : use (calculateInfoIndex paddr) ≠ .stack
  notHanded : use (calculateInfoIndex paddr) ≠ .handed

theorem grant_framePaddr (bound : frame < pageablePages) (kind : Use) :
    grant use (framePaddr frame) kind = update use frame kind := by
  rw [grant, calculateInfoIndex_framePaddr bound]

section

variable (ledger : Ledger cfg s next use)
include ledger

theorem Ledger.setupDirectory (ran : s.setupDirectory cfg p = .ok (paddr, s₁)) :
    ∃ frame next₁, paddr = framePaddr frame ∧ Ledger cfg s₁ next₁ (grant use paddr .directory) := by
  obtain ⟨⟨_, middle⟩, allocates, -⟩ := Outcome.bind_eq_ok_iff.mp ran
  obtain ⟨frame, next₁, bound, rfl, -, after⟩ := ledger.allocatePage allocates
  have blank := after.blank_of_handed bound (update_self ..)
  rw [setupDirectory_eq bound blank allocates] at ran
  cases ran
  refine ⟨frame, next₁, rfl, ?_⟩
  rw [grant_framePaddr bound]
  exact (after.record bound _ _ _ .directory (by decide) pinned_userMode).congr rfl rfl rfl

theorem Ledger.setupTable (ran : s.setupTable cfg p (framePaddr directory) = .ok (paddr, s₁)) :
    ∃ frame next₁, paddr = framePaddr frame ∧ Ledger cfg s₁ next₁ (grant use paddr .table) := by
  obtain ⟨⟨_, middle⟩, allocates, -⟩ := Outcome.bind_eq_ok_iff.mp ran
  obtain ⟨frame, next₁, bound, rfl, -, after⟩ := ledger.allocatePage allocates
  have blank := after.blank_of_handed bound (update_self ..)
  rw [setupTable_eq bound blank allocates] at ran
  cases ran
  refine ⟨frame, next₁, rfl, ?_⟩
  rw [grant_framePaddr bound]
  exact (after.record bound _ _ _ .table (by decide) pinned_userMode).congr rfl rfl rfl

theorem Ledger.mapImage {pcb : Pcb} {ptable : ℕ}
    (ran : s.mapImage pcb ptable = .ok s₁) (mem : Memory) : Ledger cfg { s₁ with mem } next use := by
  rw [Kernel.mapImage] at ran
  split_ifs at ran
  cases ran
  exact ledger.congr rfl rfl rfl

theorem Ledger.fillFrame (pcb : Pcb) (vaddr : BitVec 32) (paddr : ℕ) :
    Ledger cfg (s.fillFrame pcb vaddr paddr) next use := by
  simp only [Kernel.fillFrame, Kernel.diskLoader]
  cases s.scsi s.scsiCount with
  | good | bad garbage => exact ledger.congr rfl rfl rfl

/-- The ledger is right wherever a frame is asked for. -/
theorem Ledger.asksFor (asks : AsksFor cfg s use s₁ use₁) : ∃ next₁, Ledger cfg s₁ next₁ use₁ := by
  have withPcb (swapLoc swapSize : BitVec 32) : Ledger cfg (s.withPcb false swapLoc swapSize) next use :=
    ledger.congr rfl rfl rfl
  cases asks with
  | directory swapLoc swapSize => exact ⟨next, withPcb swapLoc swapSize⟩
  | @table swapLoc swapSize _ _ first =>
    obtain ⟨-, next₁, -, after⟩ := (withPcb swapLoc swapSize).setupDirectory first
    exact ⟨next₁, after⟩
  | @stack swapLoc swapSize _ _ _ _ _ first second image =>
    obtain ⟨directory, next₁, rfl, after₁⟩ := (withPcb swapLoc swapSize).setupDirectory first
    obtain ⟨-, next₂, -, after₂⟩ := after₁.setupTable second
    exact ⟨next₂, after₂.mapImage image _⟩
  | page known process absent => exact ⟨next, ledger⟩
  | pageTable known process absent first missing =>
    obtain ⟨frame, next₁, bound, rfl, -, after⟩ := ledger.allocatePage first
    refine ⟨next₁, ?_⟩
    rw [grant_framePaddr bound]
    exact after.fillFrame _ _ _

end

theorem Ledger.mapStack (ledger : Ledger cfg s next use) (allocates : s.allocatePage cfg = .ok (paddr, s₁))
    (ran : s.mapStack cfg p (framePaddr table) = .ok s') : ∃ next', Ledger cfg s' next' (grant use paddr .stack) := by
  obtain ⟨frame, next₁, bound, rfl, -, after⟩ := ledger.allocatePage allocates
  have blank := after.blank_of_handed bound (update_self ..)
  rw [mapStack_eq bound blank allocates] at ran
  cases ran
  have pinned : hasFlag (peInfoUserMode ||| peInfoPinned ||| peInfoStack) peInfoPinned = true := by decide
  refine ⟨next₁, ?_⟩
  rw [grant_framePaddr bound]
  exact (after.record bound _ _ _ .stack (by decide) pinned).congr rfl rfl rfl

variable {swapLoc swapSize infoMode errorCode : BitVec 32}

theorem Ledger.setupProcessVmem {isThread : Bool} (ledger : Ledger cfg s next use)
    (ran : s.createPcb cfg isThread swapLoc swapSize = .ok s') :
    ∃ use', Takes cfg s use (.setup isThread swapLoc swapSize) use' ∧ ∃ next', Ledger cfg s' next' use' := by
  have kind : ((s.withPcb isThread swapLoc swapSize).pcb s.pcbCount).isThread = isThread := by
    simp [Kernel.withPcb]
  have start : Ledger cfg (s.withPcb isThread swapLoc swapSize) next use := ledger.congr rfl rfl rfl
  change (s.withPcb isThread swapLoc swapSize).setupProcessVmem cfg s.pcbCount = .ok s' at ran
  rw [Kernel.setupProcessVmem, kind] at ran
  cases isThread with
  | true =>
    cases ran
    exact ⟨use, .thread, next, start.congr rfl rfl rfl⟩
  | false =>
    simp only [Bool.false_eq_true, if_false, Outcome.bind_eq_ok_iff, Prod.exists] at ran
    obtain ⟨pdir, s₁, first, ptable, s₂, second, s₃, image, s₅, stack, result⟩ := ran
    cases result
    obtain ⟨⟨stackPage, s₄⟩, third, -⟩ := Outcome.bind_eq_ok_iff.mp stack
    refine ⟨_, .process first second image third, ?_⟩
    obtain ⟨directory, next₁, rfl, after₁⟩ := start.setupDirectory first
    obtain ⟨table, next₂, rfl, after₂⟩ := after₁.setupTable second
    obtain ⟨next₃, after₃⟩ := (after₂.mapImage image _).mapStack third stack
    exact ⟨next₃, after₃.congr rfl rfl rfl⟩

theorem Kernel.fillFrame_pcb (s : Kernel) (pcb : Pcb) (vaddr : BitVec 32) (paddr : ℕ) :
    (s.fillFrame pcb vaddr paddr).pcb = s.pcb := by
  simp only [fillFrame, diskLoader]
  cases s.scsi s.scsiCount with
  | good => rfl
  | bad garbage => rfl

theorem Kernel.loadInfoMode_cases (s : Kernel) (cfg : Config) (p : ℕ) :
    s.loadInfoMode cfg p = peInfoUserMode ∨ s.loadInfoMode cfg p = peInfoUserMode ||| peInfoPinned := by
  rw [loadInfoMode]
  split_ifs
  · exact .inr rfl
  · exact .inl rfl

section

variable (ledger : Ledger cfg s next use)
include ledger

theorem Ledger.addPageTable (missing : getPageTable s.mem vaddr (s.pcb p).pageDirectory = none)
    (mode : infoMode = peInfoUserMode ∨ infoMode = peInfoUserMode ||| peInfoPinned)
    (ran : s.findOrAddPageTable cfg p vaddr infoMode = .ok (table, s')) :
    ∃ frame s₁ next', frame < pageablePages ∧ table = framePaddr frame ∧ use frame ≠ .handed ∧
      s.allocatePage cfg = .ok (table, s₁) ∧ Ledger cfg s' next' (Function.update use frame .addedTable) := by
  simp only [findOrAddPageTable, missing, Outcome.bind_eq_ok_iff, Prod.exists] at ran
  obtain ⟨_, s₁, allocates, s₂, insert, result⟩ := ran
  obtain ⟨frame, next', bound, rfl, other, after⟩ := ledger.allocatePage allocates
  have blank := after.blank_of_handed bound (Function.update_self ..)
  rw [insertPageFrameInfo_blank bound blank] at insert
  cases insert
  cases result
  refine ⟨frame, s₁, next', bound, rfl, other, allocates, ?_⟩
  exact (after.record bound (.pcb p) vaddr infoMode .addedTable (by decide) ⟨⟨p, rfl⟩, mode⟩).congr rfl rfl rfl

theorem Ledger.pageFaultHandler (ran : s.pageFaultHandler cfg p vaddr errorCode = .ok s') :
    ∃ use', Takes cfg s use (.fault p vaddr errorCode) use' ∧ ∃ next', Ledger cfg s' next' use' := by
  obtain ⟨-, load⟩ := pageFaultHandler_ok_iff.mp ran
  obtain ⟨-, frameref, s₁, _, table, s₂, first, loads, find, install⟩ := loadPageFromDisk_ok_iff.mp load
  obtain ⟨frame, next₁, bound, rfl, -, after⟩ := ledger.allocatePage first
  obtain rfl : s₁.fillFrame (s.pcb p) vaddr (framePaddr frame) = _ := congrArg Prod.snd loads
  have filled := after.fillFrame (s.pcb p) vaddr (framePaddr frame)
  have samePcb := s₁.fillFrame_pcb (s.pcb p) vaddr (framePaddr frame)
  have mode := s.loadInfoMode_cases cfg p
  cases walk : getPageTable (s₁.fillFrame (s.pcb p) vaddr (framePaddr frame)).mem vaddr (s₁.pcb p).pageDirectory with
  | some present =>
    refine ⟨_, .found first walk, next₁, ?_⟩
    rw [← samePcb] at walk
    simp only [findOrAddPageTable, walk] at find
    cases find
    have installed := filled.installPage bound (Function.update_self ..) mode install
    rwa [Function.update_idem, ← grant_framePaddr bound] at installed
  | none =>
    have missing := walk
    rw [← samePcb] at missing
    obtain ⟨added, s₃, next', small, rfl, other, second, after'⟩ := filled.addPageTable missing mode find
    refine ⟨_, .added first walk second, next', ?_⟩
    have apart : added ≠ frame := by
      rintro rfl
      exact other (Function.update_self ..)
    have handed : Function.update (Function.update use frame .handed) added .addedTable frame = .handed := by
      rw [Function.update_of_ne apart.symm, Function.update_self]
    -- the frame of the page is recorded last, although it was handed out before the one of the table
    have installed := after'.installPage bound handed mode install
    rw [Function.update_comm apart, Function.update_idem] at installed
    rwa [grant_framePaddr bound, grant_framePaddr small]

/-- One event keeps the ledger, with the frames it takes entered. -/
theorem Ledger.step (step : Step cfg s event s') :
    ∃ use', Takes cfg s use event use' ∧ ∃ next', Ledger cfg s' next' use' := by
  cases step with
  | setup ran => exact ledger.setupProcessVmem ran
  | fault known absent ran => exact ledger.pageFaultHandler ran
  | read known user ran =>
    obtain ⟨page, -, result⟩ := Option.map_eq_some_iff.mp ran
    cases result
    exact ⟨use, .read, next, ledger.congr rfl rfl rfl⟩
  | write known user ran =>
    simp only [userWrite, Option.ite_none_right_eq_some, Option.map_eq_some_iff] at ran
    obtain ⟨-, page, -, rfl⟩ := ran
    exact ⟨use, .write, next, ledger.congr rfl rfl rfl⟩

end

/-- The code decides which frames an event takes. -/
theorem Takes.unique {use'' : ℕ → Use} (takes : Takes cfg s use event use') (other : Takes cfg s use event use'') :
    use' = use'' := by
  cases takes with
  | thread | read | write =>
    cases other
    rfl
  | process first second image third =>
    cases other with
    | process first' second' image' third' =>
      cases first.symm.trans first'
      cases second.symm.trans second'
      cases image.symm.trans image'
      cases third.symm.trans third'
      rfl
  | found first present =>
    cases other with
    | found first' present' =>
      cases first.symm.trans first'
      rfl
    | added first' missing second =>
      cases first.symm.trans first'
      cases present.symm.trans missing
  | added first missing second =>
    cases other with
    | found first' present =>
      cases first.symm.trans first'
      cases present.symm.trans missing
    | added first' missing' second' =>
      cases first.symm.trans first'
      cases second.symm.trans second'
      rfl

/-- The ledger is right in every reachable state. -/
theorem Ledger.run {mem : Memory} {disk : BitVec 32 → Memory} {scsi : ℕ → ScsiResult} {ticks : ℕ → BitVec 64}
    (booted : (boot mem disk scsi ticks).initMemory cfg = .ok s₀)
    (run : Run (LedgerStep cfg) (s₀, initialUse) events (s, use)) : ∃ next, Ledger cfg s next use := by
  cases booted.symm.trans (initMemory_initial mem disk scsi ticks cfg)
  refine run.invariant (fun state => ∃ next, Ledger cfg state.1 next state.2) ?_ ⟨3, ledger_initial ..⟩
  rintro ⟨s, use⟩ event ⟨s', use'⟩ ⟨next, ledger⟩ ⟨step, takes⟩
  obtain ⟨entered, takes', next', ledger'⟩ := ledger.step step
  cases takes.unique takes'
  exact ⟨next', ledger'⟩

/-- Every run has its ledger. -/
theorem ledgerRun_of_run {mem : Memory} {disk : BitVec 32 → Memory} {scsi : ℕ → ScsiResult} {ticks : ℕ → BitVec 64}
    (booted : (boot mem disk scsi ticks).initMemory cfg = .ok s₀) (run : Run (Step cfg) s₀ events s) :
    ∃ use, Run (LedgerStep cfg) (s₀, initialUse) events (s, use) := by
  induction run with
  | nil => exact ⟨initialUse, .nil _⟩
  | snoc _ last ih =>
    obtain ⟨use, before⟩ := ih
    obtain ⟨next, ledger⟩ := Ledger.run booted before
    obtain ⟨use', takes, -⟩ := ledger.step last
    exact ⟨use', .snoc before ⟨last, takes⟩⟩

/-- The choice of a victim reads the tick counter, and the ledger does not depend on what it reads. -/
theorem Ledger.withTicks (ledger : Ledger cfg s next use) (retries : ℕ) (readings : ℕ → BitVec 64) :
    Ledger { cfg with retries } { s with ticks := readings } next use where
  toFreeList := ledger.toFreeList.congr rfl rfl
  first := ledger.first
  free_iff := ledger.free_iff
  agrees := ledger.agrees
  queued strategy := by
    obtain ⟨queue, pages⟩ := ledger.queued strategy
    exact ⟨queue, pages.represents, pages.nodup, pages.pages⟩

/-- Of the frames that are not pinned, those handed out for pages may be evicted. -/
theorem Ledger.safeVictim_iff (ledger : Ledger cfg s next use) (bound : frame < pageablePages)
    (unpinned : s.isPinned frame = false) : SafeVictim s use (framePaddr frame) ↔ use frame = .page := by
  have index := calculateInfoIndex_framePaddr bound
  have agrees := ledger.agrees frame bound
  constructor
  · intro safe
    have owned := safe.owned
    have notTable := safe.notTable.2
    rw [index] at owned notTable
    rcases agrees.of_unpinned unpinned with blank | ⟨kind, -⟩
    · exact absurd blank.1 owned
    · exact kind.resolve_right notTable
  · intro isPage
    rw [isPage] at agrees
    obtain ⟨p, owner⟩ := agrees.owner
    exact {
      owned := by simp [index, owner]
      unpinned := by
        rw [index]
        exact unpinned
      notDirectory := by simp [index, isPage]
      notTable := by simp [index, isPage]
      notStack := by simp [index, isPage]
      notHanded := by simp [index, isPage] }

/-- With the queue every victim may be evicted. With random draws every one may exactly if all the frames that can be
drawn were handed out for pages. -/
theorem victim_safe_iff {mem : Memory} {disk : BitVec 32 → Memory} {scsi : ℕ → ScsiResult} {ticks : ℕ → BitVec 64}
    (booted : (boot mem disk scsi ticks).initMemory cfg = .ok s₀)
    (run : Run (LedgerStep cfg) (s₀, initialUse) events (s, use)) (asks : AsksFor cfg s use s₁ use₁) :
    (∀ retries readings paddr s₂,
        { s₁ with ticks := readings }.selectPageForEviction { cfg with retries } = .ok (paddr, s₂) →
          SafeVictim s₁ use₁ paddr) ↔
      (cfg.evictionStrategy = .random →
        ∀ frame, CanDraw s₁.isPinned s₁.randomIndexVal frame → use₁ frame = .page) := by
  obtain ⟨next, ledger⟩ := Ledger.run booted run
  obtain ⟨next₁, ledger₁⟩ := ledger.asksFor asks
  constructor
  · intro safe random frame can
    obtain ⟨bound, unpinned⟩ := can.unpinned
    obtain ⟨retries, readings, draws⟩ := can.evictRandomPage rfl rfl
    obtain ⟨s₂, drawn⟩ := draws readings fun _ _ => rfl
    refine (ledger₁.safeVictim_iff bound unpinned).mp (safe retries readings _ s₂ ?_)
    rw [ledger₁.paddr frame bound] at drawn
    simp only [selectPageForEviction, random]
    exact drawn
  · intro pages retries readings paddr s₂ selected
    obtain ⟨frame, bound, rfl, unpinned, queued, drawn, -⟩ := (ledger₁.withTicks retries readings).select selected
    refine (ledger₁.safeVictim_iff bound unpinned).mpr ?_
    cases strategy : cfg.evictionStrategy with
    | fifo => exact (queued strategy).1
    | random => exact pages strategy frame (drawn strategy)

/-- The frames are used up and another process is set up: the oldest page may be evicted. -/
theorem victim_safe_oldest_page : ∃ s₀ events s use s₂,
    (boot (fun _ => 0#8) (fun _ _ => 0#8) (fun _ => .good) fun _ => 0#64).initMemory config = .ok s₀ ∧
      Run (LedgerStep config) (s₀, initialUse) events (s, use) ∧
      (s.withPcb false 0#32 8#32).selectPageForEviction config = .ok (framePaddr 6, s₂) ∧
      SafeVictim (s.withPcb false 0#32 8#32) use (framePaddr 6) := by
  obtain ⟨s₀, events, s, role, booted, run, -, inv, -⟩ := first_page_dirty (fun _ => .good) fun _ _ => rfl
  obtain ⟨use, withUse⟩ := ledgerRun_of_run booted (run.mono And.right)
  have alloc := inv.system.alloc
  have alloc' : AllocInv (s.withPcb false 0#32 8#32) 33 (6 :: (List.range 26).map (7 + ·)) := alloc.congr rfl rfl rfl
  have selected := alloc'.selectPageForEviction
  refine ⟨s₀, events, s, use, _, booted, withUse, selected, ?_⟩
  refine (victim_safe_iff booted withUse (.directory 0#32 8#32)).mpr ?_ 0 s.ticks _ _ selected
  intro random
  cases random

/-- A process is set up with three frames of the free list. -/
def Kernel.withProcess (s : Kernel) (next : ℕ) (swapLoc swapSize : BitVec 32) : Kernel :=
  let directory := ((s.withPcb false swapLoc swapSize).takeFree next).withDirectory s.pcbCount next
  let table := (directory.takeFree (next + 1)).withTable s.pcbCount next (next + 1)
  (table.takeFree (next + 2)).withStack s.pcbCount next (next + 1) (next + 2)

section

variable (free : FreeList s next)
include free

theorem FreeList.takeFree_blank (available : next < pageablePages) : ((s.takeFree next).pageFrameInfo next).Blank := by
  simp only [Kernel.takeFree, update_self]
  exact free.blank next le_rfl available

theorem FreeList.withDirectory (inUse : frame < next) (p : ℕ) :
    FreeList (s.withDirectory p frame) next := (free.occupy inUse _ _ _).congr rfl rfl

theorem FreeList.withTable (inUse : frame < next) (p directory : ℕ) :
    FreeList (s.withTable p directory frame) next := (free.occupy inUse _ _ _).congr rfl rfl

theorem FreeList.withStack (inUse : frame < next) (p directory table : ℕ) :
    FreeList (s.withStack p directory table frame) next := (free.occupy inUse _ _ _).congr rfl rfl

/-- Setting up a process does not fail while there are three free frames, whatever the strategy. -/
theorem FreeList.createPcb (cfg : Config) (swapLoc swapSize : BitVec 32) (available : next + 3 ≤ pageablePages)
    (finite : (imageBytes ((s.withPcb false swapLoc swapSize).pcb s.pcbCount)).toNat ≤ 2 ^ 32 - pageSize) :
    s.createPcb cfg false swapLoc swapSize = .ok (s.withProcess next swapLoc swapSize) ∧
      FreeList (s.withProcess next swapLoc swapSize) (next + 3) := by
  have free₀ : FreeList (s.withPcb false swapLoc swapSize) next := free.congr rfl rfl
  have free₁ := (free₀.takeFree (by omega)).withDirectory (Nat.lt_succ_self next) s.pcbCount
  have free₂ := (free₁.takeFree (by omega)).withTable (Nat.lt_succ_self _) s.pcbCount next
  have free₃ := (free₂.takeFree (by omega)).withStack (Nat.lt_succ_self _) s.pcbCount next (next + 1)
  refine ⟨?_, free₃⟩
  have kind : ((s.withPcb false swapLoc swapSize).pcb s.pcbCount).isThread = false := by
    simp [withPcb]
  change (s.withPcb false swapLoc swapSize).setupProcessVmem cfg s.pcbCount = _
  simp only [setupProcessVmem, kind, Bool.false_eq_true, if_false, Outcome.bind_eq_ok_iff, Prod.exists]
  have first := free₀.allocatePage cfg (by omega)
  have second := free₁.allocatePage cfg (by omega)
  have third := free₂.allocatePage cfg (by omega)
  exact ⟨_, _, setupDirectory_eq (by omega) (free₀.takeFree_blank (by omega)) first,
    _, _, setupTable_eq (by omega) (free₁.takeFree_blank (by omega)) second, _, if_neg (not_lt.mpr finite),
    _, mapStack_eq (by omega) (free₂.takeFree_blank (by omega)) third, rfl⟩

end

theorem Kernel.withProcess_word {slot : ℕ}
    (kernelTable : s.userKernelPtable = framePaddr 2) (later : 2 < next) (bound : slot < 1024) (kernel : slot ≠ 0)
    (image : slot ≠ 4) (stack : slot ≠ 959) : frameWord (s.withProcess next swapLoc swapSize).mem next slot = 0#32 := by
  have kernelTable₁ : ((s.withPcb false swapLoc swapSize).takeFree next).userKernelPtable = framePaddr 2 := kernelTable
  simp only [withProcess, withStack]
  rw [(sameFrame_tableMapPage _ _ _ (by omega)).word bound, (sameFrame_takeFree (.inl (by omega))).word bound,
    withTable_directory_word (by omega) bound, if_neg (by omega), (sameFrame_takeFree (.inl (by omega))).word bound,
    withDirectory_word kernelTable₁ (by omega) bound, if_neg kernel, frameWord_takeFree bound]

def randomConfig : Config := { evictionStrategy := .random, retries := 1 }

/-- What a fault with frames from the free list leaves alone: all entries of the directory but one, and the seed. -/
structure FaultKeeps (s s' : Kernel) (directory slot : ℕ) : Prop where
  pcb : s'.pcb = s.pcb
  pcbCount : s'.pcbCount = s.pcbCount
  scsi : s'.scsi = s.scsi
  ticks : s'.ticks = s.ticks
  randomIndexVal : s'.randomIndexVal = s.randomIndexVal
  words : ∀ other < 1024, other ≠ slot → frameWord s'.mem directory other = frameWord s.mem directory other

theorem FaultKeeps.trans {slot : ℕ} (first : FaultKeeps s s₁ directory slot)
    (second : FaultKeeps s₁ s' directory slot) : FaultKeeps s s' directory slot where
  pcb := second.pcb.trans first.pcb
  pcbCount := second.pcbCount.trans first.pcbCount
  scsi := second.scsi.trans first.scsi
  ticks := second.ticks.trans first.ticks
  randomIndexVal := second.randomIndexVal.trans first.randomIndexVal
  words other bound apart := (second.words other bound apart).trans (first.words other bound apart)

theorem FreeList.fillFrame (free : FreeList s next) (available : next < pageablePages)
    (older : directory < next) (good : ∀ n, s.scsi n = .good) (sector count : BitVec 32) (slot : ℕ) :
    ∃ s', (s.takeFree next).diskLoader sector count (framePaddr next) = (true, s') ∧ FreeList s' (next + 1) ∧
      (s'.pageFrameInfo next).Blank ∧
      (∀ other < 1024, frameWord s'.mem directory other = frameWord s.mem directory other) ∧
      FaultKeeps s s' directory slot := by
  have good₁ : (s.takeFree next).scsi (s.takeFree next).scsiCount = .good := good _
  have same {other : ℕ} (bound : other < 1024) :
      frameWord ((s.takeFree next).mem.blit (framePaddr next) pageSize (readBuffer (s.takeFree next).disk sector count))
        directory other = frameWord s.mem directory other := by
    rw [(SameFrame.blit_one _ _ older.ne).word bound, (sameFrame_takeFree (.inl older)).word bound]
  simp only [diskLoader, good₁]
  refine ⟨_, rfl, (free.takeFree available).congr rfl rfl, free.takeFree_blank available, ?_,
    rfl, rfl, rfl, rfl, rfl, ?_⟩
  · intro other bound
    exact same bound
  · intro other bound _
    exact same bound

theorem FreeList.addPageTable (free : FreeList s next) (cfg : Config) (infoMode : BitVec 32)
    (available : next < pageablePages) (own : (s.pcb p).pageDirectory = framePaddr directory) (older : directory < next)
    (missing : getPageTable s.mem vaddr (framePaddr directory) = none) :
    ∃ s', s.findOrAddPageTable cfg p vaddr infoMode = .ok (framePaddr next, s') ∧ FreeList s' (next + 1) ∧
      (∀ other ≠ next, s'.pageFrameInfo other = s.pageFrameInfo other) ∧
      FaultKeeps s s' directory (getDirectoryIndex vaddr) := by
  have blank := free.takeFree_blank available
  simp only [findOrAddPageTable, own, missing, free.allocatePage cfg available, bind, Except.bind,
    insertPageFrameInfo_blank available blank]
  refine ⟨_, rfl, ?_, ?_, rfl, rfl, rfl, rfl, rfl, ?_⟩
  · exact ((free.takeFree available).occupy (Nat.lt_succ_self next) _ _ _).congr rfl rfl
  · intro other apart
    simp only [Kernel.occupy, Kernel.setInfo, Kernel.takeFree, update_of_ne apart]
  · intro other bound apart
    change frameWord (dirInsTable (s.takeFree next).mem (framePaddr directory) vaddr (framePaddr next) userMode)
      directory other = _
    rw [frameWord_dirInsTable _ _ _ bound, if_neg (fun same => apart same.2),
      (sameFrame_takeFree (.inl older)).word bound]

theorem FreeList.installPage (free : FreeList s next)
    (random : cfg.evictionStrategy = .random) (infoMode : BitVec 32) (inUse : frame < next)
    (blank : (s.pageFrameInfo frame).Blank)
    (own : (s.pcb p).pageDirectory = framePaddr directory) (apart : directory ≠ table) :
    ∃ s', s.installPage cfg p vaddr infoMode (framePaddr frame) (framePaddr table) = .ok s' ∧ FreeList s' next ∧
      FaultKeeps s s' directory (getDirectoryIndex vaddr) := by
  have unqueued : s.beforeRecord cfg infoMode frame = s := by simp [beforeRecord, random]
  have room (fifo : cfg.evictionStrategy = .fifo) :
      ∃ queue, s.fifoQueue.Represents queue ∧ queue.length + 1 < pageablePages := by
    cases random.symm.trans fifo
  rw [installPage_blank (inUse.trans_le free.bound) blank room, inKernelArea_framePaddr, unqueued, own]
  refine ⟨_, rfl, (free.occupy inUse _ _ _).congr rfl rfl, rfl, rfl, rfl, rfl, rfl, ?_⟩
  intro other bound differs
  rw [frameWord_dirInsTable _ _ _ bound, if_neg (fun same => differs same.2),
    (sameFrame_tableMapPage _ _ _ apart).word bound]

theorem Kernel.notPresent_of_word (own : (s.pcb p).pageDirectory = framePaddr directory)
    (missing : hasFlag (frameWord s.mem directory (getDirectoryIndex vaddr)) peP = false) : s.NotPresent p vaddr := by
  refine .inl ?_
  rw [own, pde_frame, missing]

theorem FreeList.fault (free : FreeList s next) (random : cfg.evictionStrategy = .random)
    (available : next + 2 ≤ pageablePages) (process : (s.pcb p).isThread = false)
    (own : (s.pcb p).pageDirectory = framePaddr directory) (older : directory < next)
    (missing : hasFlag (frameWord s.mem directory (getDirectoryIndex vaddr)) peP = false)
    (good : ∀ n, s.scsi n = .good) :
    ∃ s', s.pageFaultHandler cfg p vaddr 0#32 = .ok s' ∧ FreeList s' (next + 2) ∧
      FaultKeeps s s' directory (getDirectoryIndex vaddr) := by
  have first := free.allocatePage cfg (show next < pageablePages by omega)
  obtain ⟨s₂, loads, free₂, blank, same, keeps₂⟩ := free.fillFrame (by omega) older good (diskLoc (s.pcb p) vaddr)
    (blockCount (s.pcb p) vaddr) (getDirectoryIndex vaddr)
  have own₂ : (s₂.pcb p).pageDirectory = framePaddr directory := by rw [keeps₂.pcb, own]
  have walk : getPageTable s₂.mem vaddr (framePaddr directory) = none := by
    rw [getPageTable, pde_frame, same _ (getDirectoryIndex_lt vaddr), missing]
    rfl
  obtain ⟨s₃, find, free₃, records, keeps₃⟩ :=
    free₂.addPageTable cfg (s.loadInfoMode cfg p) (by omega) own₂ (by omega) walk
  have own₃ : (s₃.pcb p).pageDirectory = framePaddr directory := by rw [keeps₃.pcb, own₂]
  rw [← records next (Nat.lt_succ_self next).ne] at blank
  obtain ⟨s', install, free', keeps'⟩ := free₃.installPage random (s.loadInfoMode cfg p) (show next < next + 2 by omega)
    blank own₃ (show directory ≠ next + 1 by omega)
  have load := loadPageFromDisk_ok_iff.mpr ⟨process, _, _, _, _, _, first, loads, find, install⟩
  have absent : hasFlag 0#32 1#32 = false := by decide
  exact ⟨s', pageFaultHandler_ok_iff.mpr ⟨absent, load⟩, free', (keeps₂.trans keeps₃).trans keeps'⟩

/-- Processes with images of two pages, set up one after another. -/
def crowd : ℕ → Kernel
  | 0 => initial (fun _ => 0#8) (fun _ _ => 0#8) (fun _ => .good) fun _ => 0#64
  | n + 1 => (crowd n).withProcess (3 + 3 * n) 0#32 16#32

theorem crowd_static (n : ℕ) :
    (crowd n).pcbCount = n ∧ (crowd n).userKernelPtable = framePaddr 2 ∧ ((crowd n).scsi = fun _ => .good) ∧
      ((crowd n).ticks = fun _ => 0#64) ∧ (crowd n).randomIndexVal = 45#32 := by
  induction n with
  | zero => exact ⟨rfl, rfl, rfl, rfl, rfl⟩
  | succ n ih =>
    obtain ⟨count, kernelTable, scsi, ticks, seed⟩ := ih
    exact ⟨congrArg (· + 1) count, kernelTable, scsi, ticks, seed⟩

/-- Each process takes three frames off the free list. -/
theorem crowd_run {n : ℕ} (few : n ≤ 10) :
    Run (Step randomConfig) (crowd 0) (List.replicate n (.setup false 0#32 16#32)) (crowd n) ∧
      FreeList (crowd n) (3 + 3 * n) := by
  induction n with
  | zero => exact ⟨.nil _, freeList_initial ..⟩
  | succ n ih =>
    obtain ⟨run, free⟩ := ih (by omega)
    have available : 3 + 3 * n + 3 ≤ pageablePages := by
      rw [pageablePages]
      omega
    have finite : (imageBytes (((crowd n).withPcb false 0#32 16#32).pcb (crowd n).pcbCount)).toNat ≤
        2 ^ 32 - pageSize := by
      simp only [withPcb, update_self, imageBytes]
      decide
    obtain ⟨ran, free'⟩ := free.createPcb randomConfig 0#32 16#32 available finite
    rw [List.replicate_succ']
    exact ⟨.snoc run (.setup ran), free'⟩

theorem Kernel.withProcess_pcb (s : Kernel) (next : ℕ) (swapLoc swapSize : BitVec 32) :
    ((s.withProcess next swapLoc swapSize).pcb s.pcbCount).isThread = false ∧
      ((s.withProcess next swapLoc swapSize).pcb s.pcbCount).pageDirectory = framePaddr next := by
  simp only [withProcess, withStack, update_self, and_true]
  change ((s.withPcb false swapLoc swapSize).pcb s.pcbCount).isThread = false
  simp [withPcb]

theorem Kernel.select_first (seed : s.randomIndexVal = 45#32) (tick : s.ticks s.tickCount = 0#64)
    (unpinned : (s.pageFrameInfo 32).pinned = false) :
    ∃ s', s.selectPageForEviction randomConfig = .ok ((s.pageFrameInfo 32).paddr, s') := by
  have drawn : nextRandom s.randomIndexVal (s.ticks s.tickCount) = nextRandom 45#32 0#64 := by rw [seed, tick]
  have frame : randomFrame (nextRandom 45#32 0#64) = 32 := by decide
  refine ⟨{ s with randomIndexVal := nextRandom 45#32 0#64, tickCount := s.tickCount + 1 }, ?_⟩
  simp only [selectPageForEviction, randomConfig]
  rw [evictRandomPage_succ 0 drawn, frame, if_neg]
  exact Bool.eq_false_iff.mp unpinned

/-- The last of nine processes has touched a page that needs a new page table, and one free frame is left. -/
theorem one_frame_left : ∃ events s, Run (Step randomConfig) (crowd 0) events s ∧ FreeList s 32 ∧ 8 < s.pcbCount ∧
    (s.pcb 8).isThread = false ∧ (s.pcb 8).pageDirectory = framePaddr 27 ∧
    hasFlag (frameWord s.mem 27 (getDirectoryIndex 0x3000000#32)) peP = false ∧ (∀ n, s.scsi n = .good) ∧
    (s.ticks = fun _ => 0#64) ∧ s.randomIndexVal = 45#32 := by
  obtain ⟨count₈, kernelTable, -⟩ := crowd_static 8
  obtain ⟨count, -, scsi, ticks, seed⟩ := crowd_static 9
  obtain ⟨run, free⟩ := crowd_run (show 9 ≤ 10 by decide)
  obtain ⟨process, own⟩ := (crowd 8).withProcess_pcb 27 0#32 16#32
  have unmapped {slot : ℕ} (bound : slot < 1024) (kernel : slot ≠ 0) (image : slot ≠ 4) (stack : slot ≠ 959) :
      hasFlag (frameWord (crowd 9).mem 27 slot) peP = false := by
    have word : frameWord (crowd 9).mem 27 slot = 0#32 :=
      withProcess_word kernelTable (by decide) bound kernel image stack
    rw [word]
    decide
  have missing : hasFlag (frameWord (crowd 9).mem 27 (getDirectoryIndex 0x2000000#32)) peP = false :=
    unmapped (by decide) (by decide) (by decide) (by decide)
  have good (n : ℕ) : (crowd 9).scsi n = .good := by rw [scsi]
  have known : 8 < (crowd 9).pcbCount := by
    decide
  have random : randomConfig.evictionStrategy = .random := rfl
  obtain ⟨s, ran, free', keeps⟩ := free.fault random (by decide) process own (by decide) missing good
  refine ⟨_, s, run.snoc (.fault known (notPresent_of_word own missing) ran), free', ?_, ?_, ?_, ?_, ?_, ?_, ?_⟩
  · rw [keeps.pcbCount]
    exact known
  · rw [keeps.pcb]
    exact process
  · rw [keeps.pcb]
    exact own
  · rw [keeps.words _ (by decide) (by decide)]
    exact unmapped (by decide) (by decide) (by decide) (by decide)
  · intro n
    rw [keeps.scsi, good]
  · rw [keeps.ticks, ticks]
  · rw [keeps.randomIndexVal, seed]

/-- The process touches another such page, which gets the last free frame: this is drawn when the page table is
allocated. -/
theorem victim_handed_out : ∃ s₀ events s use s₁ use₁ s₂,
    (boot (fun _ => 0#8) (fun _ _ => 0#8) (fun _ => .good) fun _ => 0#64).initMemory randomConfig = .ok s₀ ∧
      Run (LedgerStep randomConfig) (s₀, initialUse) events (s, use) ∧ AsksFor randomConfig s use s₁ use₁ ∧
      s₁.pageFreeHead = none ∧ s₁.selectPageForEviction randomConfig = .ok (framePaddr 32, s₂) ∧
      ¬SafeVictim s₁ use₁ (framePaddr 32) := by
  have booted := initMemory_initial (fun _ => 0#8) (fun _ _ => 0#8) (fun _ => .good) (fun _ => 0#64) randomConfig
  obtain ⟨events, s, run, free, known, process, own, missing, good, ticks, seed⟩ := one_frame_left
  obtain ⟨use, withUse⟩ := ledgerRun_of_run booted run
  have first := free.allocatePage randomConfig (by decide)
  obtain ⟨s₁, loads, free₁, blank, same, keeps⟩ := free.fillFrame (show 32 < pageablePages by decide)
    (show 27 < 32 by decide) good (diskLoc (s.pcb 8) 0x3000000#32) (blockCount (s.pcb 8) 0x3000000#32) 0
  have filled : (s.takeFree 32).fillFrame (s.pcb 8) 0x3000000#32 (framePaddr 32) = s₁ := congrArg Prod.snd loads
  have walk : getPageTable ((s.takeFree 32).fillFrame (s.pcb 8) 0x3000000#32 (framePaddr 32)).mem 0x3000000#32
      ((s.takeFree 32).pcb 8).pageDirectory = none := by
    have own₁ : ((s.takeFree 32).pcb 8).pageDirectory = framePaddr 27 := own
    rw [filled, own₁, getPageTable, pde_frame, same _ (by decide), missing]
    rfl
  have asks : AsksFor randomConfig s use _ _ :=
    .pageTable known process (notPresent_of_word own missing) first walk
  rw [filled] at asks
  have seed₁ : s₁.randomIndexVal = 45#32 := by rw [keeps.randomIndexVal, seed]
  have tick : s₁.ticks s₁.tickCount = 0#64 := by rw [keeps.ticks, ticks]
  have unpinned : (s₁.pageFrameInfo 32).pinned = false := by
    rw [FrameInfo.pinned, blank.2]
    decide
  obtain ⟨s₂, selected⟩ := select_first seed₁ tick unpinned
  rw [free₁.paddr 32 (by decide)] at selected
  refine ⟨_, events, s, use, s₁, _, s₂, booted, withUse, asks, free₁.head, selected, ?_⟩
  intro safe
  exact safe.notHanded (update_self ..)

end MicroOs.Paging
