import MicroOs.Paging.Image

/-! # Isolation of address spaces

A process reaches the video page and its own pages, as long as every page directory and every page table is built in
a frame from the free list. An evicted frame is handed out as it is. A directory or a table that is built in one keeps
the words of the old page in all entries that the set-up does not write, and those are then read as entries.
-/

namespace MicroOs.Paging

open BitMask Memory Kernel Function

/-- All entries except for those of the kernel's part of the address space. -/
def userScope : Scope where
  directorySlot slot := slot ≠ 0
  tableSlot _ _ := True

def Kernel.TwoFree (s : Kernel) : Prop :=
  match s.pageFreeHead with
  | none => False
  | some first => (s.pageFrameInfo first).nextFreePage ≠ none

/-- Directories and tables are built in frames from the free list: two for a process, and one for a fault on an
absent directory entry. -/
def TablesFromFreeList (s : Kernel) : Event → Prop
  | .setup isThread _ _ => isThread = false → s.TwoFree
  | .fault p vaddr _ => hasFlag (pde s.mem (s.pcb p).pageDirectory vaddr) peP = false → s.TwoFree
  | .read _ _ _ => True
  | .write _ _ _ => True

/-- Where a user access may lead: to the video page, or to a frame that `p` owns and that is no directory and no
table. -/
def Kernel.MayReach (s : Kernel) (p page : ℕ) : Prop :=
  page = vgaTextPaddr ∨ ∃ frame < pageablePages, page = framePaddr frame ∧
    (s.pageFrameInfo frame).owner = some (.pcb p) ∧
    ∀ q < s.pcbCount, page ≠ (s.pcb q).pageDirectory ∧ ∀ vaddr,
      hasFlag (pde s.mem (s.pcb q).pageDirectory vaddr) peP = true →
        page ≠ entryBase (pde s.mem (s.pcb q).pageDirectory vaddr)

variable {s s' : Kernel} {next p : ℕ} {queue : List ℕ} {role : ℕ → Role} {vaddr : BitVec 32}

theorem FreeList.twoFree (free : FreeList s next) (two : s.TwoFree) : next + 2 ≤ pageablePages := by
  simp only [Kernel.TwoFree, free.head] at two
  by_cases available : next < pageablePages
  · simp only [available, if_true, free.link next le_rfl available] at two
    split_ifs at two with more
    · omega
    · exact absurd rfl two
  · simp [available] at two

variable {page frame table slot : ℕ}

section

variable (inv : SystemInv userScope s next queue role)
include inv

theorem SystemInv.userPage_cases (known : p < s.pcbCount)
    (process : (s.pcb p).isThread = false) (reached : s.userPage p vaddr = some page) :
    page = vgaTextPaddr ∨ ∃ frame table slot, page = framePaddr frame ∧ role frame = .page p table slot := by
  obtain ⟨directoryPresent, tablePresent, -, tableUser, rfl⟩ := userPage_eq_some.mp reached
  obtain ⟨directory, table, walk, -, kernel | table_ok⟩ :=
    inv.map.walk known process directoryPresent fun other => other
  · obtain ⟨-, rfl⟩ := kernel
    rw [walk.pte_eq] at tableUser ⊢
    obtain ⟨-, base, video⟩ := inv.kernel.identity (inv.started p known process) _ (getTableIndex_lt vaddr)
    left
    rw [base, video tableUser]
    rfl
  · rw [walk.pte_eq] at tablePresent ⊢
    obtain ⟨frame, base, isPage⟩ := table_ok.pages _ (getTableIndex_lt vaddr) trivial tablePresent
    exact .inr ⟨frame, table, _, base, isPage⟩

theorem SystemInv.userPage_thread (known : p < s.pcbCount)
    (thread : (s.pcb p).isThread = true) : s.userPage p vaddr = none := by
  have closed : hasFlag (pde s.mem (s.pcb p).pageDirectory vaddr) peUs = false := by
    rw [inv.threads p known thread, pde_frame, inv.kernel.closed _ (getDirectoryIndex_lt vaddr)]
  simp [userPage, bothHave, closed]

theorem SystemInv.page_apart {q : ℕ} (isPage : role frame = .page p table slot) (known : q < s.pcbCount) :
    framePaddr frame ≠ (s.pcb q).pageDirectory ∧ ∀ vaddr, hasFlag (pde s.mem (s.pcb q).pageDirectory vaddr) peP = true →
      framePaddr frame ≠ entryBase (pde s.mem (s.pcb q).pageDirectory vaddr) := by
  have apart {other : ℕ} {is : Role} (has : role other = is) (different : is ≠ .page p table slot) :
      framePaddr frame ≠ framePaddr other := by
    intro same
    obtain rfl := framePaddr_injective same
    exact different (has.symm.trans isPage)
  cases thread : (s.pcb q).isThread with
  | true =>
    rw [inv.threads q known thread]
    refine ⟨apart inv.map.kernel.1 nofun, ?_⟩
    intro vaddr present
    rw [pde_frame] at present ⊢
    rw [inv.kernel.single _ (getDirectoryIndex_lt vaddr) present]
    exact apart inv.map.kernel.2.1 nofun
  | false =>
    obtain ⟨directory, pointer, ok⟩ := inv.map.spaces q known thread
    refine ⟨by rw [pointer]; exact apart ok.role_eq nofun, ?_⟩
    intro vaddr present
    obtain ⟨directory', table', walk, -, kernel | table_ok⟩ := inv.map.walk known thread present fun other => other
    · rw [walk.pde_eq, walk.base, kernel.2]
      exact apart inv.map.kernel.2.2 nofun
    · rw [walk.pde_eq, walk.base]
      exact apart table_ok.role_eq nofun

theorem SystemInv.mayReach (known : p < s.pcbCount)
    (reached : s.userPage p vaddr = some page) : s.MayReach p page := by
  cases thread : (s.pcb p).isThread with
  | true => simp [inv.userPage_thread known thread] at reached
  | false =>
    rcases inv.userPage_cases known thread reached with video | ⟨frame, table, slot, rfl, isPage⟩
    · exact .inl video
    · have bound : frame < pageablePages := (inv.map.bound (by simp [isPage])).trans_le inv.alloc.bound
      exact .inr ⟨frame, bound, rfl, inv.map.owner frame p table slot isPage,
        fun q known => inv.page_apart isPage known⟩

theorem SystemInv.access {bits : BitVec 32}
    (known : p < s.pcbCount) (process : (s.pcb p).isThread = false) (reached : s.userPage p vaddr = some page)
    (access : AccessBits bits) : SystemInv userScope (s.touch p vaddr bits) next queue role := by
  obtain ⟨directoryPresent, -⟩ := userPage_eq_some.mp reached
  obtain ⟨directory, table, walk, -⟩ := inv.map.walk known process directoryPresent fun other => other
  exact inv.touch walk access

/-- The kernel's part of a user address space is completely mapped, so that no fault is raised there. -/
theorem SystemInv.covers (known : p < s.pcbCount)
    (process : (s.pcb p).isThread = false) (absent : s.NotPresent p vaddr) : userScope.Covers p vaddr := by
  refine ⟨?_, trivial⟩
  intro kernelPart
  obtain ⟨directory, pointer, ok⟩ := inv.map.spaces p known process
  rw [Kernel.NotPresent, pointer, pde_frame, kernelPart, ok.present 0 (.inl rfl)] at absent
  have base : entryBase (pde s.mem (framePaddr directory) vaddr) = framePaddr 2 := by
    rw [pde_frame, kernelPart, ok.kernel_base]
  rw [pte_frame base, (inv.kernel.identity (inv.started p known process) _ (getTableIndex_lt vaddr)).1] at absent
  simp at absent

end

/-- What every step of a guarded run keeps. -/
def Confined (s : Kernel) : Prop := ∃ next queue role, SystemInv userScope s next queue role

theorem Confined.setup {isThread : Bool} {swapLoc swapSize : BitVec 32} (confined : Confined s)
    (two : isThread = false → s.TwoFree) (ran : s.createPcb config isThread swapLoc swapSize = .ok s') :
    Confined s' := by
  obtain ⟨next, queue, role, inv⟩ := confined
  cases isThread with
  | true =>
    rw [createThread_eq] at ran
    cases ran
    exact ⟨next, queue, role, inv.createThread swapLoc swapSize⟩
  | false =>
    obtain ⟨next', queue', role', inv', -⟩ := inv.createProcess ran (fun other => other rfl)
      (.inl (inv.alloc.twoFree (two rfl)))
    exact ⟨next', queue', role', inv'⟩

/-- With tables from the free list, every event keeps the walks of user code described. -/
theorem Confined.step {event : Event} (confined : Confined s)
    (taken : Guarded TablesFromFreeList (Step config) s event s') : Confined s' := by
  obtain ⟨guard, step⟩ := taken
  cases step with
  | setup ran => exact confined.setup guard ran
  | fault known absent ran =>
    obtain ⟨next, queue, role, inv⟩ := confined
    obtain ⟨-, process, -⟩ := inv.alloc.pageFaultHandler_iff.mp ran
    exact inv.fault known absent ran (inv.covers known process absent) fun missing => inv.alloc.twoFree (guard missing)
  | read known user ran =>
    obtain ⟨next, queue, role, inv⟩ := confined
    obtain ⟨page, reached, result⟩ := Option.map_eq_some_iff.mp ran
    cases result
    exact ⟨next, queue, role, inv.access known user reached (.inl rfl)⟩
  | write known user ran =>
    obtain ⟨next, queue, role, inv⟩ := confined
    simp only [userWrite, Option.ite_none_right_eq_some, Option.map_eq_some_iff] at ran
    obtain ⟨-, page, reached, rfl⟩ := ran
    exact ⟨next, queue, role, (inv.access known user reached (.inr rfl)).store _ _ (Nat.mod_lt _ (by decide))
      (inv.userPage_cases known user reached)⟩

/-- A table built in an evicted frame keeps the words of the page that was there, but for those of the image and the
stack. -/
theorem Constructed.table_stale {scope : Scope} {next' : ℕ} {rest queue' : List ℕ} (slot : ℕ)
    (constructed : Constructed s next (frame :: rest) p s' next' queue') (alloc : AllocInv s next (frame :: rest))
    (map : MapInv scope s p next (frame :: rest) role) (kernelTable : s.userKernelPtable = framePaddr 2)
    (last : next + 1 = pageablePages) (bound : slot < 1024) (notStack : slot ≠ 1023)
    (outside : ¬Enters (pagesFrom 0 (imageBytes (s'.pcb p)).toNat) slot) :
    ∃ directory, (s'.pcb p).pageDirectory = framePaddr directory ∧
      frameWord s'.mem directory 4 = dirEntry (BitVec.ofNat 32 (framePaddr frame)) userMode ∧
      frameWord s'.mem frame slot = frameWord s.mem frame slot := by
  obtain ⟨directory, table, stack, next₁, next₂, queue₁, queue₂, s₁, s₂, role', first, second, -, space⟩ :=
    constructed.space alloc map kernelTable
  obtain ⟨p', directory', table', ready, -, resident⟩ := map.queued frame (by simp)
  have frameBound : frame < next := map.bound (by simp [resident.page_role])
  have evolves := Evolves.addDirectory alloc map kernelTable le_rfl first
  obtain ⟨alloc₁, map₁⟩ := evolves.inv alloc map
  obtain ⟨rfl, rfl, rfl, rfl⟩ := first.of_free (by omega)
  -- the free list is used up by the directory, so the table is built in the oldest queued frame
  rw [last] at second alloc₁ map₁
  have isPage : update role directory (.directory p) frame = _ :=
    (update_of_ne frameBound.ne ..).trans resident.page_role
  have untouched : SameFrame _ s₂.mem frame := map₁.allocated_sameFrame second (by simp [isPage])
    (by simp [isPage])
  cases second with
  | free available => exact absurd available (lt_irrefl _)
  | evict owner unmapped =>
    have kernelApart : frame ≠ 2 := ne_of_role map.kernel.2.2 resident.page_role nofun
    have same := ((sameFrame_takeFree (.inl frameBound)).trans
      (sameFrame_withDirectory kernelTable frameBound.ne kernelApart)).trans untouched
    refine ⟨directory, space.pointer, ?_, ?_⟩
    · rw [space.directory_word 4 (by decide), if_pos (.inl rfl)]
    · rw [space.table_rest slot bound notStack outside, same.word bound]

/-- In every run whose directories and tables come from the free list, user accesses stay inside the address space. -/
theorem isolation {mem : Memory} {disk : BitVec 32 → Memory} {scsi : ℕ → ScsiResult} {ticks : ℕ → BitVec 64}
    {s₀ : Kernel} {events : List Event} {page : ℕ}
    (booted : (boot mem disk scsi ticks).initMemory config = .ok s₀)
    (run : Run (Guarded TablesFromFreeList (Step config)) s₀ events s) (known : p < s.pcbCount)
    (reached : s.userPage p vaddr = some page) : s.MayReach p page := by
  rw [initMemory_eq] at booted
  cases booted
  have initial : Confined (initial mem disk scsi ticks) := ⟨3, [], kernelRoles, systemInv_initial _ ..⟩
  obtain ⟨next, queue, role, inv⟩ := run.invariant Confined Confined.step initial
  exact inv.mayReach known reached

theorem NewSpace.userPage_stack {directory stack : ℕ} {oldDirectory oldTable : Memory}
    (space : NewSpace s role p directory table stack oldDirectory oldTable) :
    s.userPage p processStackVaddr = some (framePaddr stack) := by
  have directoryWord : pde s.mem (framePaddr directory) processStackVaddr =
      dirEntry (BitVec.ofNat 32 (framePaddr table)) userMode := by
    rw [pde_frame, getDirectoryIndex_processStackVaddr, space.directory_word 959 (by decide), if_pos (.inr rfl)]
  have tableWord : pte s.mem (framePaddr directory) processStackVaddr =
      tableEntry (BitVec.ofNat 32 (framePaddr stack)) userMode := by
    rw [pte_frame (by rw [directoryWord, entryBase_dirEntry_frame space.table_bound]), getTableIndex_processStackVaddr,
      space.stack_word]
  rw [userPage_eq_some, space.pointer, directoryWord, tableWord, peP, peUs, hasFlag_dirEntry _ _ (by decide),
    hasFlag_tableEntry _ _ (by decide), hasFlag_dirEntry _ _ (by decide), hasFlag_tableEntry _ _ (by decide),
    entryBase_tableEntry_frame space.stack_bound]
  exact ⟨by decide, by decide, by decide, by decide, rfl⟩

/-- The first process may use its stack. -/
theorem isolation_first_stack : ∃ s₀ s page,
    (boot (fun _ => 0#8) (fun _ _ => 0#8) (fun _ => .good) fun _ => 0#64).initMemory config = .ok s₀ ∧
      Run (Guarded TablesFromFreeList (Step config)) s₀ [.setup false 0#32 16#32] s ∧ 0 < s.pcbCount ∧
      s.userPage 0 processStackVaddr = some page ∧ s.MayReach 0 page := by
  have inv := imageInv_initial (fun _ => 0#8) (fun _ _ => 0#8) (fun _ => .good) fun _ => 0#64
  have short : ShortImage 16#32 := by decide
  obtain ⟨s, _, _, ran, constructed⟩ := inv.system.construct 0#32 (by decide) short.finite
  have two : (initial (fun _ => 0#8) (fun _ _ => 0#8) (fun _ => .good) fun _ => 0#64).TwoFree := by
    rw [Kernel.TwoFree, inv.system.alloc.head]
    simp only [pageablePages, Nat.reduceLT, if_true]
    decide
  have run : Run (Guarded TablesFromFreeList (Step config)) _ [.setup false 0#32 16#32] s :=
    .single ⟨fun _ => two, .setup ran⟩
  obtain ⟨-, count, -⟩ := constructed.static
  have known : 0 < s.pcbCount := by
    rw [count]
    exact Nat.succ_pos _
  obtain ⟨_, _, stack, _, _, _, _, _, _, _, -, -, -, space⟩ := constructed.space (inv.system.alloc.congr rfl rfl rfl)
    (inv.system.map.quiet le_rfl (quiet_withPcb _ _ false 0#32 16#32)) inv.system.kernel.userKernelPtable
  exact ⟨_, s, _, initMemory_eq .., run, known, space.userPage_stack,
    isolation (initMemory_eq ..) run known space.userPage_stack⟩

/-- A disk full of page table entries that lead to the kernel's page directory. -/
def leakDisk : BitVec 32 → Memory := fun _ i => if i % 4 = 0 then 0x07#8 else if i % 4 = 2 then 0x10#8 else 0x00#8

/-- Nine processes, two pages of the first one, and a tenth process. -/
def leakEvents : List Event :=
  [.setup true 0#32 0#32] ++ List.replicate 9 (.setup false 0#32 16#32) ++ [.fault 1 0x1000000#32 4#32] ++
    [.fault 1 0x1001000#32 4#32] ++ [.setup false 0#32 16#32]

theorem leakDisk_word (sector : BitVec 32) (bound : slot < 1024) :
    (readBuffer leakDisk sector 8#32).readWord (4 * slot) = 0x100007#32 := by
  have byte (k : ℕ) (small : k < 4) : readBuffer leakDisk sector 8#32 (4 * slot + k) =
      if k = 0 then 0x07#8 else if k = 2 then 0x10#8 else 0x00#8 := by
    have inside : 4 * slot + k < sectorSize * (8#32).toNat := by
      rw [sectorSize, BitVec.toNat_ofNat]
      omega
    have offset : (4 * slot + k) % sectorSize % 4 = k := by
      rw [sectorSize]
      omega
    rw [readBuffer, if_pos inside, leakDisk, offset]
  have first := byte 0 (by decide)
  rw [Nat.add_zero] at first
  simp only [readWord, first, byte 1 (by decide), byte 2 (by decide), byte 3 (by decide)]
  decide

/-- A thread and nine processes leave three free frames. -/
theorem leak_prepared : ∃ s role, Run (Step config) (initial (fun _ => 0#8) leakDisk (fun _ => .good) fun _ => 0#64)
      ([.setup true 0#32 0#32] ++ List.replicate 9 (.setup false 0#32 16#32)) s ∧
    ImageInv s 30 [] role ∧ s.pcbCount = 10 ∧ s.disk = leakDisk ∧ (∀ n, s.scsi n = .good) ∧
    (s.pcb 0).isThread = true ∧ (s.pcb 1).isThread = false ∧ (s.pcb 1).swapSize = 16#32 := by
  have inv := (imageInv_initial (fun _ => 0#8) leakDisk (fun _ => .good) fun _ => 0#64).createThread 0#32 0#32
  have short : ShortImage 16#32 := by decide
  obtain ⟨s, role, run, inv', count, disk, scsi, older, newer⟩ := inv.createProcesses 0#32 short 9 (by decide)
  obtain ⟨process, -, size⟩ := newer 1 (by rw [count]; exact Nat.succ_lt_succ (Nat.zero_lt_succ _)) le_rfl
  have unguarded := run.mono And.right
  refine ⟨s, role, .append (.single (.setup (createThread_eq 0#32 0#32))) unguarded, inv', count, disk, ?_, ?_, process,
    size⟩
  · intro n
    rw [scsi]
    rfl
  · rw [older 0 Nat.one_pos]
    rfl

/-- The first page of process 1 is loaded into frame 30 and stays there while the second one is loaded. -/
theorem leak_loaded (inv : ImageInv s 30 [] role) (known : 1 < s.pcbCount) (disk : s.disk = leakDisk)
    (good : ∀ n, s.scsi n = .good) (process : (s.pcb 1).isThread = false) (size : (s.pcb 1).swapSize = 16#32) :
    ∃ s' role', Run (Step config) s [.fault 1 0x1000000#32 4#32, .fault 1 0x1001000#32 4#32] s' ∧
      ImageInv s' 32 [30, 31] role' ∧ frameWord s'.mem 30 6 = 0x100007#32 ∧ s'.pcbCount = s.pcbCount ∧
      s'.pcb = s.pcb := by
  have userRead : hasFlag 4#32 1#32 = false := by decide
  have inside (vaddr : BitVec 32) (lower : 0x1000000 ≤ vaddr.toNat) (upper : vaddr.toNat < 0x1002000) :
      InImage (s.pcb 1) vaddr := by
    rw [InImage, size]
    exact ⟨lower, upper⟩
  have inside₁ := inside 0x1000000#32 (by decide) (by decide)
  have inside₂ := inside 0x1001000#32 (by decide) (by decide)
  obtain ⟨s₁, next₁, queue₁, role₁, step₁, inv₁, load₁⟩ := inv.canLoad known process inside₁
    (inv.notPresent known process inside₁ (by simp)) (by decide)
    (fun first => first.good good) userRead
  obtain ⟨rfl, rfl, record, words, -⟩ := load₁.of_free inv (by decide)
  have static₁ := load₁.static
  rw [← static₁.pcb] at inside₂ process
  rw [← static₁.pcbCount] at known
  have absent : s₁.NotPresent 1 0x1001000#32 := by
    refine inv₁.notPresent known process inside₂ ?_
    intro frame member
    rw [List.nil_append, List.mem_singleton] at member
    rw [member, record]
    decide
  obtain ⟨s₂, next₂, queue₂, role₂, step₂, inv₂, load₂⟩ := inv₁.canLoad known process inside₂ absent (by decide)
    (fun first => first.good (by rwa [static₁.scsi])) userRead
  obtain ⟨rfl, rfl, -, -, -, kept⟩ := load₂.of_free inv₁ (by decide)
  have static := static₁.trans load₂.static
  refine ⟨s₂, role₂, .snoc (.single step₁.2) step₂.2, inv₂, ?_, static.pcbCount, static.pcb⟩
  have whole : blockCount (s.pcb 1) 0x1000000#32 = 8#32 := by
    rw [blockCount, size]
    decide
  rw [(kept 30 (by simp)).1.word (by decide), words 6 (by decide), disk, whole, leakDisk_word _ (by decide)]

/-- The tenth process reaches the page directory of the kernel behind its image: its table keeps the words of the
page that is evicted for it. -/
theorem stale_table_reaches_kernel : ∃ s₀ s,
    (boot (fun _ => 0#8) leakDisk (fun _ => .good) fun _ => 0#64).initMemory config = .ok s₀ ∧
      Run (Step config) s₀ leakEvents s ∧ 10 < s.pcbCount ∧ s.userPage 10 0x1006000#32 = some (framePaddr 0) ∧
      ¬s.MayReach 10 (framePaddr 0) := by
  have short : ShortImage 16#32 := by decide
  obtain ⟨s₁, role₁, run₁, inv₁, count₁, disk, good, thread, process, size⟩ := leak_prepared
  obtain ⟨s₂, role₂, run₂, inv₂, word, count₂, pcb₂⟩ := leak_loaded inv₁ (by omega) disk good process size
  obtain ⟨s, _, _, ran, -⟩ := inv₂.system.construct 0#32 (by decide) short.finite
  obtain ⟨next, queue, role, inv, constructed, -⟩ := inv₂.createProcess short ran
  obtain ⟨⟨pageDirectory, pcb⟩, count, -⟩ := constructed.static
  have last : s₂.pcbCount = 10 := count₂.trans count₁
  have count : s.pcbCount = 11 := by
    rw [count]
    exact congrArg (· + 1) last
  have image : imageBytes (s.pcb s₂.pcbCount) = 8192#32 := by
    rw [pcb, update_self, withPcb_self]
    exact (show 16#32 * BitVec.ofNat 32 sectorSize = 8192#32 by decide)
  obtain ⟨directory, pointer, directoryWord, tableWord⟩ := constructed.table_stale 6
    (inv₂.system.alloc.congr rfl rfl rfl) (inv₂.system.map.quiet le_rfl (quiet_withPcb _ _ false 0#32 16#32))
    inv₂.system.kernel.userKernelPtable (by decide) (by decide) (by decide) (by rw [image]; decide)
  rw [last] at pointer
  have reached : s.userPage 10 0x1006000#32 = some (framePaddr 0) := by
    have entry : pde s.mem (framePaddr directory) 0x1006000#32 = dirEntry (BitVec.ofNat 32 (framePaddr 30)) userMode :=
      (pde_frame ..).trans directoryWord
    have page : pte s.mem (framePaddr directory) 0x1006000#32 = 0x100007#32 :=
      (pte_frame (by rw [entry, entryBase_dirEntry_frame (by decide)])).trans (tableWord.trans word)
    rw [userPage_eq_some, pointer, entry, page]
    decide
  refine ⟨_, s, initMemory_eq .., ?_, by omega, reached, ?_⟩
  · exact ((run₁.append run₂).snoc (.setup ran))
  · rintro (video | ⟨frame, -, -, -, apart⟩)
    · exact absurd video (by decide)
    · refine (apart 0 (by omega)).1 (inv.system.threads 0 (by omega) ?_).symm
      rw [pcb, update_of_ne (by omega), withPcb_earlier (by omega), pcb₂, thread]

end MicroOs.Paging
