import MicroOs.Paging.Image

/-! # The records of the frames

Eviction finds the mapping of a frame through the record of the frame. In runs that stay inside of the images the
records and the page tables say the same: each record that is not pinned describes the one entry that leads to its
frame, and each present image entry leads to a frame with the matching record.
-/

namespace MicroOs.Paging

open BitMask Memory Kernel Function

/-- The walk of process `p` for an address ends in a frame. -/
structure Kernel.MapsTo (s : Kernel) (p : ℕ) (vaddr : BitVec 32) (frame : ℕ) : Prop where
  directory_present : hasFlag (pde s.mem (s.pcb p).pageDirectory vaddr) peP = true
  table_present : hasFlag (pte s.mem (s.pcb p).pageDirectory vaddr) peP = true
  base : entryBase (pte s.mem (s.pcb p).pageDirectory vaddr) = framePaddr frame

structure Kernel.RecordedFor (s : Kernel) (frame p : ℕ) (page : BitVec 32) : Prop where
  owner : (s.pageFrameInfo frame).owner = some (.pcb p)
  vaddr : (s.pageFrameInfo frame).vaddr = page

/-- The records of process frames are page addresses, and frames that are not queued are pinned and of no image page.
-/
def Recorded (s : Kernel) (queue : List ℕ) : Prop :=
  ∀ frame p, (s.pageFrameInfo frame).owner = some (.pcb p) →
    pageBase (s.pageFrameInfo frame).vaddr = (s.pageFrameInfo frame).vaddr ∧
      (frame ∈ queue ∨ (s.pageFrameInfo frame).pinned = true ∧ getDirectoryIndex (s.pageFrameInfo frame).vaddr ≠ 4)

variable {s s' : Kernel} {next next' p frame : ℕ} {queue queue' : List ℕ} {role : ℕ → Role} {vaddr : BitVec 32}

theorem Recorded.congr (recorded : Recorded s queue) (info : s'.pageFrameInfo = s.pageFrameInfo) :
    Recorded s' queue := by
  intro frame p owner
  rw [info] at owner ⊢
  exact recorded frame p owner

theorem Recorded.allocated (recorded : Recorded s queue) (allocated : Allocated s next queue frame s' next' queue') :
    Recorded s' queue' := by
  intro other p owner
  cases allocated with
  | free available =>
    rcases eq_or_ne other next with rfl | apart
    · simp only [takeFree, update_self, FrameInfo.pinned] at owner ⊢
      exact recorded other p owner
    · simp only [takeFree, update_of_ne apart] at owner ⊢
      exact recorded other p owner
  | @evict _ q _ _ unmapped =>
    rcases eq_or_ne other frame with rfl | apart
    · simp at owner
    · rw [evictFrame_pageFrameInfo, update_of_ne apart] at owner ⊢
      obtain ⟨aligned, place⟩ := recorded other p owner
      exact ⟨aligned, place.imp_left fun member => (List.mem_cons.mp member).resolve_left apart⟩

theorem Recorded.occupy {infoMode : BitVec 32} (recorded : Recorded s queue)
    (pinned : hasFlag infoMode peInfoPinned = true) (outside : getDirectoryIndex vaddr ≠ 4) (owner : PcbPtr) :
    Recorded (s.occupy frame owner vaddr infoMode) queue := by
  intro other p owned
  rcases eq_or_ne other frame with rfl | apart
  · simp only [Kernel.occupy, Kernel.setInfo, update_self, getDirectoryIndex_pageBase]
    exact ⟨pageBase_pageBase vaddr, .inr ⟨pinned, outside⟩⟩
  · simp only [Kernel.occupy, Kernel.setInfo, update_of_ne apart] at owned ⊢
    exact recorded other p owned

theorem getDirectoryIndex_framePaddr (bound : frame < pageablePages) :
    getDirectoryIndex (BitVec.ofNat 32 (framePaddr frame)) ≠ 4 := by
  rw [getDirectoryIndex_eq, framePaddr_toNat bound, framePaddr_eq]
  rw [pageablePages] at bound
  omega

theorem Recorded.constructed (recorded : Recorded s queue) (alloc : AllocInv s next queue)
    (constructed : Constructed s next queue p s' next' queue') : Recorded s' queue' := by
  obtain @⟨directory, table, stack, _, _, _, _, _, _, s₁, s₂, s₃, first, second, -, third⟩ := constructed
  obtain ⟨alloc₁, fresh₁⟩ := first.inv alloc
  obtain ⟨alloc₂, fresh₂⟩ := second.inv (alloc₁.withDirectory fresh₁ p)
  have pinned : hasFlag (peInfoUserMode ||| peInfoPinned) peInfoPinned = true := by decide
  have recorded₁ : Recorded (s₁.withDirectory p directory) _ := ((recorded.allocated first).occupy pinned
    (getDirectoryIndex_framePaddr (fresh₁.bound alloc₁)) (.pcb p)).congr rfl
  have recorded₂ : Recorded (s₂.withTable p directory table) _ := ((recorded₁.allocated second).occupy pinned
    (getDirectoryIndex_framePaddr (fresh₂.bound alloc₂)) (.pcb p)).congr rfl
  exact ((recorded₂.allocated third).occupy
    (show hasFlag (peInfoUserMode ||| peInfoPinned ||| peInfoStack) peInfoPinned =
    true by decide) (by decide) (.pcb p)).congr rfl

theorem Recorded.load {role' : ℕ → Role} (recorded : Recorded s queue)
    (load : ImageLoad s next queue role p vaddr s' next' queue' role') : Recorded s' queue' := by
  obtain @⟨frame, next₁, directory, table, queue₁, s₁, first, good, vacant⟩ := load
  have read : Recorded (s₁.readInto p frame vaddr) queue₁ :=
    (recorded.allocated first).congr (by rw [readInto_eq good])
  intro other q owner
  rcases eq_or_ne other frame with rfl | apart
  · rw [withPage_vaddr, pageBase_pageBase]
    exact ⟨rfl, .inl (by simp)⟩
  · rw [withPage_info apart] at owner ⊢
    obtain ⟨aligned, place⟩ := read other q owner
    exact ⟨aligned, place.imp_left fun member => by simp [member]⟩

/-- Every transition records the frames that it hands out. -/
theorem Recorded.step {event : Event} {role' : ℕ → Role} (recorded : Recorded s queue)
    (inv : ImageInv s next queue role)
    (step : ImageStep s next queue role event s' next' queue' role') : Recorded s' queue' := by
  cases step with
  | thread swapLoc swapSize | read at_frame | write at_frame => exact recorded.congr rfl
  | @process swapLoc swapSize _ _ _ _ short constructed evolves =>
    have before : Recorded (s.withPcb false swapLoc swapSize) queue := recorded.congr rfl
    exact before.constructed (inv.system.alloc.congr rfl rfl rfl) constructed
  | fault known process inside load => exact recorded.load load

theorem recorded_initial (mem : Memory) (disk : BitVec 32 → Memory) (scsi : ℕ → ScsiResult) (ticks : ℕ → BitVec 64) :
    Recorded (initial mem disk scsi ticks) [] := by
  have blank : Recorded (blank mem disk scsi ticks) [] := by
    intro frame p owner
    simp only [blank, initializePageFrameInfos, boot] at owner
    split_ifs at owner
  have pdir : Recorded (withKernelPdir mem disk scsi ticks) [] :=
    ((blank.allocated (.free (show 0 < pageablePages by decide))).occupy
      (show hasFlag (peInfoPinned ||| peInfoKernelDummy) peInfoPinned = true by decide)
      (getDirectoryIndex_framePaddr (by decide)) .dummyKernel).congr rfl
  have ptable : Recorded (withKernelPtable mem disk scsi ticks) [] :=
    ((pdir.allocated (.free (show 1 < pageablePages by decide))).occupy
      (show hasFlag peInfoPinned peInfoPinned = true by decide)
      (getDirectoryIndex_framePaddr (by decide)) .dummyKernel).congr rfl
  exact ((ptable.allocated (.free (show 2 < pageablePages by decide))).occupy
    (show hasFlag (peInfoPinned ||| peInfoKernelDummy) peInfoPinned = true by decide)
    (getDirectoryIndex_framePaddr (by decide)) .dummyKernel).congr rfl

/-- The records agree with the page tables of the images in both directions. -/
structure ReverseMapExact (s : Kernel) : Prop where
  mapped : ∀ frame < pageablePages, ∀ p page, s.RecordedFor frame p page → (s.pageFrameInfo frame).pinned = false →
    s.MapsTo p page frame
  unique : ∀ frame < pageablePages, ∀ p page, s.RecordedFor frame p page → (s.pageFrameInfo frame).pinned = false →
    ∀ other < pageablePages, s.RecordedFor other p page → other = frame
  recorded : ∀ p < s.pcbCount, (s.pcb p).isThread = false → ∀ vaddr, InImage (s.pcb p) vaddr →
    hasFlag (pde s.mem (s.pcb p).pageDirectory vaddr) peP = true →
    hasFlag (pte s.mem (s.pcb p).pageDirectory vaddr) peP = true →
    ∃ frame < pageablePages, s.MapsTo p vaddr frame ∧ s.RecordedFor frame p (pageBase vaddr)

theorem Resident.mapsTo {scope : Scope} {directory table : ℕ}
    (resident : Resident scope s role frame p directory table) : s.MapsTo p (s.pageFrameInfo frame).vaddr frame := by
  have base : entryBase (pde s.mem (framePaddr directory) (s.pageFrameInfo frame).vaddr) = framePaddr table := by
    rw [pde_frame, resident.directory_base]
  refine ⟨?_, ?_, ?_⟩
  · rw [resident.pointer, pde_frame, resident.directory_present]
  · rw [resident.pointer, pte_frame base, resident.table_present]
  · rw [resident.pointer, pte_frame base, resident.table_base]

/-- A record that is not pinned belongs to a queued frame. -/
theorem Recorded.resident {page : BitVec 32} (recorded : Recorded s queue) (inv : ImageInv s next queue role)
    (record : s.RecordedFor frame p page)
    (image : getDirectoryIndex page = 4 ∨ (s.pageFrameInfo frame).pinned = false) :
    ∃ directory table, Resident (imageScope s.sizes) s role frame p directory table := by
  have queued : frame ∈ queue := by
    refine (recorded frame p record.owner).2.resolve_right ?_
    rintro ⟨pinned, outside⟩
    rw [record.vaddr] at outside
    rcases image with inside | unpinned
    · exact outside inside
    · rw [pinned] at unpinned
      cases unpinned
  obtain ⟨q, directory, table, -, -, resident⟩ := inv.system.map.queued frame queued
  obtain rfl : q = p := by simpa using resident.owner.symm.trans record.owner
  exact ⟨directory, table, resident⟩

theorem Recorded.exact (recorded : Recorded s queue) (inv : ImageInv s next queue role) : ReverseMapExact s where
  mapped frame _ p page record unpinned := by
    obtain ⟨directory, table, resident⟩ := recorded.resident inv record (.inr unpinned)
    rw [← record.vaddr]
    exact resident.mapsTo
  unique frame _ p page record unpinned other _ second := by
    obtain ⟨directory, table, resident⟩ := recorded.resident inv record (.inr unpinned)
    have image : getDirectoryIndex page = 4 := by
      rw [← record.vaddr]
      exact resident.directory_slot
    obtain ⟨directory', table', resident'⟩ := recorded.resident inv second (.inl image)
    have first := resident.mapsTo.base
    have third := resident'.mapsTo.base
    rw [record.vaddr] at first
    rw [second.vaddr, first] at third
    exact (framePaddr_injective third).symm
  recorded p known process vaddr inside _ present := by
    obtain ⟨frame, directory, table, at_frame⟩ := inv.pageAt known process inside present
    have record : s.RecordedFor frame p (pageBase vaddr) := by
      refine ⟨at_frame.resident.owner, ?_⟩
      rw [← (recorded frame p at_frame.resident.owner).1, at_frame.page]
    refine ⟨frame, (inv.system.alloc.inUse frame at_frame.queued).2.trans_le inv.system.alloc.bound, ⟨?_, present, ?_⟩,
      record⟩
    · exact inv.present known process inside
    · rw [at_frame.walk.pte_eq, at_frame.base]

/-- In every run that stays inside of short images the reverse map is exact. -/
theorem reverse_map_exact {mem : Memory} {disk : BitVec 32 → Memory} {scsi : ℕ → ScsiResult} {ticks : ℕ → BitVec 64}
    {s₀ : Kernel} {events : List Event} (booted : (boot mem disk scsi ticks).initMemory config = .ok s₀)
    (run : Run (Guarded InsideImages (Step config)) s₀ events s) : ReverseMapExact s := by
  rw [initMemory_eq] at booted
  cases booted
  have reached : ∃ next queue role, ImageInv s next queue role ∧ Recorded s queue := by
    refine run.invariant (fun s => ∃ next queue role, ImageInv s next queue role ∧ Recorded s queue) ?_
      ⟨3, [], kernelRoles, imageInv_initial mem disk scsi ticks, recorded_initial mem disk scsi ticks⟩
    rintro before event after ⟨next, queue, role, inv, recorded⟩ taken
    obtain ⟨next', queue', role', inv', step⟩ := inv.step taken
    exact ⟨next', queue', role', inv', recorded.step inv step⟩
  obtain ⟨next, queue, role, inv, recorded⟩ := reached
  exact recorded.exact inv

/-- A process with two image pages, one of which has been loaded. -/
theorem reverse_map_exact_first_page : ∃ s₀ s,
    (boot (fun _ => 0#8) (fun _ _ => 0#8) (fun _ => .good) fun _ => 0#64).initMemory config = .ok s₀ ∧
      Run (Guarded InsideImages (Step config)) s₀ [.setup false 0#32 16#32, .fault 0 0x1000000#32 4#32] s ∧
      ReverseMapExact s := by
  obtain ⟨s₁, s, role, first, second, -⟩ := first_page_loaded fun _ _ => 0#8
  have run := (Run.single first).snoc second
  exact ⟨_, s, initMemory_eq .., run, reverse_map_exact (initMemory_eq ..) run⟩

end MicroOs.Paging
