import MicroOs.Library.CacheHistory
import MicroOs.Paging.Image

/-! # The order of the queue

The queue lists the frames that hold demand-loaded pages in the order in which the pages were loaded, and each eviction
takes the first of them. The pages are those of the ghost trace: loaded and not evicted since. Nothing is asked of the
page tables here, so images may have any size.
-/

namespace MicroOs.Paging

open BitMask Memory Function List Kernel

/-- What an event does to the demand-loaded pages, which are held under the index of their frame. -/
def PageEvent.move : PageEvent → Option (Move ℕ (ℕ × BitVec 32))
  | .loaded index owner vaddr => some (.load index (owner, vaddr))
  | .evicted index => some (.evict index)
  | .refused _ => none
  | .diskRead _ _ => none
  | .diskWrite _ _ => none

def Kernel.moves (s : Kernel) : List (Move ℕ (ℕ × BitVec 32)) := s.trace.filterMap PageEvent.move

/-- The frames that hold demand-loaded pages, with process and page, in the order of the loads. -/
def Kernel.residents (s : Kernel) : List (ℕ × ℕ × BitVec 32) := Move.residents s.moves

/-- The queue agrees with the history. -/
structure Residency (s : Kernel) (queue : List ℕ) : Prop where
  queue_eq : s.residents.map Prod.fst = queue
  records : ∀ frame p page, (frame, p, page) ∈ s.residents →
    (s.pageFrameInfo frame).owner = some (.pcb p) ∧ (s.pageFrameInfo frame).vaddr = page
  oldest : Move.OldestFirst s.moves
  accepted : ∀ frame, .refused frame ∉ s.trace

variable {s s' : Kernel} {next next' p frame : ℕ} {queue queue' : List ℕ} {vaddr : BitVec 32}

theorem Residency.member {page : BitVec 32} (residency : Residency s queue) (held : (frame, p, page) ∈ s.residents) :
    frame ∈ queue := by
  rw [← residency.queue_eq]
  exact mem_map.mpr ⟨_, held, rfl⟩

/-- Transfers and changes of other records do not concern the residents. -/
theorem Residency.quiet (residency : Residency s queue) (io : List PageEvent) (trace : s'.trace = s.trace ++ io)
    (transfers : ∀ event ∈ io, event.move = none ∧ ∀ frame, event ≠ .refused frame)
    (info : ∀ frame ∈ queue, (s'.pageFrameInfo frame).owner = (s.pageFrameInfo frame).owner ∧
      (s'.pageFrameInfo frame).vaddr = (s.pageFrameInfo frame).vaddr) : Residency s' queue := by
  have none := filterMap_eq_nil_iff.mpr fun event member => (transfers event member).1
  have moves : s'.moves = s.moves := by
    rw [moves, trace, filterMap_append, none, append_nil, moves]
  have residents : s'.residents = s.residents := by rw [residents, moves, residents]
  refine ⟨by rw [residents, residency.queue_eq], ?_, by rw [moves]; exact residency.oldest, ?_⟩
  · intro frame p page held
    rw [residents] at held
    obtain ⟨owner, vaddr⟩ := info frame (residency.member held)
    rw [owner, vaddr]
    exact residency.records frame p page held
  · intro frame refused
    rw [trace] at refused
    rcases mem_append.mp refused with before | transfer
    · exact residency.accepted frame before
    · exact (transfers _ transfer).2 frame rfl

theorem Residency.congr (residency : Residency s queue) (trace : s'.trace = s.trace)
    (info : ∀ frame ∈ queue, s'.pageFrameInfo frame = s.pageFrameInfo frame) : Residency s' queue := by
  apply residency.quiet []
  · rw [trace, append_nil]
  · simp
  · intro frame member
    rw [info frame member]
    exact ⟨rfl, rfl⟩

theorem Residency.evictFrame {rest : List ℕ} (residency : Residency s (frame :: rest)) (nodup : (frame :: rest).Nodup)
    (p : ℕ) : Residency (s.evictFrame frame p) rest := by
  obtain ⟨_, _, _, _, io, result, writes⟩ := s.evictFrame_eq frame p
  have none : io.filterMap PageEvent.move = [] := by
    apply filterMap_eq_nil_iff.mpr
    intro event member
    obtain ⟨sector, count, rfl⟩ := writes event member
    rfl
  have trace : (s.evictFrame frame p).trace = s.trace ++ io ++ [.evicted frame] := by rw [result]
  have moves : (s.evictFrame frame p).moves = s.moves ++ [.evict frame] := by
    rw [Kernel.moves, trace, filterMap_append, filterMap_append, none, append_nil]
    rfl
  have keys := residency.queue_eq
  obtain ⟨⟨first, value⟩, others, residents, rfl, rest_eq⟩ := map_eq_cons_iff.mp keys
  have residents' : (s.evictFrame first p).residents = others := by
    rw [Kernel.residents, moves]
    exact Move.residents_evict residents (by rwa [← Kernel.residents, keys])
  refine ⟨by rw [residents', rest_eq], ?_, by rw [moves]; exact residency.oldest.evict residents, ?_⟩
  · intro other q page held
    rw [residents'] at held
    have apart : other ≠ first := by
      rintro rfl
      apply (nodup_cons.mp nodup).1
      rw [← rest_eq]
      exact mem_map.mpr ⟨_, held, rfl⟩
    rw [Kernel.evictFrame_pageFrameInfo, update_of_ne apart]
    exact residency.records other q page (by rw [residents]; simp [held])
  · intro other refused
    rw [trace] at refused
    rcases mem_append.mp refused with earlier | last
    · rcases mem_append.mp earlier with before | transfer
      · exact residency.accepted other before
      · obtain ⟨sector, count, same⟩ := writes _ transfer
        cases same
    · simp at last

section

variable (residency : Residency s queue)
include residency

theorem Residency.allocated (alloc : AllocInv s next queue)
    (allocated : Allocated s next queue frame s' next' queue') : Residency s' queue' := by
  cases allocated with
  | free available =>
    refine residency.congr rfl ?_
    intro other member
    exact update_of_ne (alloc.inUse other member).2.ne ..
  | evict owner unmapped => exact residency.evictFrame alloc.nodup _

theorem Residency.withPage {table : ℕ} (unqueued : frame ∉ queue) :
    Residency (s.withPage p frame table vaddr) (queue ++ [frame]) := by
  have moves : (s.withPage p frame table vaddr).moves = s.moves ++ [.load frame (p, pageBase vaddr)] := by
    simp only [Kernel.moves, Kernel.withPage, filterMap_append]
    rfl
  have residents : (s.withPage p frame table vaddr).residents = s.residents ++ [(frame, p, pageBase vaddr)] := by
    rw [Kernel.residents, moves, Move.residents_load, Kernel.residents]
  refine ⟨by rw [residents, map_append, residency.queue_eq]; rfl, ?_,
    by rw [moves]; exact residency.oldest.load _ _, ?_⟩
  · intro other q page held
    rw [residents] at held
    rcases mem_append.mp held with old | new
    · rw [withPage_info (ne_of_mem_of_not_mem (residency.member old) unqueued)]
      exact residency.records other q page old
    · obtain ⟨rfl, rfl, rfl⟩ : other = frame ∧ q = p ∧ page = pageBase vaddr := by simpa using new
      exact ⟨withPage_owner, withPage_vaddr⟩
  · intro other refused
    have before : PageEvent.refused other ∈ s.trace := by simpa [Kernel.withPage] using refused
    exact residency.accepted other before

theorem Residency.constructed (alloc : AllocInv s next queue)
    (constructed : Constructed s next queue p s' next' queue') : Residency s' queue' := by
  obtain @⟨directory, table, stack, _, _, _, _, _, _, s₁, s₂, s₃, first, second, -, third⟩ := constructed
  obtain ⟨alloc₁, fresh₁⟩ := first.inv alloc
  have residency₁ : Residency (s₁.withDirectory p directory) _ := (residency.allocated alloc first).congr rfl
    fun index member => update_of_ne (ne_of_mem_of_not_mem member fresh₁.unqueued) ..
  obtain ⟨alloc₂, fresh₂⟩ := second.inv (alloc₁.withDirectory fresh₁ p)
  have residency₂ : Residency (s₂.withTable p directory table) _ :=
    (residency₁.allocated (alloc₁.withDirectory fresh₁ p) second).congr rfl
      fun index member => update_of_ne (ne_of_mem_of_not_mem member fresh₂.unqueued) ..
  obtain ⟨alloc₃, fresh₃⟩ := third.inv (alloc₂.withTable fresh₂ p directory)
  exact (residency₂.allocated (alloc₂.withTable fresh₂ p directory) third).congr rfl
    fun index member => update_of_ne (ne_of_mem_of_not_mem member fresh₃.unqueued) ..

theorem Residency.readInto (p frame : ℕ) (vaddr : BitVec 32) : Residency (s.readInto p frame vaddr) queue := by
  obtain ⟨mem, scsiCount, io, result, transfer⟩ := s.readInto_frame p frame vaddr
  rw [result]
  apply residency.quiet io rfl
  · intro event member
    rw [transfer, mem_singleton] at member
    rw [member]
    exact ⟨rfl, nofun⟩
  · intros
    exact ⟨rfl, rfl⟩

theorem Residency.loaded (alloc : AllocInv s next queue)
    (loaded : Loaded s next queue p vaddr s' next' queue') : Residency s' queue' := by
  cases loaded with
  | found first good present outside =>
    obtain ⟨-, fresh⟩ := first.inv alloc
    exact ((residency.allocated alloc first).readInto p _ vaddr).withPage fresh.unqueued
  | @added frame table next₁ next₂ queue₁ queue₂ s₁ s₂ first good absent second =>
    obtain ⟨alloc₁, fresh₁⟩ := first.inv alloc
    have alloc₂ := alloc₁.readInto p frame vaddr
    obtain ⟨alloc₃, fresh₃⟩ := second.inv alloc₂
    have residency₂ := ((residency.allocated alloc first).readInto p frame vaddr).allocated alloc₂ second
    have residency₃ : Residency (s₂.withNewTable p table vaddr) queue₂ := residency₂.congr rfl
      fun index member => update_of_ne (ne_of_mem_of_not_mem member fresh₃.unqueued) ..
    exact residency₃.withPage (second.fresh (fresh₁.readInto p frame vaddr)).unqueued

end

/-- The events considered here. Faults are raised inside of the images, which may have any size, and accesses are
followed as long as the page table and the page lie behind the kernel's own memory. -/
def FaultsInImages (s : Kernel) : Event → Prop
  | .setup _ _ _ => True
  | .fault p vaddr _ => InImage (s.pcb p) vaddr
  | .read p vaddr _ | .write p vaddr _ => InImage (s.pcb p) vaddr ∧
      inKernelArea (entryBase (pde s.mem (s.pcb p).pageDirectory vaddr)) = false ∧
      inKernelArea (entryBase (pte s.mem (s.pcb p).pageDirectory vaddr)) = false

/-- The queue and its history are kept by every event. -/
theorem Residency.step {event : Event} (alloc : AllocInv s next queue) (residency : Residency s queue)
    (step : Step config s event s') : ∃ next' queue', AllocInv s' next' queue' ∧ Residency s' queue' := by
  cases step with
  | @setup _ isThread swapLoc swapSize ran =>
    cases isThread with
    | true =>
      rw [createThread_eq] at ran
      cases ran
      exact ⟨next, queue, alloc.congr rfl rfl rfl, residency.congr rfl fun _ _ => rfl⟩
    | false =>
      rw [createPcb_eq] at ran
      have alloc₁ := alloc.withPcb false swapLoc swapSize
      have residency₁ : Residency (s.withPcb false swapLoc swapSize) queue := residency.congr rfl fun _ _ => rfl
      obtain ⟨next', queue', constructed⟩ := (alloc₁.setupProcessVmem_iff (by rw [withPcb_self])).mp ran
      exact ⟨next', queue', constructed.inv alloc₁, residency₁.constructed alloc₁ constructed⟩
  | fault known absent ran =>
    obtain ⟨-, -, next', queue', loaded⟩ := alloc.pageFaultHandler_iff.mp ran
    exact ⟨next', queue', loaded.inv alloc, residency.loaded alloc loaded⟩
  | read known user ran =>
    obtain ⟨page, -, result⟩ := Option.map_eq_some_iff.mp ran
    cases result
    exact ⟨next, queue, alloc.congr rfl rfl rfl, residency.congr rfl fun _ _ => rfl⟩
  | write known user ran =>
    simp only [userWrite, Option.ite_none_right_eq_some, Option.map_eq_some_iff] at ran
    obtain ⟨-, page, -, rfl⟩ := ran
    exact ⟨next, queue, alloc.congr rfl rfl rfl, residency.congr rfl fun _ _ => rfl⟩

/-- The bookkeeping of the queue, as its fields show it. -/
structure FifoExact (s : Kernel) : Prop where
  contents : ringView s.fifoQueue.queue pageablePages s.fifoQueue.nextOut s.fifoQueue.items.toNat =
    s.residents.map Prod.fst
  nodup : (s.residents.map Prod.fst).Nodup
  items : (s.fifoQueue.items.toNat : ℤ) = ((s.fifoQueue.nextIn : ℤ) - s.fifoQueue.nextOut) % pageablePages
  records : ∀ frame p page, (frame, p, page) ∈ s.residents → frame < pageablePages ∧
    (s.pageFrameInfo frame).owner = some (.pcb p) ∧ (s.pageFrameInfo frame).vaddr = page ∧
    (s.pageFrameInfo frame).pinned = false
  accepted : ∀ frame, .refused frame ∉ s.trace
  oldest : Move.OldestFirst s.moves

theorem Residency.exact (alloc : AllocInv s next queue) (residency : Residency s queue) : FifoExact s where
  contents := by rw [alloc.represents.items_toNat, alloc.represents.contents, residency.queue_eq]
  nodup := by
    rw [residency.queue_eq]
    exact alloc.nodup
  items := by
    have positions := alloc.represents.items_eq_positions
    have out := alloc.represents.nextOut_lt
    rw [pageablePages] at *
    omega
  records frame p page held := by
    obtain ⟨owner, vaddr⟩ := residency.records frame p page held
    have member := residency.member held
    refine ⟨(alloc.inUse frame member).2.trans_le alloc.bound, owner, vaddr, ?_⟩
    rw [FrameInfo.pinned, (alloc.evictable frame member).1]
    decide
  accepted := residency.accepted
  oldest := residency.oldest

theorem residency_initial (mem : Memory) (disk : BitVec 32 → Memory) (scsi : ℕ → ScsiResult) (ticks : ℕ → BitVec 64) :
    Residency (initial mem disk scsi ticks) [] where
  queue_eq := rfl
  records _ _ _ held := nomatch held
  oldest := Move.oldestFirst_nil
  accepted _ refused := nomatch refused

/-- The allocator and the queue are in order in every state that is reached. -/
theorem residency_of_run {mem : Memory} {disk : BitVec 32 → Memory} {scsi : ℕ → ScsiResult} {ticks : ℕ → BitVec 64}
    {s₀ : Kernel} {events : List Event} (booted : (boot mem disk scsi ticks).initMemory config = .ok s₀)
    (run : Run (Step config) s₀ events s) : ∃ next queue, AllocInv s next queue ∧ Residency s queue := by
  rw [initMemory_eq] at booted
  cases booted
  refine run.invariant (fun s => ∃ next queue, AllocInv s next queue ∧ Residency s queue) ?_
    ⟨3, [], allocInv_initial mem disk scsi ticks, residency_initial mem disk scsi ticks⟩
  rintro before event after ⟨next, queue, alloc, residency⟩ taken
  exact residency.step alloc taken

/-- In every run of set-ups and of faults inside the images, whatever their sizes, the queue is exact. -/
theorem fifo_exact {mem : Memory} {disk : BitVec 32 → Memory} {scsi : ℕ → ScsiResult} {ticks : ℕ → BitVec 64}
    {s₀ : Kernel} {events : List Event} (booted : (boot mem disk scsi ticks).initMemory config = .ok s₀)
    (run : Run (Guarded FaultsInImages (Step config)) s₀ events s) : FifoExact s := by
  obtain ⟨next, queue, alloc, residency⟩ := residency_of_run booted (run.mono And.right)
  exact residency.exact alloc

/-- A process with two image pages, one of which has been loaded. -/
theorem fifo_exact_first_page : ∃ s₀ s,
    (boot (fun _ => 0#8) (fun _ _ => 0#8) (fun _ => .good) fun _ => 0#64).initMemory config = .ok s₀ ∧
      Run (Guarded FaultsInImages (Step config)) s₀ [.setup false 0#32 16#32, .fault 0 0x1000000#32 4#32] s ∧
      FifoExact s := by
  obtain ⟨s₁, s, role, ⟨-, first⟩, ⟨inside, second⟩, -⟩ := first_page_loaded fun _ _ => 0#8
  have setup : Guarded FaultsInImages (Step config) _ (.setup false 0#32 16#32) s₁ := ⟨trivial, first⟩
  have fault : Guarded FaultsInImages (Step config) s₁ (.fault 0 0x1000000#32 4#32) s := ⟨inside, second⟩
  have run := (Run.single setup).snoc fault
  exact ⟨_, s, initMemory_eq .., run, fifo_exact (initMemory_eq ..) run⟩

end MicroOs.Paging
