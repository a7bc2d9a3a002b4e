import MicroOs.Paging.System

/-! # What the frames are used for, with any settings

A ledger says what each frame has last been handed out for. It agrees with the records of the frames: directories,
stacks and the tables that are set up with a process are pinned, what `load_page_from_disk` records belongs to a
process, and a frame that has been handed out stays blank until it is recorded. The queue holds pages only. None of this
depends on the contents of memory, so it holds for both eviction strategies, whatever they evict.
-/

namespace MicroOs.Paging

open BitMask Memory Kernel Function List

variable {info : FrameInfo} {infoMode vaddr : BitVec 32}

/-- What a frame has last been handed out for. Page tables that faults add are kept apart from the others. -/
inductive Use
  | free
  | handed
  | directory
  | table
  | stack
  | addedTable
  | page
deriving DecidableEq, Repr

/-- A record as `load_page_from_disk` makes it. -/
structure FrameInfo.ForProcess (info : FrameInfo) : Prop where
  owner : ∃ p, info.owner = some (.pcb p)
  mode : info.infoMode = peInfoUserMode ∨ info.infoMode = peInfoUserMode ||| peInfoPinned

/-- The record of a frame that has the use. -/
def Use.Agrees : Use → FrameInfo → Prop
  | .free, info => info.Blank
  | .handed, info => info.Blank
  | .directory, info => info.pinned = true
  | .table, info => info.pinned = true
  | .stack, info => info.pinned = true
  | .addedTable, info => info.ForProcess
  | .page, info => info.ForProcess

structure PageQueue (s : Kernel) (use : ℕ → Use) (queue : List ℕ) : Prop where
  represents : s.fifoQueue.Represents queue
  nodup : queue.Nodup
  pages : ∀ frame ∈ queue, frame < pageablePages ∧ use frame = .page ∧
    (s.pageFrameInfo frame).infoMode = peInfoUserMode

/-- The records and the queue are as the uses of the frames say. -/
structure Ledger (cfg : Config) (s : Kernel) (next : ℕ) (use : ℕ → Use) : Prop extends FreeList s next where
  first : use 0 = .directory
  free_iff : ∀ frame < pageablePages, (use frame = .free ↔ next ≤ frame)
  agrees : ∀ frame < pageablePages, (use frame).Agrees (s.pageFrameInfo frame)
  queued : cfg.evictionStrategy = .fifo → ∃ queue, PageQueue s use queue

variable {cfg : Config} {s s₁ s' : Kernel} {next next' frame paddr p : ℕ} {use : ℕ → Use} {kind : Use} {queue : List ℕ}

/-- A frame that is not pinned is blank or was recorded by `load_page_from_disk`. -/
theorem Use.Agrees.of_unpinned (agrees : kind.Agrees info) (unpinned : info.pinned = false) :
    info.Blank ∨ (kind = .page ∨ kind = .addedTable) ∧ info.ForProcess := by
  cases kind with
  | free | handed => exact .inl agrees
  | directory | table | stack => cases unpinned.symm.trans agrees
  | addedTable => exact .inr ⟨.inr rfl, agrees⟩
  | page => exact .inr ⟨.inl rfl, agrees⟩

theorem FrameInfo.ForProcess.mode_eq (record : info.ForProcess) (unpinned : info.pinned = false) :
    info.infoMode = peInfoUserMode := by
  refine record.mode.resolve_right ?_
  intro pinned
  rw [FrameInfo.pinned, pinned] at unpinned
  exact absurd unpinned (by decide)

namespace Ledger

theorem congr (ledger : Ledger cfg s next use) (head : s'.pageFreeHead = s.pageFreeHead)
    (info : s'.pageFrameInfo = s.pageFrameInfo) (fifo : s'.fifoQueue = s.fifoQueue) : Ledger cfg s' next use where
  toFreeList := ledger.toFreeList.congr head info
  first := ledger.first
  free_iff := ledger.free_iff
  agrees := info ▸ ledger.agrees
  queued strategy := by
    obtain ⟨queue, represents, nodup, pages⟩ := ledger.queued strategy
    exact ⟨queue, fifo ▸ represents, nodup, info ▸ pages⟩

theorem inUse (ledger : Ledger cfg s next use) (bound : frame < pageablePages) (used : use frame ≠ .free) :
    frame < next := by
  by_contra unused
  exact used ((ledger.free_iff frame bound).mpr (not_lt.mp unused))

end Ledger

theorem PageQueue.update (pages : PageQueue s use queue) (other : use frame ≠ .page)
    (records : s'.pageFrameInfo = update s.pageFrameInfo frame info) (fifo : s'.fifoQueue = s.fifoQueue) :
    PageQueue s' (update use frame kind) queue where
  represents := fifo ▸ pages.represents
  nodup := pages.nodup
  pages queued member := by
    obtain ⟨bound, isPage, mode⟩ := pages.pages queued member
    have apart : queued ≠ frame := by
      rintro rfl
      exact other isPage
    rw [records, update_of_ne apart, update_of_ne apart]
    exact ⟨bound, isPage, mode⟩

theorem Ledger.update (ledger : Ledger cfg s next use) (free : FreeList s' next')
    (records : s'.pageFrameInfo = update s.pageFrameInfo frame info) (other : use frame ≠ .directory)
    (agrees : kind.Agrees info) (unused : ∀ i < pageablePages, (update use frame kind i = .free ↔ next' ≤ i))
    (queued : cfg.evictionStrategy = .fifo → ∃ queue, PageQueue s' (update use frame kind) queue) :
    Ledger cfg s' next' (update use frame kind) where
  toFreeList := free
  first := by
    have apart : 0 ≠ frame := by
      rintro rfl
      exact other ledger.first
    rw [update_of_ne apart, ledger.first]
  free_iff := unused
  agrees i bound := by
    rw [records]
    rcases eq_or_ne i frame with rfl | apart
    · rw [update_self, update_self]
      exact agrees
    · rw [update_of_ne apart, update_of_ne apart]
      exact ledger.agrees i bound
  queued := queued

theorem Ledger.free_iff_update (ledger : Ledger cfg s next use) (bound : frame < pageablePages)
    (before : use frame ≠ .free) (after : kind ≠ .free) :
    ∀ i < pageablePages, (Function.update use frame kind i = .free ↔ next ≤ i) := by
  intro i small
  rcases eq_or_ne i frame with rfl | apart
  · rw [update_self]
    exact iff_of_false after (not_le.mpr (ledger.inUse bound before))
  · rw [update_of_ne apart, ledger.free_iff i small]

/-- `random_index_val` after a draw at which the tick counter reads `tick`. -/
def nextRandom (value : BitVec 32) (tick : BitVec 64) : BitVec 32 :=
  value * 1103515245#32 + 12345#32 + (tick % 2397#64).setWidth 32

def randomFrame (value : BitVec 32) : ℕ := (value / 65536#32).toNat % pageablePages

/-- The frames that `evict_random_page` can end with: some readings of the tick counter draw the frame, which is not
pinned, behind pinned ones only. -/
inductive CanDraw (pinned : ℕ → Bool) : BitVec 32 → ℕ → Prop
  | now {value next : BitVec 32} {tick : BitVec 64} (drawn : nextRandom value tick = next)
      (unpinned : pinned (randomFrame next) = false) : CanDraw pinned value (randomFrame next)
  | later {value next : BitVec 32} {tick : BitVec 64} {frame : ℕ} (drawn : nextRandom value tick = next)
      (skipped : pinned (randomFrame next) = true) (rest : CanDraw pinned next frame) : CanDraw pinned value frame

def Kernel.isPinned (s : Kernel) (frame : ℕ) : Bool := (s.pageFrameInfo frame).pinned

theorem Kernel.evictRandomPage_succ (retries : ℕ) {value : BitVec 32}
    (next : nextRandom s.randomIndexVal (s.ticks s.tickCount) = value) :
    evictRandomPage (retries + 1) s =
      if s.isPinned (randomFrame value) then
        evictRandomPage retries { s with randomIndexVal := value, tickCount := s.tickCount + 1 }
      else
        .ok ((s.pageFrameInfo (randomFrame value)).paddr,
          { s with randomIndexVal := value, tickCount := s.tickCount + 1 }) := by
  subst next
  rfl

theorem CanDraw.unpinned {pinned : ℕ → Bool} {value : BitVec 32} (can : CanDraw pinned value frame) :
    frame < pageablePages ∧ pinned frame = false := by
  induction can with
  | now drawn unpinned => exact ⟨Nat.mod_lt _ (by decide), unpinned⟩
  | later drawn skipped rest ih => exact ih

/-- A random choice draws until a frame is not pinned. -/
theorem Kernel.evictRandomPage_ok {retries : ℕ} (ran : evictRandomPage retries s = .ok (paddr, s₁)) :
    ∃ frame, CanDraw s.isPinned s.randomIndexVal frame ∧ paddr = (s.pageFrameInfo frame).paddr ∧
      ∃ randomIndexVal tickCount, s₁ = { s with randomIndexVal, tickCount } := by
  induction retries generalizing s with
  | zero => cases ran
  | succ retries ih =>
    obtain ⟨value, drawn⟩ : ∃ value, nextRandom s.randomIndexVal (s.ticks s.tickCount) = value := ⟨_, rfl⟩
    rw [evictRandomPage_succ retries drawn] at ran
    split_ifs at ran with pinned
    · obtain ⟨frame, can, address, randomIndexVal, tickCount, result⟩ := ih ran
      exact ⟨frame, .later drawn pinned can, address, randomIndexVal, tickCount, result⟩
    · cases ran
      exact ⟨_, .now drawn (Bool.eq_false_iff.mpr pinned), rfl, _, _, rfl⟩

/-- Every frame that can be drawn is drawn with some readings of the tick counter. The induction is over the draws.
-/
theorem CanDraw.evictRandomPage {pinned : ℕ → Bool} {value : BitVec 32} (can : CanDraw pinned value frame)
    (flags : s.isPinned = pinned) (seed : s.randomIndexVal = value) :
    ∃ retries, ∃ readings : ℕ → BitVec 64, ∀ readings', (∀ n, s.tickCount ≤ n → readings' n = readings n) →
      ∃ s₁, evictRandomPage retries { s with ticks := readings' } = .ok ((s.pageFrameInfo frame).paddr, s₁) := by
  induction can generalizing s with
  | @now value next tick drawn unpinned =>
    refine ⟨1, fun _ => tick, fun readings' same => ?_⟩
    have draw : nextRandom s.randomIndexVal (readings' s.tickCount) = next := by rw [seed, same _ le_rfl, drawn]
    rw [evictRandomPage_succ 0 draw, if_neg]
    · exact ⟨_, rfl⟩
    · rw [← flags] at unpinned
      exact Bool.eq_false_iff.mp unpinned
  | @later value next tick frame drawn skipped rest ih =>
    obtain ⟨retries, readings, draws⟩ := @ih { s with randomIndexVal := next, tickCount := s.tickCount + 1 } flags rfl
    refine ⟨retries + 1, update readings s.tickCount tick, fun readings' same => ?_⟩
    have draw : nextRandom s.randomIndexVal (readings' s.tickCount) = next := by
      rw [seed, same _ le_rfl, update_self, drawn]
    obtain ⟨s₁, ends⟩ := draws readings' fun n (after : s.tickCount + 1 ≤ n) => by
      rw [same n (by omega), update_of_ne (by omega)]
    refine ⟨s₁, ?_⟩
    rw [evictRandomPage_succ retries draw, if_pos]
    · exact ends
    · rw [← flags] at skipped
      exact skipped

/-- The victim is not pinned, and with the queue it is a page. -/
theorem Ledger.select (ledger : Ledger cfg s next use) (ran : s.selectPageForEviction cfg = .ok (paddr, s₁)) :
    ∃ frame < pageablePages, paddr = framePaddr frame ∧ (s.pageFrameInfo frame).pinned = false ∧
      (cfg.evictionStrategy = .fifo → use frame = .page ∧ ∃ rest, PageQueue s₁ use rest ∧ frame ∉ rest) ∧
      (cfg.evictionStrategy = .random → CanDraw s.isPinned s.randomIndexVal frame) ∧
      ∃ fifoQueue randomIndexVal tickCount, s₁ = { s with fifoQueue, randomIndexVal, tickCount } := by
  cases strategy : cfg.evictionStrategy with
  | random =>
    simp only [selectPageForEviction, strategy] at ran
    obtain ⟨frame, can, address, randomIndexVal, tickCount, result⟩ := evictRandomPage_ok ran
    obtain ⟨bound, unpinned⟩ := can.unpinned
    refine ⟨frame, bound, ?_, unpinned, by simp, fun _ => can, s.fifoQueue, randomIndexVal, tickCount, result⟩
    rw [address, ledger.paddr frame bound]
  | fifo =>
    simp only [selectPageForEviction, strategy, selectPageForEvictionV1] at ran
    obtain ⟨queue, represents, nodup, pages⟩ := ledger.queued strategy
    cases queue with
    | nil =>
      have empty := represents.isEmpty_iff.mpr rfl
      simp [FifoQueue.dequeue, empty] at ran
    | cons frame rest =>
      obtain ⟨head, nonempty, dequeued⟩ := represents.dequeue
      obtain ⟨absent, distinct⟩ := nodup_cons.mp nodup
      obtain ⟨bound, isPage, mode⟩ := pages frame mem_cons_self
      simp only [head, nonempty] at ran
      cases ran
      refine ⟨frame, bound, ledger.paddr frame bound, ?_, fun _ => ⟨isPage, rest, ?_, absent⟩, by simp, _, _, _, rfl⟩
      · rw [FrameInfo.pinned, mode]
        decide
      · exact ⟨dequeued, distinct, fun queued member => pages queued (mem_cons_of_mem _ member)⟩

/-- `page_free` goes through the owner of the record, so a blank frame cannot be evicted. -/
theorem Kernel.tryEvictPage_blank (bound : frame < pageablePages)
    (selected : s.selectPageForEviction cfg = .ok (framePaddr frame, s₁)) (blank : (s₁.pageFrameInfo frame).Blank)
    (address : (s₁.pageFrameInfo frame).paddr = framePaddr frame) : s.tryEvictPage cfg = .error .wild := by
  have nonzero : framePaddr frame ≠ 0 := by
    rw [framePaddr_eq]
    omega
  simp [tryEvictPage, selected, bind, Except.bind, nonzero, calculateInfoIndex_framePaddr bound, FrameInfo.pinned,
    blank.2, hasFlag_zero, pure, Except.pure, writeBackIfDirty, pageFrameCheckDirty, checkDirtyRecords, blank.1,
    address, pageFree, pageFreeRecords, info]

/-- Only what `load_page_from_disk` has recorded is evicted, pages and page tables alike. -/
theorem Ledger.tryEvictPage (ledger : Ledger cfg s next use) (ran : s.tryEvictPage cfg = .ok (paddr, s')) :
    ∃ frame < pageablePages, paddr = framePaddr frame ∧ (use frame = .page ∨ use frame = .addedTable) ∧
      Ledger cfg s' next (Function.update use frame .handed) := by
  obtain ⟨⟨chosen, s₁⟩, selected, -⟩ := Outcome.bind_eq_ok_iff.mp ran
  obtain ⟨frame, bound, rfl, unpinned, victim, -, fifoQueue, randomIndexVal, tickCount, rfl⟩ := ledger.select selected
  have free : FreeList { s with fifoQueue, randomIndexVal, tickCount } next := ledger.toFreeList.congr rfl rfl
  -- a draw may hit a frame without a record, and `page_free` then follows the null pointer to its owner
  rcases (ledger.agrees frame bound).of_unpinned unpinned with blank | ⟨kind, record⟩
  · rw [tryEvictPage_blank bound selected blank (ledger.paddr frame bound)] at ran
    cases ran
  obtain ⟨p, owner⟩ := record.owner
  have used : use frame ≠ .free := by
    intro unused
    simp [unused] at kind
  have notDirectory : use frame ≠ .directory := by
    intro isDirectory
    simp [isDirectory] at kind
  rw [free.tryEvictPage bound selected owner (record.mode_eq unpinned)] at ran
  cases halt : unmapHalt { s with fifoQueue, randomIndexVal, tickCount } frame p with
  | some reason =>
    rw [halt] at ran
    cases ran
  | none =>
    rw [halt] at ran
    cases ran
    obtain ⟨disk, scsiCount, io, written, -⟩ :=
      writeBack_eq { s with fifoQueue, randomIndexVal, tickCount } frame p
    refine ⟨frame, bound, rfl, kind, ledger.update ?_ rfl notDirectory ⟨rfl, rfl⟩ ?_ ?_⟩
    · refine free.update le_rfl free.bound (ledger.inUse bound used) ?_ rfl rfl rfl
      simpa [dropPage, written, Kernel.record] using free.head
    · exact ledger.free_iff_update bound used (by decide)
    · intro strategy
      obtain ⟨-, rest, pages, absent⟩ := victim strategy
      refine ⟨rest, ?_, pages.nodup, ?_⟩
      · simp only [dropPage, written]
        exact pages.represents
      · intro queued member
        have apart : queued ≠ frame := fun same => absent (same ▸ member)
        simp only [dropPage, Kernel.record, update_of_ne apart]
        exact pages.pages queued member

/-- A frame is handed out. What it was used for before is over. -/
theorem Ledger.allocatePage (ledger : Ledger cfg s next use) (ran : s.allocatePage cfg = .ok (paddr, s')) :
    ∃ frame next', frame < pageablePages ∧ paddr = framePaddr frame ∧ use frame ≠ .handed ∧
      Ledger cfg s' next' (Function.update use frame .handed) := by
  rcases Nat.lt_or_eq_of_le ledger.bound with available | rfl
  · rw [ledger.toFreeList.allocatePage cfg available] at ran
    cases ran
    have unused : use next = .free := (ledger.free_iff next available).mpr le_rfl
    have blank := ledger.blank next le_rfl available
    refine ⟨next, next + 1, available, rfl, by simp [unused],
      ledger.update (ledger.toFreeList.takeFree available) rfl (by simp [unused]) blank ?_ ?_⟩
    · intro i small
      rcases eq_or_ne i next with rfl | apart
      · rw [update_self]
        exact iff_of_false (by decide) (by omega)
      · rw [update_of_ne apart, ledger.free_iff i small]
        omega
    · intro strategy
      obtain ⟨queue, pages⟩ := ledger.queued strategy
      exact ⟨queue, pages.update (by simp [unused]) rfl rfl⟩
  · rw [ledger.toFreeList.allocatePage_empty] at ran
    obtain ⟨frame, bound, rfl, kind, after⟩ := ledger.tryEvictPage ran
    refine ⟨frame, pageablePages, bound, rfl, ?_, after⟩
    rintro handed
    simp [handed] at kind

/-- A frame that has been handed out is recorded for its use. -/
theorem Ledger.record (ledger : Ledger cfg s next (Function.update use frame .handed))
    (bound : frame < pageablePages) (owner : PcbPtr) (vaddr infoMode : BitVec 32) (kind : Use) (used : kind ≠ .free)
    (agrees : kind.Agrees { s.pageFrameInfo frame with
      owner := some owner, nextSharedInfo := none, vaddr := pageBase vaddr, infoMode }) :
    Ledger cfg (s.occupy frame owner vaddr infoMode) next (Function.update use frame kind) := by
  have before : Function.update use frame .handed frame ≠ .free := by simp
  rw [← Function.update_idem Use.handed kind use]
  refine ledger.update (ledger.toFreeList.occupy (ledger.inUse bound before) owner vaddr infoMode) rfl
    (by simp) agrees (ledger.free_iff_update bound before used) ?_
  intro strategy
  obtain ⟨queue, pages⟩ := ledger.queued strategy
  exact ⟨queue, pages.update (by simp) rfl rfl⟩

theorem PageQueue.room (pages : PageQueue s use queue) (ledger : Ledger cfg s next use)
    (bound : frame < pageablePages) (handed : use frame = .handed) : queue.length + 1 < pageablePages := by
  have positive {i : ℕ} (used : use i ≠ .directory) : 0 < i := by
    rcases Nat.eq_zero_or_pos i with rfl | positive
    · exact absurd ledger.first used
    · exact positive
  have absent : frame ∉ queue := by
    intro member
    obtain ⟨-, isPage, -⟩ := pages.pages frame member
    cases handed.symm.trans isPage
  refine length_lt_pageablePages (nodup_cons.mpr ⟨absent, pages.nodup⟩) ?_
  intro i member
  rcases mem_cons.mp member with rfl | queued
  · exact ⟨positive (by simp [handed]), bound⟩
  · obtain ⟨small, isPage, -⟩ := pages.pages i queued
    exact ⟨positive (by simp [isPage]), small⟩

theorem PageQueue.enqueued (pages : PageQueue s use queue) (bound : frame < pageablePages)
    (handed : use frame = .handed) (room : queue.length + 1 < pageablePages) (mode : info.infoMode = peInfoUserMode)
    (records : s'.pageFrameInfo = Function.update s.pageFrameInfo frame info)
    (fifo : s'.fifoQueue = (s.enqueued frame).fifoQueue) :
    PageQueue s' (Function.update use frame .page) (queue ++ [frame]) where
  represents := by
    rw [fifo]
    exact (pages.represents.enqueue frame room).2
  nodup := by
    apply nodup_append_comm.mp
    refine nodup_cons.mpr ⟨?_, pages.nodup⟩
    intro member
    obtain ⟨-, isPage, -⟩ := pages.pages frame member
    cases handed.symm.trans isPage
  pages i member := by
    rw [records]
    rcases eq_or_ne i frame with rfl | apart
    · rw [update_self, update_self]
      exact ⟨bound, rfl, mode⟩
    · have queued : i ∈ queue := by simpa [apart] using member
      rw [update_of_ne apart, update_of_ne apart]
      exact pages.pages i queued

/-- The state in which the frame of a page is recorded: the frame is queued if it may be evicted. -/
def Kernel.beforeRecord (s : Kernel) (cfg : Config) (infoMode : BitVec 32) (frame : ℕ) : Kernel :=
  if !hasFlag infoMode peInfoPinned && cfg.evictionStrategy = .fifo then s.enqueued frame else s

theorem Kernel.beforeRecord_pageFrameInfo (s : Kernel) (cfg : Config) (infoMode : BitVec 32) (frame : ℕ) :
    (s.beforeRecord cfg infoMode frame).pageFrameInfo = s.pageFrameInfo := by
  rw [beforeRecord]
  split_ifs
  · rfl
  · rfl

theorem Kernel.beforeRecord_pageFreeHead (s : Kernel) (cfg : Config) (infoMode : BitVec 32) (frame : ℕ) :
    (s.beforeRecord cfg infoMode frame).pageFreeHead = s.pageFreeHead := by
  rw [beforeRecord]
  split_ifs
  · rfl
  · rfl

theorem Ledger.blank_of_handed (ledger : Ledger cfg s next use) (bound : frame < pageablePages)
    (handed : use frame = .handed) : (s.pageFrameInfo frame).Blank := by
  have agrees := ledger.agrees frame bound
  rwa [handed] at agrees

/-- A blank frame is recorded and mapped. With the FIFO strategy there must be room in the queue. -/
theorem Kernel.installPage_blank {table : ℕ} (bound : frame < pageablePages) (blank : (s.pageFrameInfo frame).Blank)
    (room : cfg.evictionStrategy = .fifo → ∃ queue, s.fifoQueue.Represents queue ∧ queue.length + 1 < pageablePages) :
    s.installPage cfg p vaddr infoMode (framePaddr frame) table =
      if inKernelArea table then .error .wild
      else .ok { (s.beforeRecord cfg infoMode frame).occupy frame (.pcb p) vaddr infoMode with
        mem := dirInsTable (tableMapPage (s.beforeRecord cfg infoMode frame).mem table vaddr
          (BitVec.ofNat 32 (framePaddr frame)) userMode) (s.pcb p).pageDirectory vaddr table userMode
        trace := s.trace ++ [.loaded frame p (pageBase vaddr)] } := by
  have queues : (if !hasFlag infoMode peInfoPinned && cfg.evictionStrategy = .fifo then
      s.fifoEnqueueInfo (framePaddr frame) else s) = s.beforeRecord cfg infoMode frame := by
    rw [beforeRecord]
    split_ifs with enters
    · obtain ⟨queue, represents, short⟩ := room (of_decide_eq_true (Bool.and_eq_true_iff.mp enters).2)
      exact fifoEnqueueInfo_blank bound represents short blank
    · rfl
  have trace : (s.beforeRecord cfg infoMode frame).trace = s.trace := by
    rw [beforeRecord]
    split_ifs
    · rfl
    · rfl
  rw [← s.beforeRecord_pageFrameInfo cfg infoMode frame] at blank
  simp only [installPage, queues, bind, Except.bind, insertPageFrameInfo_blank bound blank,
    calculateInfoIndex_framePaddr bound]
  cases inKernelArea table with
  | true => rfl
  | false =>
    simp [pure, Except.pure, record, occupy, setInfo, trace]

theorem pinned_userMode : hasFlag (peInfoUserMode ||| peInfoPinned) peInfoPinned = true := by decide

/-- What `load_page_from_disk` does with the frame of a page. -/
theorem Ledger.installPage {table : ℕ} (ledger : Ledger cfg s next use)
    (bound : frame < pageablePages) (handed : use frame = .handed)
    (mode : infoMode = peInfoUserMode ∨ infoMode = peInfoUserMode ||| peInfoPinned)
    (ran : s.installPage cfg p vaddr infoMode (framePaddr frame) table = .ok s') :
    Ledger cfg s' next (Function.update use frame .page) := by
  have used : use frame ≠ .free := by simp [handed]
  have room (strategy : cfg.evictionStrategy = .fifo) :
      ∃ queue, s.fifoQueue.Represents queue ∧ queue.length + 1 < pageablePages := by
    obtain ⟨queue, pages⟩ := ledger.queued strategy
    exact ⟨queue, pages.represents, pages.room ledger bound handed⟩
  rw [installPage_blank bound (ledger.blank_of_handed bound handed) room] at ran
  split_ifs at ran
  cases ran
  have records : ((s.beforeRecord cfg infoMode frame).occupy frame (.pcb p) vaddr infoMode).pageFrameInfo =
      Function.update s.pageFrameInfo frame { s.pageFrameInfo frame with
        owner := some (.pcb p), nextSharedInfo := none, vaddr := pageBase vaddr, infoMode } := by
    simp [occupy, setInfo, s.beforeRecord_pageFrameInfo cfg infoMode frame]
  refine ledger.update (ledger.toFreeList.update le_rfl ledger.bound (ledger.inUse bound used)
    ((s.beforeRecord_pageFreeHead cfg infoMode frame).trans ledger.head) records rfl rfl) records (by simp [handed])
    ⟨⟨p, rfl⟩, mode⟩
    (ledger.free_iff_update bound used (by decide)) ?_
  intro strategy
  obtain ⟨queue, pages⟩ := ledger.queued strategy
  rcases mode with rfl | rfl
  · refine ⟨queue ++ [frame], pages.enqueued bound handed (pages.room ledger bound handed) rfl records ?_⟩
    have enters : (!hasFlag peInfoUserMode peInfoPinned && cfg.evictionStrategy = .fifo) = true := by
      rw [strategy]
      decide
    simp [occupy, setInfo, beforeRecord, enters]
  · refine ⟨queue, pages.update (by simp [handed]) records ?_⟩
    simp [occupy, setInfo, beforeRecord, pinned_userMode]

section Initial

variable (mem : Memory) (disk : BitVec 32 → Memory) (scsi : ℕ → ScsiResult) (ticks : ℕ → BitVec 64)

def initialUse (frame : ℕ) : Use := if frame = 0 then .directory else if frame < 3 then .table else .free

theorem initial_pinned (early : frame < 3) : ((initial mem disk scsi ticks).pageFrameInfo frame).pinned = true := by
  have mode : ((initial mem disk scsi ticks).pageFrameInfo frame).infoMode =
      if frame = 1 then peInfoPinned else peInfoPinned ||| peInfoKernelDummy := by
    obtain rfl | rfl | rfl : frame = 0 ∨ frame = 1 ∨ frame = 2 := by omega
    all_goals rfl
  rw [FrameInfo.pinned, mode]
  split_ifs
  · decide
  · decide

theorem ledger_initial (cfg : Config) : Ledger cfg (initial mem disk scsi ticks) 3 initialUse where
  toFreeList := freeList_initial mem disk scsi ticks
  first := rfl
  free_iff frame bound := by
    rw [initialUse]
    split_ifs with directory table
    · exact iff_of_false (by decide) (by omega)
    · exact iff_of_false (by decide) (by omega)
    · exact iff_of_true rfl (by omega)
  agrees frame bound := by
    rw [initialUse]
    split_ifs with directory table
    · exact initial_pinned mem disk scsi ticks (by omega)
    · exact initial_pinned mem disk scsi ticks table
    · exact (freeList_initial mem disk scsi ticks).blank frame (by omega) bound
  queued _ := by
    refine ⟨[], FifoQueue.represents_init, nodup_nil, ?_⟩
    intro frame member
    cases member

end Initial

end MicroOs.Paging
