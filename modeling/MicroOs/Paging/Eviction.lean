import MicroOs.Library.PacketTransfer
import MicroOs.Paging.Confinement
import MicroOs.Paging.Transparency

/-! # Writes during an eviction

What reaches the disk while a page is evicted is a transfer in packets from a buffer in use. The sectors hold the page
in the end exactly if the writes of its owner that come after their packet change nothing; what they do change is lost
when the page is unmapped.
-/

namespace MicroOs.Paging

open BitMask Memory Kernel BitVec Transfer EvictAction List Option

/-- What an action means for the transfer of the page. -/
def EvictAction.transfer : EvictAction → Option (Transfer.Action (BitVec 8))
  | .packet => some .send
  | .store vaddr byte => some (.store (vaddr.toNat % pageSize) byte)
  | _ => none

/-- The sectors of the page in a frame hold what the frame holds. -/
def SectorsHoldFrame (s : Kernel) (index : ℕ) : Prop :=
  ∀ p, (s.pageFrameInfo index).owner = some (.pcb p) →
    ∀ i < sectorSize * (blockCount (s.pcb p) (s.pageFrameInfo index).vaddr).toNat,
      s.disk (diskLoc (s.pcb p) (s.pageFrameInfo index).vaddr + BitVec.ofNat 32 (i / sectorSize)) (i % sectorSize) =
        s.mem ((s.pageFrameInfo index).paddr + i)

/-- What the owner writes after a packet has been sent leaves the bytes of this packet as they were sent. -/
def LateWritesSettled (size : ℕ) (s : Kernel) (index : ℕ) (actions : List EvictAction) : Prop :=
  ∀ p, (s.pageFrameInfo index).owner = some (.pcb p) →
    ∀ i < sectorSize * (blockCount (s.pcb p) (s.pageFrameInfo index).vaddr).toNat,
      Transfer.Settled size (fun i => s.mem ((s.pageFrameInfo index).paddr + i)) i
        (actions.filterMap EvictAction.transfer)

variable {scope : Scope} {size : ℕ} {s s' : Kernel} {next frame p directory table : ℕ} {queue : List ℕ}
  {role : ℕ → Role}
  {vaddr sector count : BitVec 32} {byte : BitVec 8}

section Resident

variable (resident : Resident scope s role frame p directory table)
  (page : pageBase vaddr = pageBase (s.pageFrameInfo frame).vaddr)

include resident page

theorem Resident.walk : Walk s p vaddr directory table ∧
    getTableIndex vaddr = getTableIndex (s.pageFrameInfo frame).vaddr := by
  have directories : getDirectoryIndex vaddr = getDirectoryIndex (s.pageFrameInfo frame).vaddr := by
    rw [← getDirectoryIndex_pageBase, page, getDirectoryIndex_pageBase]
  refine ⟨⟨resident.pointer, by rw [directories, resident.directory_base], ?_⟩, ?_⟩
  · exact ne_of_role resident.table_role resident.directory_role nofun
  · rw [← getTableIndex_pageBase, page, getTableIndex_pageBase]

theorem Resident.userWrite (ran : s.userWrite p vaddr byte = some s') :
    (∀ i < pageSize, s'.mem (framePaddr frame + i) =
      if i = vaddr.toNat % pageSize then byte else s.mem (framePaddr frame + i)) ∧
    Resident scope s' role frame p directory table ∧ s'.pageFrameInfo = s.pageFrameInfo ∧ s'.pcb = s.pcb ∧
      s'.disk = s.disk := by
  obtain ⟨walk, slot⟩ := resident.walk page
  have access : AccessBits (peA ||| peD) := .inr rfl
  have frameDirectory : frame ≠ directory := ne_of_role resident.directory_role resident.page_role nofun
  have frameTable : frame ≠ table := ne_of_role resident.table_role resident.page_role nofun
  simp only [Kernel.userWrite, ite_none_right_eq_some, map_eq_some_iff] at ran
  obtain ⟨-, target, reached, rfl⟩ := ran
  obtain ⟨-, -, -, -, base⟩ := Kernel.userPage_eq_some.mp reached
  rw [walk.pte_eq, slot, resident.table_base] at base
  subst base
  have small : vaddr.toNat % pageSize < pageSize := Nat.mod_lt _ (by decide)
  refine ⟨?_, ?_, rfl, rfl, rfl⟩
  · intro i bound
    have kept : (s.touch p vaddr (peA ||| peD)).mem (framePaddr frame + i) = s.mem (framePaddr frame + i) :=
      walk.touch_sameFrame frameDirectory frameTable _ (Nat.le_add_right _ _) (by omega)
    simp only [writeByte, Function.update_apply, Nat.add_left_cancel_iff, kept]
  · have same {other slot : ℕ} (apart : frame ≠ other) (bound : slot < 1024) :
        SameEntry (frameWord s.mem other slot) (frameWord ((s.touch p vaddr (peA ||| peD)).mem.writeByte
          (framePaddr frame + vaddr.toNat % pageSize) byte) other slot) := by
      rw [(SameFrame.writeByte _ byte apart.symm small).word bound]
      exact walk.touch_entry access other bound
    exact resident.transfer rfl rfl rfl rfl rfl (same frameDirectory (getDirectoryIndex_lt _))
      (same frameTable (getTableIndex_lt _))

end Resident

/-- The page in a frame as the buffer of a transfer to its sectors. -/
def pageTransfer (s : Kernel) (frame : ℕ) (sector : BitVec 32) : Transfer (BitVec 8) where
  source i := s.mem (framePaddr frame + i)
  target i := s.disk (sector + BitVec.ofNat 32 (i / sectorSize)) (i % sectorSize)
  sent := 0

/-- The frame and its sectors are those of a transfer. -/
structure Tracks (s : Kernel) (frame : ℕ) (sector count : BitVec 32) (t : Transfer (BitVec 8)) : Prop where
  source : ∀ i < pageSize, s.mem (framePaddr frame + i) = t.source i
  target : ∀ i < sectorSize * count.toNat,
    s.disk (sector + BitVec.ofNat 32 (i / sectorSize)) (i % sectorSize) = t.target i

theorem Tracks.packet {t : Transfer (BitVec 8)} (size : ℕ) (tracks : Tracks s frame sector count t)
    (small : count.toNat ≤ 8) :
    Tracks (s.sendPacket size sector count (framePaddr frame) t.sent) frame sector count (t.step size .send) := by
  refine ⟨tracks.source, ?_⟩
  intro i bound
  have index : sector + BitVec.ofNat 32 (i / sectorSize) - sector = BitVec.ofNat 32 (i / sectorSize) := by
    rw [add_comm, add_sub_cancel]
  have number : (BitVec.ofNat 32 (i / sectorSize)).toNat = i / sectorSize := by
    rw [toNat_ofNat, sectorSize] at *
    omega
  have inside : BitVec.ofNat 32 (i / sectorSize) < count := by
    rw [lt_def, number]
    exact Nat.div_lt_of_lt_mul bound
  have offset : i % sectorSize < sectorSize := Nat.mod_lt _ (by decide)
  have whole := Nat.div_add_mod i sectorSize
  have inPage : i < pageSize := by
    rw [sectorSize] at bound
    rw [pageSize]
    omega
  simp only [sendPacket, index, number, inside, offset, whole, true_and, Transfer.step, tracks.source i inPage]
  rw [tracks.target i bound]

theorem Tracks.store {t : Transfer (BitVec 8)} (size : ℕ) (tracks : Tracks s frame sector count t)
    (source : ∀ i < pageSize, s'.mem (framePaddr frame + i) =
      if i = vaddr.toNat % pageSize then byte else s.mem (framePaddr frame + i)) (disk : s'.disk = s.disk) :
    Tracks s' frame sector count (t.step size (.store (vaddr.toNat % pageSize) byte)) := by
  refine ⟨?_, ?_⟩
  · intro i bound
    rw [source i bound, tracks.source i bound]
    simp only [Transfer.step, Function.update_apply]
  · rw [disk]
    exact tracks.target

/-- The oldest queued frame, with the page in it. -/
structure Victim (s : Kernel) (role : ℕ → Role) (frame p directory table : ℕ) : Prop where
  bound : frame < pageablePages
  paddr : (s.pageFrameInfo frame).paddr = framePaddr frame
  known : p < s.pcbCount
  process : (s.pcb p).isThread = false
  resident : Resident (imageScope s.sizes) s role frame p directory table
  tested : s.chosen.pageFrameCheckDirty (framePaddr frame) =
    .ok (if isPageDirty s.mem (s.pageFrameInfo frame).vaddr (s.pcb p).pageDirectory then 1 else 0)

theorem ImageInv.victim {paddr : ℕ} (inv : ImageInv s next queue role)
    (selected : s.selectPageForEviction config = .ok (paddr, s')) :
    ∃ frame p directory table, paddr = framePaddr frame ∧ s' = s.chosen ∧ Victim s role frame p directory table := by
  cases queue with
  | nil =>
    have empty := inv.system.alloc.represents.isEmpty_iff.mpr rfl
    simp [selectPageForEviction, config, selectPageForEvictionV1, FifoQueue.dequeue, empty] at selected
  | cons frame rest =>
    rw [inv.system.alloc.selectPageForEviction] at selected
    cases selected
    obtain ⟨p, directory, table, known, process, resident⟩ := inv.system.map.queued frame (by simp)
    have used := (inv.system.alloc.inUse frame (by simp)).2
    have bound : frame < pageablePages := used.trans_le inv.system.alloc.bound
    have free : FreeList s.chosen next := { inv.system.alloc.toFreeList with }
    refine ⟨frame, p, directory, table, rfl, rfl, bound, inv.system.alloc.paddr frame bound, known, process, resident,
      ?_⟩
    exact free.pageFrameCheckDirty bound resident.owner (inv.system.alloc.evictable frame (by simp)).1

/-- Nothing but the bytes of the page and its sectors has changed since the victim was chosen. -/
structure Window (size : ℕ) (s : Kernel) (role : ℕ → Role) (frame p directory table : ℕ) (actions : List EvictAction)
    (now : Kernel) : Prop where
  resident : Resident (imageScope s.sizes) now role frame p directory table
  info : now.pageFrameInfo = s.pageFrameInfo
  pcb : now.pcb = s.pcb
  tracks : Tracks now frame (diskLoc (s.pcb p) (s.pageFrameInfo frame).vaddr)
    (blockCount (s.pcb p) (s.pageFrameInfo frame).vaddr)
    ((pageTransfer s frame (diskLoc (s.pcb p) (s.pageFrameInfo frame).vaddr)).run size
      (actions.filterMap EvictAction.transfer))

/-- How far an eviction of a page of `s` can be after some actions. -/
inductive Evicting (size : ℕ) (s : Kernel) (role : ℕ → Role) : List EvictAction → Kernel × Phase → Prop
  | idle : Evicting size s role [] (s, .idle)
  | chosen {frame p directory table : ℕ} (victim : Victim s role frame p directory table) :
      Evicting size s role [.choose] (s.chosen, .chosen (framePaddr frame))
  | clean {frame p directory table : ℕ} (victim : Victim s role frame p directory table)
      (notDirty : isPageDirty s.mem (s.pageFrameInfo frame).vaddr (s.pcb p).pageDirectory = false) :
      Evicting size s role [.choose, .test] (s.chosen, .ready (framePaddr frame))
  | writing {frame p directory table : ℕ} {actions : List EvictAction} {now : Kernel}
      (victim : Victim s role frame p directory table)
      (window : Window size s role frame p directory table actions now) :
      Evicting size s role actions (now, .writing (framePaddr frame) (framePaddr frame)
        (diskLoc (s.pcb p) (s.pageFrameInfo frame).vaddr) (blockCount (s.pcb p) (s.pageFrameInfo frame).vaddr)
        (Transfer.sends (actions.filterMap EvictAction.transfer)))
  | ready {frame p directory table : ℕ} {actions : List EvictAction} {now : Kernel}
      (victim : Victim s role frame p directory table) (window : Window size s role frame p directory table actions now)
      (all : sectorSize * (blockCount (s.pcb p) (s.pageFrameInfo frame).vaddr).toNat ≤
        size * Transfer.sends (actions.filterMap EvictAction.transfer)) :
      Evicting size s role actions (now, .ready (framePaddr frame))
  | done (actions : List EvictAction) (now : Kernel) (ref : ℕ) : Evicting size s role actions (now, .done ref)

theorem blockCount_le (pcb : Pcb) (vaddr : BitVec 32) : (blockCount pcb vaddr).toNat ≤ 8 := by
  rw [blockCount_eq]
  exact Nat.min_le_left _ _

theorem Victim.writeRequest (victim : Victim s role frame p directory table) :
    s.chosen.writeRequest (s.pageFrameInfo frame).vaddr (s.pcb p) =
      some (diskLoc (s.pcb p) (s.pageFrameInfo frame).vaddr, blockCount (s.pcb p) (s.pageFrameInfo frame).vaddr) := by
  obtain ⟨page, -⟩ := victim.resident.onImagePage rfl
  have start : ¬(s.pcb p).swapSize < diskOffset (s.pageFrameInfo frame).vaddr := by
    rw [lt_def, diskOffset_toNat page.1]
    exact page.blockCount_toNat.1.not_gt
  rw [Kernel.writeRequest, if_neg start, getPageTable]
  simp [Kernel.chosen, victim.resident.pde_present]

theorem Victim.window (victim : Victim s role frame p directory table) {now : Kernel} (mem : now.mem = s.mem)
    (disk : now.disk = s.disk) (info : now.pageFrameInfo = s.pageFrameInfo) (pcb : now.pcb = s.pcb) :
    Window size s role frame p directory table [.choose, .test] now := by
  refine ⟨?_, info, pcb, ?_, ?_⟩
  · apply victim.resident.transfer (by rw [info]) (by rw [pcb]) rfl rfl rfl
    all_goals
      rw [mem]
      exact .refl _
  · rw [mem]
    exact fun _ _ => rfl
  · rw [disk]
    exact fun _ _ => rfl

section Window

variable {actions : List EvictAction} {now after : Kernel}
  (window : Window size s role frame p directory table actions now)

include window

theorem Window.packet :
    Window size s role frame p directory table (actions ++ [.packet])
      (now.sendPacket size (diskLoc (s.pcb p) (s.pageFrameInfo frame).vaddr)
        (blockCount (s.pcb p) (s.pageFrameInfo frame).vaddr) (framePaddr frame)
        (Transfer.sends (actions.filterMap transfer))) := by
  have tracks := window.tracks.packet size (blockCount_le _ _)
  rw [run_sent, ← run_snoc, pageTransfer, Nat.zero_add] at tracks
  refine ⟨{ window.resident with }, window.info, window.pcb, ?_⟩
  rw [filterMap_append]
  exact tracks

theorem Window.store (page : pageBase vaddr = pageBase (now.pageFrameInfo frame).vaddr)
    (ran : now.userWrite p vaddr byte = some after) :
    Window size s role frame p directory table (actions ++ [.store vaddr byte]) after := by
  obtain ⟨source, resident, info, pcb, disk⟩ := window.resident.userWrite page ran
  have tracks := window.tracks.store size source disk
  rw [← run_snoc] at tracks
  refine ⟨resident, info.trans window.info, pcb.trans window.pcb, ?_⟩
  rw [filterMap_append]
  exact tracks

end Window

/-- A step takes the eviction to its next phase, or a write of the owner into the transfer. -/
theorem Evicting.step {actions : List EvictAction} {action : EvictAction} {now after : Kernel × Phase}
    (inv : ImageInv s next queue role) (evicting : Evicting size s role actions now)
    (taken : EvictStep size now action after) : Evicting size s role (actions ++ [action]) after := by
  cases evicting with
  | idle =>
    cases taken with
    | choose selects =>
      obtain ⟨frame, p, directory, table, rfl, rfl, victim⟩ := inv.victim selects.selected
      exact .chosen victim
  | @chosen frame p directory table victim =>
    have owned : (s.chosen.pageFrameInfo frame).owner = some (.pcb p) := victim.resident.owner
    have paddr : (s.chosen.pageFrameInfo frame).paddr = framePaddr frame := victim.paddr
    have index := calculateInfoIndex_framePaddr victim.bound
    have request := victim.writeRequest
    cases taken with
    | skip skips =>
      obtain ⟨number, tested, refused⟩ := skips
      rw [index, owned] at refused
      refine .clean victim (Bool.eq_false_iff.mpr fun dirty => ?_)
      rw [victim.tested, if_pos dirty] at tested
      cases tested
      obtain ⟨_, same, none⟩ := refused Int.one_ne_zero
      cases same
      cases request.symm.trans none
    | start writes =>
      obtain ⟨-, owner, owned', request'⟩ := writes
      rw [index] at owned' request' ⊢
      cases owned.symm.trans owned'
      cases request.symm.trans request'
      rw [paddr]
      exact .writing victim (victim.window rfl rfl rfl rfl)
  | clean victim notDirty | ready victim window all =>
    cases taken with
    | free freed => exact .done _ _ _
  | @writing frame p directory table actions now victim window =>
    cases taken with
    | packet more =>
      have sends : Transfer.sends ((actions ++ [EvictAction.packet]).filterMap transfer) =
          Transfer.sends (actions.filterMap transfer) + 1 := by
        rw [filterMap_append, sends_append]
        rfl
      rw [← sends]
      exact .writing victim window.packet
    | @store _ after _ _ _ q _ _ vaddr byte owned page ran =>
      rw [calculateInfoIndex_framePaddr victim.bound] at owned page
      obtain rfl : q = p := by simpa using owned.symm.trans window.resident.owner
      have sends : Transfer.sends ((actions ++ [EvictAction.store vaddr byte]).filterMap transfer) =
          Transfer.sends (actions.filterMap transfer) := by
        rw [filterMap_append, sends_append]
        rfl
      rw [← sends]
      exact .writing victim (window.store page ran)
    | finish all =>
      have same : (actions ++ [EvictAction.finish]).filterMap transfer =
          actions.filterMap transfer := by
        rw [filterMap_append]
        exact append_nil _
      refine .ready victim ⟨window.resident, window.info, window.pcb, ?_⟩ ?_
      · rw [same]
        exact window.tracks
      · rw [same]
        exact all
  | done actions now paddr => cases taken

/-- The bytes that are transferred for a page are bytes of the image. -/
theorem OnImagePage.image_byte {pcb : Pcb} {i : ℕ} (page : OnImagePage pcb vaddr)
    (inside : i < sectorSize * (blockCount pcb vaddr).toNat) :
    ∃ a, InImage pcb a ∧ pageBase a = pageBase vaddr ∧ a.toNat % pageSize = i ∧ a.toNat % sectorSize = i % sectorSize ∧
      imageSector pcb a = diskLoc pcb vaddr + BitVec.ofNat 32 (i / sectorSize) := by
  obtain ⟨start, count⟩ := page.blockCount_toNat
  have lower := page.1
  have small : i < pageSize := by
    rw [sectorSize] at inside
    rw [pageSize]
    omega
  have address : (pageBase vaddr + BitVec.ofNat 32 i).toNat = vaddr.toNat / 4096 * 4096 + i := by
    rw [toNat_add, pageBase_toNat, toNat_ofNat]
    rw [pageSize] at small
    omega
  have offset : (pageBase vaddr + BitVec.ofNat 32 i).toNat % pageSize = i := by
    rw [pageSize] at *
    omega
  have samePage : pageBase (pageBase vaddr + BitVec.ofNat 32 i) = pageBase vaddr := by
    apply eq_of_toNat_eq
    rw [pageBase_toNat, pageBase_toNat]
    rw [pageSize] at small
    omega
  have inImage : InImage pcb (pageBase vaddr + BitVec.ofNat 32 i) := by
    rw [InImage]
    rw [count, pageIndex] at inside
    simp only [sectorSize, pageSize, processVaddr, reduceToNat] at *
    omega
  refine ⟨_, inImage, samePage, offset, ?_, ?_⟩
  · rw [sectorSize]
    omega
  · rw [imageSector_eq inImage.1, offset, ← diskLoc_pageBase, samePage, diskLoc_pageBase]

theorem Victim.holds_clean {original : BitVec 32 → Memory} {events : List Event}
    (victim : Victim s role frame p directory table) (paged : Paged original events s next queue role)
    (notDirty : isPageDirty s.mem (s.pageFrameInfo frame).vaddr (s.pcb p).pageDirectory = false) :
    SectorsHoldFrame s.chosen frame := by
  intro q owned i inside
  obtain rfl : q = p := by simpa using owned.symm.trans victim.resident.owner
  obtain ⟨page, -⟩ := victim.resident.onImagePage rfl
  obtain ⟨a, inImage, samePage, offset, sectorOffset, sectorOf⟩ := page.image_byte inside
  obtain ⟨walk, slot⟩ := victim.resident.walk samePage
  have clean : hasFlag (frameWord s.mem table (getTableIndex a)) peD = false := by
    have entry : pte s.mem (s.pcb q).pageDirectory (s.pageFrameInfo frame).vaddr =
        frameWord s.mem table (getTableIndex (s.pageFrameInfo frame).vaddr) := by
      rw [victim.resident.pointer, pte_frame (by rw [pde_frame, victim.resident.directory_base])]
    rw [isPageDirty, victim.resident.pde_present, Bool.true_and, entry] at notDirty
    rw [slot, notDirty]
  have cell : s.cell q a = { cached := some (s.mem (framePaddr frame + i), false),
                             backing := s.disk (imageSector (s.pcb q) a) (a.toNat % sectorSize) } := by
    rw [walk.cell_eq, clean, slot, victim.resident.table_present, victim.resident.table_base, offset]
    rfl
  have agrees := (paged.cells q victim.known victim.process a inImage).clean (s.mem (framePaddr frame + i))
    (by rw [cell])
  rw [cell, sectorOf, sectorOffset] at agrees
  have paddr : (s.chosen.pageFrameInfo frame).paddr = framePaddr frame := victim.paddr
  rw [paddr]
  exact agrees

theorem Window.holds_iff {actions : List EvictAction} {now : Kernel}
    (victim : Victim s role frame p directory table) (window : Window size s role frame p directory table actions now)
    (all : sectorSize * (blockCount (s.pcb p) (s.pageFrameInfo frame).vaddr).toNat ≤
      size * Transfer.sends (actions.filterMap transfer)) :
    SectorsHoldFrame now frame ↔ LateWritesSettled size s frame actions := by
  have paddr := victim.paddr
  have owner := victim.resident.owner
  have agrees (i : ℕ) (inside : i < sectorSize * (blockCount (s.pcb p) (s.pageFrameInfo frame).vaddr).toNat) :
      now.disk (diskLoc (s.pcb p) (s.pageFrameInfo frame).vaddr + BitVec.ofNat 32 (i / sectorSize)) (i % sectorSize) =
        now.mem (framePaddr frame + i) ↔
      Transfer.Settled size (fun i => s.mem (framePaddr frame + i)) i (actions.filterMap transfer) := by
    have inPage : i < pageSize := by
      have small := blockCount_le (s.pcb p) (s.pageFrameInfo frame).vaddr
      rw [sectorSize] at inside
      rw [pageSize]
      omega
    have positive : 0 < size := by
      apply Nat.pos_of_ne_zero
      rintro rfl
      omega
    rw [window.tracks.target i inside, window.tracks.source i inPage]
    apply agrees_iff rfl
    rw [Nat.div_lt_iff_lt_mul positive, Nat.mul_comm]
    exact inside.trans_le all
  constructor
  · intro holds q owned i inside
    obtain rfl : q = p := by simpa using owned.symm.trans owner
    rw [paddr]
    apply (agrees i inside).mp
    have held := holds q (by rw [window.info, owner]) i (by rwa [window.info, window.pcb])
    rwa [window.info, window.pcb, paddr] at held
  · intro settled q owned i inside
    rw [window.info] at owned inside ⊢
    rw [window.pcb] at inside ⊢
    obtain rfl : q = p := by simpa using owned.symm.trans owner
    rw [paddr]
    apply (agrees i inside).mpr
    have late := settled q owner i inside
    rwa [paddr] at late

/-- When the page is about to be unmapped, its sectors hold its contents exactly when the writes behind their packet
are settled. -/
theorem eviction_keeps_writes_iff {mem : Memory} {original : BitVec 32 → Memory} {scsi : ℕ → ScsiResult}
    {ticks : ℕ → BitVec 64} {s₀ now : Kernel} {events : List Event} {actions : List EvictAction} {ref : ℕ}
    (booted : (boot mem original scsi ticks).initMemory config = .ok s₀) (good : ∀ n, scsi n = .good)
    (run : Run (Guarded OnOwnSectors (Step config)) s₀ events s)
    (evicting : Run (EvictStep size) (s, .idle) actions (now, .ready ref)) :
    SectorsHoldFrame now (calculateInfoIndex ref) ↔ LateWritesSettled size s (calculateInfoIndex ref) actions := by
  rw [initMemory_eq] at booted
  cases booted
  obtain ⟨next, queue, role, paged⟩ := paged_of_run good run
  have reached := evicting.invariant_labels (Evicting size s role)
    (fun before taken => before.step paged.inv taken) .idle
  cases reached with
  | clean victim notDirty =>
    rw [calculateInfoIndex_framePaddr victim.bound]
    refine iff_of_true (victim.holds_clean paged notDirty) ?_
    intro p owned i inside before after split
    have empty : ([] : List (Transfer.Action (BitVec 8))) = before ++ .send :: after := split
    simp at empty
  | ready victim window all =>
    rw [calculateInfoIndex_framePaddr victim.bound]
    exact window.holds_iff victim all

/-- The write-back of a dirty page can be taken to any of its packets, and the page stays as it is. -/
theorem ImageInv.sendPackets {rest : List ℕ} (inv : ImageInv s next (frame :: rest) role)
    (owner : (s.pageFrameInfo frame).owner = some (.pcb p))
    (dirty : isPageDirty s.mem (s.pageFrameInfo frame).vaddr (s.pcb p).pageDirectory = true) (size n : ℕ)
    (more : ∀ k < n, size * k < sectorSize * (blockCount (s.pcb p) (s.pageFrameInfo frame).vaddr).toNat) :
    ∃ now, Run (EvictStep size) (s, .idle) ([.choose, .test] ++ replicate n .packet)
        (now, .writing (framePaddr frame) (framePaddr frame) (diskLoc (s.pcb p) (s.pageFrameInfo frame).vaddr)
          (blockCount (s.pcb p) (s.pageFrameInfo frame).vaddr) n) ∧
      now.mem = s.mem ∧ now.pageFrameInfo = s.pageFrameInfo ∧ now.pcb = s.pcb := by
  have selected := inv.system.alloc.selectPageForEviction
  obtain ⟨victim, q, directory, table, same, -, chosen⟩ := inv.victim selected
  obtain rfl := framePaddr_injective same
  obtain rfl : q = p := by simpa using chosen.resident.owner.symm.trans owner
  have mode : (s.chosen.pageFrameInfo frame).infoMode = peInfoUserMode := (inv.system.alloc.evictable frame (by simp)).1
  have paddr : (s.chosen.pageFrameInfo frame).paddr = framePaddr frame := chosen.paddr
  have index := calculateInfoIndex_framePaddr chosen.bound
  have selects : s.Selects (framePaddr frame) s.chosen := by
    refine ⟨selected, ?_, ?_, ?_⟩
    · rw [framePaddr_eq]
      omega
    · rw [index, FrameInfo.pinned, mode]
      decide
    · rw [index, mode]
      decide
  have writes : s.chosen.WritesBack (framePaddr frame) (diskLoc (s.pcb q) (s.pageFrameInfo frame).vaddr)
      (blockCount (s.pcb q) (s.pageFrameInfo frame).vaddr) := by
    refine ⟨⟨1, ?_, Int.one_ne_zero⟩, .pcb q, ?_, ?_⟩
    · rw [chosen.tested, if_pos dirty]
    · rw [index]
      exact owner
    · rw [index]
      exact chosen.writeRequest
  have choose : EvictStep size (s, .idle) .choose (s.chosen, .chosen (framePaddr frame)) := .choose selects
  have start := @EvictStep.start size _ _ _ _ writes
  rw [index, paddr] at start
  obtain ⟨disk, packets⟩ := run_packets size _ (framePaddr frame) (framePaddr frame)
    (diskLoc (s.pcb q) (s.pageFrameInfo frame).vaddr) n more
  exact ⟨_, ((Run.single choose).snoc start).append (packets.mono fun taken => taken.2), rfl, rfl, rfl⟩

/-- The owner of a present image page can write to it, also while the page is on its way to the disk. -/
theorem ImageInv.canWrite {now : Kernel} (inv : ImageInv s next queue role) (known : p < s.pcbCount)
    (process : (s.pcb p).isThread = false) (inside : InImage (s.pcb p) vaddr)
    (present : hasFlag (pte s.mem (s.pcb p).pageDirectory vaddr) peP = true) (mem : now.mem = s.mem)
    (pcb : now.pcb = s.pcb) (byte : BitVec 8) : ∃ after, now.userWrite p vaddr byte = some after := by
  obtain ⟨page, reached, writable⟩ := inv.userPage known process inside present
  have samePage : now.userPage p vaddr = s.userPage p vaddr := by
    rw [Kernel.userPage, Kernel.userPage, Kernel.bothHave, Kernel.bothHave, Kernel.bothHave, Kernel.bothHave, mem, pcb]
  have sameWritable : now.bothHave p vaddr peRw = s.bothHave p vaddr peRw := by
    rw [Kernel.bothHave, Kernel.bothHave, mem, pcb]
  rw [Kernel.userWrite, sameWritable, if_pos writable, samePage, reached]
  exact ⟨_, rfl⟩

/-- The owner of a page in a queued frame can make it dirty. -/
theorem ImageInv.soil (inv : ImageInv s next queue role) (queued : frame ∈ queue)
    (owner : (s.pageFrameInfo frame).owner = some (.pcb p)) (page : (s.pageFrameInfo frame).vaddr = vaddr)
    (inside : InImage (s.pcb p) vaddr) (byte : BitVec 8) :
    ∃ after, Step config s (.write p vaddr byte) after ∧ ImageInv after next queue role ∧
      after.mem (framePaddr frame + vaddr.toNat % pageSize) = byte ∧ after.pageFrameInfo = s.pageFrameInfo ∧
      after.pcb = s.pcb ∧ isPageDirty after.mem vaddr (after.pcb p).pageDirectory = true ∧
      ∀ now : Kernel, now.mem = after.mem → now.pcb = after.pcb →
        ∀ byte, ∃ later, now.userWrite p vaddr byte = some later := by
  obtain ⟨q, directory, table, known, process, resident⟩ := inv.system.map.queued frame queued
  obtain rfl : q = p := by simpa using resident.owner.symm.trans owner
  have samePage : pageBase vaddr = pageBase (s.pageFrameInfo frame).vaddr := by rw [page]
  obtain ⟨walk, slot⟩ := resident.walk samePage
  have present : hasFlag (pte s.mem (s.pcb q).pageDirectory vaddr) peP = true := by
    rw [walk.pte_eq, slot, resident.table_present]
  obtain ⟨after, ran⟩ := inv.canWrite known process inside present rfl rfl byte
  obtain ⟨source, resident', info, pcb, -⟩ := resident.userWrite samePage ran
  have step : Step config s (.write q vaddr byte) after := .write known process ran
  have guarded : Guarded InsideImages (Step config) s (.write q vaddr byte) after := ⟨inside, step⟩
  obtain ⟨next', queue', role', inv', taken⟩ := inv.step guarded
  obtain ⟨rfl, rfl, rfl, count, cell⟩ : next' = next ∧ queue' = queue ∧ role' = role ∧ after.pcbCount = s.pcbCount ∧
      after.cell q vaddr = (s.cell q vaddr).write byte := by
    cases taken with
    | write at_frame => exact ⟨rfl, rfl, rfl, rfl, at_frame.cell_write byte⟩
  obtain ⟨walk', slot'⟩ := resident'.walk (show pageBase vaddr = _ by rw [info, page])
  have present' : hasFlag (pte after.mem (after.pcb q).pageDirectory vaddr) peP = true := by
    rw [walk'.pte_eq, slot', resident'.table_present]
  have inside' : InImage (after.pcb q) vaddr := by rwa [pcb]
  have process' : (after.pcb q).isThread = false := by rwa [pcb]
  refine ⟨after, step, inv', ?_, info, pcb, ?_, ?_⟩
  · rw [source _ (Nat.mod_lt _ (by decide)), if_pos rfl]
  · simp only [Kernel.cell, present', if_true, Cell.write, Cell.mk.injEq, some.injEq, Prod.mk.injEq] at cell
    rw [isPageDirty, inv'.present (count ▸ known) process' inside', cell.1.2]
    rfl
  · intro now sameMem samePcb
    exact inv'.canWrite (count ▸ known) process' inside' present' sameMem samePcb

theorem Kernel.userWrite_scsi (ran : s.userWrite p vaddr byte = some s') :
    s'.scsi = s.scsi ∧ s'.scsiCount = s.scsiCount := by
  simp only [userWrite, ite_none_right_eq_some, map_eq_some_iff] at ran
  obtain ⟨-, page, -, rfl⟩ := ran
  exact ⟨rfl, rfl⟩

/-- A process with an image of 27 pages has touched them all, which takes the last free frame, and has written to the
first one. -/
theorem first_page_dirty (scsi : ℕ → ScsiResult) (good : ∀ n < 27, scsi n = .good) : ∃ s₀ events s role,
    (boot (fun _ => 0#8) (fun _ _ => 0#8) scsi fun _ => 0#64).initMemory config = .ok s₀ ∧
      Run (Guarded OnOwnSectors (Step config)) s₀ events s ∧ s.pageFreeHead = none ∧
      ImageInv s 33 ((range 27).map (6 + ·)) role ∧ (s.pcb 0).swapSize = 216#32 ∧
      (s.pageFrameInfo 6).owner = some (.pcb 0) ∧ (s.pageFrameInfo 6).vaddr = 0x1000000#32 ∧
      s.mem (framePaddr 6) = 1#8 ∧ isPageDirty s.mem 0x1000000#32 (s.pcb 0).pageDirectory = true ∧
      s.scsi s.scsiCount = scsi 27 ∧
      ∀ now : Kernel, now.mem = s.mem → now.pcb = s.pcb →
        ∀ byte, ∃ later, now.userWrite 0 0x1000000#32 byte = some later := by
  have inv := imageInv_initial (fun _ => 0#8) (fun _ _ => 0#8) scsi fun _ => 0#64
  have short : ShortImage 216#32 := by decide
  obtain ⟨s₁, role₁, ran, inv₁, -, count, -, sameScsi, none, -, process, -, size⟩ :=
    inv.newProcess (p := 0) rfl 0#32 short (by decide)
  have none : s₁.scsiCount = 0 := none
  have sameScsi : s₁.scsi = scsi := sameScsi
  have setup : Guarded OnOwnSectors (Step config)
      (initial (fun _ => 0#8) (fun _ _ => 0#8) scsi fun _ => 0#64)
      (.setup false 0#32 216#32) s₁ :=
    ⟨⟨fun _ => short, fun _ _ _ q bound => absurd bound (Nat.not_lt_zero q)⟩, .setup ran⟩
  have known : 0 < s₁.pcbCount := count.symm ▸ Nat.one_pos
  have reads (k : ℕ) (bound : k < 27) : s₁.scsi (s₁.scsiCount + k) = .good := by
    rw [sameScsi, none, Nat.zero_add]
    exact good k bound
  obtain ⟨s₂, role₂, run, inv₂, static, made, records⟩ := inv₁.loadPages OnOwnSectors known process
    (fun s vaddr inside => ⟨inside, by simp⟩) 27 reads (by decide) (by rw [size]; decide)
  have inside : InImage (s₂.pcb 0) 0x1000000#32 := by
    rw [InImage, static.pcb, size]
    decide
  have record : (s₂.pageFrameInfo 6).vaddr = 0x1000000#32 := (records 0 (by decide)).trans (by decide)
  have owner : (s₂.pageFrameInfo 6).owner = some (.pcb 0) := by
    obtain ⟨q, _, _, known, -, resident⟩ := inv₂.system.map.queued 6 (by decide)
    obtain rfl : q = 0 := by
      rw [static.pcbCount, count] at known
      exact Nat.lt_one_iff.mp known
    exact resident.owner
  obtain ⟨s, write, inv, byte, info, pcb, dirty, again⟩ := inv₂.soil (by decide) owner record inside 1#8
  have guarded : Guarded OnOwnSectors (Step config) s₂ (.write 0 0x1000000#32 1#8) s :=
    ⟨⟨inside, by simp⟩, write⟩
  refine ⟨_, _, s, role₂, initMemory_eq .., ((Run.single setup).append run).snoc guarded,
    inv.system.alloc.head, inv, ?_, ?_, ?_, byte, dirty, ?_, again⟩
  · rw [pcb, static.pcb, size]
  · rw [info, owner]
  · rw [info, record]
  · cases write with
    | write _ _ ran =>
      obtain ⟨later, count⟩ := userWrite_scsi ran
      rw [later, count, static.scsi, made, sameScsi, none]

/-- If the next transfer succeeds, the eviction in one step and the undisturbed one in phases end in the same state.
-/
theorem eviction_in_phases {ref : ℕ} (good : s.scsi s.scsiCount = .good) (positive : 0 < size) :
    ((∃ evicted, s.tryEvictPage config = .ok (ref, evicted)) ↔
      ∃ actions now, Run (Guarded Undisturbed (EvictStep size)) (s, .idle) actions (now, .done ref)) ∧
    ∀ actions now, Run (Guarded Undisturbed (EvictStep size)) (s, .idle) actions (now, .done ref) →
      ∃ evicted, s.tryEvictPage config = .ok (ref, evicted) ∧ now = { evicted with disk := now.disk } ∧
        SameSectors now.disk evicted.disk := by
  refine ⟨⟨fun ⟨_, evicts⟩ => exists_phases good positive evicts, ?_⟩, fun _ _ => undisturbed_eviction good positive⟩
  rintro ⟨_, _, run⟩
  obtain ⟨evicted, evicts, -⟩ := undisturbed_eviction good positive run
  exact ⟨evicted, evicts⟩

/-- A dirty page is evicted in one step, and so it is in phases. -/
theorem eviction_in_phases_first_page : ∃ s : Kernel, isPageDirty s.mem 0x1000000#32 (s.pcb 0).pageDirectory = true ∧
      (∃ evicted, s.tryEvictPage config = .ok (framePaddr 6, evicted)) ∧
      ∃ actions now, Run (Guarded Undisturbed (EvictStep 64)) (s, .idle) actions (now, .done (framePaddr 6)) := by
  obtain ⟨-, -, s, role, -, -, -, inv, -, owner, -, -, dirty, good, -⟩ :=
    first_page_dirty (fun _ => .good) fun _ _ => rfl
  obtain ⟨p, directory, table, -, -, resident⟩ := inv.system.map.queued 6 (by simp)
  obtain rfl : p = 0 := by simpa using resident.owner.symm.trans owner
  have notKernel : directory ≠ 0 := (inv.system.map.kernel_ne resident.directory_role).1.symm
  have evicts := inv.system.alloc.tryEvictPage owner
  rw [resident.unmapHalt inv.system.kernel notKernel] at evicts
  exact ⟨s, dirty, ⟨_, evicts⟩, (eviction_in_phases good (by decide)).1.mp ⟨_, evicts⟩⟩

/-- All packets of this page have been sent, and the device has not yet confirmed it. -/
theorem first_page_sent : ∃ s₀ events s role now,
    (boot (fun _ => 0#8) (fun _ _ => 0#8) (fun _ => .good) fun _ => 0#64).initMemory config = .ok s₀ ∧
      Run (Guarded OnOwnSectors (Step config)) s₀ events s ∧ s.pageFreeHead = none ∧
      ImageInv s 33 ((range 27).map (6 + ·)) role ∧ s.mem (framePaddr 6) = 1#8 ∧
      (s.pageFrameInfo 6).owner = some (.pcb 0) ∧
      isPageDirty s.mem (s.pageFrameInfo 6).vaddr (s.pcb 0).pageDirectory = true ∧
      blockCount (s.pcb 0) (s.pageFrameInfo 6).vaddr = 8#32 ∧
      Run (EvictStep 64) (s, .idle) ([.choose, .test] ++ replicate 64 .packet)
        (now, .writing (framePaddr 6) (framePaddr 6) (diskLoc (s.pcb 0) (s.pageFrameInfo 6).vaddr) 8#32 64) ∧
      (now.pageFrameInfo 6).owner = some (.pcb 0) ∧ (now.pageFrameInfo 6).vaddr = 0x1000000#32 ∧
      ∃ after, now.userWrite 0 0x1000000#32 2#8 = some after := by
  obtain ⟨s₀, events, s, role, booted, run, free, inv, size, owner, record, byte, dirty, -, again⟩ :=
    first_page_dirty (fun _ => .good) fun _ _ => rfl
  have sectors : blockCount (s.pcb 0) (s.pageFrameInfo 6).vaddr = 8#32 := by
    rw [record, blockCount, size]
    decide
  rw [← record] at dirty
  obtain ⟨now, packets, mem, info, pcb⟩ := inv.sendPackets owner dirty 64 64 (by
    intro k bound
    rw [sectors]
    change 64 * k < 512 * 8
    omega)
  have sent := sectors
  rw [sent] at packets
  refine ⟨s₀, events, s, role, now, booted, run, free, inv, byte, owner, dirty, sectors, packets, ?_, ?_,
    again now mem pcb 2#8⟩
  · rw [info, owner]
  · rw [info, record]

theorem Evicting.ready_written {actions : List EvictAction} {now : Kernel} {ref : ℕ}
    (evicting : Evicting size s role actions (now, .ready ref)) (written : actions ≠ [.choose, .test]) :
    ∃ frame p directory table, ref = framePaddr frame ∧ Victim s role frame p directory table ∧
      Window size s role frame p directory table actions now ∧
      sectorSize * (blockCount (s.pcb p) (s.pageFrameInfo frame).vaddr).toNat ≤
        size * Transfer.sends (actions.filterMap transfer) := by
  cases evicting with
  | clean victim notDirty => exact absurd rfl written
  | ready victim window all => exact ⟨_, _, _, _, rfl, victim, window, all⟩

/-- The owner writes to the page when the last packet has been sent: the sectors hold what was written before. -/
theorem late_write_is_lost : ∃ s₀ events s actions now,
    (boot (fun _ => 0#8) (fun _ _ => 0#8) (fun _ => .good) fun _ => 0#64).initMemory config = .ok s₀ ∧
      Run (Guarded OnOwnSectors (Step config)) s₀ events s ∧ s.pageFreeHead = none ∧
      actions = [.choose, .test] ++ replicate 64 .packet ++ [.store 0x1000000#32 2#8] ++ [.finish] ∧
      Run (EvictStep 64) (s, .idle) actions (now, .ready (framePaddr 6)) ∧ ¬SectorsHoldFrame now 6 := by
  obtain ⟨s₀, events, s, role, now, booted, run, free, inv, byte, owner, -, sectors, packets, owned, page, after,
    ran⟩ :=
    first_page_sent
  have index : calculateInfoIndex (framePaddr 6) = 6 := calculateInfoIndex_framePaddr (by decide)
  have store := packets.snoc (.store (by rwa [index]) (by rw [index, page]) ran)
  have all := store.snoc (.finish (by decide))
  refine ⟨s₀, events, s, _, after, booted, run, free, rfl, all, ?_⟩
  have reached := all.invariant_labels (Evicting 64 s role) (fun before taken => before.step inv taken) .idle
  obtain ⟨frame, p, directory, table, same, victim, window, all⟩ := reached.ready_written (by simp)
  obtain rfl := framePaddr_injective same
  rw [window.holds_iff victim all]
  intro settled
  have lost := settled 0 owner 0 (by rw [sectors]; decide) [] _ rfl rfl 2#8 rfl
  rw [victim.paddr] at lost
  exact absurd (lost.trans byte) (by decide)

/-- If the owner does not write to the page in the meantime, nothing is lost. -/
theorem eviction_keeps_writes_first_page : ∃ s now,
    Run (EvictStep 64) (s, .idle) ([.choose, .test] ++ replicate 64 .packet ++ [.finish])
      (now, .ready (framePaddr 6)) ∧
      isPageDirty s.mem (s.pageFrameInfo 6).vaddr (s.pcb 0).pageDirectory = true ∧ SectorsHoldFrame now 6 := by
  obtain ⟨s₀, events, s, role, now, booted, run, -, -, -, -, dirty, -, packets, -⟩ := first_page_sent
  have all := packets.snoc (.finish (by decide))
  refine ⟨s, now, all, dirty, ?_⟩
  have holds := eviction_keeps_writes_iff booted (fun _ => rfl) run all
  apply holds.mpr
  intro p owned i inside
  have packets : ([.choose, .test] ++ replicate 64 .packet ++ [.finish] : List EvictAction).filterMap
      transfer = replicate 64 .send := rfl
  rw [packets]
  exact settled_of_sends fun action member => eq_of_mem_replicate member

end MicroOs.Paging
