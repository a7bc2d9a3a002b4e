import MicroOs.Library.Run
import MicroOs.Paging.AddressSpace

/-! # The phases of an eviction

While `write_page_back_to_disk` waits for the disk, other tasks run. The victim is still mapped then, so its owner may
write to it: before the data is sent, between two packets of it, and while the status of the transfer is awaited. Here
`try_evict_page_v2` is taken apart into these phases. An eviction that nobody disturbs does what the pager does in one
step.
-/

namespace MicroOs.Paging

open BitMask Memory Kernel

namespace Kernel

variable (s : Kernel)

/-- The sectors that `write_page_back_to_disk` asks the device to write, if it does. -/
def writeRequest (vaddr : BitVec 32) (pcb : Pcb) : Option (BitVec 32 × BitVec 32) :=
  if pcb.swapSize < diskOffset vaddr then none
  else (getPageTable s.mem vaddr pcb.pageDirectory).map fun _ => (diskLoc pcb vaddr, blockCount pcb vaddr)

theorem writePageBackToDisk_request (vaddr : BitVec 32) (pcb : Pcb) (paddr : ℕ) :
    s.writePageBackToDisk vaddr pcb paddr = match s.writeRequest vaddr pcb with
      | none => (false, s)
      | some (sector, count) => s.scsiWrite sector count paddr := by
  simp only [writePageBackToDisk, writeRequest]
  split_ifs
  · rfl
  · cases getPageTable s.mem vaddr pcb.pageDirectory with
    | none => rfl
    | some table => rfl

def startWrite (sector count : BitVec 32) : Kernel :=
  { s with scsiCount := s.scsiCount + 1 }.record (.diskWrite sector count)

/-- The device fetches one packet of a write from memory. -/
def sendPacket (size : ℕ) (sector count : BitVec 32) (paddr sent : ℕ) : Kernel :=
  { s with disk := fun query offset =>
      let i := sectorSize * (query - sector).toNat + offset
      if query - sector < count ∧ offset < sectorSize ∧ i / size = sent then s.mem (paddr + i)
      else s.disk query offset }

/-- `select_page_for_eviction` yields a frame that `try_evict_page_v2` does not refuse. -/
structure Selects (ref : ℕ) (s' : Kernel) : Prop where
  selected : s.selectPageForEviction config = .ok (ref, s')
  found : ref ≠ 0
  unpinned : (s'.pageFrameInfo (calculateInfoIndex ref)).pinned = false
  ordinary : hasFlag (s'.pageFrameInfo (calculateInfoIndex ref)).infoMode peInfoKernelDummy = false

/-- The page in a frame is dirty, and its owner's sectors are to be written. -/
structure WritesBack (ref : ℕ) (sector count : BitVec 32) : Prop where
  dirty : ∃ number, s.pageFrameCheckDirty ref = .ok number ∧ number ≠ 0
  request : ∃ owner, (s.pageFrameInfo (calculateInfoIndex ref)).owner = some owner ∧
    s.writeRequest (s.pageFrameInfo (calculateInfoIndex ref)).vaddr (s.pcbOf owner) = some (sector, count)

/-- The page in a frame is not dirty, or it has no sectors. -/
def SkipsWriteBack (ref : ℕ) : Prop :=
  ∃ number, s.pageFrameCheckDirty ref = .ok number ∧ (number ≠ 0 →
    ∃ owner, (s.pageFrameInfo (calculateInfoIndex ref)).owner = some owner ∧
      s.writeRequest (s.pageFrameInfo (calculateInfoIndex ref)).vaddr (s.pcbOf owner) = none)

end Kernel

/-- Where `try_evict_page_v2` is, with what the calls that are under way have computed. -/
inductive Phase
  | idle
  | chosen (ref : ℕ)
  | writing (ref paddr : ℕ) (sector count : BitVec 32) (sent : ℕ)
  | ready (ref : ℕ)
  | done (ref : ℕ)

inductive EvictAction
  | choose
  | test
  | packet
  | store (vaddr : BitVec 32) (byte : BitVec 8)
  | finish
  | free

/-- The steps of an eviction. The owner of the page writes to it where `uhci_read_write` yields, inside of the
transfer. -/
inductive EvictStep (size : ℕ) : Kernel × Phase → EvictAction → Kernel × Phase → Prop
  | choose {s s' : Kernel} {ref : ℕ} (selects : s.Selects ref s') :
      EvictStep size (s, .idle) .choose (s', .chosen ref)
  | skip {s : Kernel} {ref : ℕ} (skips : s.SkipsWriteBack ref) :
      EvictStep size (s, .chosen ref) .test (s, .ready ref)
  | start {s : Kernel} {ref : ℕ} {sector count : BitVec 32} (writes : s.WritesBack ref sector count) :
      EvictStep size (s, .chosen ref) .test
        (s.startWrite sector count, .writing ref (s.pageFrameInfo (calculateInfoIndex ref)).paddr sector count 0)
  | packet {s : Kernel} {ref paddr sent : ℕ} {sector count : BitVec 32}
      (more : size * sent < sectorSize * count.toNat) :
      EvictStep size (s, .writing ref paddr sector count sent) .packet
        (s.sendPacket size sector count paddr sent, .writing ref paddr sector count (sent + 1))
  | store {s s' : Kernel} {ref paddr sent p : ℕ} {sector count vaddr : BitVec 32} {byte : BitVec 8}
      (owned : (s.pageFrameInfo (calculateInfoIndex ref)).owner = some (.pcb p))
      (page : pageBase vaddr = pageBase (s.pageFrameInfo (calculateInfoIndex ref)).vaddr)
      (ran : s.userWrite p vaddr byte = some s') :
      EvictStep size (s, .writing ref paddr sector count sent) (.store vaddr byte)
        (s', .writing ref paddr sector count sent)
  | finish {s : Kernel} {ref paddr sent : ℕ} {sector count : BitVec 32}
      (all : sectorSize * count.toNat ≤ size * sent) :
      EvictStep size (s, .writing ref paddr sector count sent) .finish (s, .ready ref)
  | free {s s' : Kernel} {ref : ℕ} (freed : s.pageFree (s.pageFrameInfo (calculateInfoIndex ref)).paddr true = .ok s') :
      EvictStep size (s, .ready ref) .free (s'.record (.evicted (calculateInfoIndex ref)), .done ref)

variable {size ref : ℕ} {s s' : Kernel} {sector count : BitVec 32}

theorem Kernel.Selects.tryEvictPage (selects : s.Selects ref s') :
    s.tryEvictPage config = (do
      let written ← s'.writeBackIfDirty ref
      let freed ← written.pageFree (s'.pageFrameInfo (calculateInfoIndex ref)).paddr true
      pure (ref, freed.record (.evicted (calculateInfoIndex ref)))) := by
  simp [Kernel.tryEvictPage, selects.selected, bind, Except.bind, selects.found, selects.unpinned, selects.ordinary]

theorem Kernel.SkipsWriteBack.writeBackIfDirty (skips : s.SkipsWriteBack ref) : s.writeBackIfDirty ref = .ok s := by
  obtain ⟨number, tested, refused⟩ := skips
  simp only [Kernel.writeBackIfDirty, tested, bind, Except.bind]
  split_ifs with dirty
  · obtain ⟨owner, owned, request⟩ := refused dirty
    simp only [owned, Kernel.writePageBackToDisk_request, request]
    rfl
  · rfl

theorem Kernel.WritesBack.writeBackIfDirty (writes : s.WritesBack ref sector count) :
    s.writeBackIfDirty ref =
      .ok (s.scsiWrite sector count (s.pageFrameInfo (calculateInfoIndex ref)).paddr).2 := by
  obtain ⟨⟨number, tested, dirty⟩, owner, owned, request⟩ := writes
  simp only [Kernel.writeBackIfDirty, tested, bind, Except.bind, if_pos dirty, owned,
    Kernel.writePageBackToDisk_request,
    request]
  rfl

section Frame

variable (disk : BitVec 32 → Memory) (trace : List PageEvent)

theorem Kernel.pageSetMode_frame {pdir : ℕ} {vaddr mode : BitVec 32} (ran : s.pageSetMode pdir vaddr mode = .ok s') :
    pageSetMode { s with disk, trace } pdir vaddr mode = .ok { s' with disk, trace } := by
  simp only [pageSetMode] at ran ⊢
  split_ifs at ran ⊢ with absent wild
  cases ran
  rfl

theorem Kernel.info_frame (ref : InfoRef) : Kernel.info { s with disk, trace } ref = s.info ref := by
  cases ref with
  | main index => rfl
  | shared index => rfl

theorem Kernel.putInfo_frame (ref : InfoRef) (info : FrameInfo) :
    putInfo { s with disk, trace } ref info = { s.putInfo ref info with disk, trace } := by
  cases ref with
  | main index => rfl
  | shared index => rfl

/-- `page_free` of an evicted page neither uses nor changes the disk and the record of what the pager does. -/
theorem Kernel.pageFreeRecords_frame {paddr fuel : ℕ} {ref : InfoRef}
    (freed : pageFreeRecords paddr true fuel ref s = .ok s') :
    pageFreeRecords paddr true fuel ref { s with disk, trace } = .ok { s' with disk, trace } := by
  induction fuel generalizing ref s with
  | zero => cases freed
  | succ fuel ih =>
    rw [pageFreeRecords] at freed ⊢
    rw [info_frame]
    cases owned : (s.info ref).owner with
    | none => simp [owned] at freed
    | some owner =>
      simp only [owned, Outcome.check_eq_ok_iff, if_true, Outcome.bind_eq_ok_iff] at freed ⊢
      obtain ⟨allowed, unmapped, unmap, rest⟩ := freed
      refine ⟨allowed, _, pageSetMode_frame disk trace unmap, ?_⟩
      simp only [info_frame, putInfo_frame]
      cases next : (unmapped.info ref).nextSharedInfo with
      | none =>
        simp only [next] at rest ⊢
        cases rest
        rfl
      | some index =>
        simp only [next] at rest ⊢
        exact ih rest

end Frame

theorem Kernel.pageFree_unchanged {paddr : ℕ} (freed : s.pageFree paddr true = .ok s') :
    s'.disk = s.disk ∧ s'.trace = s.trace := by
  have framed := pageFreeRecords_frame s.disk s.trace freed
  have same := freed.symm.trans framed
  injection same with same
  have disk := congrArg Kernel.disk same
  have trace := congrArg Kernel.trace same
  exact ⟨disk, trace⟩

theorem Kernel.pageFree_withDisk (disk : BitVec 32 → Memory) {paddr : ℕ} (freed : s.pageFree paddr true = .ok s') :
    pageFree { s with disk } paddr true = .ok { s' with disk } := by
  have framed := pageFreeRecords_frame disk s.trace freed
  exact framed.trans (by rw [← (pageFree_unchanged freed).2])

theorem Kernel.Selects.scsi (selects : s.Selects ref s') : s'.scsi s'.scsiCount = s.scsi s.scsiCount := by
  have selected := selects.selected
  simp only [selectPageForEviction, config, selectPageForEvictionV1] at selected
  split_ifs at selected
  cases selected
  rfl

section

variable (good : s.scsi s.scsiCount = .good)
include good

theorem Kernel.scsiWrite_good (sector count : BitVec 32) (paddr : ℕ) :
    (s.scsiWrite sector count paddr).2 = { s.startWrite sector count with
      disk := fun query => if query - sector < count then
        fun offset => s.mem (paddr + (sectorSize * (query - sector).toNat + offset)) else s.disk query } := by
  simp only [scsiWrite, good]
  rfl

def Undisturbed (_ : Kernel × Phase) (action : EvictAction) : Prop := ∀ vaddr byte, action ≠ .store vaddr byte

def SameSectors (left right : BitVec 32 → Memory) : Prop :=
  ∀ sector, ∀ offset < sectorSize, left sector offset = right sector offset

/-- How far the eviction in one step is done in each phase. -/
inductive Alone (size : ℕ) (s : Kernel) : Kernel × Phase → Prop
  | idle : Alone size s (s, .idle)
  | chosen {ref : ℕ} {s' : Kernel} (selects : s.Selects ref s') : Alone size s (s', .chosen ref)
  | writing {ref sent : ℕ} {s' : Kernel} {sector count : BitVec 32} {disk : BitVec 32 → Memory}
    (selects : s.Selects ref s')
      (writes : s'.WritesBack ref sector count)
      (contents : ∀ query, ∀ offset < sectorSize, disk query offset =
        if query - sector < count ∧ (sectorSize * (query - sector).toNat + offset) / size < sent then
          s'.mem ((s'.pageFrameInfo (calculateInfoIndex ref)).paddr + (sectorSize * (query - sector).toNat + offset))
        else s'.disk query offset) :
      Alone size s ({ s'.startWrite sector count with disk },
        .writing ref (s'.pageFrameInfo (calculateInfoIndex ref)).paddr sector count sent)
  | ready {ref : ℕ} {s' written : Kernel} {disk : BitVec 32 → Memory} (selects : s.Selects ref s')
      (wrote : s'.writeBackIfDirty ref = .ok written) (info : written.pageFrameInfo = s'.pageFrameInfo)
      (same : SameSectors disk written.disk) :
      Alone size s ({ written with disk }, .ready ref)
  | done {ref : ℕ} {evicted : Kernel} {disk : BitVec 32 → Memory} (evicts : s.tryEvictPage config = .ok (ref, evicted))
      (same : SameSectors disk evicted.disk) :
      Alone size s ({ evicted with disk }, .done ref)

/-- Undisturbed, each phase does its part of the eviction in one step. -/
theorem Alone.step {now after : Kernel × Phase} {action : EvictAction}
    (positive : 0 < size) (alone : Alone size s now) (taken : Guarded Undisturbed (EvictStep size) now action after) :
    Alone size s after := by
  obtain ⟨undisturbed, taken⟩ := taken
  cases alone with
  | idle =>
    cases taken with
    | choose selects => exact .chosen selects
  | chosen selects =>
    cases taken with
    | skip skips =>
      exact .ready selects skips.writeBackIfDirty rfl fun _ _ _ => rfl
    | start writes =>
      refine .writing selects writes ?_
      intro query offset _
      rw [if_neg (by simp)]
  | @writing ref sent s' sector count disk selects writes contents =>
    cases taken with
    | packet more =>
      refine .writing selects writes ?_
      intro query offset bound
      simp only [contents query offset bound, bound, Nat.lt_succ_iff_lt_or_eq]
      by_cases inside : query - sector < count
      · by_cases now : (sectorSize * (query - sector).toNat + offset) / size = sent
        · simp only [inside, now, or_true]
          rfl
        · simp only [inside, now, true_and, or_false, if_false]
      · simp [inside]
    | store owned page ran => exact absurd rfl (undisturbed _ _)
    | finish all =>
      have wrote := writes.writeBackIfDirty
      rw [scsiWrite_good (by rw [selects.scsi, good])] at wrote
      have same : SameSectors disk fun query => if query - sector < count then fun offset => s'.mem
          ((s'.pageFrameInfo (calculateInfoIndex ref)).paddr + (sectorSize * (query - sector).toNat + offset))
          else s'.disk query := by
        intro query offset bound
        rw [contents query offset bound]
        by_cases inside : query - sector < count
        · have arrived : (sectorSize * (query - sector).toNat + offset) / size < sent := by
            rw [BitVec.lt_def] at inside
            rw [Nat.div_lt_iff_lt_mul positive, Nat.mul_comm sent]
            rw [sectorSize] at *
            omega
          simp only [inside, arrived, true_and, if_true]
        · simp [inside]
      have ready := @Alone.ready size s ref s' _ disk selects wrote rfl same
      exact ready
  | @ready ref s' written disk selects wrote info same =>
    cases taken with
    | free freed =>
      have alike := pageFree_withDisk written.disk freed
      have unchanged := (pageFree_unchanged freed).1
      have evicts := selects.tryEvictPage
      rw [wrote, ← info] at evicts
      have evicted := evicts.trans (Outcome.bind_eq_ok_iff.mpr ⟨_, rfl, Outcome.bind_eq_ok_iff.mpr ⟨_, alike, rfl⟩⟩)
      have done := @Alone.done size s ref _ disk evicted same
      rw [← show _ = disk from unchanged] at done
      exact done
  | done evicts same => cases taken

/-- An eviction that nobody disturbs ends as the eviction in one step does. -/
theorem undisturbed_eviction {now : Kernel} {actions : List EvictAction}
    (positive : 0 < size) (run : Run (Guarded Undisturbed (EvictStep size)) (s, .idle) actions (now, .done ref)) :
    ∃ evicted, s.tryEvictPage config = .ok (ref, evicted) ∧ now = { evicted with disk := now.disk } ∧
      SameSectors now.disk evicted.disk := by
  have alone := run.invariant (Alone size s) (fun before taken => before.step good positive taken) .idle
  cases alone with
  | done evicts same => exact ⟨_, evicts, rfl, same⟩

end

theorem Kernel.writeBackIfDirty_cases (ran : s.writeBackIfDirty ref = .ok s') :
    s.SkipsWriteBack ref ∨ ∃ sector count, s.WritesBack ref sector count := by
  simp only [Kernel.writeBackIfDirty, Outcome.bind_eq_ok_iff] at ran
  obtain ⟨number, tested, ran⟩ := ran
  by_cases dirty : number ≠ 0
  · rw [if_pos dirty] at ran
    cases owned : (s.pageFrameInfo (calculateInfoIndex ref)).owner with
    | none => simp [owned] at ran
    | some owner =>
      cases request : s.writeRequest (s.pageFrameInfo (calculateInfoIndex ref)).vaddr (s.pcbOf owner) with
      | none => exact .inl ⟨number, tested, fun _ => ⟨owner, owned, request⟩⟩
      | some sectors => exact .inr ⟨sectors.1, sectors.2, ⟨number, tested, dirty⟩, owner, owned, request⟩
  · exact .inl ⟨number, tested, fun isDirty => absurd isDirty dirty⟩

/-- Packets can be sent as long as there is data, and leave everything but the disk alone. -/
theorem run_packets (size : ℕ) (now : Kernel) (ref paddr : ℕ) (sector : BitVec 32) (n : ℕ)
    (more : ∀ k < n, size * k < sectorSize * count.toNat) :
    ∃ disk, Run (Guarded Undisturbed (EvictStep size)) (now, .writing ref paddr sector count 0)
      (List.replicate n .packet)
      ({ now with disk }, .writing ref paddr sector count n) := by
  induction n with
  | zero => exact ⟨now.disk, .nil _⟩
  | succ n ih =>
    obtain ⟨disk, run⟩ := ih fun k bound => more k (by omega)
    refine ⟨(Kernel.sendPacket { now with disk } size sector count paddr n).disk, ?_⟩
    rw [List.replicate_succ']
    exact run.snoc ⟨nofun, .packet (more n (Nat.lt_succ_self n))⟩

/-- A number of packets that is enough, and no more than enough. -/
theorem exists_packets (positive : 0 < size) (length : ℕ) : ∃ n, length ≤ size * n ∧ ∀ k < n, size * k < length := by
  have enough : ∃ n, length ≤ size * n := ⟨length, Nat.le_mul_of_pos_left length positive⟩
  exact ⟨Nat.find enough, Nat.find_spec enough, fun k bound => Nat.lt_of_not_le (Nat.find_min enough bound)⟩

/-- What the pager does in one step can be done in phases. -/
theorem Kernel.exists_phases {evicted : Kernel} (good : s.scsi s.scsiCount = .good) (positive : 0 < size)
    (evicts : s.tryEvictPage config = .ok (ref, evicted)) :
    ∃ actions now, Run (Guarded Undisturbed (EvictStep size)) (s, .idle) actions (now, .done ref) := by
  simp only [Kernel.tryEvictPage, Outcome.bind_eq_ok_iff, Outcome.check_eq_ok_iff, Prod.exists] at evicts
  obtain ⟨paddr, s', selected, found, unpinned, ordinary, written, wrote, freed, free, result⟩ := evicts
  cases result
  have selects : s.Selects ref s' :=
    ⟨selected, found, Bool.eq_false_iff.mpr unpinned, Bool.eq_false_iff.mpr ordinary⟩
  have chosen := Run.single (show Guarded Undisturbed (EvictStep size) (s, .idle) .choose (s', .chosen ref) from
    ⟨nofun, .choose selects⟩)
  rcases writeBackIfDirty_cases wrote with skips | ⟨sector, count, writes⟩
  · cases wrote.symm.trans skips.writeBackIfDirty
    have ready := chosen.snoc ⟨fun _ _ => EvictAction.noConfusion, .skip skips⟩
    exact ⟨_, _, ready.snoc ⟨fun _ _ => EvictAction.noConfusion, .free free⟩⟩
  · have result := writes.writeBackIfDirty
    rw [scsiWrite_good (by rw [selects.scsi, good])] at result
    cases wrote.symm.trans result
    obtain ⟨n, enough, more⟩ := exists_packets positive (sectorSize * count.toNat)
    obtain ⟨disk, packets⟩ := run_packets size (s'.startWrite sector count) ref
      (s'.pageFrameInfo (calculateInfoIndex ref)).paddr sector n more
    have sent := (chosen.snoc ⟨fun _ _ => EvictAction.noConfusion, .start writes⟩).append packets
    have ready := sent.snoc ⟨fun _ _ => EvictAction.noConfusion, .finish enough⟩
    have free := pageFree_withDisk disk free
    exact ⟨_, _, ready.snoc ⟨fun _ _ => EvictAction.noConfusion, .free free⟩⟩

end MicroOs.Paging
