import MicroOs.Paging.Phases
import MicroOs.Paging.Sectors

/-! # The sectors that paging touches

The place of a page in the image and the number of its sectors are computed in unsigned arithmetic, and an address
behind the image is only logged before its page is read. The transfers of a page stay in the image exactly when the page
starts in the image, or right behind it, where nothing is transferred.
-/

namespace MicroOs.Paging

open BitMask Memory BitVec Kernel

/-- The sectors from `swap_loc` up to `swap_loc + swap_size`. -/
def InSwap (pcb : Pcb) (sector : BitVec 32) : Prop :=
  pcb.swapLoc.toNat ≤ sector.toNat ∧ sector.toNat < pcb.swapLoc.toNat + pcb.swapSize.toNat

/-- The page starts right behind the image, or in it with sector numbers that do not wrap around. -/
def StartsInSwap (pcb : Pcb) (vaddr : BitVec 32) : Prop :=
  diskOffset vaddr = pcb.swapSize ∨ diskOffset vaddr < pcb.swapSize ∧
    pcb.swapLoc.toNat + (diskOffset vaddr).toNat + (blockCount pcb vaddr).toNat ≤ 2 ^ 32

instance (pcb : Pcb) (sector : BitVec 32) : Decidable (InSwap pcb sector) := inferInstanceAs (Decidable (_ ∧ _))

instance (pcb : Pcb) (vaddr : BitVec 32) : Decidable (StartsInSwap pcb vaddr) := inferInstanceAs (Decidable (_ ∨ _))

variable {pcb : Pcb} {vaddr sector : BitVec 32} {s s' : Kernel} {p paddr : ℕ}

/-- The address of a page is recorded without its offset, which does not change its sectors. -/
theorem diskOffset_pageBase (vaddr : BitVec 32) : diskOffset (pageBase vaddr) = diskOffset vaddr := by
  apply eq_of_toNat_eq
  rw [diskOffset_eq, diskOffset_eq, toNat_sub, toNat_sub, pageBase_toNat]
  simp only [processVaddr, reduceToNat, pageSize]
  omega

theorem diskLoc_pageBase (pcb : Pcb) (vaddr : BitVec 32) : diskLoc pcb (pageBase vaddr) = diskLoc pcb vaddr := by
  rw [diskLoc, diskOffset_pageBase, diskLoc]

theorem blockCount_pageBase (pcb : Pcb) (vaddr : BitVec 32) :
    blockCount pcb (pageBase vaddr) = blockCount pcb vaddr := by
  rw [blockCount, diskOffset_pageBase, blockCount]

theorem diskOffset_lt (vaddr : BitVec 32) : (diskOffset vaddr).toNat < 2 ^ 23 := by
  rw [diskOffset_eq, pageSize]
  omega

section Sectors

variable (pcb vaddr)

theorem transfer_toNat (sector : BitVec 32) :
    sector - diskLoc pcb vaddr < blockCount pcb vaddr ↔ ∃ i < (blockCount pcb vaddr).toNat,
      sector.toNat = (pcb.swapLoc.toNat + (diskOffset vaddr).toNat + i) % 2 ^ 32 := by
  have location : (diskLoc pcb vaddr).toNat = (pcb.swapLoc.toNat + (diskOffset vaddr).toNat) % 2 ^ 32 := by
    rw [diskLoc, toNat_add]
  rw [lt_def, toNat_sub, location]
  constructor
  · intro inside
    exact ⟨_, inside, by omega⟩
  · rintro ⟨i, small, same⟩
    omega

/-- A page that starts behind the image has its first sector outside: the difference of the offset and the size wraps
around. -/
theorem blockCount_pos (different : diskOffset vaddr ≠ pcb.swapSize) : 0 < (blockCount pcb vaddr).toNat := by
  have apart : (diskOffset vaddr).toNat ≠ pcb.swapSize.toNat := fun same => different (eq_of_toNat_eq same)
  rw [blockCount_eq, toNat_sub]
  omega

theorem transfer_inSwap_iff :
    (∀ sector, sector - diskLoc pcb vaddr < blockCount pcb vaddr → InSwap pcb sector) ↔ StartsInSwap pcb vaddr := by
  have offsetBound := diskOffset_lt vaddr
  constructor
  · intro confined
    rcases eq_or_ne (diskOffset vaddr) pcb.swapSize with behind | different
    · exact .inl behind
    have positive := blockCount_pos pcb vaddr different
    have small : (blockCount pcb vaddr).toNat ≤ 8 := by
      rw [blockCount_eq]
      exact Nat.min_le_left _ _
    -- the first and the last sector decide
    have at_index (i : ℕ) (inside : i < (blockCount pcb vaddr).toNat) :
        InSwap pcb (BitVec.ofNat 32 (pcb.swapLoc.toNat + (diskOffset vaddr).toNat + i)) :=
      confined _ ((transfer_toNat pcb vaddr _).mpr ⟨i, inside, toNat_ofNat ..⟩)
    obtain ⟨firstLower, firstUpper⟩ := at_index 0 positive
    obtain ⟨lastLower, lastUpper⟩ := at_index ((blockCount pcb vaddr).toNat - 1) (by omega)
    rw [toNat_ofNat] at firstLower firstUpper lastLower lastUpper
    rw [StartsInSwap, lt_def]
    omega
  · rintro starts sector transferred
    obtain ⟨i, small, same⟩ := (transfer_toNat pcb vaddr sector).mp transferred
    rcases starts with behind | ⟨inside, noWrap⟩
    · rw [blockCount_eq, behind, sub_self] at small
      exact absurd small (by simp)
    · rw [lt_def] at inside
      have rest := toNat_sub_of_le inside.le
      have count := blockCount_eq pcb vaddr
      rw [InSwap]
      omega

end Sectors

def ReadsSector (s s' : Kernel) (sector : BitVec 32) : Prop :=
  ∃ io, s'.trace = s.trace ++ io ∧ ∃ start count, .diskRead start count ∈ io ∧ sector - start < count

def WritesSector (s s' : Kernel) (sector : BitVec 32) : Prop :=
  ∃ io, s'.trace = s.trace ++ io ∧ ∃ start count, .diskWrite start count ∈ io ∧ sector - start < count

/-- The first part of `load_page_from_disk`: allocate a frame and read the page into it. -/
def Kernel.readPage (s : Kernel) (cfg : Config) (vaddr : BitVec 32) (p : ℕ) : Outcome (Bool × ℕ × Kernel) := do
  if (s.pcb p).isThread then .error .abortk
  let (frameref, s₁) ← s.allocatePage cfg
  let (success, s₂) := s₁.diskLoader (diskLoc (s.pcb p) vaddr) (blockCount (s.pcb p) vaddr) frameref
  pure (success, frameref, s₂)

/-- The rest finds the page table and enters the page. -/
theorem Kernel.loadPageFromDisk_readPage (cfg : Config) :
    s.loadPageFromDisk cfg vaddr p = (do
      let (success, frameref, s₁) ← s.readPage cfg vaddr p
      let (table, s₂) ← s₁.findOrAddPageTable cfg p vaddr (s.loadInfoMode cfg p)
      if !success then pure (false, s₂)
      else
        let s₃ ← s₂.installPage cfg p vaddr (s.loadInfoMode cfg p) frameref table
        pure (true, s₃)) := by
  simp only [loadPageFromDisk, readPage, bind, Except.bind, pure, Except.pure]
  cases thread : (s.pcb p).isThread with
  | true => rfl
  | false =>
    cases ran : s.allocatePage cfg with
    | error halt => rfl
    | ok result => rfl

/-- The transfers of a fault stay in the image: those that read the page, and those that write it back in any later
state. -/
def TransfersConfined (s : Kernel) (vaddr : BitVec 32) (p : ℕ) : Prop :=
  ∀ success frameref s', s.readPage config vaddr p = .ok (success, frameref, s') →
    (∀ sector, ReadsSector s s' sector → InSwap (s.pcb p) sector) ∧
    ∀ t paddr, (t.pcb p).swapLoc = (s.pcb p).swapLoc → (t.pcb p).swapSize = (s.pcb p).swapSize →
      ∀ sector, WritesSector t (t.writePageBackToDisk (pageBase vaddr) (t.pcb p) paddr).2 sector →
        InSwap (s.pcb p) sector

/-! Allocating a frame may write a page back, but it reads nothing. -/

theorem Kernel.writeBackIfDirty_trace (ran : s.writeBackIfDirty paddr = .ok s') :
    ∃ io, s'.trace = s.trace ++ io ∧ ∀ start count, .diskRead start count ∉ io := by
  have unchanged : ∃ io, s.trace = s.trace ++ io ∧ ∀ start count, PageEvent.diskRead start count ∉ io :=
    ⟨[], by simp, by simp⟩
  simp only [writeBackIfDirty, Outcome.bind_eq_ok_iff] at ran
  obtain ⟨dirty, -, ran⟩ := ran
  split_ifs at ran with written
  · generalize s.pageFrameInfo (calculateInfoIndex paddr) = info at ran
    cases owner : info.owner with
    | none => simp [owner] at ran
    | some pcb =>
      simp only [owner, writePageBackToDisk] at ran
      cases ran
      split_ifs
      · exact unchanged
      · cases getPageTable s.mem info.vaddr (s.pcbOf pcb).pageDirectory with
        | none => exact unchanged
        | some table =>
          obtain ⟨disk, result⟩ := s.scsiWrite_eq (diskLoc (s.pcbOf pcb) info.vaddr)
            (blockCount (s.pcbOf pcb) info.vaddr)
            info.paddr
          simp only [result]
          exact ⟨_, rfl, by simp⟩
  · cases ran
    exact unchanged

theorem Kernel.allocatePage_trace (ran : s.allocatePage config = .ok (paddr, s')) :
    ∃ io, s'.trace = s.trace ++ io ∧ ∀ start count, .diskRead start count ∉ io := by
  simp only [allocatePage, allocatePageInternal, removePageFrameFromFreeListInfo] at ran
  cases head : s.pageFreeHead with
  | some index =>
    simp only [head] at ran
    cases ran
    exact ⟨[], by simp [setInfo], by simp⟩
  | none =>
    simp only [head, tryEvictPage] at ran
    obtain ⟨⟨victim, chosen⟩, select, ran⟩ := Outcome.bind_eq_ok_iff.mp ran
    have same : chosen.trace = s.trace := by
      simp only [selectPageForEviction, config, selectPageForEvictionV1] at select
      split_ifs at select
      cases select
      rfl
    simp only [Outcome.check_eq_ok_iff, Outcome.bind_eq_ok_iff] at ran
    obtain ⟨-, -, -, written, write, freed, free, result⟩ := ran
    obtain ⟨io, trace, none⟩ := writeBackIfDirty_trace write
    cases result
    refine ⟨io ++ [.evicted (calculateInfoIndex paddr)], ?_, by simp [none]⟩
    rw [record, (pageFree_unchanged free).2, trace, same, List.append_assoc]

theorem readsSector_iff {success : Bool} {frameref : ℕ}
    (ran : s.readPage config vaddr p = .ok (success, frameref, s')) :
    ReadsSector s s' sector ↔ sector - diskLoc (s.pcb p) vaddr < blockCount (s.pcb p) vaddr := by
  simp only [readPage, Outcome.check_eq_ok_iff, Outcome.bind_eq_ok_iff, Prod.exists] at ran
  obtain ⟨-, paddr, s₁, allocated, result⟩ := ran
  obtain ⟨io, trace, none⟩ := allocatePage_trace allocated
  have last : s'.trace = s.trace ++ (io ++ [.diskRead (diskLoc (s.pcb p) vaddr) (blockCount (s.pcb p) vaddr)]) := by
    rw [← List.append_assoc, ← trace]
    simp only [diskLoader] at result
    cases outcome : s₁.scsi s₁.scsiCount with
    | good | bad garbage =>
      simp only [outcome] at result
      cases result
      rfl
  constructor
  · rintro ⟨io', trace', start, count, member, inside⟩
    rw [last, List.append_cancel_left_eq] at trace'
    rw [← trace', List.mem_append, List.mem_singleton] at member
    rcases member with early | read
    · exact absurd early (none start count)
    · cases read
      exact inside
  · intro inside
    exact ⟨_, last, _, _, by simp, inside⟩

/-- A write-back writes the sectors of its page if it writes anything, and nothing for a page behind the image. -/
theorem writesSector_transfer (writes : WritesSector s (s.writePageBackToDisk vaddr pcb paddr).2 sector) :
    diskOffset vaddr ≤ pcb.swapSize ∧ sector - diskLoc pcb vaddr < blockCount pcb vaddr := by
  obtain ⟨io, trace, start, count, member, inside⟩ := writes
  have unchanged (same : s.trace = s.trace ++ io) : False := by
    rw [List.self_eq_append_right] at same
    simp [same] at member
  simp only [writePageBackToDisk] at trace
  split_ifs at trace with past
  · exact (unchanged trace).elim
  · cases found : getPageTable s.mem vaddr pcb.pageDirectory with
    | none =>
      simp only [found] at trace
      exact (unchanged trace).elim
    | some table =>
      obtain ⟨disk, result⟩ := s.scsiWrite_eq (diskLoc pcb vaddr) (blockCount pcb vaddr) paddr
      simp only [found, result, List.append_cancel_left_eq] at trace
      rw [← trace, List.mem_singleton] at member
      cases member
      exact ⟨BitVec.not_lt.mp past, inside⟩

/-- The transfers of a page stay in the image exactly when the page starts in it or right behind it and its sectors
do not wrap around, or when no frame is found. -/
theorem transfers_confined_iff (s : Kernel) (vaddr : BitVec 32) (p : ℕ) :
    TransfersConfined s vaddr p ↔
      ((∃ result, s.readPage config vaddr p = .ok result) → StartsInSwap (s.pcb p) vaddr) := by
  constructor
  · rintro confined ⟨⟨success, frameref, s'⟩, ran⟩
    apply (transfer_inSwap_iff (s.pcb p) vaddr).mp
    intro sector transferred
    exact (confined success frameref s' ran).1 sector ((readsSector_iff ran).mpr transferred)
  · intro starts success frameref s' ran
    have inside := (transfer_inSwap_iff (s.pcb p) vaddr).mpr (starts ⟨_, ran⟩)
    refine ⟨fun sector reads => inside sector ((readsSector_iff ran).mp reads), ?_⟩
    intro t paddr sameLoc sameSize sector writes
    obtain ⟨-, transferred⟩ := writesSector_transfer writes
    apply inside sector
    rw [diskLoc_pageBase, blockCount_pageBase] at transferred
    rw [diskLoc, ← sameLoc, blockCount, ← sameSize]
    exact transferred

/-- The entries that a new table does not get from the image are clear as long as frames come from the free list. -/
theorem Constructed.notPresent {next next' : ℕ} {queue queue' : List ℕ} {role : ℕ → Role} {scope : Scope}
    (constructed : Constructed s next queue p s' next' queue') (alloc : AllocInv s next queue)
    (map : MapInv scope s p next queue role) (kernelTable : s.userKernelPtable = framePaddr 2)
    (available : next + 2 ≤ pageablePages) (image : getDirectoryIndex vaddr = 4) (notStack : getTableIndex vaddr ≠ 1023)
    (behind : ¬Enters (pagesFrom 0 (imageBytes (s'.pcb p)).toNat) (getTableIndex vaddr)) : s'.NotPresent p vaddr := by
  obtain ⟨directory, table, stack, _, _, _, _, s₁, s₂, role', first, second, -, space⟩ :=
    constructed.space alloc map kernelTable
  obtain ⟨rfl, -⟩ := first.word_zero (by omega) (getTableIndex_lt vaddr)
  obtain ⟨-, zero⟩ := second.word_zero (by omega) (getTableIndex_lt vaddr)
  have base : entryBase (pde s'.mem (framePaddr directory) vaddr) = framePaddr table := by
    rw [pde_frame, image, space.directory_word 4 (by decide), if_pos (.inl rfl),
      entryBase_dirEntry_frame space.table_bound]
  right
  rw [space.pointer, pte_frame base, space.table_rest _ (getTableIndex_lt vaddr) notStack behind, zero, hasFlag_zero]

/-- Of two processes with images of two pages, the second touches the fourth page of its image area, and sectors of
the first image are read for it. -/
theorem page_behind_image_reads_other_image : ∃ s₀ s success frameref s',
    (boot (fun _ => 0#8) (fun _ _ => 0#8) (fun _ => .good) fun _ => 0#64).initMemory config = .ok s₀ ∧
      Run (Step config) s₀ [.setup false 48#32 16#32, .setup false 32#32 16#32] s ∧ 1 < s.pcbCount ∧
      s.NotPresent 1 0x1003000#32 ∧ s.readPage config 0x1003000#32 1 = .ok (success, frameref, s') ∧
      ReadsSector s s' 56#32 ∧ ¬InSwap (s.pcb 1) 56#32 ∧ InSwap (s.pcb 0) 56#32 ∧
      ¬TransfersConfined s 0x1003000#32 1 := by
  have inv := imageInv_initial (fun _ => 0#8) (fun _ _ => 0#8) (fun _ => .good) fun _ => 0#64
  have short : ShortImage 16#32 := by decide
  obtain ⟨s₁, role₁, ran₁, inv₁, -, one, -, -, -, -, -, loc, size⟩ :=
    inv.newProcess (p := 0) rfl 48#32 short (by decide)
  obtain ⟨s, role, ran, inv₂, constructed, two, -, -, -, older, second⟩ := inv₁.newProcess one 32#32 short (by decide)
  have first : (s.pcb 0).swapLoc = 48#32 ∧ (s.pcb 0).swapSize = 16#32 := by
    rw [older 0 Nat.one_pos]
    exact ⟨loc, size⟩
  have quiet := quiet_withPcb s₁ role₁ false 32#32 16#32
  rw [one] at quiet
  have absent : s.NotPresent 1 0x1003000#32 := by
    apply constructed.notPresent (inv₁.system.alloc.congr rfl rfl rfl)
      (one ▸ inv₁.system.map.quiet le_rfl (one ▸ quiet))
    · exact (quiet.kernel inv₁.system.kernel).userKernelPtable
    · decide
    · decide
    · decide
    · rw [imageBytes, second.2.2]
      decide
  obtain ⟨success, frameref, s', read⟩ : ∃ success frameref s',
      s.readPage config 0x1003000#32 1 = .ok (success, frameref, s') := by
    rw [readPage, second.1, inv₂.system.alloc.toFreeList.allocatePage config (by decide)]
    exact ⟨_, _, _, rfl⟩
  have reads : ReadsSector s s' 56#32 := by
    rw [readsSector_iff read, diskLoc, blockCount, second.2.1, second.2.2]
    decide
  have outside : ¬InSwap (s.pcb 1) 56#32 := by
    rw [InSwap, second.2.1, second.2.2]
    decide
  have other : InSwap (s.pcb 0) 56#32 := by
    rw [InSwap, first.1, first.2]
    decide
  have run := (Run.single (Step.setup ran₁)).snoc (Step.setup ran)
  exact ⟨_, s, success, frameref, s', initMemory_eq .., run, by omega, absent, read, reads, outside, other,
    fun confined => outside ((confined success frameref s' read).1 _ reads)⟩

end MicroOs.Paging
