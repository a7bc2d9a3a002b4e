import MicroOs.Paging.Clearing

/-! # Releasing a frame that is shared

`page_free` without eviction goes through the records of a frame and puts the frame in front of the free list in every
round. With one record that is what is wanted. From the second round on the frame is linked to itself: the frames
behind it are lost, and the next two allocations take it.
-/

namespace MicroOs.Paging

open Kernel List

variable {s s' : Kernel} {frame : ℕ} {frames chain : List ℕ}

/-- A record of a user process, which `page_free` does not refuse. -/
def UserRecord (s : Kernel) (info : FrameInfo) : Prop :=
  ∃ index, info.owner = some (.pcb index) ∧ (s.pcb index).pageDirectory ≠ s.kernelPdir

/-- From `next` on the records of `page_frame_info_shared` are chained through the list. -/
def Sharers (s : Kernel) : Option ℕ → List ℕ → Prop
  | next, [] => next = none
  | next, index :: chain =>
    next = some index ∧ UserRecord s (s.pageFrameInfoShared index) ∧
      Sharers s (s.pageFrameInfoShared index).nextSharedInfo chain

/-- The records of a frame: its own and those that are chained to it. -/
structure SharedFrame (s : Kernel) (frame : ℕ) (chain : List ℕ) : Prop where
  main : UserRecord s (s.pageFrameInfo frame)
  sharers : Sharers s (s.pageFrameInfo frame).nextSharedInfo chain
  nodup : chain.Nodup
  bound : ∀ index ∈ chain, index < pageablePages

def Cleared (info : FrameInfo) : Prop :=
  info.owner = none ∧ info.vaddr = 0#32 ∧ info.infoMode = 0#32 ∧ info.nextSharedInfo = none

/-- The addresses that the next allocations hand out, up to the first one that fails. -/
def allocations : ℕ → Kernel → List ℕ
  | 0, _ => []
  | n + 1, s =>
    match s.allocatePageInternal with
    | (none, _) => []
    | (some paddr, s) => paddr :: allocations n s

/-- The frame is on the free list once, with those that were there, its records are free, and it is handed out once.
-/
def ReleasedOnce (s : Kernel) (frame : ℕ) (frames chain : List ℕ) : Prop :=
  ∃ s', s.pageFree (framePaddr frame) false = .ok s' ∧
    (∃ frames', FreeFrames s' frames' ∧ ∀ other, other ∈ frames' ↔ other = frame ∨ other ∈ frames) ∧
    Cleared (s'.pageFrameInfo frame) ∧ (∀ index ∈ chain, Cleared (s'.pageFrameInfoShared index)) ∧
    ∀ n, (allocations n s').count (framePaddr frame) ≤ 1

/-- The state behind the round for one record. -/
def releaseRecord (s : Kernel) (frame : ℕ) (ref : InfoRef) : Kernel :=
  let s := s.addPageFrameToFreeListInfo (framePaddr frame)
  s.putInfo ref { s.info ref with owner := none, vaddr := 0#32, infoMode := 0#32, nextSharedInfo := none }

theorem info_addPageFrameToFreeListInfo (paddr : ℕ) (ref : InfoRef) :
    ((s.addPageFrameToFreeListInfo paddr).info ref).nextSharedInfo = (s.info ref).nextSharedInfo := by
  cases ref with
  | main index =>
    by_cases same : index = calculateInfoIndex paddr
    all_goals simp [info, addPageFrameToFreeListInfo, setInfo, same]
  | shared index => rfl

/-- One round of the loop of `page_free` over the records. -/
theorem pageFreeRecords_step {fuel : ℕ} {ref : InfoRef} (user : UserRecord s (s.info ref)) :
    pageFreeRecords (framePaddr frame) false (fuel + 1) ref s =
      match (s.info ref).nextSharedInfo with
      | none => .ok (releaseRecord s frame ref)
      | some next => pageFreeRecords (framePaddr frame) false fuel (.shared next) (releaseRecord s frame ref) := by
  obtain ⟨index, owner, directory⟩ := user
  have allowed : ¬(PcbPtr.pcb index = .dummyKernel ∨ (s.pcbOf (.pcb index)).pageDirectory = s.kernelPdir) :=
    fun refused => refused.elim (fun same => nomatch same) directory
  rw [pageFreeRecords, owner, ← info_addPageFrameToFreeListInfo (framePaddr frame)]
  simp only [if_neg allowed]
  rfl

section

variable (bound : frame < pageablePages)

include bound

theorem pageFrameInfo_releaseRecord_main :
    (releaseRecord s frame (.main frame)).pageFrameInfo frame =
      { s.pageFrameInfo frame with
        owner := none, vaddr := 0#32, infoMode := 0#32, nextSharedInfo := none, nextFreePage := s.pageFreeHead } := by
  simp [releaseRecord, putInfo, info, addPageFrameToFreeListInfo, setInfo, calculateInfoIndex_framePaddr bound]

theorem pageFrameInfo_releaseRecord_shared (index : ℕ) :
    (releaseRecord s frame (.shared index)).pageFrameInfo frame =
      { s.pageFrameInfo frame with nextFreePage := s.pageFreeHead } := by
  simp [releaseRecord, putInfo, addPageFrameToFreeListInfo, setInfo, setSharedInfo, calculateInfoIndex_framePaddr bound]

theorem pageFreeHead_releaseRecord (ref : InfoRef) : (releaseRecord s frame ref).pageFreeHead = some frame := by
  cases ref <;> simp [releaseRecord, putInfo, addPageFrameToFreeListInfo, setInfo, setSharedInfo,
    calculateInfoIndex_framePaddr bound]

end

theorem pageFrameInfoShared_releaseRecord_shared (index : ℕ) :
    (releaseRecord s frame (.shared index)).pageFrameInfoShared =
      Function.update s.pageFrameInfoShared index { s.pageFrameInfoShared index with
        owner := none, vaddr := 0#32, infoMode := 0#32, nextSharedInfo := none } := rfl

theorem userRecord_releaseRecord {ref : InfoRef} {info : FrameInfo} :
    UserRecord (releaseRecord s frame ref) info ↔ UserRecord s info := by
  cases ref <;> rfl

theorem Sharers.congr {next : Option ℕ} (sharers : Sharers s next chain)
    (same : ∀ index ∈ chain, s'.pageFrameInfoShared index = s.pageFrameInfoShared index)
    (users : ∀ info, UserRecord s info → UserRecord s' info) : Sharers s' next chain := by
  induction chain generalizing next with
  | nil => exact sharers
  | cons index chain ih =>
    obtain ⟨here, user, rest⟩ := sharers
    refine ⟨here, ?_, ?_⟩
    · rw [same index mem_cons_self]
      exact users _ user
    · rw [same index mem_cons_self]
      exact ih rest fun other member => same other (mem_cons_of_mem _ member)

/-- What the rounds for the chained records leave behind. -/
structure Rounds (s s' : Kernel) (frame : ℕ) (chain : List ℕ) : Prop where
  head : s'.pageFreeHead = some frame
  main : ∃ next, s'.pageFrameInfo frame = { s.pageFrameInfo frame with nextFreePage := next } ∧
    (s.pageFreeHead = some frame → next = some frame)
  cleared : ∀ index ∈ chain, Cleared (s'.pageFrameInfoShared index)
  others : ∀ index ∉ chain, s'.pageFrameInfoShared index = s.pageFrameInfoShared index

theorem rounds_releaseRecord (bound : frame < pageablePages) (index : ℕ) :
    Rounds s (releaseRecord s frame (.shared index)) frame [index] where
  head := pageFreeHead_releaseRecord bound _
  main := ⟨s.pageFreeHead, pageFrameInfo_releaseRecord_shared bound index, id⟩
  cleared other member := by
    obtain rfl := mem_singleton.1 member
    rw [pageFrameInfoShared_releaseRecord_shared, Function.update_self]
    exact ⟨rfl, rfl, rfl, rfl⟩
  others other outside := by
    have different : other ≠ index := fun same => outside (mem_singleton.2 same)
    rw [pageFrameInfoShared_releaseRecord_shared, Function.update_of_ne different]

/-- The second round finds the frame in front of the list. -/
theorem Rounds.trans {middle : Kernel} {index : ℕ} (first : Rounds s middle frame [index])
    (rest : Rounds middle s' frame chain) (new : index ∉ chain) : Rounds s s' frame (index :: chain) where
  head := rest.head
  main := by
    obtain ⟨next, here, -⟩ := first.main
    obtain ⟨next', here', again⟩ := rest.main
    refine ⟨next', ?_, fun _ => again first.head⟩
    rw [here', here]
  cleared := by
    refine forall_mem_cons.2 ⟨?_, rest.cleared⟩
    rw [rest.others index new]
    exact first.cleared index mem_cons_self
  others other outside := by
    rw [rest.others other fun member => outside (mem_cons_of_mem _ member),
      first.others other fun member => outside (mem_singleton.1 member ▸ mem_cons_self)]

/-- The loop releases the shared records of the chain one by one. -/
theorem pageFreeRecords_rounds {fuel index : ℕ} (bound : frame < pageablePages)
    (sharers : Sharers s (some index) (index :: chain)) (nodup : (index :: chain).Nodup)
    (enough : chain.length < fuel) :
    ∃ s', pageFreeRecords (framePaddr frame) false fuel (.shared index) s = .ok s' ∧
      Rounds s s' frame (index :: chain) := by
  induction fuel generalizing chain s index with
  | zero => cases enough
  | succ fuel ih =>
    cases chain with
    | nil =>
      obtain ⟨-, user, last⟩ := sharers
      have last : (s.info (.shared index)).nextSharedInfo = none := last
      refine ⟨releaseRecord s frame (.shared index), ?_, rounds_releaseRecord bound index⟩
      rw [pageFreeRecords_step user, last]
    | cons next chain =>
      obtain ⟨-, user, rest⟩ := sharers
      obtain ⟨new, nodup'⟩ := nodup_cons.1 nodup
      have linked : (s.info (.shared index)).nextSharedInfo = some next := rest.1
      have round : Rounds s (releaseRecord s frame (.shared index)) frame [index] := rounds_releaseRecord bound index
      have rest' : Sharers (releaseRecord s frame (.shared index)) (some next) (next :: chain) := by
        rw [← rest.1]
        refine rest.congr (fun other member => round.others other fun same => ?_) fun info => userRecord_releaseRecord.2
        exact new (mem_singleton.1 same ▸ member)
      obtain ⟨s', ran, rounds⟩ := ih rest' nodup' (Nat.lt_of_succ_lt_succ enough)
      refine ⟨s', ?_, round.trans rounds new⟩
      rw [pageFreeRecords_step user, linked]
      exact ran

theorem SharedFrame.length_le (shared : SharedFrame s frame chain) : chain.length ≤ pageablePages := by
  have inside : chain ⊆ range pageablePages := fun index member => mem_range.2 (shared.bound index member)
  have count := (subperm_of_subset shared.nodup inside).length_le
  rwa [length_range] at count

theorem pageFree_alone (shared : SharedFrame s frame []) (bound : frame < pageablePages) :
    s.pageFree (framePaddr frame) false = .ok (releaseRecord s frame (.main frame)) := by
  have last : (s.info (.main frame)).nextSharedInfo = none := shared.sharers
  rw [pageFree, calculateInfoIndex_framePaddr bound, pageFreeRecords_step shared.main, last]

/-- With more than one record the frame is linked to itself. -/
theorem pageFree_shared {index : ℕ} (shared : SharedFrame s frame (index :: chain)) (bound : frame < pageablePages) :
    ∃ s', s.pageFree (framePaddr frame) false = .ok s' ∧ s'.pageFreeHead = some frame ∧
      (s'.pageFrameInfo frame).nextFreePage = some frame := by
  have linked : (s.info (.main frame)).nextSharedInfo = some index := shared.sharers.1
  have sharers : Sharers (releaseRecord s frame (.main frame)) (some index) (index :: chain) := by
    have old := shared.sharers
    rw [shared.sharers.1] at old
    exact old.congr (fun _ _ => rfl) fun info => userRecord_releaseRecord.2
  obtain ⟨s', ran, rounds⟩ := pageFreeRecords_rounds bound sharers shared.nodup shared.length_le
  obtain ⟨next, record, again⟩ := rounds.main
  refine ⟨s', ?_, rounds.head, ?_⟩
  · rw [pageFree, calculateInfoIndex_framePaddr bound, pageFreeRecords_step shared.main, linked]
    exact ran
  · rw [record]
    exact again (pageFreeHead_releaseRecord bound _)

section

variable (free : FreeFrames s frames)
include free

theorem FreeFrames.congr (head : s'.pageFreeHead = s.pageFreeHead)
    (links : ∀ index, (s'.pageFrameInfo index).nextFreePage = (s.pageFrameInfo index).nextFreePage)
    (paddrs : ∀ index, (s'.pageFrameInfo index).paddr = (s.pageFrameInfo index).paddr) : FreeFrames s' frames where
  linked := by
    rw [head]
    exact free.linked.congr fun index _ => links index
  nodup := free.nodup
  bound := free.bound
  paddr index small := (paddrs index).trans (free.paddr index small)

theorem FreeFrames.releaseRecord (bound : frame < pageablePages) (used : frame ∉ frames) :
    FreeFrames (releaseRecord s frame (.main frame)) (frame :: frames) := by
  refine (free.add bound used).congr rfl (fun index => ?_) fun index => ?_
  all_goals
    by_cases same : index = frame
    · simp [Paging.releaseRecord, putInfo, info, setInfo, same]
    · simp [Paging.releaseRecord, putInfo, info, setInfo, same]

/-- Allocations take the frames of the free list one after another. -/
theorem FreeFrames.allocations_eq (n : ℕ) : allocations n s = (frames.take n).map framePaddr := by
  induction n generalizing s frames with
  | zero => rfl
  | succ n ih =>
    cases frames with
    | nil => rw [allocations, free.allocatePageInternal_nil, take_nil, map_nil]
    | cons first frames =>
      rw [allocations, free.allocatePageInternal_cons, take_succ_cons, map_cons, ← ih free.takeFree]

theorem FreeFrames.count_le_one (frame n : ℕ) : (allocations n s).count (framePaddr frame) ≤ 1 := by
  rw [free.allocations_eq n]
  refine nodup_iff_count_le_one.1 ?_ _
  exact (free.nodup.sublist (take_sublist n frames)).map framePaddr_injective

theorem FreeFrames.not_linked_to_itself (head : s.pageFreeHead = some frame) :
    (s.pageFrameInfo frame).nextFreePage ≠ some frame := by
  intro again
  have linked := free.linked
  have nodup := free.nodup
  rw [head] at linked
  cases frames with
  | nil => cases linked
  | cons first frames =>
    obtain ⟨same, rest⟩ := linked
    cases same
    rw [again] at rest
    cases frames with
    | nil => cases rest
    | cons second frames =>
      cases rest.1
      exact (nodup_cons.1 nodup).1 mem_cons_self

end

/-- A frame is released once exactly if it has one record. -/
theorem releasedOnce_iff (free : FreeFrames s frames) (shared : SharedFrame s frame chain)
    (bound : frame < pageablePages) (used : frame ∉ frames) : ReleasedOnce s frame frames chain ↔ chain = [] := by
  cases chain with
  | nil =>
    have free' := free.releaseRecord bound used
    refine iff_of_true ⟨_, pageFree_alone shared bound, ⟨frame :: frames, free', fun other => mem_cons⟩, ?_,
      forall_mem_nil _, free'.count_le_one frame⟩ rfl
    rw [pageFrameInfo_releaseRecord_main bound]
    exact ⟨rfl, rfl, rfl, rfl⟩
  | cons index chain =>
    refine iff_of_false ?_ (cons_ne_nil index chain)
    rintro ⟨s', ran, ⟨frames', free', -⟩, -⟩
    obtain ⟨s'', ran', head, again⟩ := pageFree_shared shared bound
    cases ran.symm.trans ran'
    exact free'.not_linked_to_itself head again

/-- Frame 7 is free, and frame 3 has a record of its own and may have another one. -/
def mapped (next : Option ℕ) : Kernel where
  mem := fun _ => 0#8
  disk := fun _ _ => 0#8
  scsi := fun _ => .good
  pageFrameInfo := fun index =>
    if index = 3 then { owner := some (.pcb 0), nextSharedInfo := next, paddr := framePaddr 3 }
    else { paddr := framePaddr index }
  pageFrameInfoShared := fun index => if index = 0 then { owner := some (.pcb 1), paddr := framePaddr 3 } else {}
  pageFreeHead := some 7
  pcb := fun index => { pageDirectory := 0x200000 + 0x1000 * index }

theorem freeFrames_mapped (next : Option ℕ) : FreeFrames (mapped next) [7] where
  linked := ⟨rfl, rfl⟩
  nodup := nodup_singleton 7
  bound := by decide
  paddr index _ := by
    by_cases same : index = 3
    all_goals simp [mapped, same]

theorem sharedFrame_mapped_none : SharedFrame (mapped none) 3 [] where
  main := ⟨0, rfl, by decide⟩
  sharers := rfl
  nodup := .nil
  bound := forall_mem_nil _

theorem sharedFrame_mapped_some : SharedFrame (mapped (some 0)) 3 [0] where
  main := ⟨0, rfl, by decide⟩
  sharers := ⟨rfl, ⟨1, rfl, by decide⟩, rfl⟩
  nodup := nodup_singleton 0
  bound := by decide

/-- A frame with one record is released once. -/
theorem releasedOnce_mapped : ReleasedOnce (mapped none) 3 [7] [] :=
  (releasedOnce_iff (freeFrames_mapped none) sharedFrame_mapped_none (by decide) (by decide)).2 rfl

/-- A frame with two records is handed out twice, and the frame that was free is not. -/
theorem handed_out_twice :
    FreeFrames (mapped (some 0)) [7] ∧ SharedFrame (mapped (some 0)) 3 [0] ∧
      (∃ s', (mapped (some 0)).pageFree (framePaddr 3) false = .ok s' ∧
        allocations 3 s' = [framePaddr 3, framePaddr 3]) ∧
      ¬ReleasedOnce (mapped (some 0)) 3 [7] [0] := by
  refine ⟨freeFrames_mapped _, sharedFrame_mapped_some, ⟨_, rfl, rfl⟩, ?_⟩
  rintro ⟨s', ran, -, -, -, once⟩
  have twice := once 2
  cases ran
  exact absurd twice (by decide)

end MicroOs.Paging
