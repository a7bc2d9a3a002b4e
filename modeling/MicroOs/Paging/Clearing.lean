import MicroOs.Paging.Allocation

/-! # What clearing a frame changes

`allocate_page_internal` clears the frame that it takes off the free list through a pointer to words, and counts bytes:
four frames are cleared. As long as the list is in the order in which it was set up, the frames behind the one that is
taken are free too, and nobody notices. The list has no such order in general: `page_free` without eviction puts a frame
in front of it.
-/

namespace MicroOs.Paging

open BitMask Memory Function List Kernel

variable {s : Kernel} {frame : ℕ} {frames : List ℕ}

/-- The links lead from `head` through the frames to the end of the list. -/
def Linked (info : ℕ → FrameInfo) : Option ℕ → List ℕ → Prop
  | head, [] => head = none
  | head, frame :: frames => head = some frame ∧ Linked info (info frame).nextFreePage frames

/-- The free list holds these frames, in any order. -/
structure FreeFrames (s : Kernel) (frames : List ℕ) : Prop where
  linked : Linked s.pageFrameInfo s.pageFreeHead frames
  nodup : frames.Nodup
  bound : ∀ frame ∈ frames, frame < pageablePages
  paddr : ∀ frame < pageablePages, (s.pageFrameInfo frame).paddr = framePaddr frame

theorem Linked.congr {info info' : ℕ → FrameInfo} {head : Option ℕ} (linked : Linked info head frames)
    (same : ∀ frame ∈ frames, (info' frame).nextFreePage = (info frame).nextFreePage) : Linked info' head frames := by
  induction frames generalizing head with
  | nil => exact linked
  | cons frame frames ih =>
    refine ⟨linked.1, ?_⟩
    rw [same frame mem_cons_self]
    apply ih linked.2
    intro other member
    exact same other (mem_cons_of_mem _ member)

theorem FreeFrames.allocatePageInternal_nil (free : FreeFrames s []) : s.allocatePageInternal = (none, s) := by
  have head : s.pageFreeHead = none := free.linked
  simp [allocatePageInternal, removePageFrameFromFreeListInfo, head]

theorem FreeFrames.allocatePageInternal_cons (free : FreeFrames s (frame :: frames)) :
    s.allocatePageInternal = (some (framePaddr frame), s.takeFree frame) := by
  have head : s.pageFreeHead = some frame := free.linked.1
  have paddr := free.paddr frame (free.bound frame mem_cons_self)
  simp [allocatePageInternal, removePageFrameFromFreeListInfo, head, setInfo, paddr, zeroOut, foldl_writeWord_zero,
    takeFree]

theorem FreeFrames.takeFree (free : FreeFrames s (frame :: frames)) : FreeFrames (s.takeFree frame) frames where
  linked := by
    obtain ⟨absent, -⟩ := nodup_cons.mp free.nodup
    apply free.linked.2.congr
    intro other member
    have different : other ≠ frame := fun same => absent (same ▸ member)
    simp [Kernel.takeFree, update_of_ne different]
  nodup := (nodup_cons.mp free.nodup).2
  bound other member := free.bound other (mem_cons_of_mem _ member)
  paddr other bound := by
    have kept : ((s.takeFree frame).pageFrameInfo other).paddr = (s.pageFrameInfo other).paddr := by
      by_cases same : other = frame
      · simp [Kernel.takeFree, same]
      · simp [Kernel.takeFree, update_of_ne same]
    rw [kept, free.paddr other bound]

theorem FreeFrames.add (free : FreeFrames s frames) (bound : frame < pageablePages) (used : frame ∉ frames) :
    FreeFrames (s.addPageFrameToFreeListInfo (framePaddr frame)) (frame :: frames) where
  linked := by
    simp only [addPageFrameToFreeListInfo, calculateInfoIndex_framePaddr bound, setInfo]
    refine ⟨rfl, ?_⟩
    rw [update_self]
    apply free.linked.congr
    intro other member
    have different : other ≠ frame := fun same => used (same ▸ member)
    rw [update_of_ne different]
  nodup := nodup_cons.mpr ⟨used, free.nodup⟩
  bound := forall_mem_cons.mpr ⟨bound, free.bound⟩
  paddr other small := by
    have kept : ((s.addPageFrameToFreeListInfo (framePaddr frame)).pageFrameInfo other).paddr =
        (s.pageFrameInfo other).paddr := by
      simp only [addPageFrameToFreeListInfo, calculateInfoIndex_framePaddr bound, setInfo]
      by_cases same : other = frame
      · simp [same]
      · simp [update_of_ne same]
    rw [kept, free.paddr other small]

/-- A frame that is handed out is cleared, and no other byte of memory changes. -/
def ClearsOwnFrame (s : Kernel) : Prop :=
  match s.allocatePageInternal with
  | (none, s') => s'.mem = s.mem
  | (some paddr, s') => ∀ address,
      s'.mem address = if paddr ≤ address ∧ address < paddr + pageSize then 0#8 else s.mem address

/-- The three frames behind `frame`, which are cleared with it, are zero already. -/
def ZeroBehind (s : Kernel) (frame : ℕ) : Prop :=
  ∀ address, framePaddr frame + pageSize ≤ address → address < framePaddr frame + 4 * pageSize → s.mem address = 0#8

theorem takeFree_clears_iff :
    (∀ address, (s.takeFree frame).mem address =
        if framePaddr frame ≤ address ∧ address < framePaddr frame + pageSize then 0#8 else s.mem address) ↔
      ZeroBehind s frame := by
  constructor
  · intro clears address lower upper
    have kept := clears address
    rw [if_neg (by omega)] at kept
    rw [← kept]
    exact blit_inside s.mem (fun _ => 0#8) ⟨by omega, upper⟩
  · intro zero address
    change s.mem.blit (framePaddr frame) (4 * pageSize) (fun _ => 0#8) address = _
    split_ifs with inside
    · exact blit_inside s.mem _ ⟨inside.1, by omega⟩
    · by_cases behind : framePaddr frame ≤ address ∧ address < framePaddr frame + 4 * pageSize
      · rw [blit_inside s.mem _ behind, zero address (by omega) behind.2]
      · exact blit_outside s.mem _ (by omega)

/-- Whatever frames are free, clearing keeps to its frame exactly when the three frames behind it are zero. -/
theorem clears_own_frame_iff (free : FreeFrames s frames) :
    ClearsOwnFrame s ↔ ∀ frame rest, frames = frame :: rest → ZeroBehind s frame := by
  cases frames with
  | nil =>
    rw [ClearsOwnFrame, free.allocatePageInternal_nil]
    constructor
    · intro _ frame rest impossible
      cases impossible
    · intro _
      rfl
  | cons first others =>
    rw [ClearsOwnFrame, free.allocatePageInternal_cons]
    refine takeFree_clears_iff.trans ?_
    constructor
    · rintro zero frame rest same
      obtain ⟨rfl, -⟩ := cons.inj same
      exact zero
    · intro zero
      exact zero first others rfl

/-- A kernel without free frames, whose memory is filled with one byte. -/
def filled (byte : BitVec 8) : Kernel where
  mem := fun _ => byte
  disk := fun _ _ => 0#8
  scsi := fun _ => .good
  pageFrameInfo := fun index => { paddr := framePaddr index }

theorem freeFrames_filled (byte : BitVec 8) : FreeFrames (filled byte) [] where
  linked := rfl
  nodup := nodup_nil
  bound := forall_mem_nil _
  paddr _ _ := rfl

def released (byte : BitVec 8) : Kernel :=
  ((filled byte).addPageFrameToFreeListInfo (framePaddr 3)).addPageFrameToFreeListInfo (framePaddr 7)

theorem freeFrames_released (byte : BitVec 8) : FreeFrames (released byte) [7, 3] :=
  ((freeFrames_filled byte).add (by decide) (by decide)).add (by decide) (by decide)

theorem clears_own_frame_zero : FreeFrames (released 0#8) [7, 3] ∧ ClearsOwnFrame (released 0#8) :=
  ⟨freeFrames_released _, (clears_own_frame_iff (freeFrames_released _)).mpr fun _ _ _ _ _ _ => rfl⟩

/-- Frame 8 is in use when frame 7 is allocated, and loses its contents. -/
theorem clears_frame_in_use : FreeFrames (released 1#8) [7, 3] ∧ ¬ClearsOwnFrame (released 1#8) := by
  refine ⟨freeFrames_released _, ?_⟩
  intro clears
  rw [ClearsOwnFrame, (freeFrames_released _).allocatePageInternal_cons] at clears
  have zero := takeFree_clears_iff.mp clears (framePaddr 8) (by decide) (by decide)
  exact absurd zero (by decide)

end MicroOs.Paging
