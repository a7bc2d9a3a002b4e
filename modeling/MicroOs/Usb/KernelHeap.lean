import MicroOs.Usb.Allocator
import Mathlib.Data.List.Pairwise
import Mathlib.Tactic.Ring

/-! # Blocks of the kernel heap

The invariant relates the table to the live blocks: the marks are those of the blocks, and the length cached at every
free chunk and at the first chunk of every block is the extent of the stretch that begins there. The entries inside a
block are not constrained; no loop reads them, since every loop stays on the boundaries of blocks.
-/

namespace MicroOs.Allocator

open Function List Table

variable {t : Table} {live live' : List Block} {b : Block} {isFree : ℕ → Bool} {size : ℕ → ℕ}
  {c i total required align fuel a : ℕ} {alignment : ℕ} {h : Heap}

@[simp] theorem used_cons : Used (b :: live) c ↔ b.Covers c ∨ Used live c := by simp [Used]

/-- The blocks are chunks of the heap and do not overlap. -/
structure Layout (live : List Block) : Prop where
  inside : ∀ b ∈ live, b.next ≤ chunkNum
  apart : live.Pairwise fun b b' => b.next ≤ b'.chunk ∨ b'.next ≤ b.chunk
  placed : ∀ b ∈ live, b.ptr = chunkAddress b.chunk
  aligned : ∀ b ∈ live, Aligned b.alignment b.ptr

/-- The first and the last chunk of each block, and no others, are marked and hold its length. -/
structure Marks (isFree : ℕ → Bool) (size : ℕ → ℕ) (live : List Block) : Prop where
  first : ∀ b ∈ live, isFree b.chunk = false
  last : ∀ b ∈ live, isFree b.last = false
  sizeFirst : ∀ b ∈ live, size b.chunk = b.length
  sizeLast : ∀ b ∈ live, size b.last = b.length
  rest : ∀ c ≤ chunkNum, (∀ b ∈ live, c ≠ b.chunk ∧ c ≠ b.last) → isFree c = true

structure Inv (t : Table) (live : List Block) : Prop where
  layout : Layout live
  marks : Marks t.isFree t.size live
  free : ∀ c, Free live c → Extent (Free live) c (t.totalSize c)
  used : ∀ b ∈ live, Extent (Used live) b.chunk (t.totalSize b.chunk)

/-- No block lies on both sides of the boundary before chunk `i`. -/
def Boundary (live : List Block) (i : ℕ) : Prop := ∀ b ∈ live, b.chunk < i → b.next ≤ i

theorem Layout.unique (layout : Layout live) {b b' : Block} (member : b ∈ live) (member' : b' ∈ live)
    (covers : b.Covers c) (covers' : b'.Covers c) : b = b' := by
  by_contra different
  have symmetric : Std.Symm fun b b' : Block => b.next ≤ b'.chunk ∨ b'.next ≤ b.chunk := ⟨fun _ _ h => h.symm⟩
  have disjoint := layout.apart.forall member member' different
  obtain ⟨lower, upper⟩ := covers
  obtain ⟨lower', upper'⟩ := covers'
  omega

theorem Layout.lt_chunkNum (layout : Layout live) (used : Used live c) : c < chunkNum := by
  obtain ⟨b, member, -, upper⟩ := used
  exact upper.trans_le (layout.inside b member)

namespace Boundary

theorem of_not_used (unused : ¬Used live i) : Boundary live i := by
  intro b member before
  by_contra across
  exact unused ⟨b, member, by omega, by omega⟩

theorem of_not_used_before (unused : ¬Used live (i - 1)) : Boundary live i := by
  intro b member before
  by_contra across
  exact unused ⟨b, member, by omega, by omega⟩

theorem chunk (layout : Layout live) (member : b ∈ live) : Boundary live b.chunk := by
  intro b' member' before
  by_contra across
  have same := layout.unique member member' b.covers_chunk ⟨before.le, by omega⟩
  subst same
  omega

theorem next (layout : Layout live) (member : b ∈ live) : Boundary live b.next := by
  intro b' member' before
  by_contra across
  have nonempty := b.lt_next
  have same := layout.unique member member' (c := b.next - 1) ⟨by omega, by omega⟩ ⟨by omega, by omega⟩
  subst same
  omega

theorem tail (boundary : Boundary (b :: live) i) : Boundary live i :=
  fun b' member => boundary b' (mem_cons_of_mem _ member)

end Boundary

namespace Marks

variable (marks : Marks isFree size live) (boundary : Boundary live i)

include marks boundary

theorem before_of_marked (positive : 0 < i) (fits : i ≤ chunkNum) (marked : isFree (i - 1) = false) :
    ∃ b ∈ live, b.next = i := by
  by_contra none
  push Not at none
  have unmarked : isFree (i - 1) = true := by
    apply marks.rest (i - 1) (by omega)
    intro b member
    have ends := none b member
    have nonempty := b.lt_next
    have across := boundary b member
    rw [b.last_eq]
    omega
  simp [marked] at unmarked

theorem not_used_before (positive : 0 < i) (free : isFree (i - 1) = true) : ¬Used live (i - 1) := by
  rintro ⟨b, member, lower, upper⟩
  have across := boundary b member (by omega)
  have ends : b.last = i - 1 := by
    rw [b.last_eq]
    omega
  have marked := marks.last b member
  rw [ends, free] at marked
  cases marked

theorem first_of_marked (fits : i ≤ chunkNum) (marked : isFree i = false) : ∃ b ∈ live, b.chunk = i := by
  by_contra none
  push Not at none
  have unmarked : isFree i = true := by
    apply marks.rest i fits
    intro b member
    have begins := none b member
    have nonempty := b.lt_next
    have across := boundary b member
    rw [b.last_eq]
    omega
  simp [marked] at unmarked

theorem not_used (free : isFree i = true) : ¬Used live i := by
  rintro ⟨b, member, lower, upper⟩
  have across := boundary b member
  have begins : b.chunk = i := by omega
  have marked := marks.first b member
  rw [begins, free] at marked
  cases marked

omit boundary in
theorem minus_size (member : b ∈ live) (fits : b.next ≤ chunkNum) : minus b.next (size (b.next - 1)) = b.chunk := by
  rw [← b.last_eq, marks.sizeLast b member, minus_of_le]
  · exact Nat.add_sub_cancel ..
  · exact Nat.le_add_left ..
  · rw [chunkNum_eq] at fits
    omega

end Marks

/-- Before the loop, the lengths of free chunks are settled from `i` on; after it, all of them are. -/
theorem updateFree_spec (marks : Marks t.isFree t.size live) (fits : i ≤ chunkNum) (boundary : Boundary live i)
    (settled : Settled (Free live) (Free live) t.totalSize i) (extent : Extent (Free live) i total) :
    ∃ value, updateFree t i total = { t with totalSize := value } ∧
      (∀ c, ¬Free live c → value c = t.totalSize c) ∧ ∀ c, Free live c → Extent (Free live) c (value c) := by
  induction i generalizing t total with
  | zero => exact ⟨t.totalSize, rfl, fun _ _ => rfl, fun c => settled.done (.inl rfl)⟩
  | succ i ih =>
    cases flag : t.isFree i with
    | false =>
      refine ⟨t.totalSize, by simp [updateFree, flag], fun _ _ => rfl, fun c => settled.done (.inr ?_)⟩
      obtain ⟨b, member, ends⟩ := marks.before_of_marked boundary (Nat.succ_pos i) fits flag
      have nonempty := b.lt_next
      exact fun free => free.2 ⟨b, member, by omega, by omega⟩
    | true =>
      have unused : ¬Used live i := marks.not_used_before boundary (Nat.succ_pos i) flag
      have free : Free live i := ⟨by omega, unused⟩
      have alone : ∀ k, i ≤ k → k < i + 1 → Free live k := by
        intro k lower upper
        obtain rfl : k = i := by omega
        exact free
      have moved := settled.back extent rfl alone fun c _ lower upper => by omega
      rw [Nat.add_comm 1 total] at moved
      have longer := extent.extend alone
      rw [Nat.add_comm 1 total] at longer
      obtain ⟨value, result, others, right⟩ :=
        ih (t := t.setTotal i (total + 1)) marks (by omega) (.of_not_used unused) moved longer
      refine ⟨value, ?_, ?_, right⟩
      · simp only [updateFree, flag, result]
        rfl
      · intro c taken
        rw [others c taken]
        have other : c ≠ i := by
          rintro rfl
          exact taken free
        exact update_of_ne other ..

/-- The same for the first chunks of blocks. The loop returns within as many rounds as there are chunks before `i`. -/
theorem updateAllocated_spec (layout : Layout live) (marks : Marks t.isFree t.size live) (fits : i ≤ chunkNum)
    (enough : i < fuel) (boundary : Boundary live i)
    (settled : Settled (Used live) (fun c => ∃ b ∈ live, b.chunk = c) t.totalSize i)
    (extent : Extent (Used live) i total) :
    ∃ value, updateAllocated fuel t i total = some { t with totalSize := value } ∧
      (∀ c, Free live c → value c = t.totalSize c) ∧ ∀ b ∈ live, Extent (Used live) b.chunk (value b.chunk) := by
  induction fuel generalizing t i total with
  | zero => omega
  | succ fuel ih =>
    rcases Nat.eq_zero_or_pos i with rfl | positive
    · exact ⟨t.totalSize, rfl, fun _ _ => rfl, fun b member => settled.done (.inl rfl) ⟨b, member, rfl⟩⟩
    cases flag : t.isFree (i - 1) with
    | true =>
      have unused := marks.not_used_before boundary positive flag
      refine ⟨t.totalSize, ?_, fun _ _ => rfl, fun b member => settled.done (.inr unused) ⟨b, member, rfl⟩⟩
      simp [updateAllocated, flag]
    | false =>
      obtain ⟨b, member, rfl⟩ := marks.before_of_marked boundary positive fits flag
      have nonempty := b.lt_next
      have backwards := marks.minus_size member fits
      have covered : ∀ k, b.chunk ≤ k → k < b.chunk + b.length → Used live k :=
        fun k lower upper => ⟨b, member, lower, upper⟩
      have only : ∀ c, (∃ b' ∈ live, b'.chunk = c) → b.chunk ≤ c → c < b.next → c = b.chunk := by
        rintro c ⟨b', member', rfl⟩ lower upper
        rw [layout.unique member' member b'.covers_chunk ⟨lower, upper⟩]
      have moved := settled.back extent rfl covered only
      rw [Nat.add_comm b.length total] at moved
      have longer := extent.extend covered
      rw [Nat.add_comm b.length total] at longer
      obtain ⟨value, result, others, right⟩ := ih (t := t.setTotal b.chunk (total + b.length)) marks (by omega)
        (by omega) (.chunk layout member) moved longer
      refine ⟨value, ?_, ?_, right⟩
      · simp only [updateAllocated, flag, positive, backwards, marks.sizeFirst b member, result]
        rfl
      · intro c free
        rw [others c free]
        have other : c ≠ b.chunk := by
          rintro rfl
          exact free.2 ⟨b, member, b.covers_chunk⟩
        exact update_of_ne other ..

theorem free_cons_away (away : c < b.chunk ∨ b.next ≤ c) : Free live c ↔ Free (b :: live) c := by
  have outside : ¬b.Covers c := by
    rintro ⟨lower, upper⟩
    omega
  simp [Free, outside]

theorem used_cons_away (away : c < b.chunk ∨ b.next ≤ c) : Used live c ↔ Used (b :: live) c := by
  have outside : ¬b.Covers c := by
    rintro ⟨lower, upper⟩
    omega
  simp [outside]

theorem Layout.cons (layout : Layout live) (fresh : ∀ c, b.Covers c → Free live c)
    (placed : b.ptr = chunkAddress b.chunk) (aligned : Aligned b.alignment b.ptr) : Layout (b :: live) where
  inside := by
    rw [forall_mem_cons]
    refine ⟨?_, layout.inside⟩
    have nonempty := b.lt_next
    have fits := (fresh (b.next - 1) ⟨by omega, by omega⟩).1
    omega
  apart := by
    refine pairwise_cons.2 ⟨?_, layout.apart⟩
    intro b' member
    by_contra overlap
    rcases Nat.lt_or_ge b'.chunk b.chunk with before | after
    · exact (fresh b.chunk b.covers_chunk).2 ⟨b', member, by omega, by omega⟩
    · exact (fresh b'.chunk ⟨after, by omega⟩).2 ⟨b', member, b'.covers_chunk⟩
  placed := forall_mem_cons.2 ⟨placed, layout.placed⟩
  aligned := forall_mem_cons.2 ⟨aligned, layout.aligned⟩

theorem Layout.tail (layout : Layout (b :: live)) : Layout live where
  inside := (forall_mem_cons.1 layout.inside).2
  apart := (pairwise_cons.1 layout.apart).2
  placed := (forall_mem_cons.1 layout.placed).2
  aligned := (forall_mem_cons.1 layout.aligned).2

theorem Layout.others (layout : Layout (b :: live)) {b' : Block} (member : b' ∈ live) :
    ¬b.Covers b'.chunk ∧ ¬b.Covers b'.last := by
  have nonempty := b'.lt_next
  have disjoint := (pairwise_cons.1 layout.apart).1 b' member
  unfold Block.Covers
  rw [b'.last_eq]
  omega

theorem Block.ends_ne (outside : ¬b.Covers c) : c ≠ b.chunk ∧ c ≠ b.chunk + b.length - 1 := by
  have nonempty := b.length_pos
  unfold Block.Covers Block.next at outside
  omega

theorem mark_outside (outside : ¬b.Covers c) :
    (t.mark b.chunk b.length).isFree c = t.isFree c ∧ (t.mark b.chunk b.length).size c = t.size c := by
  simp [mark, Block.ends_ne outside]

theorem unmark_outside (outside : ¬b.Covers c) : (t.unmark b.chunk b.length).isFree c = t.isFree c := by
  simp [unmark, Block.ends_ne outside]

theorem mark_ends (end' : c = b.chunk ∨ c = b.last) :
    (t.mark b.chunk b.length).isFree c = false ∧ (t.mark b.chunk b.length).size c = b.length := by
  by_cases last : c = b.chunk + b.length - 1
  · simp [mark, last]
  · have first : c = b.chunk := end'.resolve_right last
    subst first
    simp [mark, update_of_ne last]

theorem Marks.cons (marks : Marks t.isFree t.size live) (layout : Layout (b :: live)) :
    Marks (t.mark b.chunk b.length).isFree (t.mark b.chunk b.length).size (b :: live) where
  first := by
    refine forall_mem_cons.2 ⟨(mark_ends (.inl rfl)).1, fun b' member => ?_⟩
    rw [(mark_outside (layout.others member).1).1]
    exact marks.first b' member
  last := by
    refine forall_mem_cons.2 ⟨(mark_ends (.inr rfl)).1, fun b' member => ?_⟩
    rw [(mark_outside (layout.others member).2).1]
    exact marks.last b' member
  sizeFirst := by
    refine forall_mem_cons.2 ⟨(mark_ends (.inl rfl)).2, fun b' member => ?_⟩
    rw [(mark_outside (layout.others member).1).2]
    exact marks.sizeFirst b' member
  sizeLast := by
    refine forall_mem_cons.2 ⟨(mark_ends (.inr rfl)).2, fun b' member => ?_⟩
    rw [(mark_outside (layout.others member).2).2]
    exact marks.sizeLast b' member
  rest := by
    intro c fits unmarked
    obtain ⟨⟨notFirst, notLast⟩, others⟩ := forall_mem_cons.1 unmarked
    have same : (t.mark b.chunk b.length).isFree c = t.isFree c :=
      (update_of_ne notLast ..).trans (update_of_ne notFirst ..)
    rw [same]
    exact marks.rest c fits others

theorem Marks.tail (marks : Marks t.isFree t.size (b :: live)) (layout : Layout (b :: live)) :
    Marks (t.unmark b.chunk b.length).isFree (t.unmark b.chunk b.length).size live where
  first := by
    intro b' member
    rw [unmark_outside (layout.others member).1]
    exact marks.first b' (mem_cons_of_mem _ member)
  last := by
    intro b' member
    rw [unmark_outside (layout.others member).2]
    exact marks.last b' (mem_cons_of_mem _ member)
  sizeFirst := (forall_mem_cons.1 marks.sizeFirst).2
  sizeLast := (forall_mem_cons.1 marks.sizeLast).2
  rest := by
    intro c fits unmarked
    simp only [unmark, update_apply]
    split_ifs with last first
    · rfl
    · rfl
    · exact marks.rest c fits (forall_mem_cons.2 ⟨⟨first, last⟩, unmarked⟩)

section Take

variable (inv : Inv t live) (layout : Layout (b :: live))

include inv layout

theorem extent_take : Extent (Used (b :: live)) b.chunk ((t.mark b.chunk b.length).allocatedFrom b.chunk b.length) := by
  have marks := inv.marks.cons layout
  have member : b ∈ b :: live := mem_cons_self
  have boundary := Boundary.next layout member
  have covered : ∀ k, b.chunk ≤ k → k < b.chunk + b.length → Used (b :: live) k :=
    fun k lower upper => ⟨b, member, lower, upper⟩
  unfold allocatedFrom
  split_ifs with marked
  · obtain ⟨b', member', begins⟩ := marks.first_of_marked boundary (layout.inside b member) marked
    have old : b' ∈ live := by
      rcases mem_cons.1 member' with rfl | old
      · exact absurd begins b'.lt_next.ne
      · exact old
    have extent := (inv.used b' old).outside (fun k => used_cons_away (b := b)) (.inl begins.ge)
    rw [begins] at extent
    exact extent.extend covered
  · have unused := marks.not_used boundary (eq_true_of_ne_false marked)
    have extent := (Extent.empty unused).extend covered
    rwa [Nat.add_zero] at extent

omit layout in
theorem settledFree_take (value : ℕ) :
    Settled (Free (b :: live)) (Free (b :: live)) (update t.totalSize b.chunk value) b.chunk := by
  intro c free reach
  have outside : ¬b.Covers c := fun covers => free.2 (used_cons.2 (.inl covers))
  have other : c ≠ b.chunk := by
    rintro rfl
    exact outside b.covers_chunk
  have old : Free live c := ⟨free.1, fun used => free.2 (used_cons.2 (.inr used))⟩
  rw [update_of_ne other]
  refine (inv.free c old).outside (fun k => free_cons_away (b := b)) (reach.imp_left fun after => ?_)
  by_contra inside
  exact outside ⟨after, by omega⟩

theorem settledUsed_take : Settled (Used (b :: live)) (fun c => ∃ b' ∈ b :: live, b'.chunk = c)
    (update t.totalSize b.chunk ((t.mark b.chunk b.length).allocatedFrom b.chunk b.length)) b.chunk := by
  rintro c ⟨b', member, rfl⟩ reach
  rcases mem_cons.1 member with rfl | old
  · rw [update_self]
    exact extent_take inv layout
  · have outside := (layout.others old).1
    have other : b'.chunk ≠ b.chunk := by
      intro same
      rw [same] at outside
      exact outside b.covers_chunk
    rw [update_of_ne other]
    refine (inv.used b' old).outside (fun k => used_cons_away (b := b)) (reach.imp_left fun after => ?_)
    by_contra inside
    exact outside ⟨after, by omega⟩

theorem take_inv : ∃ t', t.take b.chunk b.length = some t' ∧ Inv t' (b :: live) := by
  have marks := inv.marks.cons layout
  have member : b ∈ b :: live := mem_cons_self
  have boundary := Boundary.chunk layout member
  have fits : b.chunk ≤ chunkNum := b.lt_next.le.trans (layout.inside b member)
  have settledFree := settledFree_take (b := b) inv ((t.mark b.chunk b.length).allocatedFrom b.chunk b.length)
  have settledUsed := settledUsed_take inv layout
  simp only [Table.take, Table.updatePrevious]
  split_ifs with positive marked
  · obtain ⟨b', member', ends⟩ := marks.before_of_marked boundary positive fits marked
    have taken : ¬Free (b :: live) (b.chunk - 1) := by
      have nonempty := b'.lt_next
      exact fun free => free.2 ⟨b', member', by omega, by omega⟩
    have extent := extent_take inv layout
    obtain ⟨value, result, others, right⟩ := updateAllocated_spec
      (t := (t.mark b.chunk b.length).setTotal b.chunk ((t.mark b.chunk b.length).allocatedFrom b.chunk b.length))
      layout marks fits (Nat.lt_succ_of_le fits) boundary settledUsed extent
    rw [totalSize_setTotal]
    refine ⟨_, result, layout, marks, ?_, right⟩
    intro c free
    change Extent _ c (value c)
    rw [others c free]
    exact settledFree.done (.inr taken) free
  · have unused := marks.not_used_before boundary positive (eq_true_of_ne_false marked)
    have stops : ¬Free (b :: live) b.chunk := fun free => free.2 ⟨b, member, b.covers_chunk⟩
    obtain ⟨value, result, others, right⟩ := updateFree_spec
      (t := (t.mark b.chunk b.length).setTotal b.chunk ((t.mark b.chunk b.length).allocatedFrom b.chunk b.length))
      marks fits boundary settledFree (.empty stops)
    refine ⟨_, congrArg some result, layout, marks, right, ?_⟩
    intro b' member'
    change Extent _ b'.chunk (value b'.chunk)
    rw [others _ fun free => free.2 ⟨b', member', b'.covers_chunk⟩]
    exact settledUsed.done (.inr unused) ⟨b', member', rfl⟩
  · have zero : b.chunk = 0 := by omega
    refine ⟨_, rfl, layout, marks, ?_, ?_⟩
    · exact fun c => settledFree.done (.inl zero)
    · exact fun b' member' => settledUsed.done (.inl zero) ⟨b', member', rfl⟩

end Take

section Release

variable (inv : Inv t (b :: live))

include inv

theorem extent_release : Extent (Free live) b.next ((t.unmark b.chunk b.length).freeFrom b.next) := by
  have marks := inv.marks.tail inv.layout
  have boundary := (Boundary.next inv.layout mem_cons_self).tail
  unfold freeFrom
  split_ifs with fits free
  · have unused := marks.not_used boundary free
    have old : Free (b :: live) b.next := (free_cons_away (.inr le_rfl)).1 ⟨fits, unused⟩
    exact (inv.free _ old).outside (fun k away => (free_cons_away (b := b) away).symm) (.inl le_rfl)
  · obtain ⟨b', member, begins⟩ := marks.first_of_marked boundary fits.le (eq_false_of_ne_true free)
    exact .empty fun free => free.2 ⟨b', member, begins ▸ b'.covers_chunk⟩
  · exact .empty fun free => fits free.1

theorem settledFree_release : Settled (Free live) (Free live) t.totalSize b.next := by
  intro c free reach
  -- A chunk that stops the stretch before the end of the block lies before the block, whose chunks are free now.
  have away : b.next ≤ c ∨ ∃ d, c ≤ d ∧ d < b.chunk ∧ ¬Free live d := by
    refine reach.imp_right ?_
    rintro ⟨d, later, before, taken⟩
    refine ⟨d, later, ?_, taken⟩
    by_contra inside
    refine taken ⟨before.trans_le (inv.layout.inside b mem_cons_self), ?_⟩
    rintro ⟨b', member, covers⟩
    have same := inv.layout.unique mem_cons_self (mem_cons_of_mem _ member) ⟨by omega, before⟩ covers
    subst same
    exact (inv.layout.others member).1 b.covers_chunk
  have outside : c < b.chunk ∨ b.next ≤ c := by
    rcases away with after | ⟨d, later, before, -⟩
    · exact .inr after
    · exact .inl (by omega)
  exact (inv.free c ((free_cons_away outside).1 free)).outside (fun k away => (free_cons_away away).symm) away

theorem settledUsed_release : Settled (Used live) (fun c => ∃ b' ∈ live, b'.chunk = c) t.totalSize b.chunk := by
  rintro c ⟨b', member, rfl⟩ reach
  have outside := (inv.layout.others member).1
  refine (inv.used b' (mem_cons_of_mem _ member)).outside (fun k away => (used_cons_away (b := b) away).symm)
    (reach.imp_left fun after => ?_)
  by_contra inside
  exact outside ⟨after, by omega⟩

theorem release_inv : ∃ t', t.release b.chunk b.length = some t' ∧ Inv t' live := by
  have layout := inv.layout.tail
  have marks := inv.marks.tail inv.layout
  have member : b ∈ b :: live := mem_cons_self
  have boundary := (Boundary.chunk inv.layout member).tail
  have fits : b.chunk ≤ chunkNum := b.lt_next.le.trans (inv.layout.inside b member)
  have settledFree := settledFree_release (t := t) inv
  obtain ⟨value, result, others, right⟩ := updateFree_spec marks (inv.layout.inside b member)
    (Boundary.next inv.layout member).tail settledFree (extent_release inv)
  have settledUsed : Settled (Used live) (fun c => ∃ b' ∈ live, b'.chunk = c) value b.chunk := by
    rintro c ⟨b', member', rfl⟩ reach
    rw [others _ fun free => free.2 ⟨b', member', b'.covers_chunk⟩]
    exact settledUsed_release inv _ ⟨b', member', rfl⟩ reach
  have unfolded : t.release b.chunk b.length =
      if 0 < b.chunk then
        if (t.unmark b.chunk b.length).isFree (b.chunk - 1) = false then
          updateAllocated (chunkNum + 1) { t.unmark b.chunk b.length with totalSize := value } b.chunk 0
        else some { t.unmark b.chunk b.length with totalSize := value }
      else some { t.unmark b.chunk b.length with totalSize := value } := by
    unfold Table.release
    rw [show b.chunk + b.length = b.next from rfl]
    simp [result]
  rw [unfolded]
  split_ifs with positive marked
  · have stops : ¬Used live b.chunk := by
      rintro ⟨b', member', covers⟩
      have same := inv.layout.unique member (mem_cons_of_mem _ member') b.covers_chunk covers
      subst same
      exact (inv.layout.others member').1 b.covers_chunk
    obtain ⟨value', result', others', right'⟩ := updateAllocated_spec
      (t := { t.unmark b.chunk b.length with totalSize := value }) layout marks fits (Nat.lt_succ_of_le fits) boundary
      settledUsed (.empty stops)
    refine ⟨_, result', layout, marks, ?_, right'⟩
    intro c free
    change Extent _ c (value' c)
    rw [others' c free]
    exact right c free
  · have unused := marks.not_used_before boundary positive (eq_true_of_ne_false marked)
    exact ⟨_, rfl, layout, marks, right, fun b' member' => settledUsed.done (.inr unused) ⟨b', member', rfl⟩⟩
  · have zero : b.chunk = 0 := by omega
    exact ⟨_, rfl, layout, marks, right, fun b' member' => settledUsed.done (.inl zero) ⟨b', member', rfl⟩⟩

end Release

/-- A block of `required` chunks can be placed at chunk `a`. -/
def Fits (live : List Block) (required align a : ℕ) : Prop :=
  (align = 0 ∨ align ∣ a) ∧ ∀ k, a ≤ k → k < a + required → Free live k

theorem dvd_add_reqToAlign : align = 0 ∨ align ∣ i + reqToAlign align i := by
  rcases Nat.eq_zero_or_pos align with zero | positive
  · exact .inl zero
  · right
    have split := Nat.div_add_mod i align
    have small := Nat.mod_lt i positive
    rw [reqToAlign, if_pos positive.ne', Nat.dvd_iff_mod_eq_zero, Nat.add_mod_mod]
    have whole : i + (align - i % align) = align * (i / align + 1) := by
      rw [Nat.mul_add]
      omega
    rw [whole, Nat.mul_mod_right]

theorem add_reqToAlign_le (aligned : align = 0 ∨ align ∣ a) (later : i ≤ a) : i + reqToAlign align i ≤ a := by
  rcases Nat.eq_zero_or_pos align with zero | positive
  · simpa [reqToAlign, zero] using later
  · obtain ⟨q, rfl⟩ := aligned.resolve_left positive.ne'
    have split := Nat.div_add_mod i align
    rw [reqToAlign, if_pos positive.ne']
    rcases Nat.eq_zero_or_pos (i % align) with already | between
    · simpa [already] using later
    · rw [Nat.mod_eq_of_lt (by omega)]
      have above : i / align < q := by
        by_contra below
        have bound := Nat.mul_le_mul_left align (Nat.le_of_not_lt below)
        omega
      have bound := Nat.mul_le_mul_left align above
      rw [Nat.succ_eq_add_one, Nat.mul_add] at bound
      omega

/-- The search ends: at a place for the block, or behind the last chunk if there is none. -/
theorem findChunk_spec (inv : Inv t live) (positive : 0 < required) (fits : i ≤ chunkNum) (boundary : Boundary live i)
    (none : ∀ a < i, ¬Fits live required align a) (enough : chunkNum < fuel + i) {toAlign : ℕ} :
    ∃ chunk toAlign', findChunk t required align fuel i toAlign = some (chunk, toAlign') ∧
      (chunk = chunkNum ∧ (∀ a, ¬Fits live required align a) ∨
        chunk < chunkNum ∧ Fits live required align (chunk + toAlign')) := by
  induction fuel generalizing i toAlign with
  | zero => omega
  | succ fuel ih =>
    rcases fits.eq_or_lt with rfl | inside
    · refine ⟨chunkNum, toAlign, by simp [findChunk], .inl ⟨rfl, ?_⟩⟩
      intro a fit
      have free := fit.2 a le_rfl (by omega)
      exact none a free.1 fit
    cases flag : t.isFree i with
    | false =>
      obtain ⟨b, member, rfl⟩ := inv.marks.first_of_marked boundary fits flag
      have extent := inv.used b member
      have more := extent.pos ⟨b, member, b.covers_chunk⟩
      have bound := inv.layout.lt_chunkNum
        (extent.within (b.chunk + t.totalSize b.chunk - 1) (by omega) (by omega))
      simp only [findChunk, inside, flag]
      refine ih (by omega) (.of_not_used extent.stops) ?_ (by omega)
      intro a before fit
      rcases Nat.lt_or_ge a b.chunk with earlier | later
      · exact none a earlier fit
      · exact (fit.2 a le_rfl (by omega)).2 (extent.within a later before)
    | true =>
      have free : Free live i := ⟨inside, inv.marks.not_used boundary flag⟩
      have extent := inv.free i free
      have more := extent.pos free
      have ends := extent.within (i + t.totalSize i - 1) (by omega) (by omega)
      have bound := ends.1
      simp only [findChunk, inside, flag, if_true, Bool.true_eq_false, if_false]
      split_ifs with large
      · refine ⟨i, _, rfl, .inr ⟨inside, dvd_add_reqToAlign, ?_⟩⟩
        intro k lower upper
        exact extent.within k (by omega) (by omega)
      · refine ih (by omega) (.of_not_used_before ends.2) ?_ (by omega)
        intro a before fit
        rcases Nat.lt_or_ge a i with earlier | later
        · exact none a earlier fit
        · have first := add_reqToAlign_le fit.1 later
          have last : a + required ≤ i + t.totalSize i := by
            by_contra across
            exact extent.stops (fit.2 _ (by omega) (by omega))
          omega

@[simp] theorem chunk_mk {size : ℕ} : Block.chunk ⟨chunkAddress c, size, alignment⟩ = c := by
  simp [Block.chunk, chunkAddress, chunkSize]

/-- The start of the heap is aligned as far as callers may ask, so chunk numbers can be aligned in place of addresses.
-/
theorem aligned_iff (valid : ValidAlignment alignment) :
    Aligned alignment (chunkAddress c) ↔ alignment / chunkSize = 0 ∨ alignment / chunkSize ∣ c := by
  obtain rfl | ⟨k, small, rfl⟩ := valid
  · simp [Aligned]
  have start : 2 ^ k ∣ kernelAllocStart := (pow_dvd_pow 2 small).trans ⟨3, rfl⟩
  have positive : 2 ^ k ≠ 0 := pow_ne_zero k two_ne_zero
  have offset : Aligned (2 ^ k) (chunkAddress c) ↔ 2 ^ k ∣ c * 2 ^ 6 := by
    rw [Aligned, or_iff_right positive, chunkAddress, Nat.dvd_add_right start]
    rfl
  rw [offset, show chunkSize = 2 ^ 6 from rfl]
  rcases Nat.lt_or_ge k 6 with below | above
  · have zero : 2 ^ k / 2 ^ 6 = 0 := Nat.div_eq_of_lt (Nat.pow_lt_pow_right (by decide) below)
    have divides : 2 ^ k ∣ c * 2 ^ 6 := Dvd.dvd.mul_left (pow_dvd_pow 2 below.le) c
    simp only [zero, true_or, divides]
  · obtain ⟨n, rfl⟩ := Nat.exists_eq_add_of_le' above
    have quotient : 2 ^ (n + 6) / 2 ^ 6 = 2 ^ n := by
      rw [pow_add, Nat.mul_div_cancel _ (by decide)]
    rw [quotient, or_iff_right (pow_ne_zero n two_ne_zero), pow_add]
    exact Nat.mul_dvd_mul_iff_right (by decide)

theorem search (inv : Inv h.table live) (bytes alignment : ℕ) : ∃ chunk toAlign,
    findChunk h.table (reqChunks bytes) (alignment / chunkSize) (chunkNum + 1) 0 0 = some (chunk, toAlign) ∧
      (chunk = chunkNum ∧ (∀ a, ¬Fits live (reqChunks bytes) (alignment / chunkSize) a) ∨
        chunk < chunkNum ∧ Fits live (reqChunks bytes) (alignment / chunkSize) (chunk + toAlign)) :=
  findChunk_spec inv (Nat.succ_pos _) (Nat.zero_le _) (fun _ _ before => absurd before (Nat.not_lt_zero _))
    (nofun) (Nat.lt_succ_self _)

theorem Layout.place {bytes kept : ℕ} (layout : Layout live) (fits : Fits live (reqChunks bytes) align c)
    (aligned : Aligned kept (chunkAddress c)) : Layout (⟨chunkAddress c, bytes, kept⟩ :: live) := by
  refine layout.cons ?_ (by rw [chunk_mk]) aligned
  rintro k ⟨lower, upper⟩
  rw [chunk_mk] at lower
  rw [Block.next, chunk_mk] at upper
  exact fits.2 k lower upper

/-- Every call of `kzalloc_align` returns: a new block, or `NULL` if there is no place for one. -/
theorem kzallocAlign_spec {bytes kept : ℕ} (inv : Inv h.table live)
    (aligned : ∀ c, Fits live (reqChunks bytes) (alignment / chunkSize) c → Aligned kept (chunkAddress c)) :
    kzallocAlign h bytes alignment = some (none, h) ∧
        (∀ a, ¬Fits live (reqChunks bytes) (alignment / chunkSize) a) ∨
      ∃ chunk h', kzallocAlign h bytes alignment = some (some (chunkAddress chunk), h') ∧
        Fits live (reqChunks bytes) (alignment / chunkSize) chunk ∧
        Inv h'.table (⟨chunkAddress chunk, bytes, kept⟩ :: live) := by
  obtain ⟨chunk, toAlign, found, result⟩ := search inv bytes alignment
  rcases result with ⟨rfl, nowhere⟩ | ⟨inside, fits⟩
  · left
    exact ⟨by simp only [kzallocAlign, found, if_true], nowhere⟩
  · right
    obtain ⟨t', taken, inv'⟩ := take_inv inv (inv.layout.place fits (aligned _ fits))
    rw [chunk_mk] at taken
    change h.table.take (chunk + toAlign) (reqChunks bytes) = some t' at taken
    have returned : kzallocAlign h bytes alignment = some (some (chunkAddress (chunk + toAlign)),
        ⟨t', h.memory.blit (chunkAddress (chunk + toAlign)) (reqChunks bytes * chunkSize) fun _ => 0#8⟩) := by
      simp only [kzallocAlign, found, inside.ne, if_false, taken]
    exact ⟨chunk + toAlign, _, returned, fits, inv'⟩

section Returned

variable {bytes kept : ℕ} {heap : Heap} (inv : Inv h.table live)
  (aligned : ∀ c, Fits live (reqChunks bytes) (alignment / chunkSize) c → Aligned kept (chunkAddress c))

include inv aligned

theorem inv_of_alloc {ptr : ℕ} (returned : kzallocAlign h bytes alignment = some (some ptr, heap)) :
    Inv heap.table (⟨ptr, bytes, kept⟩ :: live) := by
  rcases kzallocAlign_spec inv aligned with ⟨null, -⟩ | ⟨chunk, h', result, -, inv'⟩
  · cases returned.symm.trans null
  · cases returned.symm.trans result
    exact inv'

theorem eq_of_null (returned : kzallocAlign h bytes alignment = some (none, heap)) : heap = h := by
  rcases kzallocAlign_spec inv aligned with ⟨null, -⟩ | ⟨chunk, h', result, -⟩
  · cases returned.symm.trans null
    rfl
  · cases returned.symm.trans result

end Returned

theorem chunk_of_ptr (layout : Layout live) (member : b ∈ live) :
    minus b.ptr kernelAllocStart / chunkSize = b.chunk := by
  have fits := b.lt_next.trans_le (layout.inside b member)
  rw [chunkNum_eq] at fits
  rw [layout.placed b member, minus_of_le]
  · simp [chunkAddress, chunkSize]
  · exact Nat.le_add_right ..
  · simp only [chunkAddress, kernelAllocStart, chunkSize]
    omega

theorem kfree_spec (inv : Inv h.table (b :: live)) : ∃ h', kfree h b.ptr = some h' ∧ Inv h'.table live := by
  have member : b ∈ b :: live := mem_cons_self
  have fits : b.chunk < chunkNum := b.lt_next.trans_le (inv.layout.inside b member)
  obtain ⟨t', released, inv'⟩ := release_inv inv
  refine ⟨{ h with table := t' }, ?_, inv'⟩
  rw [← inv.marks.sizeFirst b member] at released
  simp only [kfree, chunk_of_ptr inv.layout member, fits, if_true, released, Option.map_some]

theorem Inv.perm (inv : Inv t live) (same : live.Perm live') : Inv t live' := by
  have used : Used live = Used live' := by
    funext c
    simp [Used, same.mem_iff]
  have free : Free live = Free live' := by
    funext c
    simp [Free, used]
  obtain ⟨⟨inside, apart, placed, aligned⟩, ⟨first, last, sizeFirst, sizeLast, rest⟩, free', used'⟩ := inv
  simp only [same.mem_iff] at inside placed aligned first last sizeFirst sizeLast rest
  refine ⟨⟨inside, (same.pairwise_iff Or.symm).1 apart, placed, aligned⟩, ⟨first, last, sizeFirst, sizeLast, rest⟩, ?_,
    ?_⟩
  · rwa [← free]
  · rw [← used]
    exact fun b member => used' b (same.mem_iff.2 member)

theorem inv_init (pastEnd : h.table.isFree chunkNum = true) : Inv (allocatorInit h).table [] where
  layout := ⟨by simp, .nil, by simp, by simp⟩
  marks := by
    refine ⟨by simp, by simp, by simp, by simp, ?_⟩
    intro c fits _
    rcases fits.eq_or_lt with rfl | inside
    · simpa [allocatorInit] using pastEnd
    · simp only [allocatorInit, inside, if_true]
  free := by
    intro c free
    have total : (allocatorInit h).table.totalSize c = chunkNum - c := if_pos free.1
    refine ⟨fun k lower upper => ⟨by omega, by simp [Used]⟩, fun free => ?_⟩
    have inside' := free.1
    omega
  used := by simp

theorem inv_of_free {before after : List Block} {heap : Heap} (inv : Inv h.table (before ++ b :: after))
    (returned : kfree h b.ptr = some heap) : Inv heap.table (before ++ after) := by
  obtain ⟨h', result, inv'⟩ := kfree_spec (inv.perm perm_middle)
  cases returned.symm.trans result
  exact inv'

/-- Both calls keep the marks and the cached lengths right. -/
theorem inv_step {s s' : State} {event : Event} (inv : Inv s.heap.table s.live) (step : Step s event s') :
    Inv s'.heap.table s'.live := by
  cases step with
  | alloc _ valid returned => exact inv_of_alloc inv (fun _ fits => (aligned_iff valid).2 fits.1) returned
  | null _ _ returned =>
    rw [eq_of_null inv (fun _ _ => .inl rfl) returned]
    exact inv
  | free live returned => exact inv_of_free (live ▸ inv) returned

/-- What callers may rely on in a state of the heap. -/
structure Correct (s : State) : Prop where
  /-- Live blocks do not overlap. -/
  disjoint : s.live.Pairwise fun b b' => b.stop ≤ b'.ptr ∨ b'.stop ≤ b.ptr
  /-- They lie in the heap. -/
  inside : ∀ b ∈ s.live, kernelAllocStart ≤ b.ptr ∧ b.stop ≤ kernelAllocStop
  /-- They are as large as asked. -/
  large : ∀ b ∈ s.live, b.ptr + b.size ≤ b.stop
  /-- They are aligned as asked. -/
  aligned : ∀ b ∈ s.live, Aligned b.alignment b.ptr
  /-- A free chunk holds the length of the free stretch from it. -/
  free : ∀ c, Free s.live c → Extent (Free s.live) c (s.heap.table.totalSize c)
  /-- The first chunk of a block holds the length of the allocated stretch from it. -/
  used : ∀ b ∈ s.live, Extent (Used s.live) b.chunk (s.heap.table.totalSize b.chunk)
  /-- A request is refused exactly when no aligned stretch of free chunks is long enough. -/
  alloc : ∀ size alignment, 1 ≤ size → ValidAlignment alignment →
    ∃ result heap, kzallocAlign s.heap size alignment = some (result, heap) ∧
      (result = none ↔ ¬∃ c, Aligned alignment (chunkAddress c) ∧
        ∀ k, c ≤ k → k < c + reqChunks size → Free s.live k)
  /-- A block can be given back. -/
  release : ∀ b ∈ s.live, ∃ heap, kfree s.heap b.ptr = some heap

theorem Block.stop_eq (placed : b.ptr = chunkAddress b.chunk) : b.stop = chunkAddress b.next := by
  simp only [stop, placed, chunkAddress, next]
  ring

theorem chunkAddress_mono {c' : ℕ} (le : c ≤ c') : chunkAddress c ≤ chunkAddress c' :=
  Nat.add_le_add_left (Nat.mul_le_mul_right _ le) _

theorem correct_of_inv {s : State} (inv : Inv s.heap.table s.live) : Correct s where
  disjoint := by
    refine inv.layout.apart.imp_of_mem ?_
    intro b b' member member' apart
    rw [Block.stop_eq (inv.layout.placed b member), Block.stop_eq (inv.layout.placed b' member'),
      inv.layout.placed b member, inv.layout.placed b' member']
    exact apart.imp chunkAddress_mono chunkAddress_mono
  inside := by
    intro b member
    have last := chunkAddress_mono (inv.layout.inside b member)
    rw [Block.stop_eq (inv.layout.placed b member), inv.layout.placed b member]
    exact ⟨Nat.le_add_right .., last⟩
  large := by
    intro b _
    simp only [Block.stop, Block.length, reqChunks, chunkSize]
    omega
  aligned := inv.layout.aligned
  free := inv.free
  used := inv.used
  alloc := by
    intro size alignment _ valid
    have place (c : ℕ) : Fits s.live (reqChunks size) (alignment / chunkSize) c ↔ Aligned alignment (chunkAddress c) ∧
        ∀ k, c ≤ k → k < c + reqChunks size → Free s.live k := by
      rw [aligned_iff valid, Fits]
    rcases kzallocAlign_spec inv fun c fit => ((place c).1 fit).1 with ⟨null, nowhere⟩ | ⟨chunk, h', result, fits, -⟩
    · refine ⟨none, s.heap, null, iff_of_true rfl ?_⟩
      rintro ⟨c, fit⟩
      exact nowhere c ((place c).2 fit)
    · refine ⟨some (chunkAddress chunk), h', result, iff_of_false (Option.some_ne_none _) ?_⟩
      exact not_not_intro ⟨chunk, (place chunk).1 fits⟩
  release := by
    intro b member
    obtain ⟨before, after, split⟩ := append_of_mem member
    rw [split] at inv
    obtain ⟨h', result, -⟩ := kfree_spec (inv.perm perm_middle)
    exact ⟨h', result⟩

/-- Whatever calls have been made since `allocator_init`, the heap is correct, if the entry past the end of the table
reads as free. -/
theorem kernel_heap_correct {h : Heap} (pastEnd : h.table.isFree chunkNum = true) {events : List Event} {s : State}
    (run : Run Step ⟨allocatorInit h, []⟩ events s) : Correct s :=
  correct_of_inv (run.invariant (fun s => Inv s.heap.table s.live) inv_step (inv_init pastEnd))

/-- Two blocks are taken and the first one is given back. -/
theorem kernel_heap_correct_two_blocks :
    ∃ s, Run Step ⟨allocatorInit ⟨⟨fun _ => true, fun _ => 0, fun _ => 0⟩, fun _ => 0#8⟩, []⟩
      [.alloc 100 128 (some 0x30000), .alloc 10 0 (some 0x30080), .free 0x30000] s ∧ Correct s := by
  have first : Run Step ⟨allocatorInit ⟨⟨fun _ => true, fun _ => 0, fun _ => 0⟩, fun _ => 0#8⟩, []⟩
      [.alloc 100 128 (some 0x30000)] _ := .single (.alloc (by decide) (.inr ⟨7, by decide, rfl⟩) rfl)
  have second : Run Step _ [_, .alloc 10 0 (some 0x30080)] _ := first.snoc (.alloc (by decide) (.inl rfl) rfl)
  have third := second.snoc (@Step.free _ ⟨0x30000, 100, 128⟩ [⟨0x30080, 10, 0⟩] [] _ rfl rfl)
  exact ⟨_, third, kernel_heap_correct rfl third⟩

end MicroOs.Allocator
