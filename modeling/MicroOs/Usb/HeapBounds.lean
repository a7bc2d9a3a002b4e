import MicroOs.Usb.KernelHeap

/-! # Where the allocator looks at its table

For each operation, the indices at which it reads or writes `mem_chunk_list`.

The loops stay within the table. `kzalloc_align` reads the entry behind a new block without looking whether there is
one: for a block that ends with the last chunk it is the entry past the end. As long as no such block is taken, what
lies behind the table does not matter.
-/

namespace MicroOs.Allocator

open Function List Table

def updateAllocatedEntries : ℕ → Table → ℕ → ℕ → List ℕ
  | 0, _, _, _ => []
  | fuel + 1, t, i, total =>
    if 0 < i then (i - 1) ::
      if t.isFree (i - 1) = false then
        let i := minus i (t.size (i - 1))
        let total := total + t.size i
        i :: updateAllocatedEntries fuel (t.setTotal i total) i total
      else []
    else []

def updateFreeEntries : Table → ℕ → ℕ → List ℕ
  | _, 0, _ => []
  | t, i + 1, total => i :: if t.isFree i = true then updateFreeEntries (t.setTotal i (total + 1)) i (total + 1) else []

def findChunkEntries (t : Table) (required chunkAlign : ℕ) : ℕ → ℕ → List ℕ
  | 0, _ => []
  | fuel + 1, chunk =>
    if chunk < chunkNum then chunk ::
      if t.isFree chunk = false ∨ t.totalSize chunk < required + reqToAlign chunkAlign chunk then
        findChunkEntries t required chunkAlign fuel (chunk + t.totalSize chunk)
      else []
    else []

def Table.takeEntries (t : Table) (chunk required : ℕ) : List ℕ :=
  let t := t.mark chunk required
  let t := t.setTotal chunk (t.allocatedFrom chunk required)
  [chunk, chunk + required - 1, chunk + required] ++
    if 0 < chunk then (chunk - 1) ::
      if t.isFree (chunk - 1) = false then updateAllocatedEntries (chunkNum + 1) t chunk (t.totalSize chunk)
      else updateFreeEntries t chunk 0
    else []

def kzallocAlignEntries (h : Heap) (size alignment : ℕ) : List ℕ :=
  findChunkEntries h.table (reqChunks size) (alignment / chunkSize) (chunkNum + 1) 0 ++
    match findChunk h.table (reqChunks size) (alignment / chunkSize) (chunkNum + 1) 0 0 with
    | none => []
    | some (chunk, toAlign) =>
      if chunk = chunkNum then [] else h.table.takeEntries (chunk + toAlign) (reqChunks size)

def Table.releaseEntries (t : Table) (chunk size : ℕ) : List ℕ :=
  let t := t.unmark chunk size
  let total := t.freeFrom (chunk + size)
  let t' := updateFree t (chunk + size) total
  [chunk, chunk + size - 1] ++ (if chunk + size < chunkNum then [chunk + size] else []) ++
    updateFreeEntries t (chunk + size) total ++
    if 0 < chunk then (chunk - 1) ::
      if t'.isFree (chunk - 1) = false then updateAllocatedEntries (chunkNum + 1) t' chunk 0 else []
    else []

def kfreeEntries (h : Heap) (ptr : ℕ) : List ℕ :=
  let chunk := minus ptr kernelAllocStart / chunkSize
  if chunk < chunkNum then chunk :: h.table.releaseEntries chunk (h.table.size chunk) else []

/-- The table with a free entry past its end. -/
def Table.seal (t : Table) : Table := { t with isFree := update t.isFree chunkNum true }

variable {t : Table} {i total required align fuel chunk size alignment ptr : ℕ} {live : List Block} {b : Block}
  {h : Heap}

theorem isFree_seal (inside : i < chunkNum) : t.seal.isFree i = t.isFree i := update_of_ne inside.ne ..

theorem mark_seal (first : chunk < chunkNum) (last : chunk + required - 1 < chunkNum) :
    t.seal.mark chunk required = (t.mark chunk required).seal := by
  simp only [mark, Table.seal]
  rw [update_comm first.ne', update_comm last.ne']

theorem unmark_seal (first : chunk < chunkNum) (last : chunk + size - 1 < chunkNum) :
    t.seal.unmark chunk size = (t.unmark chunk size).seal := by
  simp only [unmark, Table.seal]
  rw [update_comm first.ne', update_comm last.ne']

theorem updateFree_marks : ∃ totalSize, updateFree t i total = { t with totalSize } := by
  induction i generalizing t total with
  | zero => exact ⟨t.totalSize, rfl⟩
  | succ i ih =>
    rw [updateFree]
    split
    · exact ih
    · exact ⟨t.totalSize, rfl⟩

theorem updateFreeEntries_lt : ∀ e ∈ updateFreeEntries t i total, e < i := by
  induction i generalizing t total with
  | zero => simp [updateFreeEntries]
  | succ i ih =>
    refine forall_mem_cons.2 ⟨Nat.lt_succ_self i, ?_⟩
    split_ifs
    · exact fun e member => Nat.lt_succ_of_lt (ih e member)
    · simp

theorem updateAllocatedEntries_lt (marks : Marks t.seal.isFree t.size live) (layout : Layout live) (fits : i ≤ chunkNum)
    (boundary : Boundary live i) : ∀ e ∈ updateAllocatedEntries fuel t i total, e < chunkNum := by
  induction fuel generalizing t i total with
  | zero => simp [updateAllocatedEntries]
  | succ fuel ih =>
    rw [updateAllocatedEntries]
    split_ifs with positive marked
    · rw [← isFree_seal (by omega)] at marked
      obtain ⟨b, member, rfl⟩ := marks.before_of_marked boundary positive fits marked
      have first : b.chunk < chunkNum := b.lt_next.trans_le fits
      rw [marks.minus_size member fits]
      refine forall_mem_cons.2 ⟨by omega, forall_mem_cons.2 ⟨first, ?_⟩⟩
      exact @ih (t.setTotal b.chunk _) b.chunk _ marks first.le (.chunk layout member)
    · simp only [mem_singleton, forall_eq]
      omega
    · simp

theorem findChunkEntries_lt : ∀ e ∈ findChunkEntries t required align fuel chunk, e < chunkNum := by
  induction fuel generalizing chunk with
  | zero => simp [findChunkEntries]
  | succ fuel ih =>
    rw [findChunkEntries]
    split_ifs with inside more
    · exact forall_mem_cons.2 ⟨inside, ih⟩
    · simpa using inside
    · simp

theorem before_lt {entries : List ℕ} (here : chunk < chunkNum) (inside : ∀ e ∈ entries, e < chunkNum) :
    ∀ e ∈ if 0 < chunk then (chunk - 1) :: entries else [], e < chunkNum := by
  split_ifs with positive
  · exact forall_mem_cons.2 ⟨by omega, inside⟩
  · simp

theorem takeEntries_lt (inv : Inv t.seal live) (layout : Layout (b :: live)) (below : b.next < chunkNum) :
    ∀ e ∈ t.takeEntries b.chunk b.length, e < chunkNum := by
  have first := b.lt_next.trans below
  have next : b.chunk + b.length = b.next := rfl
  have last : b.chunk + b.length - 1 < chunkNum := by omega
  have marks := inv.marks.cons layout
  rw [mark_seal first last] at marks
  rw [takeEntries, forall_mem_append]
  refine ⟨?_, before_lt first ?_⟩
  · simp only [forall_mem_cons, next]
    exact ⟨first, last, below, by simp⟩
  · split_ifs
    · exact updateAllocatedEntries_lt marks layout first.le (.chunk layout mem_cons_self)
    · exact fun e member => (updateFreeEntries_lt e member).trans first

theorem releaseEntries_lt (inv : Inv t.seal (b :: live)) : ∀ e ∈ t.releaseEntries b.chunk b.length, e < chunkNum := by
  have fits := inv.layout.inside b mem_cons_self
  have first := b.lt_next.trans_le fits
  have next : b.chunk + b.length = b.next := rfl
  have last : b.chunk + b.length - 1 < chunkNum := by omega
  have marks := inv.marks.tail inv.layout
  rw [unmark_seal first last] at marks
  obtain ⟨value, kept⟩ := @updateFree_marks (t.unmark b.chunk b.length) b.next
    ((t.unmark b.chunk b.length).freeFrom b.next)
  rw [releaseEntries, next, kept, forall_mem_append, forall_mem_append, forall_mem_append]
  refine ⟨⟨⟨?_, ?_⟩, ?_⟩, before_lt first ?_⟩
  · simp only [forall_mem_cons]
    exact ⟨first, last, by simp⟩
  · split_ifs with inside
    · simpa using inside
    · simp
  · exact fun e member => (updateFreeEntries_lt e member).trans_le fits
  · split_ifs
    · exact updateAllocatedEntries_lt marks inv.layout.tail first.le (Boundary.chunk inv.layout mem_cons_self).tail
    · simp

theorem updateFree_seal (fits : i ≤ chunkNum) : updateFree t.seal i total = (updateFree t i total).seal := by
  induction i generalizing t total with
  | zero => rfl
  | succ i ih =>
    rw [updateFree, updateFree, isFree_seal fits]
    split_ifs
    · exact @ih (t.setTotal i (total + 1)) _ (Nat.le_of_succ_le fits)
    · rfl

theorem updateAllocated_seal (inside : ∀ e ∈ updateAllocatedEntries fuel t i total, e < chunkNum) :
    updateAllocated fuel t.seal i total = (updateAllocated fuel t i total).map Table.seal := by
  induction fuel generalizing t i total with
  | zero => rfl
  | succ fuel ih =>
    rw [updateAllocatedEntries] at inside
    rw [updateAllocated, updateAllocated]
    by_cases positive : 0 < i
    · simp only [if_pos positive, forall_mem_cons] at inside ⊢
      rw [isFree_seal inside.1]
      split_ifs at inside ⊢ with marked
      · exact @ih (t.setTotal _ _) _ _ (forall_mem_cons.1 inside.2).2
      · rfl
    · rw [if_neg positive, if_neg positive]
      rfl

theorem take_seal (inside : ∀ e ∈ t.takeEntries chunk required, e < chunkNum) :
    t.seal.take chunk required = (t.take chunk required).map Table.seal := by
  simp only [takeEntries, forall_mem_append, forall_mem_cons] at inside
  obtain ⟨⟨first, last, behind, -⟩, before⟩ := inside
  have total : (t.mark chunk required).seal.allocatedFrom chunk required =
      (t.mark chunk required).allocatedFrom chunk required := by
    rw [allocatedFrom, isFree_seal behind]
    rfl
  rw [Table.take, Table.take, mark_seal first last, total]
  change (((t.mark chunk required).setTotal chunk _).seal).updatePrevious chunk = _
  rw [updatePrevious, updatePrevious]
  by_cases positive : 0 < chunk
  · simp only [if_pos positive, forall_mem_cons] at before ⊢
    rw [isFree_seal before.1]
    split_ifs at before ⊢ with marked
    · exact updateAllocated_seal before.2
    · exact congrArg some (updateFree_seal first.le)
  · rw [if_neg positive, if_neg positive]
    rfl

theorem release_seal (inside : ∀ e ∈ t.releaseEntries chunk size, e < chunkNum) :
    t.seal.release chunk size = (t.release chunk size).map Table.seal := by
  simp only [releaseEntries, forall_mem_append, forall_mem_cons] at inside
  obtain ⟨⟨⟨⟨first, last, -⟩, -⟩, -⟩, before⟩ := inside
  have total : (t.unmark chunk size).seal.freeFrom (chunk + size) = (t.unmark chunk size).freeFrom (chunk + size) := by
    rw [freeFrom, freeFrom]
    split
    · rw [isFree_seal ‹_›]
      rfl
    · rfl
  rw [Table.release, Table.release, unmark_seal first last, total, updateFree_seal (by omega)]
  by_cases positive : 0 < chunk
  · simp only [if_pos positive, forall_mem_cons] at before ⊢
    rw [isFree_seal before.1]
    split_ifs at before ⊢ with marked
    · exact updateAllocated_seal before.2
    · rfl
  · rw [if_neg positive, if_neg positive]
    rfl

theorem findChunk_seal {toAlign : ℕ} :
    findChunk t.seal required align fuel chunk toAlign = findChunk t required align fuel chunk toAlign := by
  induction fuel generalizing chunk toAlign with
  | zero => rfl
  | succ fuel ih =>
    rw [findChunk, findChunk]
    by_cases inside : chunk < chunkNum
    · rw [if_pos inside, if_pos inside, isFree_seal inside, ih]
      dsimp only
      rw [ih]
      rfl
    · rw [if_neg inside, if_neg inside]

def Heap.seal (h : Heap) : Heap := { h with table := h.table.seal }

theorem kzallocAlign_seal (inside : ∀ e ∈ kzallocAlignEntries h size alignment, e < chunkNum) :
    kzallocAlign h.seal size alignment = (kzallocAlign h size alignment).map (Prod.map id Heap.seal) := by
  rw [kzallocAlignEntries, forall_mem_append] at inside
  simp only [kzallocAlign, Heap.seal, findChunk_seal]
  cases found : findChunk h.table (reqChunks size) (alignment / chunkSize) (chunkNum + 1) 0 0 with
  | none => rfl
  | some place =>
    simp only [found] at inside ⊢
    split_ifs at inside ⊢ with nowhere
    · rfl
    · rw [take_seal inside.2]
      cases h.table.take (place.1 + place.2) (reqChunks size) with
      | none | some table => rfl

theorem kfree_seal (inside : ∀ e ∈ kfreeEntries h ptr, e < chunkNum) :
    kfree h.seal ptr = (kfree h ptr).map Heap.seal := by
  rw [kfreeEntries] at inside
  simp only [kfree, Heap.seal]
  split_ifs at inside ⊢ with here
  · rw [show h.table.seal.size = h.table.size from rfl, release_seal (forall_mem_cons.1 inside).2]
    cases h.table.release _ _ with
    | none | some table => rfl
  · rfl

/-- The block that `kzalloc_align` chooses ends with the last chunk. -/
def TakesLast (h : Heap) (size alignment : ℕ) : Prop :=
  ∃ chunk toAlign,
    findChunk h.table (reqChunks size) (alignment / chunkSize) (chunkNum + 1) 0 0 = some (chunk, toAlign) ∧
      chunk ≠ chunkNum ∧ chunk + toAlign + reqChunks size = chunkNum

/-- The call returns and stays within the table. -/
structure AllocInBounds (h : Heap) (size alignment : ℕ) : Prop where
  returns : kzallocAlign h size alignment ≠ none
  inside : ∀ e ∈ kzallocAlignEntries h size alignment, e < chunkNum

structure FreeInBounds (h : Heap) (ptr : ℕ) : Prop where
  returns : kfree h ptr ≠ none
  inside : ∀ e ∈ kfreeEntries h ptr, e < chunkNum

theorem TakesLast.mem_entries (last : TakesLast h size alignment) :
    chunkNum ∈ kzallocAlignEntries h size alignment := by
  obtain ⟨chunk, toAlign, found, somewhere, last⟩ := last
  rw [kzallocAlignEntries, found]
  apply mem_append_right
  simp only [if_neg somewhere, takeEntries, last]
  simp

section Calls

variable (inv : Inv h.seal.table live)

include inv

theorem allocInBounds (inner : ¬TakesLast h size alignment) : AllocInBounds h size alignment := by
  have inside : ∀ e ∈ kzallocAlignEntries h size alignment, e < chunkNum := by
    obtain ⟨chunk, toAlign, found, result⟩ := search inv size alignment
    rw [Heap.seal, findChunk_seal] at found
    rw [kzallocAlignEntries, found, forall_mem_append]
    refine ⟨findChunkEntries_lt, ?_⟩
    dsimp only
    split_ifs with nowhere
    · simp
    · obtain ⟨-, fits⟩ := result.resolve_left fun none => nowhere none.1
      have layout : Layout (⟨chunkAddress (chunk + toAlign), size, 0⟩ :: live) := inv.layout.place fits (.inl rfl)
      have entries := takeEntries_lt inv layout ((layout.inside _ mem_cons_self).lt_of_ne fun last =>
        inner ⟨chunk, toAlign, found, nowhere, by rwa [Block.next, chunk_mk] at last⟩)
      rwa [chunk_mk] at entries
  refine ⟨fun none => ?_, inside⟩
  have same := kzallocAlign_seal inside
  rw [none] at same
  rcases kzallocAlign_spec inv fun _ _ => .inl rfl with ⟨null, -⟩ | ⟨chunk, h', result, -⟩
  · cases null.symm.trans same
  · cases result.symm.trans same

theorem allocInBounds_iff : AllocInBounds h size alignment ↔ ¬TakesLast h size alignment := by
  refine ⟨fun bounds last => ?_, allocInBounds inv⟩
  exact absurd (bounds.inside _ last.mem_entries) (lt_irrefl _)

theorem freeInBounds (member : b ∈ live) : FreeInBounds h b.ptr := by
  obtain ⟨before, after, rfl⟩ := append_of_mem member
  replace inv := inv.perm perm_middle
  have first : b.chunk < chunkNum := b.lt_next.trans_le (inv.layout.inside b mem_cons_self)
  have size : h.table.size b.chunk = b.length := inv.marks.sizeFirst b mem_cons_self
  have inside : ∀ e ∈ kfreeEntries h b.ptr, e < chunkNum := by
    rw [kfreeEntries, chunk_of_ptr inv.layout mem_cons_self, if_pos first, size]
    exact forall_mem_cons.2 ⟨first, releaseEntries_lt inv⟩
  refine ⟨fun none => ?_, inside⟩
  obtain ⟨h', result, -⟩ := kfree_spec inv
  rw [kfree_seal inside, none] at result
  cases result

end Calls

/-- The calls with any alignment, also one that no address of the heap has. -/
inductive Call (s : State) : Event → State → Prop
  | alloc {size alignment ptr : ℕ} {heap : Heap} (positive : 1 ≤ size)
      (returned : kzallocAlign s.heap size alignment = some (some ptr, heap)) :
      Call s (.alloc size alignment (some ptr)) ⟨heap, ⟨ptr, size, 0⟩ :: s.live⟩
  | null {size alignment : ℕ} {heap : Heap} (positive : 1 ≤ size)
      (returned : kzallocAlign s.heap size alignment = some (none, heap)) :
      Call s (.alloc size alignment none) { s with heap }
  | free {b : Block} {before after : List Block} {heap : Heap} (live : s.live = before ++ b :: after)
      (returned : kfree s.heap b.ptr = some heap) : Call s (.free b.ptr) ⟨heap, before ++ after⟩

/-- No block is taken that ends with the last chunk. -/
def LeavesLast (s : State) : Event → Prop
  | .alloc size alignment _ => ¬TakesLast s.heap size alignment
  | .free _ => True

theorem seal_init (h : Heap) : Inv (allocatorInit h).seal.table [] := by
  have same : (allocatorInit h).seal = allocatorInit h.seal := by
    simp only [allocatorInit, Heap.seal, Table.seal, Heap.mk.injEq, Table.mk.injEq, and_true]
    funext i
    by_cases past : i = chunkNum
    · rw [past, update_self, if_neg (Nat.lt_irrefl _), update_self]
    · rw [update_of_ne past, update_of_ne past]
  have free : h.seal.table.isFree chunkNum = true := by simp [Heap.seal, Table.seal]
  rw [same]
  exact inv_init free

/-- Calls that leave the last chunk keep the invariant of the sealed table. -/
theorem seal_step {s s' : State} {event : Event} (inv : Inv s.heap.seal.table s.live)
    (step : Guarded LeavesLast Call s event s') : Inv s'.heap.seal.table s'.live := by
  obtain ⟨inner, call⟩ := step
  cases call with
  | alloc _ returned =>
    have same := kzallocAlign_seal (allocInBounds inv inner).inside
    rw [returned] at same
    exact inv_of_alloc inv (fun _ _ => .inl rfl) same
  | null _ returned =>
    have same := kzallocAlign_seal (allocInBounds inv inner).inside
    rw [returned] at same
    exact (eq_of_null inv (fun _ _ => .inl rfl) same).symm ▸ inv
  | @free b _ _ _ live returned =>
    have same := kfree_seal (freeInBounds (b := b) inv (live ▸ by simp)).inside
    rw [returned] at same
    exact inv_of_free (live ▸ inv) same

/-- As long as no block has been taken that ends with the last chunk, `kfree` stays within the table, and
`kzalloc_align` does exactly if it takes no such block now. -/
theorem heap_indices_iff {h : Heap} {events : List Event} {s : State}
    (run : Run (Guarded LeavesLast Call) ⟨allocatorInit h, []⟩ events s) :
    (∀ size alignment, 1 ≤ size → (AllocInBounds s.heap size alignment ↔ ¬TakesLast s.heap size alignment)) ∧
      ∀ b ∈ s.live, FreeInBounds s.heap b.ptr := by
  have inv : Inv s.heap.seal.table s.live :=
    run.invariant (fun s => Inv s.heap.seal.table s.live) seal_step (seal_init h)
  exact ⟨fun _ _ _ => allocInBounds_iff inv, fun _ member => freeInBounds inv member⟩

/-- Memory of zeros. The entry past the end is a used one. -/
def zeroHeap : Heap := ⟨⟨fun _ => false, fun _ => 0, fun _ => 0⟩, fun _ => 0#8⟩

theorem heap_indices_one_block :
    ∃ s, Run (Guarded LeavesLast Call) ⟨allocatorInit zeroHeap, []⟩ [.alloc 100 128 (some 0x30000)] s ∧
      FreeInBounds s.heap 0x30000 := by
  have inner : LeavesLast ⟨allocatorInit zeroHeap, []⟩ (.alloc 100 128 (some 0x30000)) := by
    rintro ⟨chunk, toAlign, found, -, last⟩
    cases found
    cases last
  have run : Run (Guarded LeavesLast Call) _ [.alloc 100 128 (some 0x30000)] _ :=
    .single ⟨inner, .alloc (by decide) rfl⟩
  exact ⟨_, run, (heap_indices_iff run).2 ⟨0x30000, 100, 0⟩ mem_cons_self⟩

/-- A block of the whole heap: the entry past the end is read. -/
theorem whole_heap_reads_behind :
    chunkNum ∈ kzallocAlignEntries (allocatorInit zeroHeap) 65536 64 ∧
      ¬AllocInBounds (allocatorInit zeroHeap) 65536 64 := by
  have last : TakesLast (allocatorInit zeroHeap) 65536 64 := ⟨0, 0, rfl, by decide, rfl⟩
  exact ⟨last.mem_entries, fun bounds => (allocInBounds_iff (seal_init zeroHeap)).1 bounds last⟩

end MicroOs.Allocator
