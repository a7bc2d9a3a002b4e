import MicroOs.Library.ByteMemory
import MicroOs.Library.Extent
import MicroOs.Library.Run

/-! # The chunk allocator of the kernel heap

The heap between `KERNEL_ALLOC_START` and `KERNEL_ALLOC_STOP` is divided into chunks of 64 bytes. A table entry for
each chunk says whether it is free, how far the stretch of free or of allocated chunks reaches from it, and how large
its block is. Of a block, only the first and the last chunk are marked; the entries between keep what they held
before. After each operation a loop patches the lengths of the chunks before it.

The table is read at one entry past its end, so it is a function on all indices here. The chunk counts are at most the
number of chunks, so the unsigned sums of the source do not wrap around; the one difference that could is taken modulo
`2 ^ 32`.
-/

namespace MicroOs.Allocator

open Function

def kernelAllocStart : ℕ := 0x30000
def kernelAllocStop : ℕ := 0x40000
def chunkSize : ℕ := 64
def chunkNum : ℕ := (kernelAllocStop - kernelAllocStart) / chunkSize

@[simp] theorem chunkNum_eq : chunkNum = 1024 := rfl

/-- `mem_chunk_list`, one function for each field of `struct mem_chunk`. -/
structure Table where
  isFree : ℕ → Bool
  totalSize : ℕ → ℕ
  size : ℕ → ℕ

structure Heap where
  table : Table
  memory : Memory

/-- Store the length of the stretch from chunk `i` on. -/
def Table.setTotal (t : Table) (i total : ℕ) : Table :=
  { t with totalSize := update t.totalSize i total }

@[simp] theorem Table.totalSize_setTotal (t : Table) (i total : ℕ) : (t.setTotal i total).totalSize i = total :=
  update_self ..

def minus (a b : ℕ) : ℕ := (a + 2 ^ 32 - b) % 2 ^ 32

theorem minus_of_le {a b : ℕ} (le : b ≤ a) (small : a < 2 ^ 32) : minus a b = a - b := by
  unfold minus
  omega

/-- Walk back over the blocks before chunk `i`, if the fuel is enough. -/
def updateAllocated : ℕ → Table → ℕ → ℕ → Option Table
  | 0, _, _, _ => none
  | fuel + 1, t, i, total =>
    if 0 < i then
      if t.isFree (i - 1) = false then
        let i := minus i (t.size (i - 1))
        let total := total + t.size i
        updateAllocated fuel (t.setTotal i total) i total
      else some t
    else some t

/-- Walk back over the free chunks before chunk `i`. -/
def updateFree : Table → ℕ → ℕ → Table
  | t, 0, _ => t
  | t, i + 1, total => if t.isFree i = true then updateFree (t.setTotal i (total + 1)) i (total + 1) else t

def reqChunks (size : ℕ) : ℕ := (size - 1) / chunkSize + 1

/-- How many chunks to skip for the alignment. -/
def reqToAlign (chunkAlign chunk : ℕ) : ℕ :=
  if chunkAlign ≠ 0 then (chunkAlign - chunk % chunkAlign) % chunkAlign else 0

/-- The search of `kzalloc_align`, with `chunk` and `req_to_align` when it ends. -/
def findChunk (t : Table) (required chunkAlign : ℕ) : ℕ → ℕ → ℕ → Option (ℕ × ℕ)
  | 0, _, _ => none
  | fuel + 1, chunk, toAlign =>
    if chunk < chunkNum then
      if t.isFree chunk = false then findChunk t required chunkAlign fuel (chunk + t.totalSize chunk) toAlign
      else
        let toAlign := reqToAlign chunkAlign chunk
        if required + toAlign ≤ t.totalSize chunk then some (chunk, toAlign)
        else findChunk t required chunkAlign fuel (chunk + t.totalSize chunk) toAlign
    else some (chunk, toAlign)

/-- Mark the first and the last chunk of a block of `required` chunks. -/
def Table.mark (t : Table) (chunk required : ℕ) : Table :=
  { t with
    isFree := update (update t.isFree chunk false) (chunk + required - 1) false
    size := update (update t.size chunk required) (chunk + required - 1) required }

/-- The length of the stretch of allocated chunks that a new block begins. -/
def Table.allocatedFrom (t : Table) (chunk required : ℕ) : ℕ :=
  if t.isFree (chunk + required) = false then required + t.totalSize (chunk + required) else required

/-- Update the lengths before a new block. -/
def Table.updatePrevious (t : Table) (chunk : ℕ) : Option Table :=
  if 0 < chunk then
    if t.isFree (chunk - 1) = false then updateAllocated (chunkNum + 1) t chunk (t.totalSize chunk)
    else some (updateFree t chunk 0)
  else some t

/-- The table after `required` chunks have been taken from `chunk` on. -/
def Table.take (t : Table) (chunk required : ℕ) : Option Table :=
  let t := t.mark chunk required
  (t.setTotal chunk (t.allocatedFrom chunk required)).updatePrevious chunk

def chunkAddress (chunk : ℕ) : ℕ := kernelAllocStart + chunk * chunkSize

/-- The pointer, absent for `NULL`, and the heap after the call, if it returns. -/
def kzallocAlign (h : Heap) (size alignment : ℕ) : Option (Option ℕ × Heap) :=
  match findChunk h.table (reqChunks size) (alignment / chunkSize) (chunkNum + 1) 0 0 with
  | none => none
  | some (chunk, toAlign) =>
    if chunk = chunkNum then some (none, h)
    else
      let chunk := chunk + toAlign
      match h.table.take chunk (reqChunks size) with
      | none => none
      | some table =>
        let ptr := chunkAddress chunk
        some (some ptr, ⟨table, h.memory.blit ptr (reqChunks size * chunkSize) fun _ => 0#8⟩)

def kzalloc (h : Heap) (size : ℕ) : Option (Option ℕ × Heap) := kzallocAlign h size 0

def Table.unmark (t : Table) (chunk size : ℕ) : Table :=
  { t with isFree := update (update t.isFree chunk true) (chunk + size - 1) true }

/-- The length of the stretch of free chunks behind a block. -/
def Table.freeFrom (t : Table) (chunk : ℕ) : ℕ :=
  if chunk < chunkNum then if t.isFree chunk = true then t.totalSize chunk else 0 else 0

/-- The table after `size` chunks have been given back from `chunk` on. -/
def Table.release (t : Table) (chunk size : ℕ) : Option Table :=
  let t := t.unmark chunk size
  let t := updateFree t (chunk + size) (t.freeFrom (chunk + size))
  if 0 < chunk then
    if t.isFree (chunk - 1) = false then updateAllocated (chunkNum + 1) t chunk 0 else some t
  else some t

/-- The heap after the call, if the assertion holds and the loops return. -/
def kfree (h : Heap) (ptr : ℕ) : Option Heap :=
  let chunk := minus ptr kernelAllocStart / chunkSize
  if chunk < chunkNum then (h.table.release chunk (h.table.size chunk)).map fun table => { h with table }
  else none

def allocatorInit (h : Heap) : Heap :=
  { h with
    table :=
      { isFree := fun i => if i < chunkNum then true else h.table.isFree i
        totalSize := fun i => if i < chunkNum then chunkNum - i else h.table.totalSize i
        size := fun i => if i < chunkNum then chunkNum - i else h.table.size i } }

/-- A block that a call returned, with what the call asked for. -/
structure Block where
  ptr : ℕ
  size : ℕ
  alignment : ℕ

namespace Block

def chunk (b : Block) : ℕ := (b.ptr - kernelAllocStart) / chunkSize

def length (b : Block) : ℕ := reqChunks b.size

def next (b : Block) : ℕ := b.chunk + b.length

def last (b : Block) : ℕ := b.chunk + b.length - 1

def stop (b : Block) : ℕ := b.ptr + b.length * chunkSize

def Covers (b : Block) (c : ℕ) : Prop := b.chunk ≤ c ∧ c < b.next

theorem length_pos (b : Block) : 0 < b.length := Nat.succ_pos _

theorem lt_next (b : Block) : b.chunk < b.next := by
  have := b.length_pos
  unfold next
  omega

theorem last_eq (b : Block) : b.last = b.next - 1 := rfl

theorem covers_chunk (b : Block) : b.Covers b.chunk := ⟨le_rfl, b.lt_next⟩

end Block

def Used (live : List Block) (c : ℕ) : Prop := ∃ b ∈ live, b.Covers c

def Free (live : List Block) (c : ℕ) : Prop := c < chunkNum ∧ ¬Used live c

/-- An address is aligned as asked; 0 asks for nothing. -/
def Aligned (alignment address : ℕ) : Prop := alignment = 0 ∨ alignment ∣ address

/-- The alignments callers may ask for: none, or a power of two up to the size of the heap. -/
def ValidAlignment (alignment : ℕ) : Prop := alignment = 0 ∨ ∃ k ≤ 16, alignment = 2 ^ k

structure State where
  heap : Heap
  live : List Block

inductive Event where
  | alloc (size alignment : ℕ) (result : Option ℕ)
  | free (ptr : ℕ)

/-- A call of `kzalloc_align`, or of `kfree` with the pointer of a live block. -/
inductive Step (s : State) : Event → State → Prop
  | alloc {size alignment ptr : ℕ} {heap : Heap} (positive : 1 ≤ size) (valid : ValidAlignment alignment)
      (returned : kzallocAlign s.heap size alignment = some (some ptr, heap)) :
      Step s (.alloc size alignment (some ptr)) ⟨heap, ⟨ptr, size, alignment⟩ :: s.live⟩
  | null {size alignment : ℕ} {heap : Heap} (positive : 1 ≤ size) (valid : ValidAlignment alignment)
      (returned : kzallocAlign s.heap size alignment = some (none, heap)) :
      Step s (.alloc size alignment none) { s with heap }
  | free {b : Block} {before after : List Block} {heap : Heap} (live : s.live = before ++ b :: after)
      (returned : kfree s.heap b.ptr = some heap) : Step s (.free b.ptr) ⟨heap, before ++ after⟩

end MicroOs.Allocator
