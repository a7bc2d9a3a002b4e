import MicroOs.Paging.Kernel
import MicroOs.Library.RingView

/-! # The FIFO queue of evictable frames

`items` counts the queued frames, while fullness is decided from the two positions, so one cell of the array
stays unused. A queue that represents a list of fewer than `pageablePages - 1` frames accepts one more.
-/

namespace MicroOs.Paging.FifoQueue

open List

variable (q : FifoQueue)

def isEmpty : Bool := q.items == 0#32

def isFull : Bool := (q.nextIn + 1) % pageablePages == q.nextOut

/-- Append an index unless the queue is full. -/
def enqueue (item : ℕ) : Bool × FifoQueue :=
  if q.isFull then (false, q)
  else (true, { q with
    queue := Function.update q.queue q.nextIn item
    nextIn := (q.nextIn + 1) % pageablePages
    items := q.items + 1#32 })

/-- Take the oldest index. An empty queue reports an error, but is moved all the same. -/
def dequeue : ℕ × Bool × FifoQueue :=
  (q.queue q.nextOut, q.isEmpty,
    { q with nextOut := (q.nextOut + 1) % pageablePages, items := q.items - 1#32 })

/-- The queue holds the frames of `frames`, oldest first. -/
structure Represents (frames : List ℕ) : Prop where
  contents : ringView q.queue pageablePages q.nextOut frames.length = frames
  items : q.items = BitVec.ofNat 32 frames.length
  nextIn : q.nextIn = (q.nextOut + frames.length) % pageablePages
  nextOut_lt : q.nextOut < pageablePages
  room : frames.length < pageablePages

theorem represents_init : Represents {} [] where
  contents := rfl
  items := rfl
  nextIn := rfl
  nextOut_lt := by decide
  room := by decide

variable {q} {frames : List ℕ}

section

variable (represents : q.Represents frames)
include represents

theorem Represents.items_toNat : q.items.toNat = frames.length := by
  have room := represents.room
  rw [pageablePages] at room
  rw [represents.items, BitVec.toNat_ofNat]
  omega

theorem Represents.isEmpty_iff : q.isEmpty = true ↔ frames = [] := by
  rw [isEmpty, beq_iff_eq, ← BitVec.toNat_inj, represents.items_toNat]
  simp

theorem Represents.not_full (small : frames.length + 1 < pageablePages) : q.isFull = false := by
  rw [isFull, represents.nextIn, beq_eq_false_iff_ne]
  rw [pageablePages] at *
  omega

/-- The number of items is recovered from the positions. -/
theorem Represents.items_eq_positions : q.items.toNat = (q.nextIn + pageablePages - q.nextOut) % pageablePages := by
  have out := represents.nextOut_lt
  have room := represents.room
  rw [represents.items_toNat, represents.nextIn]
  rw [pageablePages] at *
  omega

theorem Represents.enqueue (item : ℕ) (small : frames.length + 1 < pageablePages) :
    (q.enqueue item).1 = true ∧ (q.enqueue item).2.Represents (frames ++ [item]) := by
  simp only [FifoQueue.enqueue, represents.not_full small, Bool.false_eq_true, if_false, true_and]
  refine ⟨?_, ?_, ?_, represents.nextOut_lt, by simpa using small⟩
  · rw [length_append, length_singleton]
    simp only [represents.nextIn]
    rw [ringView_push _ _ represents.room, represents.contents]
  · rw [represents.items]
    apply BitVec.eq_of_toNat_eq
    simp
  · simp only [represents.nextIn, length_append, length_singleton]
    rw [Nat.mod_add_mod, Nat.add_assoc]

end

theorem Represents.dequeue {item : ℕ} (represents : q.Represents (item :: frames)) :
    q.dequeue.1 = item ∧ q.dequeue.2.1 = false ∧ q.dequeue.2.2.Represents frames := by
  have contents := represents.contents
  have room := represents.room
  have out := represents.nextOut_lt
  rw [length_cons, ringView_succ, Nat.mod_eq_of_lt out] at contents
  obtain ⟨head, tail⟩ := cons.inj contents
  refine ⟨head, ?_, ?_, ?_, ?_, ?_, ?_⟩
  · have nonempty := represents.isEmpty_iff
    simpa [FifoQueue.dequeue] using nonempty
  · simpa [FifoQueue.dequeue] using tail
  · simp only [FifoQueue.dequeue, represents.items, length_cons]
    apply BitVec.eq_of_toNat_eq
    simp only [BitVec.toNat_sub, BitVec.toNat_ofNat]
    omega
  · simp only [FifoQueue.dequeue, represents.nextIn, length_cons]
    rw [Nat.mod_add_mod]
    congr 1
    omega
  · exact Nat.mod_lt _ (by decide)
  · simp only [length_cons] at room
    omega

end MicroOs.Paging.FifoQueue
