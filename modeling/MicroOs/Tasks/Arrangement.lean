import MicroOs.Library.Placement
import MicroOs.Tasks.Scheduler

/-! # The shape of the queues

The free list and the ready queue are rings. A wait queue is not: `block` links its tasks by `next` alone, and the last
link is a null pointer. While a task blocks, it is a member of the ready ring to which the last link of a wait queue
leads already. Every process control block is in one queue or has no links at all.
-/

namespace MicroOs.Tasks

open Links Function List

variable {κ : Type*} {links links' : Links Pcb} {nodes : List Pcb} {p : Pcb}
  {head : Option Pcb} {rest : List Pcb} {q : κ}

/-- The nodes of a queue are linked as its kind asks for. The last link of wait queue `q` leads to `stop q`. -/
def Queue.Shape (links : Links Pcb) (stop : κ → Option Pcb) (head : Option Pcb) (nodes : List Pcb) : Queue κ → Prop
  | .free | .ready => IsRing links head nodes
  | .wait q => IsQueue links head nodes (stop q)

theorem Queue.Shape.congr {k : Queue κ} {stop : κ → Option Pcb}
    (shape : k.Shape links stop head nodes) (same : ∀ a ∈ nodes, Same links links' a) :
    k.Shape links' stop head nodes := by
  cases k with
  | free | ready => exact IsRing.congr shape same
  | wait q => exact IsQueue.congr shape same

/-- The process control blocks in each queue, and those that are in no queue. -/
abbrev Contents (κ : Type*) := Option (Queue κ) → List Pcb

namespace Contents

variable [DecidableEq κ] (contents : Contents κ) (k : Queue κ) (p : Pcb)

@[simp] def take : Contents κ
  | none => p :: contents none
  | some j => if j = k then (contents (some k)).tail else contents (some j)

/-- One that is in no queue, `p`, is put at the end of a queue. -/
@[simp] def put : Contents κ
  | none => (contents none).erase p
  | some j => if j = k then contents (some k) ++ [p] else contents (some j)

/-- The first one of a queue, `p`, becomes the last one. -/
@[simp] def rotate : Contents κ
  | none => contents none
  | some j => if j = k then (contents (some k)).tail ++ [p] else contents (some j)

end Contents

structure Arranged (links : Links Pcb) (queue : Queue κ → Option Pcb) (stop : κ → Option Pcb)
    (contents : Contents κ) : Prop where
  unlinked : ∀ p ∈ contents none, links.next p = none ∧ links.previous p = none
  shape : ∀ k : Queue κ, k.Shape links stop (queue k) (contents (some k))
  placed : Placement contents

namespace Arranged

variable [DecidableEq κ] {queue : Queue κ → Option Pcb} {stop : κ → Option Pcb} {contents : Contents κ}

theorem placed_take {k : Queue κ} (placed : Placement contents)
    (first : contents (some k) = p :: rest) : Placement (contents.take k p) := by
  refine placed.move (a := p) (show some k ≠ none by simp) (by simp [first]) (by simp) ?_
  rintro (_ | j) notSource notTarget
  · exact absurd rfl notTarget
  · simp_all

theorem placed_put {k : Queue κ} (placed : Placement contents) (held : p ∈ contents none) :
    Placement (contents.put k p) := by
  refine placed.move (show none ≠ some k by simp) (perm_cons_erase held) (by simp) ?_
  rintro (_ | j) notSource notTarget
  · exact absurd rfl notSource
  · simp_all

section

variable (arranged : Arranged links queue stop contents)
include arranged

theorem shift {k : Queue κ} (first : contents (some k) = p :: rest) (ends : ∀ q, k = .wait q → stop q = none) :
    ∃ links', queueShift links (queue k) = (links', rest.head?, some p) ∧
      Arranged links' (update queue k rest.head?) stop (contents.take k p) := by
  have nodup := arranged.placed.nodup (some k)
  have shape := arranged.shape k
  rw [first] at nodup shape
  have shifted : ∃ links', queueShift links (queue k) = (links', rest.head?, some p) ∧
      k.Shape links' stop rest.head? rest ∧ (links'.next p = none ∧ links'.previous p = none) ∧
      ∀ a ∉ p :: rest, Same links links' a := by
    cases k with
    | free | ready => exact queueShift_ring shape
    | wait q =>
      simp only [Queue.Shape, ends q rfl] at shape ⊢
      obtain ⟨links', result, line, clear, same⟩ := queueShift_queue shape (nodup_cons.1 nodup).1
      exact ⟨links', result, line, clear, fun a outside => same a fun equal => outside (by simp [equal])⟩
  obtain ⟨links', result, moved, clear, same⟩ := shifted
  have elsewhere {place : Option (Queue κ)} (other : place ≠ some k) : ∀ a ∈ contents place, Same links links' a := by
    intro a inside
    refine same a fun here => other (arranged.placed.unique inside ?_)
    rwa [first]
  refine ⟨links', result, ?_, ?_, placed_take arranged.placed first⟩
  · intro a inside
    rcases mem_cons.1 inside with rfl | inside
    · exact clear
    · obtain ⟨next, previous⟩ := elsewhere (by simp) a inside
      rw [next, previous]
      exact arranged.unlinked a inside
  · intro j
    rcases eq_or_ne j k with rfl | other
    · simpa [first] using moved
    · simpa [other] using (arranged.shape j).congr (elsewhere (by simpa using other))

theorem insert {k : Queue κ} (ring : k = .free ∨ k = .ready) (held : p ∈ contents none) :
    ∃ links', queueInsert links (queue k) p = some (links', (contents (some k) ++ [p]).head?) ∧
      Arranged links' (update queue k (contents (some k) ++ [p]).head?) stop (contents.put k p) := by
  have new : p ∉ contents (some k) := fun inside => by cases arranged.placed.unique held inside
  have shape : IsRing links (queue k) (contents (some k)) := by
    rcases ring with rfl | rfl
    · exact arranged.shape .free
    · exact arranged.shape .ready
  obtain ⟨links', result, moved, same⟩ := queueInsert_ring shape new (arranged.unlinked p held).1
  have elsewhere {place : Option (Queue κ)} (other : place ≠ some k) : ∀ a ∈ contents place, a ≠ p →
      Same links links' a := by
    intro a inside different
    refine same a fun there => ?_
    rcases mem_append.1 there with there | there
    · exact other (arranged.placed.unique inside there)
    · exact different (by simpa using there)
  refine ⟨links', result, ?_, ?_, placed_put arranged.placed held⟩
  · intro a inside
    obtain ⟨different, inside⟩ := (arranged.placed.nodup none).mem_erase_iff.1 inside
    obtain ⟨next, previous⟩ := elsewhere (by simp) a inside different
    rw [next, previous]
    exact arranged.unlinked a inside
  · intro j
    rcases eq_or_ne j k with rfl | other
    · rcases ring with rfl | rfl <;> simpa [Queue.Shape] using moved
    · have kept : j.Shape links' stop (queue j) (contents (some j)) := by
        refine (arranged.shape j).congr fun a inside => elsewhere (by simpa using other) a inside ?_
        rintro rfl
        cases arranged.placed.unique held inside
      simpa [other] using kept

theorem of_shift {k : Queue κ}
    (ends : ∀ q, k = .wait q → stop q = none) (result : queueShift links (queue k) = (links', head, some p)) :
    ∃ rest, contents (some k) = p :: rest ∧ head = rest.head? ∧
      Arranged links' (update queue k head) stop (contents.take k p) := by
  have shape := arranged.shape k
  cases inside : contents (some k) with
  | nil =>
    have empty : queue k = none := by
      rw [inside] at shape
      cases k with
      | free | ready => exact shape.head_eq
      | wait q => simpa [Reaches, ends q rfl] using shape.path
    simp [empty, queueShift] at result
  | cons first rest =>
    obtain ⟨links'', shifted, arranged'⟩ := arranged.shift inside ends
    obtain ⟨rfl, rfl, rfl⟩ : links'' = links' ∧ rest.head? = head ∧ first = p := by simpa [shifted] using result
    exact ⟨rest, rfl, rfl, arranged'⟩

theorem of_insert {k : Queue κ} (ring : k = .free ∨ k = .ready) (held : p ∈ contents none)
    (result : queueInsert links (queue k) p = some (links', head)) :
    Arranged links' (update queue k head) stop (contents.put k p) := by
  obtain ⟨links'', inserted, arranged'⟩ := arranged.insert ring held
  obtain ⟨rfl, rfl⟩ : links'' = links' ∧ (contents (some k) ++ [p]).head? = head := by
    rwa [inserted, Option.some.injEq, Prod.mk.injEq] at result
  exact arranged'

theorem rotate (first : contents (some .ready) = p :: rest) :
    Arranged links (update queue .ready (links.next p)) stop (contents.rotate .ready p) := by
  have ring := arranged.shape .ready
  rw [first] at ring
  refine ⟨arranged.unlinked, ?_, ?_⟩
  · intro j
    rcases eq_or_ne j .ready with rfl | other
    · simpa [Queue.Shape, first] using ring.rotate
    · simpa [other] using arranged.shape j
  · refine arranged.placed.perm ?_
    rintro (_ | j)
    · exact .refl _
    · rcases eq_or_ne j .ready with rfl | other
      · simp [first]
      · simp [other]

theorem enqueue (ends : stop q = none) :
    ∃ links', waitEnqueue links (queue (.wait q)) p = some (links', (contents (some (.wait q)) ++ [p]).head?) ∧
      Arranged links' (update queue (.wait q) (contents (some (.wait q)) ++ [p]).head?)
        (update stop q (some p)) contents := by
  have line : IsQueue links (queue (.wait q)) (contents (some (.wait q))) none := ends ▸ arranged.shape (.wait q)
  obtain ⟨links', result, moved, same⟩ := waitEnqueue_queue (p := p) line (arranged.placed.nodup _)
  have elsewhere {place : Option (Queue κ)} (other : place ≠ some (.wait q)) :
      ∀ a ∈ contents place, Same links links' a :=
    fun a inside => same a fun there => other (arranged.placed.unique inside there)
  refine ⟨links', result, ?_, ?_, arranged.placed⟩
  · intro a inside
    obtain ⟨next, previous⟩ := elsewhere (by simp) a inside
    rw [next, previous]
    exact arranged.unlinked a inside
  · intro j
    have kept (other : j ≠ .wait q) : j.Shape links' stop (queue j) (contents (some j)) :=
      (arranged.shape j).congr (elsewhere (by simpa using other))
    cases j with
    | free | ready => simpa [Queue.Shape] using kept (by simp)
    | wait r =>
      rcases eq_or_ne r q with rfl | other
      · simpa [Queue.Shape] using moved
      · simpa [Queue.Shape, other] using kept (by simpa using other)

theorem of_enqueue (ends : stop q = none) (result : waitEnqueue links (queue (.wait q)) p = some (links', head)) :
    Arranged links' (update queue (.wait q) head) (update stop q (some p)) contents := by
  obtain ⟨links'', queued, arranged'⟩ := arranged.enqueue (p := p) ends
  obtain ⟨rfl, rfl⟩ : links'' = links' ∧ (contents (some (.wait q)) ++ [p]).head? = head := by
    rwa [queued, Option.some.injEq, Prod.mk.injEq] at result
  exact arranged'

theorem join (leads : stop q = some p) (held : p ∈ contents none) :
    Arranged links queue (update stop q none) (contents.put (.wait q) p) := by
  obtain ⟨next, previous⟩ := arranged.unlinked p held
  refine ⟨?_, ?_, placed_put arranged.placed held⟩
  · intro a inside
    exact arranged.unlinked a (mem_of_mem_erase inside)
  · intro j
    cases j with
    | free => simpa [Queue.Shape] using arranged.shape .free
    | ready => simpa [Queue.Shape] using arranged.shape .ready
    | wait r =>
      have line := arranged.shape (.wait r)
      rcases eq_or_ne r q with rfl | other
      · have longer : IsQueue links (queue (.wait r)) (contents (some (.wait r)) ++ [p]) none := by
          refine ⟨(leads ▸ line.path).append ⟨rfl, next⟩, ?_⟩
          intro a inside
          rcases mem_append.1 inside with inside | inside
          · exact line.single a inside
          · obtain rfl : a = p := by simpa using inside
            exact previous
        simpa [Queue.Shape] using longer
      · simpa [Queue.Shape, other] using line

end

end Arranged

end MicroOs.Tasks
