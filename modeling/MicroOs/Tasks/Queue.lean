import MicroOs.Library.LinkedRing
import Mathlib.Algebra.Order.Ring.Nat
import Mathlib.Data.Fintype.Card

/-! # Queues of process control blocks

`queue_insert` and `queue_shift` thread the fields `next` and `previous` of the process control blocks. A store through
a null link goes to address 0, where no process control block is.
-/

namespace MicroOs.Tasks

variable {next : Pcb → Option Pcb} {start : Pcb} {rounds i : ℕ}

def pcbTableSize : ℕ := 128

instance : NeZero pcbTableSize := ⟨by decide⟩

/-- A process control block, by its index in the array `pcb`. -/
abbrev Pcb := Fin pcbTableSize

open Links List Option

variable {links : Links Pcb} {queue : Option Pcb} {nodes : List Pcb} {p : Pcb}

/-- The links and the queue behind `queue_insert`, `none` where its assertion fails. -/
def queueInsert (links : Links Pcb) (queue : Option Pcb) (p : Pcb) : Option (Links Pcb × Option Pcb) :=
  if links.next p = none then
    match queue with
    | none => some ((links.setNext (some p) (some p)).setPrevious (some p) (some p), some p)
    | some first =>
      let links := links.setPrevious (some p) (links.previous first)
      let links := links.setNext (some p) (some first)
      let links := links.setNext (links.previous p) (some p)
      let links := links.setPrevious (links.next p) (some p)
      some (links, some first)
  else
    none

/-- The links and the queue behind `queue_shift`, and the process control block that it returns. -/
def queueShift (links : Links Pcb) (queue : Option Pcb) : Links Pcb × Option Pcb × Option Pcb :=
  match queue with
  | none => (links, none, none)
  | some p =>
    let (links, queue) :=
      if links.next p = some p ∧ links.previous p = some p then
        (links, none)
      else
        let links := links.setNext (links.previous p) (links.next p)
        let links := links.setPrevious (links.next p) (links.previous p)
        (links, links.next p)
    ((links.setPrevious (some p) none).setNext (some p) none, queue, some p)

theorem queueInsert_some {first last : Pcb} (unlinked : links.next p = none) (before : links.previous first = some last)
    (other : p ≠ last) :
    ∃ links', queueInsert links (some first) p = some (links', some first) ∧
      (∀ a, links'.next a = if a = last then some p else if a = p then some first else links.next a) ∧
      ∀ a, links'.previous a = if a = first then some p else if a = p then some last else links.previous a :=
  ⟨_, if_pos unlinked, by simp [before], by simp [before, other]⟩

theorem queueInsert_ring (ring : IsRing links queue nodes) (new : p ∉ nodes) (unlinked : links.next p = none) :
    ∃ links', queueInsert links queue p = some (links', (nodes ++ [p]).head?) ∧
      IsRing links' (nodes ++ [p]).head? (nodes ++ [p]) ∧ ∀ a ∉ nodes ++ [p], Same links links' a := by
  cases nodes with
  | nil =>
    obtain rfl := ring.head_eq
    refine ⟨_, if_pos unlinked, ?_, ?_⟩
    · refine ring.insert ?_ ?_ new ?_ ?_ ?_ ?_ <;> simp
    · intro a outside
      simp_all [Same]
  | cons first rest =>
    obtain rfl := ring.head_eq
    have before := ring.first.2
    obtain ⟨last, isLast⟩ : ∃ last, (first :: rest).getLast? = some last := ⟨_, getLast?_cons⟩
    rw [isLast] at before
    have inside := mem_of_getLast? isLast
    have other : p ≠ last := fun same => new (same ▸ inside)
    have start : p ≠ first := fun same => new (same ▸ mem_cons_self)
    obtain ⟨links', result, next, previous⟩ := queueInsert_some unlinked before other
    refine ⟨links', result, ?_, ?_⟩
    · refine ring.insert ?_ ?_ new ?_ ?_ ?_ ?_
      · intro a member notLast
        have new : a ≠ p := fun same => new (same ▸ member)
        have notLast : a ≠ last := fun same => notLast (same ▸ isLast.symm)
        rw [next, if_neg notLast, if_neg new]
      · intro a member notFirst
        have new : a ≠ p := fun same => new (same ▸ member)
        have notFirst : a ≠ first := fun same => notFirst (same ▸ rfl)
        rw [previous, if_neg notFirst, if_neg new]
      · simp [next, other]
      · simp [previous, start, isLast]
      · simp [next, isLast]
      · simp [previous]
    · intro a outside
      have new : a ≠ p := fun same => outside (by simp [same])
      have notFirst : a ≠ first := fun same => outside (by simp [same])
      have notLast : a ≠ last := fun same => outside (mem_append_left _ (same ▸ inside))
      exact ⟨by rw [next, if_neg notLast, if_neg new], by rw [previous, if_neg notFirst, if_neg new]⟩

theorem queueShift_removed {links' : Links Pcb} {head removed : Option Pcb}
    (shift : queueShift links queue = (links', head, removed)) : queue = removed := by
  cases queue with
  | none | some p => exact congrArg (·.2.2) shift

theorem queueShift_some {after before : Option Pcb} (next : links.next p = after) (previous : links.previous p = before)
    (other : before ≠ some p) :
    ∃ links', queueShift links (some p) = (links', after, some p) ∧
      (∀ a, links'.next a = if a = p then none else if some a = before then after else links.next a) ∧
      ∀ a, links'.previous a = if a = p then none else if some a = after then before else links.previous a := by
  refine ⟨(queueShift links (some p)).1, ?_, ?_, ?_⟩
  · simp [queueShift, next, previous, other]
  all_goals
    intro a
    simp [queueShift, next, previous, other]

theorem queueShift_ring (ring : IsRing links queue (p :: nodes)) :
    ∃ links', queueShift links queue = (links', nodes.head?, some p) ∧ IsRing links' nodes.head? nodes ∧
      (links'.next p = none ∧ links'.previous p = none) ∧ ∀ a ∉ p :: nodes, Same links links' a := by
  obtain rfl := ring.head_eq
  obtain ⟨after, before⟩ := ring.first
  cases nodes with
  | nil =>
    have alone : links.next p = some p ∧ links.previous p = some p := ⟨after, before⟩
    refine ⟨_, by simp only [queueShift, head?_cons, if_pos alone]; rfl, ring.stitch ?_ ?_⟩
    all_goals
      intro a
      by_cases same : a = p
      · simp [same]
      · simp [same, alone]
  | cons first rest =>
    have after := after
    have new : p ∉ first :: rest := (nodup_cons.1 ring.nodup).1
    have other : (first :: rest).getLast? ≠ some p := fun isLast => new (mem_of_getLast? isLast)
    obtain ⟨links', result, next, previous⟩ := queueShift_some after before other
    rw [← after, ← before] at next previous
    exact ⟨links', result, ring.stitch next previous⟩

theorem queueShift_queue (line : IsQueue links queue (p :: nodes) none) (new : p ∉ nodes) :
    ∃ links', queueShift links queue = (links', nodes.head?, some p) ∧ IsQueue links' nodes.head? nodes none ∧
      (links'.next p = none ∧ links'.previous p = none) ∧ ∀ a ≠ p, Same links links' a := by
  obtain rfl := line.path.1
  have after : links.next p = nodes.head? := line.path.2.head_eq
  have before : links.previous p = none := line.single p mem_cons_self
  obtain ⟨links', result, next, previous⟩ := queueShift_some after before (by simp)
  -- The store to the second one's `previous` writes the null pointer that is there already.
  have same : ∀ a ≠ p, Same links links' a := by
    intro a old
    refine ⟨by simp [next, old], ?_⟩
    rw [previous, if_neg old]
    split
    next isFirst => exact (line.single a (mem_cons_of_mem _ (mem_of_head? isFirst.symm))).symm
    next => rfl
  refine ⟨links', result, ?_, ⟨by simp [next], by simp [previous]⟩, same⟩
  have rest : IsQueue links (links.next p) nodes none :=
    ⟨line.path.2, fun a inside => line.single a (mem_cons_of_mem _ inside)⟩
  rw [← after]
  exact rest.congr fun a inside => same a fun equal => new (equal ▸ inside)

/-- The loop of `queue_pos`. The assertion on `i` lets it go on for `rounds` more nodes. -/
def queuePosLoop (next : Pcb → Option Pcb) (start p : Pcb) : ℕ → Pcb → ℕ → Option ℤ
  | rounds, cur, i =>
    if cur = p then some i
    else
      match next cur, rounds with
      | some cur, rounds + 1 => if cur = start then some (-1) else queuePosLoop next start p rounds cur (i + 1)
      | _, _ => none

/-- The position that `queue_pos` returns, `none` where one of its assertions fails. -/
def queuePos (links : Links Pcb) (queue : Option Pcb) (p : Pcb) : Option ℤ :=
  match queue with
  | none => some (-1)
  | some start => queuePosLoop links.next start p pcbTableSize start 0

/-- The links when `queue_remove` has stitched `p` out of the ring. -/
def stitchOut (links : Links Pcb) (p : Pcb) : Links Pcb :=
  let links := links.setNext (links.previous p) (links.next p)
  let links := links.setPrevious (links.next p) (links.previous p)
  (links.setNext (some p) none).setPrevious (some p) none

/-- The links and the queue behind `queue_remove`, `none` where an assertion fails. -/
def queueRemove (links : Links Pcb) (queue : Option Pcb) (p : Pcb) : Option (Links Pcb × Option Pcb) := do
  let pos ← queuePos links queue p
  if 0 ≤ pos then
    let queue :=
      if queue = some p ∧ links.next p = some p then none
      else if queue = some p then links.next p
      else queue
    some (stitchOut links p, queue)
  else
    none

theorem queuePosLoop_found : queuePosLoop next start p rounds p i = some (i : ℤ) := by
  unfold queuePosLoop
  exact if_pos rfl

theorem queuePosLoop_next {cur after : Pcb} (other : cur ≠ p) (link : next cur = some after) :
    queuePosLoop next start p (rounds + 1) cur i =
      if after = start then some (-1) else queuePosLoop next start p rounds after (i + 1) := by
  conv_lhs => unfold queuePosLoop
  rw [if_neg other, link]

/-- From a node of the ring on, the loop finds the position among the nodes that are left, or comes back to the
start. -/
theorem queuePosLoop_eq {cur : Pcb}
    (path : Reaches links.next (some cur) (cur :: nodes) (some start)) (other : start ∉ nodes)
    (enough : nodes.length < rounds) :
    queuePosLoop links.next start p rounds cur i =
      some (if p ∈ cur :: nodes then ((i + (cur :: nodes).idxOf p : ℕ) : ℤ) else -1) := by
  induction rounds generalizing nodes cur i with
  | zero => cases enough
  | succ rounds ih =>
    cases nodes with
    | nil =>
      have next : links.next cur = some start := path.2
      by_cases found : cur = p
      · rw [found, queuePosLoop_found, if_pos mem_cons_self, idxOf_cons_self, Nat.add_zero]
      · have outside : p ∉ [cur] := fun member => found (mem_singleton.1 member).symm
        rw [queuePosLoop_next found next, if_pos rfl, if_neg outside]
    | cons after nodes =>
      have next : links.next cur = some after := path.2.1
      have rest := next ▸ path.2
      have notStart : after ≠ start := fun same => other (same ▸ mem_cons_self)
      by_cases found : cur = p
      · rw [found, queuePosLoop_found, if_pos mem_cons_self, idxOf_cons_self, Nat.add_zero]
      · have later : p ∈ cur :: after :: nodes ↔ p ∈ after :: nodes :=
          ⟨fun member => mem_of_ne_of_mem (Ne.symm found) member, mem_cons_of_mem cur⟩
        rw [queuePosLoop_next found next, if_neg notStart, idxOf_cons_ne _ found,
          ih rest (fun member => other (mem_cons_of_mem _ member)) (Nat.lt_of_succ_lt_succ enough),
          if_congr later rfl rfl, Nat.add_assoc, Nat.add_comm 1]

theorem queuePos_ring (ring : IsRing links queue nodes) :
    queuePos links queue p = some (if p ∈ nodes then (nodes.idxOf p : ℤ) else -1) := by
  have path := ring.path
  obtain rfl := ring.head_eq
  cases nodes with
  | nil => rfl
  | cons start nodes =>
    have short : nodes.length < pcbTableSize := by
      have bound := ring.nodup.length_le_card
      rwa [Fintype.card_fin] at bound
    have found := queuePosLoop_eq (p := p) (i := 0) path (nodup_cons.1 ring.nodup).1 short
    rw [Nat.zero_add] at found
    exact found

theorem next_stitchOut (a : Pcb) : (stitchOut links p).next a =
    if a = p then none else if some a = links.previous p then links.next p else links.next a := by
  simp [stitchOut]

theorem previous_stitchOut (a : Pcb) : (stitchOut links p).previous a =
    if a = p then none else if some a = links.next p then links.previous p else links.previous a := by
  simp [stitchOut]

theorem head_remove {earlier later : List Pcb} (ring : IsRing links queue (earlier ++ p :: later)) :
    (if queue = some p ∧ links.next p = some p then none else if queue = some p then links.next p else queue) =
      (earlier ++ later).head? := by
  have nodup := ring.nodup
  obtain rfl := ring.head_eq
  cases earlier with
  | nil =>
    have next := ring.first.1
    cases later with
    | nil => exact if_pos ⟨rfl, next⟩
    | cons after later =>
      have next : links.next p = some after := next
      have other : after ≠ p := fun same => (nodup_cons.1 nodup).1 (same ▸ mem_cons_self)
      rw [next, if_neg fun both => other (some.inj both.2)]
      exact if_pos rfl
  | cons first earlier =>
    have other : (first :: earlier ++ p :: later).head? ≠ some p := by
      intro same
      obtain rfl : first = p := some.inj same
      exact (nodup_cons.1 nodup).1 (mem_append_right _ mem_cons_self)
    rw [if_neg fun both => other both.1, if_neg other]
    rfl

theorem queueRemove_ring (ring : IsRing links queue nodes) (inside : p ∈ nodes) :
    ∃ links', queueRemove links queue p = some (links', (nodes.erase p).head?) ∧
      IsRing links' (nodes.erase p).head? (nodes.erase p) ∧
      (links'.next p = none ∧ links'.previous p = none) ∧ ∀ a ∉ nodes, Same links links' a := by
  have found : queuePos links queue p = some (nodes.idxOf p : ℤ) := by rw [queuePos_ring ring, if_pos inside]
  have removed : queueRemove links queue p = some (stitchOut links p,
      if queue = some p ∧ links.next p = some p then none else if queue = some p then links.next p else queue) := by
    rw [queueRemove, found, bind_eq_bind, bind_some, if_pos (Int.natCast_nonneg _)]
  obtain ⟨earlier, later, rfl⟩ := append_of_mem inside
  -- the ring that starts with `p`
  have turned := ring.rotate_append
  have new : p ∉ earlier := fun member => (nodup_cons.1 turned.nodup).1 (mem_append_right _ member)
  obtain ⟨rest, unlinked, others⟩ := turned.stitch next_stitchOut previous_stitchOut
  rw [erase_append_right _ new, erase_cons_head, ← head_remove ring]
  refine ⟨stitchOut links p, removed, ?_, unlinked, fun a outside => others a fun member => outside ?_⟩
  · rw [head_remove ring]
    exact rest.rotate_append
  · exact perm_append_comm.mem_iff.1 member

/-- The operations on a ring do to its list what they are for, and leave all others alone. -/
structure RefinesList (links : Links Pcb) (queue : Option Pcb) (nodes : List Pcb) (p : Pcb) : Prop where
  insert : p ∉ nodes → links.next p = none → ∃ links', queueInsert links queue p = some (links', (nodes ++ [p]).head?) ∧
    IsRing links' (nodes ++ [p]).head? (nodes ++ [p]) ∧ ∀ a ∉ nodes ++ [p], Same links links' a
  shift : ∃ links', queueShift links queue = (links', nodes.tail.head?, nodes.head?) ∧
    IsRing links' nodes.tail.head? nodes.tail ∧ (∀ a ∈ nodes.head?, links'.next a = none ∧ links'.previous a = none) ∧
    ∀ a ∉ nodes, Same links links' a
  pos : queuePos links queue p = some (if p ∈ nodes then (nodes.idxOf p : ℤ) else -1)
  remove : p ∈ nodes → ∃ links', queueRemove links queue p = some (links', (nodes.erase p).head?) ∧
    IsRing links' (nodes.erase p).head? (nodes.erase p) ∧ (links'.next p = none ∧ links'.previous p = none) ∧
    ∀ a ∉ nodes, Same links links' a

theorem ring_refinesList (ring : IsRing links queue nodes) (p : Pcb) : RefinesList links queue nodes p where
  insert := queueInsert_ring ring
  shift := by
    cases nodes with
    | nil =>
      obtain rfl := ring.head_eq
      exact ⟨links, rfl, ring, fun a member => (nomatch member), fun a _ => ⟨rfl, rfl⟩⟩
    | cons first rest =>
      obtain ⟨links', shifted, ring', unlinked, others⟩ := queueShift_ring ring
      refine ⟨links', shifted, ring', fun a isFirst => ?_, others⟩
      obtain rfl : first = a := some.inj isFirst
      exact unlinked
  pos := queuePos_ring ring
  remove := queueRemove_ring ring

/-- A ring of the first two process control blocks. -/
theorem ring_refinesList_two :
    ∃ links : Links Pcb, IsRing links (some 0) [0, 1] ∧ RefinesList links (some 0) [0, 1] 1 := by
  let links : Links Pcb := ⟨fun a => if a = 0 then some 1 else if a = 1 then some 0 else none,
    fun a => if a = 0 then some 1 else if a = 1 then some 0 else none⟩
  have ring : IsRing links (some 0) [0, 1] := by
    refine ⟨rfl, by decide, isChain_pair.2 ⟨rfl, rfl⟩, ?_⟩
    intro last isLast first isFirst
    cases isLast
    cases isFirst
    exact ⟨rfl, rfl⟩
  exact ⟨links, ring, ring_refinesList ring 1⟩

/-- The loop of `block` that looks for the end of a queue, in at most `fuel` rounds. -/
def lastWaiter (next : Pcb → Option Pcb) : ℕ → Pcb → Option Pcb
  | 0, _ => none
  | fuel + 1, p =>
    match next p with
    | none => some p
    | some after => lastWaiter next fuel after

/-- The links and the queue when `block` has put `p` at the end of the queue. -/
def waitEnqueue (links : Links Pcb) (queue : Option Pcb) (p : Pcb) : Option (Links Pcb × Option Pcb) :=
  match queue with
  | none => some (links, some p)
  | some first =>
    (lastWaiter links.next pcbTableSize first).map fun last => (links.setNext (some last) (some p), some first)

theorem lastWaiter_eq {fuel : ℕ} (path : Reaches next (some p) (p :: nodes) none)
    (enough : nodes.length < fuel) : lastWaiter next fuel p = (p :: nodes).getLast? := by
  induction fuel generalizing p nodes with
  | zero => simp at enough
  | succ fuel ih =>
    cases nodes with
    | nil =>
      have last : next p = none := path.2
      simp [lastWaiter, last]
    | cons after nodes =>
      have step : next p = some after := path.2.1
      have rest := path.2
      rw [step] at rest
      simp only [lastWaiter, step]
      exact ih rest (by simpa using enough)

theorem waitEnqueue_queue (line : IsQueue links queue nodes none) (nodup : nodes.Nodup) :
    ∃ links', waitEnqueue links queue p = some (links', (nodes ++ [p]).head?) ∧
      IsQueue links' (nodes ++ [p]).head? nodes (some p) ∧ ∀ a ∉ nodes, Same links links' a := by
  rcases eq_nil_or_concat nodes with rfl | ⟨before, last, rfl⟩
  · obtain rfl := line.path.head_eq
    exact ⟨links, rfl, ⟨rfl, by simp⟩, fun a _ => ⟨rfl, rfl⟩⟩
  · rw [concat_eq_append] at line nodup ⊢
    obtain ⟨first, rest, split⟩ : ∃ first rest, before ++ [last] = first :: rest := exists_cons_of_ne_nil (by simp)
    have start : queue = some first := by rw [line.path.head_eq, split, head?_cons]
    have short : rest.length < pcbTableSize := by
      have bound := nodup.length_le_card
      rw [split] at bound
      exact bound
    have path := line.path
    rw [split, start] at path
    have found : lastWaiter links.next pcbTableSize first = some last := by
      rw [lastWaiter_eq path short, ← split, getLast?_concat]
    refine ⟨links.setNext (some last) (some p), ?_, ⟨?_, ?_⟩, ?_⟩
    · simp [waitEnqueue, start, found, split]
    · have old : last ∉ before := fun inside => (nodup_append.1 nodup).2.2 last inside last (by simp) rfl
      have same : ∀ b ∈ before, (links.setNext (some last) (some p)).next b = links.next b := by
        intro b inside
        have other : b ≠ last := fun equal => old (equal ▸ inside)
        simp [other]
      have redirected := line.path.redirect same
      rw [start] at redirected
      simpa [split] using redirected
    · simpa using line.single
    · intro a outside
      have other : a ≠ last := fun equal => outside (by simp [equal])
      simp [Same, other]

end MicroOs.Tasks
