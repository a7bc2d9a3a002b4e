import Mathlib.Data.List.Chain
import Mathlib.Data.List.Nodup

/-! # Rings and queues of linked nodes

Nodes carry a pointer to the next and to the previous node, null pointers being `none`. A ring is a list of nodes that
are linked both ways, the last one to the first. A queue is linked by its `next` pointers alone, from its head to a
pointer behind its last node. Rings and queues on other nodes do not notice a store.
-/

namespace MicroOs

open List Function

variable {ν : Type*} {later : List ν} {p : ν}

structure Links (ν : Type*) where
  next : ν → Option ν
  previous : ν → Option ν

namespace Links

section Stores

variable [DecidableEq ν] (links : Links ν) (a : ν) (pointer value : Option ν)

/-- A store to the field `next` behind a pointer, which may be null. -/
def setNext : Links ν :=
  match pointer with
  | none => links
  | some a => { links with next := update links.next a value }

def setPrevious : Links ν :=
  match pointer with
  | none => links
  | some a => { links with previous := update links.previous a value }

@[simp] theorem next_setNext :
    (links.setNext pointer value).next a = if some a = pointer then value else links.next a := by
  cases pointer <;> simp [setNext, update_apply]

@[simp] theorem previous_setNext : (links.setNext pointer value).previous = links.previous := by
  cases pointer <;> rfl

@[simp] theorem next_setPrevious : (links.setPrevious pointer value).next = links.next := by
  cases pointer <;> rfl

@[simp] theorem previous_setPrevious :
    (links.setPrevious pointer value).previous a = if some a = pointer then value else links.previous a := by
  cases pointer <;> simp [setPrevious, update_apply]

end Stores

variable {links links' : Links ν} {head : Option ν} {nodes : List ν} {a b : ν}

/-- From `head` the pointers lead through the nodes of the list to `stop`. -/
def Reaches (next : ν → Option ν) : Option ν → List ν → Option ν → Prop
  | head, [], stop => head = stop
  | head, a :: nodes, stop => head = some a ∧ Reaches next (next a) nodes stop

section Reaches

variable {next next' : ν → Option ν} {stop : Option ν}

theorem Reaches.congr (path : Reaches next head nodes stop) (same : ∀ a ∈ nodes, next' a = next a) :
    Reaches next' head nodes stop := by
  induction nodes generalizing head with
  | nil => exact path
  | cons a nodes ih =>
    refine ⟨path.1, ?_⟩
    rw [same a (by simp)]
    exact ih path.2 fun b inside => same b (by simp [inside])

theorem Reaches.head_eq (path : Reaches next head nodes none) : head = nodes.head? := by
  cases nodes with
  | nil => exact path
  | cons a nodes => exact path.1

theorem Reaches.append {middle : Option ν} (path : Reaches next head nodes middle)
    (rest : Reaches next middle later stop) : Reaches next head (nodes ++ later) stop := by
  induction nodes generalizing head with
  | nil =>
    obtain rfl : head = middle := path
    exact rest
  | cons a nodes ih => exact ⟨path.1, ih path.2⟩

theorem Reaches.redirect (path : Reaches next head (nodes ++ [a]) stop)
    (same : ∀ b ∈ nodes, next' b = next b) : Reaches next' head (nodes ++ [a]) (next' a) := by
  induction nodes generalizing head with
  | nil => exact ⟨path.1, rfl⟩
  | cons b nodes ih =>
    refine ⟨path.1, ?_⟩
    rw [same b (by simp)]
    exact ih path.2 fun c inside => same c (by simp [inside])

theorem Reaches.split (path : Reaches next head (nodes ++ a :: later) stop) : Reaches next head nodes (some a) := by
  induction nodes generalizing head with
  | nil => exact path.1
  | cons b nodes ih => exact ⟨path.1, ih path.2⟩

/-- No pointer leads out of a path that ends with a null pointer or comes back to its nodes. -/
theorem Reaches.closed (path : Reaches next head nodes stop) (back : ∀ b ∈ stop, b ∈ nodes) :
    (∀ b ∈ head, b ∈ nodes) ∧ ∀ b ∈ nodes, ∀ c ∈ next b, c ∈ nodes := by
  suffices general : ∀ all : List ν, (∀ b ∈ stop, b ∈ all) → nodes ⊆ all →
      (∀ b ∈ head, b ∈ all) ∧ ∀ b ∈ nodes, ∀ c ∈ next b, c ∈ all from general nodes back (List.Subset.refl _)
  clear back
  intro all back included
  induction nodes generalizing head with
  | nil =>
    obtain rfl : head = stop := path
    exact ⟨back, by simp⟩
  | cons a nodes ih =>
    obtain ⟨rfl, rest⟩ := path
    obtain ⟨next, later⟩ := ih rest (subset_of_cons_subset included)
    refine ⟨by simp_all, ?_⟩
    intro b inside
    rcases mem_cons.1 inside with rfl | inside
    · exact next
    · exact later b inside

/-- Following the pointers finds the nodes of the path and no others. -/
theorem Reaches.exists_iff (path : Reaches next head nodes stop) (back : ∀ b ∈ stop, b ∈ nodes) :
    (∃ way, Reaches next head way (some a)) ↔ a ∈ nodes := by
  constructor
  · rintro ⟨way, found⟩
    obtain ⟨start, inside⟩ := path.closed back
    clear path back
    induction way generalizing head with
    | nil => exact start a found
    | cons b way ih => exact ih found.2 (inside b (start b found.1))
  · intro member
    obtain ⟨before, after, rfl⟩ := append_of_mem member
    exact ⟨before, path.split⟩

end Reaches

/-- The node is found when the `next` pointers are followed from `head`. -/
def Holds (links : Links ν) (head : Option ν) (a : ν) : Prop := ∃ way, Reaches links.next head way (some a)

def Linked (links : Links ν) (a b : ν) : Prop := links.next a = some b ∧ links.previous b = some a

def Same (links links' : Links ν) (a : ν) : Prop := links'.next a = links.next a ∧ links'.previous a = links.previous a

/-- What links the nodes of a list is the `next` pointer of all but the last and the `previous` of all but the first. -/
theorem isChain_congr (chain : nodes.IsChain links.Linked) (nexts : ∀ a ∈ nodes.dropLast, links'.next a = links.next a)
    (previouses : ∀ a ∈ nodes.tail, links'.previous a = links.previous a) : nodes.IsChain links'.Linked := by
  induction nodes with
  | nil => exact .nil
  | cons first rest ih =>
    cases rest with
    | nil => exact .singleton first
    | cons second rest =>
      rw [isChain_cons_cons] at chain ⊢
      refine ⟨⟨?_, ?_⟩, ih chain.2 ?_ ?_⟩
      · rw [nexts first (by simp)]
        exact chain.1.1
      · rw [previouses second (by simp)]
        exact chain.1.2
      · intro a inside
        exact nexts a (by simp [inside])
      · intro a inside
        exact previouses a (by simp [mem_of_mem_tail inside])

/-- A doubly linked ring that starts behind `head`. -/
structure IsRing (links : Links ν) (head : Option ν) (nodes : List ν) : Prop where
  head_eq : head = nodes.head?
  nodup : nodes.Nodup
  chain : nodes.IsChain links.Linked
  closed : ∀ last ∈ nodes.getLast?, ∀ first ∈ nodes.head?, links.Linked last first

namespace IsRing

theorem nil (links : Links ν) : IsRing links none [] := ⟨rfl, .nil, .nil, by simp⟩

theorem congr (ring : IsRing links head nodes) (same : ∀ a ∈ nodes, Same links links' a) :
    IsRing links' head nodes where
  head_eq := ring.head_eq
  nodup := ring.nodup
  chain := by
    refine isChain_congr ring.chain ?_ ?_
    · intro a inside
      exact (same a (dropLast_subset _ inside)).1
    · intro a inside
      exact (same a (mem_of_mem_tail inside)).2
  closed last isLast first isFirst := by
    obtain ⟨next, previous⟩ := ring.closed last isLast first isFirst
    refine ⟨?_, ?_⟩
    · rw [(same last (mem_of_getLast? isLast)).1, next]
    · rw [(same first (mem_of_head? isFirst)).2, previous]

theorem first (ring : IsRing links head (a :: nodes)) :
    links.next a = (nodes ++ [a]).head? ∧ links.previous a = (a :: nodes).getLast? := by
  have last := ring.closed ((a :: nodes).getLast (by simp)) (getLast?_eq_getLast_of_ne_nil _) a rfl
  refine ⟨?_, ?_⟩
  · cases nodes with
    | nil => exact last.1
    | cons b nodes => exact (isChain_cons_cons.1 ring.chain).1.1
  · rw [last.2, getLast?_eq_getLast_of_ne_nil]

theorem rotate (ring : IsRing links head (a :: nodes)) : IsRing links (links.next a) (nodes ++ [a]) where
  head_eq := ring.first.1
  nodup := (perm_append_singleton a nodes).nodup_iff.2 ring.nodup
  chain := by
    rw [isChain_append]
    refine ⟨ring.chain.tail, .singleton a, ?_⟩
    intro last isLast first isFirst
    obtain rfl : a = first := by simpa using isFirst
    refine ring.closed last ?_ a rfl
    simp [getLast?_cons, Option.mem_def.1 isLast]
  closed last isLast first isFirst := by
    obtain rfl : a = last := by simpa using isLast
    cases nodes with
    | nil =>
      obtain rfl : a = first := by simpa using isFirst
      exact ring.closed a rfl a rfl
    | cons b nodes =>
      obtain rfl : b = first := by simpa using isFirst
      exact (isChain_cons_cons.1 ring.chain).1

theorem rotate_append (ring : IsRing links head (nodes ++ later)) :
    IsRing links (later ++ nodes).head? (later ++ nodes) := by
  induction nodes generalizing head later with
  | nil =>
    rw [append_nil]
    obtain rfl : head = later.head? := ring.head_eq
    exact ring
  | cons a nodes ih =>
    have next : IsRing links (links.next a) (nodes ++ later ++ [a]) := ring.rotate
    rw [append_assoc] at next
    have rest := ih next
    rwa [append_assoc] at rest

section Relinked

variable (nexts : ∀ a ∈ nodes, some a ≠ nodes.getLast? → links'.next a = links.next a)
  (previouses : ∀ a ∈ nodes, some a ≠ nodes.head? → links'.previous a = links.previous a)

include nexts previouses

/-- The links inside a list do not depend on the `next` pointer of its last node and the `previous` pointer of its
first. -/
theorem chain_congr (nodup : nodes.Nodup) (chain : nodes.IsChain links.Linked) : nodes.IsChain links'.Linked := by
  refine isChain_congr chain ?_ ?_
  · intro a inside
    refine nexts a (dropLast_subset _ inside) ?_
    intro isLast
    obtain ⟨before, rfl⟩ := getLast?_eq_some_iff.1 isLast.symm
    rw [dropLast_concat] at inside
    exact (nodup_append.1 nodup).2.2 a inside a (by simp) rfl
  · intro a inside
    refine previouses a (mem_of_mem_tail inside) ?_
    intro isFirst
    obtain ⟨after, rfl⟩ := head?_eq_some_iff.1 isFirst.symm
    exact (nodup_cons.1 nodup).1 inside

theorem insert (ring : IsRing links head nodes) (new : p ∉ nodes)
    (next_new : links'.next p = (nodes ++ [p]).head?) (previous_new : links'.previous p = (p :: nodes).getLast?)
    (next_last : ∀ last ∈ nodes.getLast?, links'.next last = some p)
    (previous_first : ∀ first ∈ nodes.head?, links'.previous first = some p) :
    IsRing links' (nodes ++ [p]).head? (nodes ++ [p]) where
  head_eq := rfl
  nodup := (perm_append_singleton p nodes).nodup_iff.2 (nodup_cons.2 ⟨new, ring.nodup⟩)
  chain := by
    rw [isChain_append]
    refine ⟨chain_congr nexts previouses ring.nodup ring.chain, .singleton p, ?_⟩
    intro last isLast first isFirst
    obtain rfl : p = first := by simpa using isFirst
    refine ⟨next_last last isLast, ?_⟩
    rw [previous_new]
    simp [getLast?_cons, Option.mem_def.1 isLast]
  closed last isLast first isFirst := by
    obtain rfl : p = last := by simpa using isLast
    refine ⟨next_new.trans isFirst, ?_⟩
    cases nodes with
    | nil =>
      obtain rfl : p = first := by simpa using isFirst
      exact previous_new
    | cons a nodes => exact previous_first first isFirst

theorem remove (ring : IsRing links head (p :: nodes))
    (next_last : ∀ last ∈ nodes.getLast?, links'.next last = nodes.head?)
    (previous_first : ∀ first ∈ nodes.head?, links'.previous first = nodes.getLast?) :
    IsRing links' nodes.head? nodes where
  head_eq := rfl
  nodup := ring.nodup.of_cons
  chain := chain_congr nexts previouses ring.nodup.of_cons ring.chain.tail
  closed last isLast first isFirst :=
    ⟨(next_last last isLast).trans isFirst, (previous_first first isFirst).trans isLast⟩

end Relinked

theorem stitch [DecidableEq ν] (ring : IsRing links head (p :: nodes)) (next : ∀ a, links'.next a =
      if a = p then none else if some a = links.previous p then links.next p else links.next a)
    (previous : ∀ a, links'.previous a =
      if a = p then none else if some a = links.next p then links.previous p else links.previous a) :
    IsRing links' nodes.head? nodes ∧ (links'.next p = none ∧ links'.previous p = none) ∧
      ∀ a ∉ p :: nodes, Same links links' a := by
  obtain ⟨after, before⟩ := ring.first
  have new : ∀ a ∈ nodes, a ≠ p := fun a member same => (nodup_cons.1 ring.nodup).1 (same ▸ member)
  refine ⟨?_, ⟨by rw [next, if_pos rfl], by rw [previous, if_pos rfl]⟩, fun a outside => ?_⟩
  · cases nodes with
    | nil => exact .nil links'
    | cons first rest =>
      have after : links.next p = (first :: rest).head? := after
      rw [getLast?_cons_cons] at before
      rw [after, before] at next previous
      apply ring.remove
      · intro a member notLast
        rw [next, if_neg (new a member), if_neg notLast]
      · intro a member notFirst
        rw [previous, if_neg (new a member), if_neg notFirst]
      · intro last isLast
        rw [next, if_neg (new last (mem_of_getLast? isLast)), if_pos isLast.symm]
      · intro a isFirst
        rw [previous, if_neg (new a (mem_of_head? isFirst)), if_pos isFirst.symm]
  · have old : a ≠ p := fun same => outside (same ▸ mem_cons_self)
    have notLast : some a ≠ links.previous p := fun same => outside (mem_of_getLast? (before ▸ same.symm))
    have notFirst : some a ≠ links.next p := by
      intro same
      have member : a ∈ nodes ++ [p] := mem_of_head? (after ▸ same.symm)
      exact outside ((perm_append_singleton p nodes).mem_iff.1 member)
    exact ⟨by rw [next, if_neg old, if_neg notLast], by rw [previous, if_neg old, if_neg notFirst]⟩

section

variable (ring : IsRing links head nodes)
include ring

theorem path : Reaches links.next head nodes head := by
  obtain ⟨rfl, nodup, chain, closed⟩ := ring
  clear nodup
  suffices general : ∀ stop, (∀ last ∈ nodes.getLast?, links.next last = stop) → (nodes = [] → stop = none) →
      Reaches links.next nodes.head? nodes stop by
    refine general _ ?_ (by simp_all)
    intro last isLast
    cases nodes with
    | nil => simp at isLast
    | cons first nodes => exact (closed last isLast first rfl).1
  intro stop ends empty
  clear closed
  induction nodes with
  | nil => exact (empty rfl).symm
  | cons a nodes ih =>
    refine ⟨rfl, ?_⟩
    cases nodes with
    | nil => exact ends a rfl
    | cons b nodes =>
      rw [(isChain_cons_cons.1 chain).1.1]
      exact ih chain.tail (by simpa using ends) (by simp)

theorem holds_iff : Holds links head a ↔ a ∈ nodes := by
  refine ring.path.exists_iff ?_
  intro b isHead
  rw [ring.head_eq] at isHead
  exact mem_of_head? isHead

theorem neighbours (inside : a ∈ nodes) : (∃ after, links.Linked a after) ∧ ∃ before, links.Linked before a := by
  obtain ⟨earlier, later, rfl⟩ := append_of_mem inside
  obtain ⟨-, chain, links_between⟩ := isChain_append.1 ring.chain
  refine ⟨?_, ?_⟩
  · cases later with
    | nil =>
      obtain ⟨first, rest, split⟩ := exists_cons_of_ne_nil (show earlier ++ [a] ≠ [] by simp)
      exact ⟨first, ring.closed a (by simp) first (by rw [split]; rfl)⟩
    | cons after later => exact ⟨after, (isChain_cons_cons.1 chain).1⟩
  · rcases eq_nil_or_concat earlier with rfl | ⟨earlier, before, rfl⟩
    · exact ⟨_, ring.closed _ (getLast?_eq_getLast_of_ne_nil (by simp)) a rfl⟩
    · exact ⟨before, links_between before (by simp) a rfl⟩

end

end IsRing

/-- Every element found from `head` has a next and a previous one, which have it for a neighbour. -/
def WellFormed (links : Links ν) (head : Option ν) : Prop :=
  ∀ a, Holds links head a → ∃ after before, links.next a = some after ∧ links.previous a = some before ∧
    links.previous after = some a ∧ links.next before = some a

theorem IsRing.wellFormed (ring : IsRing links head nodes) : WellFormed links head := by
  intro a found
  obtain ⟨⟨after, next, back⟩, before, forth, previous⟩ := ring.neighbours (ring.holds_iff.1 found)
  exact ⟨after, before, next, previous, back, forth⟩

/-- A queue linked by its `next` pointers alone, that leads to `stop`. -/
structure IsQueue (links : Links ν) (head : Option ν) (nodes : List ν) (stop : Option ν) : Prop where
  path : Reaches links.next head nodes stop
  single : ∀ a ∈ nodes, links.previous a = none

namespace IsQueue

variable {stop : Option ν}

theorem congr (queue : IsQueue links head nodes stop) (same : ∀ a ∈ nodes, Same links links' a) :
    IsQueue links' head nodes stop where
  path := queue.path.congr fun a inside => (same a inside).1
  single a inside := by rw [(same a inside).2, queue.single a inside]

theorem holds_iff (queue : IsQueue links head nodes none) : Holds links head a ↔ a ∈ nodes :=
  queue.path.exists_iff (by simp)

/-- A queue is not linked both ways, unless it is empty. -/
theorem not_wellFormed (queue : IsQueue links head (a :: nodes) stop) : ¬ WellFormed links head := by
  intro formed
  obtain ⟨_, before, -, previous, -⟩ := formed a ⟨[], queue.path.1⟩
  rw [queue.single a mem_cons_self] at previous
  cases previous

end IsQueue

end Links

end MicroOs
