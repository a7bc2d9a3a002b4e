import Mathlib.Data.List.Nodup

/-! # Lists threaded through nodes with back references

A list starts at the link of some cell. Each node carries a link and refers back to the cell whose link leads to it; the
link of the last node is that of the empty list. Nodes are put in at the front and taken out anywhere.
-/

namespace MicroOs

open List

variable {ν ω : Type*} [DecidableEq ν] {pointer : ν → ω} {next next' : ν → ω} {back back' : ν → ν} {before a : ν}
  {first last : ω}
  {nodes former later : List ν}

/-- From the link `first` of `before` the links lead through the nodes to `last`, and the nodes refer back. -/
def Threaded (pointer : ν → ω) (next : ν → ω) (back : ν → ν) : ν → ω → List ν → ω → Prop
  | _, first, [], last => first = last
  | before, first, a :: nodes, last =>
    first = pointer a ∧ back a = before ∧ Threaded pointer next back a (next a) nodes last

namespace Threaded

omit [DecidableEq ν] in
theorem congr (threaded : Threaded pointer next back before first nodes last) (nexts : ∀ b ∈ nodes, next' b = next b)
    (backs : ∀ b ∈ nodes, back' b = back b) : Threaded pointer next' back' before first nodes last := by
  induction nodes generalizing before first with
  | nil => exact threaded
  | cons c nodes ih =>
    obtain ⟨leads, refers, rest⟩ := threaded
    refine ⟨leads, (backs c mem_cons_self).trans refers, ?_⟩
    rw [nexts c mem_cons_self]
    apply ih rest
    · intro b inside
      exact nexts b (mem_cons_of_mem c inside)
    · intro b inside
      exact backs b (mem_cons_of_mem c inside)

theorem push (threaded : Threaded pointer next back before first nodes last) (nodup : nodes.Nodup)
    (link : next' a = first) (refers : back' a = before) (nexts : ∀ b ∈ nodes, next' b = next b)
    (backs : ∀ b ∈ nodes, back' b = if nodes.head? = some b then a else back b) :
    Threaded pointer next' back' before (pointer a) (a :: nodes) last := by
  refine ⟨rfl, refers, ?_⟩
  rw [link]
  cases nodes with
  | nil => exact threaded
  | cons c nodes =>
    obtain ⟨leads, -, rest⟩ := threaded
    refine ⟨leads, ?_, ?_⟩
    · rw [backs c mem_cons_self, head?_cons, if_pos rfl]
    · rw [nexts c mem_cons_self]
      apply rest.congr
      · intro b inside
        exact nexts b (mem_cons_of_mem c inside)
      · intro b inside
        have other : c ≠ b := fun same => (nodup_cons.1 nodup).1 (same ▸ inside)
        rw [backs b (mem_cons_of_mem c inside), if_neg (by simpa using other)]

omit [DecidableEq ν] in
theorem neighbours (threaded : Threaded pointer next back before first (former ++ a :: later) last) :
    back a = former.getLast?.getD before ∧ next a = (later.head?.map pointer).getD last := by
  induction former generalizing before first with
  | nil =>
    obtain ⟨-, refers, rest⟩ := threaded
    refine ⟨refers, ?_⟩
    cases later with
    | nil => exact rest
    | cons c later => exact rest.1
  | cons b former ih =>
    obtain ⟨refers, leads⟩ := ih threaded.2.2
    refine ⟨?_, leads⟩
    rw [refers, getLast?_cons]
    rfl

theorem remove (threaded : Threaded pointer next back before first (former ++ a :: later) last)
    (nodup : (former ++ a :: later).Nodup)
    (nexts : ∀ b ∈ former ++ later, next' b = if former.getLast? = some b then next a else next b)
    (backs : ∀ b ∈ former ++ later, back' b = if later.head? = some b then back a else back b) :
    Threaded pointer next' back' before (if former = [] then next a else first) (former ++ later) last := by
  induction former generalizing before first with
  | nil =>
    obtain ⟨-, refers, rest⟩ := threaded
    cases later with
    | nil => exact rest
    | cons c later =>
      have others : ∀ b ∈ later, c ≠ b := by
        rintro b inside rfl
        exact (nodup_cons.1 (nodup_cons.1 nodup).2).1 inside
      refine ⟨rest.1, ?_, ?_⟩
      · simp [backs c, refers]
      · rw [nexts c (by simp)]
        apply rest.2.2.congr
        · intro b inside
          simp [nexts b (by simp [inside])]
        · intro b inside
          simp [backs b (by simp [inside]), others b inside]
  | cons c former ih =>
    obtain ⟨leads, refers, rest⟩ := threaded
    rw [cons_append, nodup_cons] at nodup
    have others : ∀ b ∈ former ++ later, b ≠ c := by
      rintro b inside rfl
      apply nodup.1
      rw [mem_append, mem_cons]
      exact (mem_append.1 inside).imp_right .inr
    have removed := ih rest nodup.2 ?_ ?_
    · refine ⟨leads, ?_, ?_⟩
      · have notFirst : later.head? ≠ some c := fun same =>
          others c (mem_append_right _ (mem_of_head? same)) rfl
        rw [backs c (by simp), if_neg notFirst, refers]
      · rw [nexts c (by simp)]
        cases former with
        | nil => simpa using removed
        | cons d former =>
          have notLast : (d :: former).getLast? ≠ some c := fun same =>
            others c (mem_append_left _ (mem_of_getLast? same)) rfl
          rw [getLast?_cons_cons, if_neg notLast]
          simpa using removed
    · intro b inside
      rw [nexts b (by simp [inside])]
      cases former with
      | nil => simp [(others b inside).symm]
      | cons d former => rw [getLast?_cons_cons]
    · intro b inside
      exact backs b (by simp [inside])

omit [DecidableEq ν] in
theorem map_back (threaded : Threaded pointer next back before first nodes last) :
    nodes.map back = (before :: nodes).dropLast := by
  induction nodes generalizing before first with
  | nil => rfl
  | cons c nodes ih =>
    obtain ⟨-, refers, rest⟩ := threaded
    rw [map_cons, refers, ih rest, dropLast_cons_cons]

end Threaded

end MicroOs
