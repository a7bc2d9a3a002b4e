import Mathlib.Data.List.Basic

/-! # What a cache holds, from the history of its moves

Values are loaded under a key and evicted by key. The values that are held are listed in the order of their loads. A
history evicts the oldest first when each of its evictions takes the head of that list.
-/

namespace MicroOs

open List

variable {κ ν : Type*} [DecidableEq κ]

inductive Move (κ ν : Type*)
  | load (key : κ) (value : ν)
  | evict (key : κ)

namespace Move

def apply (held : List (κ × ν)) : Move κ ν → List (κ × ν)
  | load key value => held ++ [(key, value)]
  | evict key => held.filter fun entry => entry.1 ≠ key

/-- The keys and values held after some moves, oldest first. -/
def residents (moves : List (Move κ ν)) : List (κ × ν) := moves.foldl apply []

/-- Every eviction takes the key that has been held for longest. -/
def OldestFirst (moves : List (Move κ ν)) : Prop :=
  ∀ before key, before ++ [evict key] <+: moves → ∃ value rest, residents before = (key, value) :: rest

theorem residents_load (moves : List (Move κ ν)) (key : κ) (value : ν) :
    residents (moves ++ [load key value]) = residents moves ++ [(key, value)] := by
  simp [residents, apply]

theorem residents_evict {moves : List (Move κ ν)} {key : κ} {value : ν} {rest : List (κ × ν)}
    (held : residents moves = (key, value) :: rest) (distinct : ((residents moves).map Prod.fst).Nodup) :
    residents (moves ++ [evict key]) = rest := by
  have step : residents (moves ++ [evict key]) = (residents moves).filter fun entry => entry.1 ≠ key := by
    simp [residents, apply]
  rw [held, map_cons, nodup_cons] at distinct
  rw [step, held, filter_cons_of_neg (by simp), filter_eq_self]
  intro entry member
  rw [decide_eq_true_eq]
  intro same
  exact distinct.1 (mem_map.mpr ⟨entry, member, same⟩)

theorem oldestFirst_nil : OldestFirst ([] : List (Move κ ν)) := by
  intro before key prior
  simp at prior

theorem OldestFirst.load {moves : List (Move κ ν)} (oldest : OldestFirst moves) (key : κ) (value : ν) :
    OldestFirst (moves ++ [load key value]) := by
  intro before other prior
  rcases prefix_concat_iff.mp prior with whole | earlier
  · have last := (append_inj' whole rfl).2
    simp at last
  · exact oldest before other earlier

theorem OldestFirst.evict {moves : List (Move κ ν)} {key : κ} {value : ν} {rest : List (κ × ν)}
    (oldest : OldestFirst moves) (held : residents moves = (key, value) :: rest) :
    OldestFirst (moves ++ [evict key]) := by
  intro before other prior
  rcases prefix_concat_iff.mp prior with whole | earlier
  · obtain ⟨rfl, last⟩ := append_inj' whole rfl
    obtain rfl : other = key := by simpa using last
    exact ⟨value, rest, held⟩
  · exact oldest before other earlier

end Move

end MicroOs
