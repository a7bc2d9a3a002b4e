import Mathlib.Data.List.GetD
import MicroOs.Library.ByteMemory

/-! # Strings in memory

A string is a list of bytes other than 0. It lies at an address if its bytes are there one after another, with a byte 0
behind them. The definition follows the list, as a loop does that walks along the string.
-/

namespace MicroOs

open List

variable {memory memory' : Memory} {address : ℕ} {chars more : List (BitVec 8)}

def Memory.HasString (memory : Memory) : ℕ → List (BitVec 8) → Prop
  | address, [] => memory address = 0
  | address, ch :: chars => (memory address = ch ∧ ch ≠ 0) ∧ memory.HasString (address + 1) chars

/-- The characters, none of them 0, lie at the address. What is behind them is left open. -/
def Memory.HasChars (memory : Memory) : ℕ → List (BitVec 8) → Prop
  | _, [] => True
  | address, ch :: chars => (memory address = ch ∧ ch ≠ 0) ∧ memory.HasChars (address + 1) chars

theorem Memory.hasString_iff :
    memory.HasString address chars ↔ memory.HasChars address chars ∧ memory (address + chars.length) = 0 := by
  induction chars generalizing address with
  | nil => simp only [HasString, HasChars, length_nil, Nat.add_zero, true_and]
  | cons ch chars ih =>
    have behind : address + (ch :: chars).length = address + 1 + chars.length := by
      rw [length_cons]
      omega
    rw [HasString, ih, behind]
    exact and_assoc.symm

theorem Memory.hasChars_append :
    memory.HasChars address (chars ++ more) ↔
      memory.HasChars address chars ∧ memory.HasChars (address + chars.length) more := by
  induction chars generalizing address with
  | nil => simp only [nil_append, HasChars, length_nil, Nat.add_zero, true_and]
  | cons ch chars ih =>
    have behind : address + (ch :: chars).length = address + 1 + chars.length := by
      rw [length_cons]
      omega
    rw [cons_append, HasChars, ih, behind]
    exact and_assoc.symm

namespace Memory.HasChars

section

variable (here : memory.HasChars address chars)
include here

/-- A store behind or in front of the characters leaves them. -/
theorem congr
    (same : ∀ i < chars.length, memory' (address + i) = memory (address + i)) : memory'.HasChars address chars := by
  induction chars generalizing address with
  | nil => trivial
  | cons ch chars ih =>
    obtain ⟨⟨first, nonzero⟩, rest⟩ := here
    refine ⟨⟨?_, nonzero⟩, ih rest fun i less => ?_⟩
    · rw [← first]
      exact same 0 (Nat.succ_pos _)
    · rw [Nat.add_assoc, Nat.add_comm 1 i]
      exact same (i + 1) (Nat.succ_lt_succ less)

theorem take (n : ℕ) : memory.HasChars address (chars.take n) := by
  rw [← take_append_drop n chars, hasChars_append] at here
  exact here.1

theorem getElem {i : ℕ} (less : i < chars.length) : memory (address + i) = chars[i] ∧ chars[i] ≠ 0 := by
  induction chars generalizing address i with
  | nil => exact absurd less (Nat.not_lt_zero i)
  | cons ch chars ih =>
    obtain ⟨first, rest⟩ := here
    cases i with
    | zero => exact first
    | succ i =>
      have place : address + (i + 1) = address + 1 + i := by omega
      rw [place]
      exact ih rest (Nat.lt_of_succ_lt_succ less)

theorem ne_zero {ch : BitVec 8} (member : ch ∈ chars) : ch ≠ 0 := by
  obtain ⟨i, less, rfl⟩ := getElem_of_mem member
  exact (here.getElem less).2

end

end Memory.HasChars

namespace Memory.HasString

section

variable (here : memory.HasString address chars)
include here

theorem hasChars : memory.HasChars address chars := (hasString_iff.1 here).1

theorem terminator : memory (address + chars.length) = 0 :=
  (hasString_iff.1 here).2

theorem congr
    (same : ∀ i ≤ chars.length, memory' (address + i) = memory (address + i)) : memory'.HasString address chars := by
  refine hasString_iff.2 ⟨here.hasChars.congr fun i less => same i less.le, ?_⟩
  rw [same _ le_rfl]
  exact here.terminator

theorem unique (here' : memory.HasString address more) : chars = more := by
  induction chars generalizing address more with
  | nil =>
    cases more with
    | nil => rfl
    | cons ch more =>
      obtain ⟨⟨first, nonzero⟩, -⟩ := here'
      exact absurd (first.symm.trans here) nonzero
  | cons ch chars ih =>
    obtain ⟨⟨first, nonzero⟩, rest⟩ := here
    cases more with
    | nil => exact absurd (first.symm.trans here') nonzero
    | cons ch' more =>
      obtain ⟨⟨first', -⟩, rest'⟩ := here'
      rw [first.symm.trans first', ih rest rest']

theorem getD {i : ℕ} (le : i ≤ chars.length) : memory (address + i) = chars.getD i 0 := by
  obtain rfl | less := Nat.eq_or_lt_of_le le
  · rw [here.terminator, getD_eq_default _ _ le_rfl]
  · rw [(here.hasChars.getElem less).1, getD_eq_getElem _ _ less]

theorem drop {n : ℕ} (le : n ≤ chars.length) : memory.HasString (address + n) (chars.drop n) := by
  induction n generalizing address chars with
  | zero => exact here
  | succ n ih =>
    cases chars with
    | nil => exact absurd le (Nat.not_succ_le_zero n)
    | cons ch chars =>
      rw [drop_succ_cons, Nat.add_comm n 1, ← Nat.add_assoc]
      exact ih here.2 (Nat.le_of_succ_le_succ le)

end

end Memory.HasString

end MicroOs
