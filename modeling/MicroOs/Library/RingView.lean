import Mathlib.Data.Nat.ModEq

/-! # Circular arrays seen as lists

An array of `capacity` cells holds a queue in consecutive cells, wrapping at the end. The list view reads
`length` cells from `start` on. Appending writes the cell after the last one, removing moves the start;
neither touches the rest of the view. The number of occupied cells is kept apart from the two positions,
so that a full and an empty array are told apart.
-/

namespace MicroOs

open Function List

variable {α : Type*}

/-- The `length` cells of a circular array from `start` on. -/
def ringView (cells : ℕ → α) (capacity start length : ℕ) : List α :=
  (range length).map fun i => cells ((start + i) % capacity)

variable (cells : ℕ → α) {capacity start length : ℕ}

@[simp] theorem ringView_length : (ringView cells capacity start length).length = length := by
  simp [ringView]

@[simp] theorem ringView_mod :
    ringView cells capacity (start % capacity) length = ringView cells capacity start length := by
  simp [ringView]

theorem ringView_add (first second : ℕ) :
    ringView cells capacity start (first + second) =
      ringView cells capacity start first ++ ringView cells capacity (start + first) second := by
  simp only [ringView, range_add, map_append, map_map, comp_def, Nat.add_assoc]

theorem ringView_succ :
    ringView cells capacity start (length + 1) =
      cells (start % capacity) :: ringView cells capacity (start + 1) length := by
  rw [Nat.add_comm, ringView_add]
  rfl

theorem ringView_concat :
    ringView cells capacity start (length + 1) =
      ringView cells capacity start length ++ [cells ((start + length) % capacity)] := by
  rw [ringView_add]
  rfl

theorem ring_index_ne {i j : ℕ} (different : i ≠ j) (left : i < capacity) (right : j < capacity) :
    (start + i) % capacity ≠ (start + j) % capacity := by
  intro same
  have congruent : i ≡ j [MOD capacity] := Nat.ModEq.add_left_cancel' start same
  exact different (congruent.eq_of_lt_of_lt left right)

theorem ringView_update_outside {offset : ℕ} (value : α) (past : length ≤ offset) (bound : offset < capacity) :
    ringView (update cells ((start + offset) % capacity) value) capacity start length =
      ringView cells capacity start length := by
  apply map_congr_left
  intro i member
  have small : i < length := mem_range.mp member
  exact update_of_ne (ring_index_ne (by omega) (by omega) bound) ..

theorem ringView_push (value : α) (room : length < capacity) :
    ringView (update cells ((start + length) % capacity) value) capacity start (length + 1) =
      ringView cells capacity start length ++ [value] := by
  rw [ringView_concat, ringView_update_outside cells value le_rfl room, update_self]

/-- Store `count` values in consecutive cells from `start` on. -/
def ringWrite (cells : ℕ → α) (capacity start count : ℕ) (values : ℕ → α) : ℕ → α :=
  (range count).foldl (fun cells i => update cells ((start + i) % capacity) (values i)) cells

theorem ringWrite_succ (start count : ℕ) (values : ℕ → α) :
    ringWrite cells capacity start (count + 1) values =
      update (ringWrite cells capacity start count values) ((start + count) % capacity) (values count) := by
  rw [ringWrite, range_succ, foldl_append]
  rfl

@[simp] theorem ringWrite_mod (count : ℕ) (values : ℕ → α) :
    ringWrite cells capacity (start % capacity) count values = ringWrite cells capacity start count values := by
  simp [ringWrite]

theorem ringView_write {count : ℕ} (values : ℕ → α) (room : length + count ≤ capacity) :
    ringView (ringWrite cells capacity (start + length) count values) capacity start (length + count) =
      ringView cells capacity start length ++ (range count).map values := by
  induction count with
  | zero => simp [ringWrite]
  | succ count ih =>
    rw [ringWrite_succ, Nat.add_assoc start, ← Nat.add_assoc length, ringView_push _ _ (by omega), ih (by omega),
      range_succ, map_append, append_assoc]
    rfl

theorem ringView_eq_map_iff {count : ℕ} {values : ℕ → α} :
    ringView cells capacity start count = (range count).map values ↔
      ∀ i < count, cells ((start + i) % capacity) = values i := by
  rw [ringView]
  simp

end MicroOs
