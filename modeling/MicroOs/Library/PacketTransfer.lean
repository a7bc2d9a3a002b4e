import Mathlib.Data.List.Induction

/-! # A transfer in packets from a buffer that is in use

A device copies a buffer packet by packet while the owner of the buffer stores into it. What arrives is, for each
cell, the value it had when its packet was sent. The copy agrees with the buffer in the end exactly when the stores that
come too late for a cell leave it with the value that was sent.
-/

namespace MicroOs

open List

/-- The buffer, its copy, and the number of packets that have been sent. -/
structure Transfer (ν : Type*) where
  source : ℕ → ν
  target : ℕ → ν
  sent : ℕ

namespace Transfer

/-- The device sends the next packet, or the owner stores into the buffer. -/
inductive Action (ν : Type*)
  | send
  | store (index : ℕ) (value : ν)

variable {ν : Type*} (size : ℕ)

/-- Packets have the given size; the last one may reach beyond what is asked for. -/
def step (t : Transfer ν) : Action ν → Transfer ν
  | .send => { t with target := fun i => if i / size = t.sent then t.source i else t.target i, sent := t.sent + 1 }
  | .store index value => { t with source := Function.update t.source index value }

def run (t : Transfer ν) (actions : List (Action ν)) : Transfer ν := actions.foldl (step size) t

def Action.isSend : Action ν → Bool
  | .send => true
  | .store _ _ => false

def sends (actions : List (Action ν)) : ℕ := actions.countP Action.isSend

/-- The value that an action stores into a cell. -/
def Action.storesAt (i : ℕ) : Action ν → Option ν
  | .send => none
  | .store index value => if index = i then some value else none

def lastStore (i : ℕ) (actions : List (Action ν)) : Option ν := (actions.filterMap (Action.storesAt i)).getLast?

variable {size} {t : Transfer ν} {actions before after : List (Action ν)} {action : Action ν} {i : ℕ}

theorem run_snoc : run size t (actions ++ [action]) = step size (run size t actions) action := by
  rw [run, foldl_append, foldl_cons, foldl_nil, run]

theorem sends_append : sends (before ++ after) = sends before + sends after := countP_append ..

theorem lastStore_append : lastStore i (before ++ after) = (lastStore i after).or (lastStore i before) := by
  rw [lastStore, filterMap_append, getLast?_append, lastStore, lastStore]

theorem run_source : (run size t actions).source i = (lastStore i actions).getD (t.source i) := by
  induction actions using reverseRecOn with
  | nil => rfl
  | append_singleton actions action ih =>
    rw [run_snoc, lastStore_append]
    cases action with
    | send => exact ih
    | store index value =>
      rcases eq_or_ne index i with rfl | other
      · simp [step, lastStore, Action.storesAt]
      · simp [step, lastStore, Action.storesAt, other, Function.update_of_ne other.symm, ih]

theorem run_sent : (run size t actions).sent = t.sent + sends actions := by
  induction actions using reverseRecOn with
  | nil => rfl
  | append_singleton actions action ih =>
    rw [run_snoc, sends_append]
    cases action with
    | send =>
      simp only [step, ih]
      rfl
    | store index value => exact ih

/-- What arrives is what the cell held when its packet was sent. -/
theorem run_target (split : actions = before ++ .send :: after) (packet : i / size = t.sent + sends before) :
    (run size t actions).target i = (lastStore i before).getD (t.source i) := by
  induction after using reverseRecOn generalizing actions with
  | nil =>
    rw [split, run_snoc]
    simp [step, run_sent, packet, run_source]
  | append_singleton after action ih =>
    have shorter : actions = (before ++ .send :: after) ++ [action] := by simp [split]
    rw [shorter, run_snoc]
    cases action with
    | send =>
      have later : i / size ≠ (run size t (before ++ .send :: after)).sent := by
        rw [run_sent, sends_append, packet]
        simp only [sends, countP_cons, Action.isSend, if_true]
        omega
      simp only [step, if_neg later]
      exact ih rfl
    | store index value => exact ih rfl

theorem exists_split {n : ℕ} (enough : n < sends actions) :
    ∃ before after, actions = before ++ .send :: after ∧ sends before = n := by
  induction actions using reverseRecOn with
  | nil => exact absurd enough (Nat.not_lt_zero n)
  | append_singleton actions action ih =>
    rw [sends_append] at enough
    rcases Nat.lt_or_ge n (sends actions) with earlier | last
    · obtain ⟨before, after, split, count⟩ := ih earlier
      exact ⟨before, after ++ [action], by simp [split], count⟩
    · cases action with
      | send =>
        refine ⟨actions, [], rfl, ?_⟩
        change n < sends actions + 1 at enough
        omega
      | store index value => exact absurd (show n < sends actions from enough) (Nat.not_lt.mpr last)

/-- Stores that come after the packet of their cell leave the cell with the value that was sent. -/
def Settled (size : ℕ) (contents : ℕ → ν) (i : ℕ) (actions : List (Action ν)) : Prop :=
  ∀ before after, actions = before ++ .send :: after → sends before = i / size →
    ∀ value, lastStore i after = some value → value = (lastStore i before).getD (contents i)

theorem settled_of_sends {contents : ℕ → ν} (quiet : ∀ action ∈ actions, action = .send) :
    Settled size contents i actions := by
  intro before after split _ value stored
  have none : after.filterMap (Action.storesAt i) = [] := by
    rw [filterMap_eq_nil_iff]
    intro action member
    rw [quiet action (by simp [split, member])]
    rfl
  rw [lastStore, none] at stored
  cases stored

/-- Once its packet has been sent, a cell and its copy agree exactly when the late stores are settled. -/
theorem agrees_iff (start : t.sent = 0) (enough : i / size < sends actions) :
    (run size t actions).target i = (run size t actions).source i ↔ Settled size t.source i actions := by
  obtain ⟨before, after, split, count⟩ := exists_split enough
  have arrived : (run size t actions).target i = (lastStore i before).getD (t.source i) :=
    run_target split (by omega)
  have current : (run size t actions).source i = ((lastStore i after).or (lastStore i before)).getD (t.source i) := by
    have late : lastStore i (.send :: after) = lastStore i after := rfl
    rw [run_source, split, lastStore_append, late]
  constructor
  · intro agrees before' after' split' count' value stored
    have same : (run size t actions).target i = (lastStore i before').getD (t.source i) :=
      run_target split' (by omega)
    have late : lastStore i (.send :: after') = lastStore i after' := rfl
    rw [← same, agrees, run_source, split', lastStore_append, late, stored]
    rfl
  · intro settled
    rw [arrived, current]
    cases stored : lastStore i after with
    | none => rfl
    | some value => exact (settled before after split count value stored).symm

end Transfer

end MicroOs
