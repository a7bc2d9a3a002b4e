import Mathlib.Algebra.Order.Ring.Nat
import Mathlib.Data.List.Basic

/-! # Finite runs of a labelled step relation

A run lists the labels of its steps in order. Invariants are proved once for a single step and carried
to every state a run reaches; a guard on single steps restricts the runs under consideration without
changing the relation. A property of whole histories is put together from what it asks of each label.
-/

namespace MicroOs

open List

variable {σ ε : Type*}

/-- A finite run, extended at its end, that carries the labels of its steps. -/
inductive Run (step : σ → ε → σ → Prop) : σ → List ε → σ → Prop
  | nil (source : σ) : Run step source [] source
  | snoc {source middle target : σ} {events : List ε} {event : ε} :
      Run step source events middle → step middle event target →
      Run step source (events ++ [event]) target

/-- The steps of `step` that are taken where `guard` holds. -/
def Guarded (guard : σ → ε → Prop) (step : σ → ε → σ → Prop) (source : σ) (event : ε) (target : σ) : Prop :=
  guard source event ∧ step source event target

namespace Run

variable {step other : σ → ε → σ → Prop} {source middle target : σ} {events : List ε}

/-- What holds at the start and is kept by every step holds after any run. -/
theorem invariant (property : σ → Prop)
    (preserved : ∀ {before event after}, property before → step before event after → property after)
    (initial : property source) (run : Run step source events target) : property target := by
  induction run with
  | nil => exact initial
  | snoc _ last ih => exact preserved ih last

/-- The same for a property that also depends on the labels seen so far. -/
theorem invariant_labels (property : List ε → σ → Prop)
    (preserved : ∀ {seen before event after}, property seen before → step before event after →
      property (seen ++ [event]) after)
    (initial : property [] source) (run : Run step source events target) : property events target := by
  induction run with
  | nil => exact initial
  | snoc _ last ih => exact preserved ih last

theorem mono (included : ∀ {before event after}, step before event after → other before event after)
    (run : Run step source events target) : Run other source events target := by
  induction run with
  | nil => exact .nil _
  | snoc _ last ih => exact .snoc ih (included last)

theorem guarded {guard : σ → ε → Prop} (run : Run step source events target)
    (always : ∀ event ∈ events, ∀ state, guard state event) : Run (Guarded guard step) source events target := by
  induction run with
  | nil => exact .nil _
  | snoc _ last ih =>
    refine .snoc (ih fun event earlier => always event (mem_append_left _ earlier)) ⟨always _ ?_ _, last⟩
    exact mem_append_right _ mem_cons_self

theorem single {event : ε} (first : step source event target) : Run step source [event] target := by
  have run := Run.snoc (.nil source) first
  simpa using run

theorem append {later : List ε} (first : Run step source events middle) (second : Run step middle later target) :
    Run step source (events ++ later) target := by
  induction second with
  | nil => simpa using first
  | snoc _ last ih =>
    rw [← append_assoc]
    exact .snoc ih last

/-- A relation that each step keeps, where the second system moves only for the labels it sees, carries over to runs.
-/
theorem simulates {τ δ : Type*} {abstract : τ → δ → τ → Prop} {start : τ} (relation : σ → τ → Prop)
    (seen : ε → Option δ) (kept : ∀ {before event after state}, relation before state → step before event after →
      ∃ state', relation after state' ∧ Run abstract state (seen event).toList state')
    (initial : relation source start) (run : Run step source events target) :
    ∃ state, relation target state ∧ Run abstract start (events.filterMap seen) state := by
  induction run with
  | nil => exact ⟨start, initial, .nil start⟩
  | @snoc _ _ _ event _ last ih =>
    obtain ⟨state, related, before⟩ := ih
    obtain ⟨state', related', more⟩ := kept related last
    refine ⟨state', related', ?_⟩
    rw [filterMap_append]
    exact before.append more

end Run

/-- Every label has the property, which may refer to the labels before it. -/
def Throughout (property : List ε → ε → Prop) (events : List ε) : Prop :=
  ∀ before event after, events = before ++ event :: after → property before event

theorem throughout_nil (property : List ε → ε → Prop) : Throughout property [] := by
  intro before event after split
  simp at split

theorem throughout_snoc {property : List ε → ε → Prop} {events : List ε} {event : ε} :
    Throughout property (events ++ [event]) ↔ Throughout property events ∧ property events event := by
  constructor
  · intro all
    constructor
    · rintro before event' after rfl
      exact all before event' (after ++ [event]) (by simp)
    · exact all events event [] rfl
  · rintro ⟨all, last⟩ before event' after split
    rcases eq_nil_or_concat after with rfl | ⟨rest, final, rfl⟩
    · obtain ⟨rfl, rfl⟩ : events = before ∧ event = event' := by simpa using append_inj' split rfl
      exact last
    · have longer : events ++ [event] = (before ++ event' :: rest) ++ [final] := by simp [split]
      exact all before event' rest (append_inj' longer rfl).1

end MicroOs
