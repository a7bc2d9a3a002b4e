import MicroOs.Library.Run

/-! # Uninterrupted stretches

A system that disables interrupts rests in some of its states only. From the others it goes on alone: there is one
step that it can take, until it rests again. An observer keeps what has been seen of the labels so far, and what it
sees has to be harmless. It then suffices to look at the steps from states of rest and to follow the stretches that
they begin.
-/

namespace MicroOs

variable {σ ε β : Type*}

/-- The system rests, or the step that it takes is harmless and leads to a stretch. -/
inductive Stretch (step : σ → ε → σ → Prop) (observe : β → ε → β) (harmless : β → ε → Prop) (rest : β → σ → Prop) :
    β → σ → Prop
  | rest {seen : β} {source : σ} (resting : rest seen source) : Stretch step observe harmless rest seen source
  | step {seen : β} {source target : σ} {event : ε} (taken : step source event target)
      (only : ∀ {event' target'}, step source event' target' → event' = event ∧ target' = target)
      (fine : harmless seen event) (next : Stretch step observe harmless rest (observe seen event) target) :
      Stretch step observe harmless rest seen source

namespace Stretch

variable {step : σ → ε → σ → Prop} {observe : β → ε → β} {harmless : β → ε → Prop} {rest : β → σ → Prop}
  {seen : β} {source target : σ} {event : ε} {events : List ε}

/-- If every step from rest is harmless and begins a stretch, every step is harmless and stays on one. -/
theorem next (begins : ∀ {seen source event target}, rest seen source → step source event target →
      harmless seen event ∧ Stretch step observe harmless rest (observe seen event) target)
    (stretch : Stretch step observe harmless rest seen source) (taken : step source event target) :
    harmless seen event ∧ Stretch step observe harmless rest (observe seen event) target := by
  cases stretch with
  | rest resting => exact begins resting taken
  | step _ only fine next =>
    obtain ⟨rfl, rfl⟩ := only taken
    exact ⟨fine, next⟩

/-- Along a run every step is harmless, and the system stays on a stretch. -/
theorem run (begins : ∀ {seen source event target}, rest seen source → step source event target →
      harmless seen event ∧ Stretch step observe harmless rest (observe seen event) target)
    (initial : rest seen source) (run : Run step source events target) :
    Throughout (fun before event => harmless (before.foldl observe seen) event) events ∧
      Stretch step observe harmless rest (events.foldl observe seen) target := by
  induction run with
  | nil => exact ⟨throughout_nil _, .rest initial⟩
  | snoc _ last ih =>
    obtain ⟨fine, stretch⟩ := ih.2.next begins last
    refine ⟨throughout_snoc.2 ⟨ih.1, fine⟩, ?_⟩
    rwa [List.foldl_append]

/-- A stretch comes to its end. -/
theorem completes (stretch : Stretch step observe harmless rest seen source) :
    ∃ events target, Run step source events target ∧ rest (events.foldl observe seen) target := by
  induction stretch with
  | @rest seen source resting => exact ⟨[], source, .nil source, resting⟩
  | @step _ _ _ event taken _ _ _ ih =>
    obtain ⟨events, target, run, resting⟩ := ih
    exact ⟨event :: events, target, (Run.single taken).append run, resting⟩

end Stretch

end MicroOs
