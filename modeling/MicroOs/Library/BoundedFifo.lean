import MicroOs.Library.Run

/-! # Bounded queues

Messages with a weight wait in a queue of limited total weight. A message is sent only when there is room for it, and
messages are received in the order in which they were sent.
-/

namespace MicroOs.BoundedFifo

variable {α : Type*}

inductive Action (α : Type*)
  | send (message : α)
  | receive (message : α)

def Action.sent : Action α → Option α
  | .send message => some message
  | .receive _ => none

def Action.received : Action α → Option α
  | .send _ => none
  | .receive message => some message

def load (weight : α → ℕ) (queue : List α) : ℕ := (queue.map weight).sum

inductive Step (weight : α → ℕ) (capacity : ℕ) : List α → Action α → List α → Prop
  | send {queue : List α} {message : α} (room : load weight queue + weight message ≤ capacity) :
      Step weight capacity queue (.send message) (queue ++ [message])
  | receive (message : α) (queue : List α) : Step weight capacity (message :: queue) (.receive message) queue

variable {weight : α → ℕ} {capacity : ℕ} {queue queue' : List α} {message : α} {actions : List (Action α)}

theorem Step.of_send (step : Step weight capacity queue (.send message) queue') :
    queue' = queue ++ [message] ∧ load weight queue + weight message ≤ capacity := by
  cases step with
  | send room => exact ⟨rfl, room⟩

theorem Step.of_receive (step : Step weight capacity queue (.receive message) queue') : queue = message :: queue' := by
  cases step with
  | receive => rfl

/-- What was sent is what has been received, in the same order, and what still waits. -/
theorem sent_eq_received_append (run : Run (Step weight capacity) [] actions queue) :
    actions.filterMap Action.sent = actions.filterMap Action.received ++ queue := by
  induction run with
  | nil => rfl
  | snoc _ last ih =>
    simp only [List.filterMap_append, ih]
    cases last with
    | send room | receive message queue => simp [Action.sent, Action.received]

end MicroOs.BoundedFifo
