import MicroOs.Ipc.Mbox
import MicroOs.Library.BoundedFifo

/-! # Two programs that take turns

`process3` sends a fixed sequence of messages to `process4` through one mailbox. When the mailbox is full, or empty
for the other program, the program whose turn it is sends a token through a second mailbox, finishes its message and
waits for a token in a third one. The mailboxes are bounded queues here; a call that finds no room or no message
blocks.

There is one turn: a program has it, or a token for one of them is on its way. The last token of `process3` is the
only one that is sent without having the turn.
-/

namespace MicroOs.TurnTaking

open BoundedFifo List

/-- `msg_t` with as many bytes of its body as are sent. -/
structure Message where
  size : ℕ
  body : List (BitVec 8)

variable {rest : List Message} {m : Message}

def weight (m : Message) : ℕ := Ipc.msgTHeaderSize.toNat + m.size

def capacity : ℕ := Ipc.bufferSize.toNat

def token : Message := ⟨0, []⟩

def messageSize (i : ℕ) : ℕ := 128 + i % 128

def letter (i : ℕ) : BitVec 8 := BitVec.ofNat 8 (97 + i % 26)

def message (i : ℕ) : Message := ⟨messageSize i, replicate (messageSize i) (letter i)⟩

/-- What `process4` checks of its message `i`. -/
def Verified (i : ℕ) (m : Message) : Prop :=
  m.size = messageSize i ∧ ∀ j < messageSize i, m.body[j]? = some (letter i)

instance (i : ℕ) : DecidablePred (Verified i) := fun _ => inferInstanceAs (Decidable (_ ∧ _))

/-- Where `process3` is: at the head of its loop, in one of its calls, or at its end. -/
inductive SenderPc
  | loop | recvToken | stat | sendToken | send | lastToken | done | failed
deriving DecidableEq

inductive ReceiverPc
  | loop | recvToken | stat | sendToken | receive | done | failed
deriving DecidableEq

structure Sender where
  pc : SenderPc := .loop
  i : ℕ := 0
  wait : Bool := true
  token : Message := TurnTaking.token

structure Receiver where
  pc : ReceiverPc := .loop
  i : ℕ := 0
  wait : Bool := false
  token : Message := TurnTaking.token

/-- Both programs and the mailboxes `QUEUE`, `FLOW_IN` of `process3` and `FLOW_IN` of `process4`. -/
structure State where
  three : Sender := {}
  four : Receiver := {}
  queue : List Message := []
  toThree : List Message := []
  toFour : List Message := []

inductive Event
  | three
  | four
  | received (m : Message)

def Event.message? : Event → Option Message
  | .received m => some m
  | _ => none

/-- The statements of both programs. A call of a mailbox is one step, which cannot be taken while it blocks. -/
inductive Step (N : ℕ) (s : State) : Event → State → Prop
  | threeWaits (here : s.three.pc = .loop) (more : s.three.i < N) (wait : s.three.wait = true) :
      Step N s .three { s with three := { s.three with pc := .recvToken } }
  | threeGoesOn (here : s.three.pc = .loop) (more : s.three.i < N) (wait : s.three.wait = false) :
      Step N s .three { s with three := { s.three with pc := .stat } }
  | threeEnds (here : s.three.pc = .loop) (last : ¬s.three.i < N) :
      Step N s .three { s with three := { s.three with pc := .lastToken } }
  | threeTakesToken {m : Message} {rest : List Message} (here : s.three.pc = .recvToken)
      (taken : BoundedFifo.Step weight capacity s.toThree (.receive m) rest) (good : m.size = 0) :
      Step N s .three
        { s with three := { s.three with pc := .send, wait := false, token := m }, toThree := rest }
  | threeBadToken {m : Message} {rest : List Message} (here : s.three.pc = .recvToken)
      (taken : BoundedFifo.Step weight capacity s.toThree (.receive m) rest) (bad : m.size ≠ 0) :
      Step N s .three { s with three := { s.three with pc := .failed, token := m }, toThree := rest }
  | threeFull (here : s.three.pc = .stat)
      (full : capacity - load weight s.queue < weight (message s.three.i)) :
      Step N s .three { s with three := { s.three with pc := .sendToken } }
  | threeRoom (here : s.three.pc = .stat)
      (room : ¬capacity - load weight s.queue < weight (message s.three.i)) :
      Step N s .three { s with three := { s.three with pc := .send } }
  | threeGivesToken {more : List Message} (here : s.three.pc = .sendToken)
      (given : BoundedFifo.Step weight capacity s.toFour (.send token) more) :
      Step N s .three
        { s with three := { s.three with pc := .send, wait := true, token := token }, toFour := more }
  | threeSends {more : List Message} (here : s.three.pc = .send)
      (sent : BoundedFifo.Step weight capacity s.queue (.send (message s.three.i)) more) :
      Step N s .three { s with three := { s.three with pc := .loop, i := s.three.i + 1 }, queue := more }
  | threeLastToken {more : List Message} (here : s.three.pc = .lastToken)
      (given : BoundedFifo.Step weight capacity s.toFour (.send s.three.token) more) :
      Step N s .three { s with three := { s.three with pc := .done }, toFour := more }
  | fourWaits (here : s.four.pc = .loop) (more : s.four.i < N) (wait : s.four.wait = true) :
      Step N s .four { s with four := { s.four with pc := .recvToken } }
  | fourGoesOn (here : s.four.pc = .loop) (more : s.four.i < N) (wait : s.four.wait = false) :
      Step N s .four { s with four := { s.four with pc := .stat } }
  | fourEnds (here : s.four.pc = .loop) (last : ¬s.four.i < N) :
      Step N s .four { s with four := { s.four with pc := .done } }
  | fourTakesToken {m : Message} {rest : List Message} (here : s.four.pc = .recvToken)
      (taken : BoundedFifo.Step weight capacity s.toFour (.receive m) rest) (good : m.size = 0) :
      Step N s .four
        { s with four := { s.four with pc := .receive, wait := false, token := m }, toFour := rest }
  | fourBadToken {m : Message} {rest : List Message} (here : s.four.pc = .recvToken)
      (taken : BoundedFifo.Step weight capacity s.toFour (.receive m) rest) (bad : m.size ≠ 0) :
      Step N s .four { s with four := { s.four with pc := .failed, token := m }, toFour := rest }
  | fourEmpty (here : s.four.pc = .stat) (empty : s.queue.length = 0) :
      Step N s .four { s with four := { s.four with pc := .sendToken } }
  | fourMore (here : s.four.pc = .stat) (more : s.queue.length ≠ 0) :
      Step N s .four { s with four := { s.four with pc := .receive } }
  | fourGivesToken {more : List Message} (here : s.four.pc = .sendToken)
      (given : BoundedFifo.Step weight capacity s.toThree (.send token) more) :
      Step N s .four
        { s with four := { s.four with pc := .receive, wait := true, token := token }, toThree := more }
  | fourReceives {m : Message} {rest : List Message} (here : s.four.pc = .receive)
      (taken : BoundedFifo.Step weight capacity s.queue (.receive m) rest) (good : Verified s.four.i m) :
      Step N s (.received m) { s with four := { s.four with pc := .loop, i := s.four.i + 1 }, queue := rest }
  | fourBadMessage {m : Message} {rest : List Message} (here : s.four.pc = .receive)
      (taken : BoundedFifo.Step weight capacity s.queue (.receive m) rest) (bad : ¬Verified s.four.i m) :
      Step N s (.received m) { s with four := { s.four with pc := .failed }, queue := rest }

/-- `process3` is in a call that finds no message or no room. -/
def State.ThreeBlocked (s : State) : Prop :=
  match s.three.pc with
  | .recvToken => s.toThree = []
  | .sendToken => capacity < load weight s.toFour + weight token
  | .send => capacity < load weight s.queue + weight (message s.three.i)
  | .lastToken => capacity < load weight s.toFour + weight s.three.token
  | _ => False

def State.FourBlocked (s : State) : Prop :=
  match s.four.pc with
  | .recvToken => s.toFour = []
  | .sendToken => capacity < load weight s.toThree + weight token
  | .receive => s.queue = []
  | _ => False

def State.ThreeFinished (s : State) : Prop := s.three.pc = .done ∨ s.three.pc = .failed

def State.FourFinished (s : State) : Prop := s.four.pc = .done ∨ s.four.pc = .failed

def State.Stuck (s : State) : Prop :=
  (s.ThreeBlocked ∨ s.ThreeFinished) ∧ (s.FourBlocked ∨ s.FourFinished)

/-- What holds of `process3` at each place of its program. -/
structure Sender.Placed (N : ℕ) (p : Sender) : Prop where
  bound : p.i ≤ N
  fine : p.pc ≠ .failed
  more : p.pc = .recvToken ∨ p.pc = .stat ∨ p.pc = .sendToken ∨ p.pc = .send → p.i < N
  all : p.pc = .lastToken ∨ p.pc = .done → p.i = N
  waits : p.pc = .recvToken → p.wait = true
  turn : p.pc = .stat ∨ p.pc = .sendToken → p.wait = false

structure Receiver.Placed (N : ℕ) (p : Receiver) : Prop where
  bound : p.i ≤ N
  fine : p.pc ≠ .failed
  more : p.pc = .recvToken ∨ p.pc = .stat ∨ p.pc = .sendToken ∨ p.pc = .receive → p.i < N
  all : p.pc = .done → p.i = N
  waits : p.pc = .recvToken → p.wait = true
  turn : p.pc = .stat ∨ p.pc = .sendToken → p.wait = false

structure Placed (N : ℕ) (s : State) : Prop where
  three : s.three.Placed N
  four : s.four.Placed N

def turn (wait : Bool) : ℕ := if wait then 0 else 1

/-- Who has the turn, and what that means for the messages that are there. -/
structure Turns (s : State) : Prop where
  order : s.four.i ≤ s.three.i
  /-- there is one turn, and one more when `process3` has ended -/
  one : s.toThree.length + s.toFour.length + turn s.three.wait + turn s.four.wait =
    1 + if s.three.pc = .done then 1 else 0
  /-- when `process4` hands the turn over, there is one message at most, with the one `process3` still has to send -/
  emptied : s.four.pc = .sendToken ∨ 0 < s.toThree.length →
    s.three.i + (if s.three.pc = .send then 1 else 0) ≤ s.four.i + 1
  /-- when `process3` hands the turn over, there is a message left after the one `process4` still has to receive -/
  filled : s.three.pc ≠ .done → s.three.pc = .sendToken ∨ 0 < s.toFour.length →
    s.four.i + 1 + (if s.four.pc = .receive ∧ s.four.wait = true then 1 else 0) ≤ s.three.i
  /-- with its turn, `process4` goes to a message that is there -/
  there : s.four.pc = .receive → s.four.wait = false → s.four.i < s.three.i
  /-- the last token is there if `process4` waits or is about to -/
  last : s.three.pc = .done → 1 + (if s.four.pc = .sendToken then 1 else 0) ≤ s.toFour.length + turn s.four.wait

structure Contents (s : State) : Prop where
  queue : s.queue = (range' s.four.i (s.three.i - s.four.i)).map message
  toThree : ∀ m ∈ s.toThree, m = token
  toFour : ∀ m ∈ s.toFour, m = token
  token : s.three.token = token
  /-- with its turn, `process3` goes to a call that finds room -/
  room : s.three.pc = .send → s.three.wait = false → load weight s.queue + weight (message s.three.i) ≤ capacity

variable {N : ℕ} {s s' : State} {event : Event}

theorem Contents.length (contents : Contents s) : s.queue.length = s.three.i - s.four.i := by
  simp [contents.queue]

theorem weight_message (i : ℕ) : 132 ≤ weight (message i) ∧ weight (message i) ≤ 259 := by
  simp only [weight, message, messageSize, Ipc.msgTHeaderSize]
  simp
  omega

theorem load_messages (i n : ℕ) :
    132 * n ≤ load weight ((range' i n).map message) ∧ load weight ((range' i n).map message) ≤ 259 * n := by
  induction n generalizing i with
  | zero => simp [load]
  | succ n ih =>
    have first := weight_message i
    have rest := ih (i + 1)
    simp only [load, range'_succ, map_cons, sum_cons] at rest ⊢
    omega

theorem Contents.load_le (contents : Contents s) : load weight s.queue ≤ 259 * (s.three.i - s.four.i) := by
  rw [contents.queue]
  exact (load_messages ..).2

theorem Contents.three_of_full (contents : Contents s)
    (full : capacity - load weight s.queue < weight (message s.three.i)) : s.four.i + 3 ≤ s.three.i := by
  have upper := contents.load_le
  have heavy := (weight_message s.three.i).2
  have size : capacity = 1024 := rfl
  omega

theorem Contents.first (contents : Contents s) (mailbox : s.queue = m :: rest) :
    m = message s.four.i ∧ s.four.i < s.three.i ∧
      rest = (range' (s.four.i + 1) (s.three.i - (s.four.i + 1))).map message := by
  have count := contents.length
  rw [mailbox, length_cons] at count
  have split := contents.queue
  rw [mailbox, show s.three.i - s.four.i = s.three.i - (s.four.i + 1) + 1 by omega, range'_succ] at split
  obtain ⟨same, tail⟩ := cons.inj split
  exact ⟨same, by omega, tail⟩

theorem verified_message (i : ℕ) : Verified i (message i) := by
  refine ⟨rfl, ?_⟩
  intro j inside
  simp [message, inside]

/-! No check of a received message fails. -/

theorem Contents.toThree_size (contents : Contents s)
    (taken : BoundedFifo.Step weight capacity s.toThree (.receive m) rest) : m.size = 0 := by
  have same := contents.toThree m (taken.of_receive ▸ mem_cons_self)
  rw [same]
  rfl

theorem Contents.toFour_size (contents : Contents s)
    (taken : BoundedFifo.Step weight capacity s.toFour (.receive m) rest) : m.size = 0 := by
  have same := contents.toFour m (taken.of_receive ▸ mem_cons_self)
  rw [same]
  rfl

theorem Contents.verified (contents : Contents s)
    (taken : BoundedFifo.Step weight capacity s.queue (.receive m) rest) : Verified s.four.i m := by
  obtain ⟨rfl, -⟩ := contents.first taken.of_receive
  exact verified_message _

theorem Placed.step (placed : Placed N s) (turns : Turns s) (contents : Contents s) (step : Step N s event s') :
    Placed N s' := by
  have order := turns.order
  cases step with
  | threeWaits | threeGoesOn | threeEnds | threeTakesToken | threeFull | threeRoom | threeGivesToken | threeSends
  | threeLastToken =>
    refine ⟨?_, placed.four⟩
    obtain ⟨⟩ := placed.three
    constructor <;> grind
  | fourWaits | fourGoesOn | fourEnds | fourTakesToken | fourEmpty | fourMore | fourGivesToken | fourReceives =>
    refine ⟨placed.three, ?_⟩
    obtain ⟨⟩ := placed.four
    constructor <;> grind
  | threeBadToken here taken bad => exact absurd (contents.toThree_size taken) bad
  | fourBadToken here taken bad => exact absurd (contents.toFour_size taken) bad
  | fourBadMessage here taken bad => exact absurd (contents.verified taken) bad

@[simp] theorem turn_true : turn true = 0 := rfl

@[simp] theorem turn_false : turn false = 1 := rfl

/-- While `process3` runs there is one turn. -/
theorem Turns.shared (turns : Turns s) (running : s.three.pc ≠ .done) :
    s.toThree.length + s.toFour.length + turn s.three.wait + turn s.four.wait = 1 := by
  simpa [running] using turns.one

theorem Placed.turn_four (placed : Placed N s) (handing : s.four.pc = .sendToken) : turn s.four.wait = 1 := by
  rw [placed.four.turn (.inr handing), turn_false]

section

variable (turns : Turns s)
include turns

theorem Turns.four_alone (running : s.three.pc ≠ .done) (placed : Placed N s)
    (own : turn s.four.wait = 1) : ¬(s.three.pc = .sendToken ∨ 0 < s.toFour.length) := by
  have shared := turns.shared running
  rintro (handing | token)
  · rw [placed.three.turn (.inr handing), turn_false] at shared
    omega
  · omega

theorem Turns.three_alone (running : s.three.pc ≠ .done) (placed : Placed N s)
    (own : turn s.three.wait = 1) : ¬(s.four.pc = .sendToken ∨ 0 < s.toThree.length) := by
  have shared := turns.shared running
  rintro (handing | token)
  · rw [placed.turn_four handing] at shared
    omega
  · omega

theorem Turns.move_three {pc : SenderPc} (leaves : s.three.pc ≠ .send ∧ s.three.pc ≠ .sendToken ∧ s.three.pc ≠ .done)
    (arrives : pc ≠ .send ∧ pc ≠ .sendToken ∧ pc ≠ .done) : Turns { s with three := { s.three with pc := pc } } where
  order := turns.order
  one := by simpa [arrives] using turns.shared leaves.2.2
  emptied := by simpa [arrives, leaves] using turns.emptied
  filled := by simpa [arrives, leaves] using turns.filled
  there := turns.there
  last := fun done => absurd done arrives.2.2

theorem Turns.move_four {pc : ReceiverPc}
    (leaves : s.four.pc ≠ .receive ∧ s.four.pc ≠ .sendToken) (arrives : pc ≠ .receive ∧ pc ≠ .sendToken) :
    Turns { s with four := { s.four with pc := pc } } where
  order := turns.order
  one := turns.one
  emptied := by simpa [arrives, leaves] using turns.emptied
  filled := by simpa [arrives, leaves] using turns.filled
  there := fun there => absurd there arrives.1
  last := by simpa [arrives, leaves] using turns.last

theorem Turns.step_three (placed : Placed N s) (contents : Contents s) (step : Step N s .three s') : Turns s' := by
  have order := turns.order
  cases step with
  | threeWaits here | threeGoesOn here | threeEnds here => exact turns.move_three (by simp [here]) (by simp)
  | threeBadToken here taken bad => exact absurd (contents.toThree_size taken) bad
  | @threeTakesToken m rest here taken good =>
    have waits := placed.three.waits here
    have shared : rest.length + 1 + s.toFour.length + turn s.four.wait = 1 := by
      simpa [taken.of_receive, waits] using turns.shared (by simp [here])
    refine ⟨order, ?_, ?_, ?_, turns.there, nofun⟩
    · simp
      omega
    · rintro (handing | more)
      · have := placed.turn_four handing
        omega
      · change 0 < rest.length at more
        omega
    · rintro - (⟨⟨⟩⟩ | more)
      change 0 < s.toFour.length at more
      omega
  | threeFull here full =>
    have enough := contents.three_of_full full
    refine ⟨order, ?_, ?_, ?_, turns.there, nofun⟩
    · simpa using turns.shared (by simp [here])
    · simpa [here] using turns.emptied
    · intro _ _
      change s.four.i + 1 + _ ≤ s.three.i
      split <;> omega
  | threeRoom here room =>
    have own : turn s.three.wait = 1 := by simp [placed.three.turn (.inl here)]
    refine ⟨order, ?_, ?_, ?_, turns.there, nofun⟩
    · simpa using turns.shared (by simp [here])
    · intro other
      exact absurd other (turns.three_alone (by simp [here]) placed own)
    · simpa [here] using turns.filled
  | threeGivesToken here given =>
    obtain ⟨rfl, -⟩ := given.of_send
    have own : turn s.three.wait = 1 := by simp [placed.three.turn (.inr here)]
    have shared := turns.shared (by simp [here])
    refine ⟨order, ?_, ?_, ?_, turns.there, nofun⟩
    · simp
      omega
    · intro other
      exact absurd other (turns.three_alone (by simp [here]) placed own)
    · intro _ _
      exact turns.filled (by simp [here]) (.inl here)
  | threeSends here sent =>
    refine ⟨Nat.le_succ_of_le order, ?_, ?_, ?_, ?_, nofun⟩
    · simpa using turns.shared (by simp [here])
    · simpa [here] using turns.emptied
    · rintro - (⟨⟨⟩⟩ | more)
      exact Nat.le_succ_of_le (turns.filled (by simp [here]) (.inr more))
    · intro pc wait
      exact Nat.lt_succ_of_lt (turns.there pc wait)
  | threeLastToken here given =>
    obtain ⟨rfl, -⟩ := given.of_send
    have shared := turns.shared (by simp [here])
    refine ⟨order, ?_, ?_, fun running => absurd rfl running, turns.there, ?_⟩
    · simp
      omega
    · simpa [here] using turns.emptied
    · intro _
      change 1 + _ ≤ (s.toFour ++ [s.three.token]).length + turn s.four.wait
      rw [length_append, length_singleton]
      split
      · have := placed.turn_four ‹_›
        omega
      · omega

theorem Turns.step_four (placed : Placed N s) (contents : Contents s) (step : Step N s event s')
    (four : event ≠ .three) : Turns s' := by
  have order := turns.order
  have count := contents.length
  cases step with
  | threeWaits | threeGoesOn | threeEnds | threeTakesToken | threeBadToken | threeFull | threeRoom | threeGivesToken
  | threeSends | threeLastToken => exact absurd rfl four
  | fourWaits here | fourGoesOn here | fourEnds here => exact turns.move_four (by simp [here]) (by simp)
  | fourBadToken here taken bad => exact absurd (contents.toFour_size taken) bad
  | fourBadMessage here taken bad => exact absurd (contents.verified taken) bad
  | @fourTakesToken m rest here taken good =>
    have waits := placed.four.waits here
    have token : 0 < s.toFour.length := by simp [taken.of_receive]
    refine ⟨order, ?_, ?_, ?_, ?_, ?_⟩
    · have one := turns.one
      simp [taken.of_receive, waits] at one ⊢
      omega
    · simpa [here] using turns.emptied
    · intro running _
      simpa [here] using turns.filled running (.inr token)
    · intro _ _
      change s.four.i < s.three.i
      by_cases done : s.three.pc = .done
      · rw [placed.three.all (.inr done)]
        exact placed.four.more (.inl here)
      · have left := turns.filled done (.inr token)
        omega
    · simp
  | fourEmpty here empty =>
    refine ⟨order, turns.one, ?_, ?_, (nofun), ?_⟩
    · intro _
      change s.three.i + _ ≤ s.four.i + 1
      split <;> omega
    · simpa [here] using turns.filled
    · intro done
      have all := placed.three.all (.inr done)
      have more := placed.four.more (.inr (.inl here))
      omega
  | fourMore here more =>
    have wait := placed.four.turn (.inl here)
    refine ⟨order, turns.one, ?_, ?_, ?_, ?_⟩
    · simpa [here] using turns.emptied
    · simpa [wait] using turns.filled
    · intro _ _
      change s.four.i < s.three.i
      omega
    · simpa [here] using turns.last
  | fourGivesToken here given =>
    obtain ⟨rfl, -⟩ := given.of_send
    have own := placed.turn_four here
    refine ⟨order, ?_, ?_, ?_, (fun _ turn => by cases turn), ?_⟩
    · have one := turns.one
      simp [own] at one ⊢
      omega
    · intro _
      exact turns.emptied (.inl here)
    · intro running other
      exact absurd other (turns.four_alone running placed own)
    · intro done
      have last := turns.last done
      simp [here] at last ⊢
      omega
  | fourReceives here taken good =>
    obtain ⟨-, there, -⟩ := contents.first taken.of_receive
    refine ⟨there, turns.one, ?_, ?_, (nofun), ?_⟩
    · rintro (⟨⟨⟩⟩ | token)
      exact Nat.le_succ_of_le (turns.emptied (.inr token))
    · intro running other
      have wait : s.four.wait = true := by
        by_contra own
        exact turns.four_alone running placed (by simp [own]) other
      simpa [here, wait] using turns.filled running other
    · simpa [here] using turns.last

theorem Turns.step (placed : Placed N s) (contents : Contents s) (step : Step N s event s') : Turns s' := by
  cases event with
  | three => exact turns.step_three placed contents step
  | four | received m => exact turns.step_four placed contents step nofun

end

/-- Only messages of `process3` and tokens get into the mailboxes. -/
theorem Contents.step (contents : Contents s) (turns : Turns s) (step : Step N s event s') : Contents s' := by
  obtain ⟨queue, toThree, toFour, token, room⟩ := id contents
  have order := turns.order
  cases step with
  | threeWaits | threeGoesOn | threeEnds | threeFull =>
    exact ⟨queue, toThree, toFour, token, nofun⟩
  | threeTakesToken here taken good =>
    have mailbox := taken.of_receive
    rw [mailbox, forall_mem_cons] at toThree
    refine ⟨queue, toThree.2, toFour, toThree.1, fun _ _ => ?_⟩
    -- The mailbox was empty when the token was sent; there is one message at most since.
    have few := turns.emptied (.inr (by simp [mailbox]))
    have light := contents.load_le
    have heavy := (weight_message s.three.i).2
    have size : capacity = 1024 := rfl
    change load weight s.queue + weight (message s.three.i) ≤ capacity
    omega
  | threeBadToken here taken bad =>
    rw [taken.of_receive, forall_mem_cons] at toThree
    exact ⟨queue, toThree.2, toFour, toThree.1, nofun⟩
  | threeRoom here enough =>
    refine ⟨queue, toThree, toFour, token, fun _ _ => ?_⟩
    have heavy := (weight_message s.three.i).1
    change load weight s.queue + weight (message s.three.i) ≤ capacity
    omega
  | threeGivesToken here given =>
    obtain ⟨rfl, -⟩ := given.of_send
    exact ⟨queue, toThree, forall_mem_append.2 ⟨toFour, by simp⟩, rfl, fun _ turn => by cases turn⟩
  | threeSends here sent =>
    obtain ⟨rfl, -⟩ := sent.of_send
    refine ⟨?_, toThree, toFour, token, nofun⟩
    change s.queue ++ [message s.three.i] = (range' s.four.i (s.three.i + 1 - s.four.i)).map message
    rw [queue, show s.three.i + 1 - s.four.i = s.three.i - s.four.i + 1 by omega, range'_concat, map_append,
      map_singleton, Nat.one_mul, Nat.add_sub_cancel' order]
  | threeLastToken here given =>
    obtain ⟨rfl, -⟩ := given.of_send
    rw [token]
    exact ⟨queue, toThree, forall_mem_append.2 ⟨toFour, by simp⟩, token, nofun⟩
  | fourWaits | fourGoesOn | fourEnds | fourEmpty | fourMore => exact ⟨queue, toThree, toFour, token, room⟩
  | fourTakesToken here taken good | fourBadToken here taken bad =>
    rw [taken.of_receive, forall_mem_cons] at toFour
    exact ⟨queue, toThree, toFour.2, token, room⟩
  | fourGivesToken here given =>
    obtain ⟨rfl, -⟩ := given.of_send
    exact ⟨queue, forall_mem_append.2 ⟨toThree, by simp⟩, toFour, token, room⟩
  | fourReceives here taken good =>
    have mailbox := taken.of_receive
    obtain ⟨-, -, rest⟩ := contents.first mailbox
    refine ⟨rest, toThree, toFour, token, fun there turn => ?_⟩
    have before := room there turn
    rw [mailbox] at before
    simp only [load, map_cons, sum_cons] at before ⊢
    omega
  | fourBadMessage here taken bad => exact absurd (contents.verified taken) bad

structure Inv (N : ℕ) (s : State) : Prop where
  placed : Placed N s
  turns : Turns s
  contents : Contents s

theorem Inv.init (N : ℕ) : Inv N {} where
  placed := by
    refine ⟨?_, ?_⟩
    all_goals constructor <;> simp
  turns := by constructor <;> simp [turn]
  contents := by constructor <;> simp

theorem Inv.step (inv : Inv N s) (step : Step N s event s') : Inv N s' :=
  ⟨inv.placed.step inv.turns inv.contents step, inv.turns.step inv.placed inv.contents step,
    inv.contents.step inv.turns step⟩

theorem load_tokens {mailbox : List Message} (tokens : ∀ m ∈ mailbox, m = token) :
    load weight mailbox = 4 * mailbox.length := by
  induction mailbox with
  | nil => rfl
  | cons first rest ih =>
    obtain ⟨rfl, others⟩ := forall_mem_cons.1 tokens
    have tail := ih others
    simp only [load, map_cons, sum_cons, length_cons] at tail ⊢
    rw [show weight token = 4 from rfl]
    omega

section

variable (inv : Inv N s)
include inv

theorem Inv.room_three : load weight s.toThree + weight token ≤ capacity := by
  have one := inv.turns.one
  rw [load_tokens inv.contents.toThree, show weight token = 4 from rfl, show capacity = 1024 from rfl]
  split_ifs at one <;> omega

theorem Inv.room_four : load weight s.toFour + weight token ≤ capacity := by
  have one := inv.turns.one
  rw [load_tokens inv.contents.toFour, show weight token = 4 from rfl, show capacity = 1024 from rfl]
  split_ifs at one <;> omega

/-- Where `process3` can be held up. -/
theorem Inv.three_held (held : s.ThreeBlocked ∨ s.ThreeFinished) : s.three.pc = .recvToken ∧ s.toThree = [] ∨
      s.three.pc = .send ∧ s.three.wait = true ∧ s.four.i + 3 ≤ s.three.i ∨ s.three.pc = .done := by
  rcases held with blocked | finished
  · have free := inv.room_four
    unfold State.ThreeBlocked at blocked
    cases pc : s.three.pc with
    | recvToken => exact .inl ⟨rfl, by simpa [pc] using blocked⟩
    | send =>
      simp only [pc] at blocked
      refine .inr (.inl ⟨rfl, ?_, ?_⟩)
      · by_contra turn
        have room := inv.contents.room pc (by simpa using turn)
        omega
      · have heavy := (weight_message s.three.i).1
        exact inv.contents.three_of_full (by omega)
    | sendToken =>
      simp only [pc] at blocked
      omega
    | lastToken =>
      simp only [pc, inv.contents.token] at blocked
      omega
    | loop | stat | done | failed => simp [pc] at blocked
  · exact .inr (.inr (finished.resolve_right inv.placed.three.fine))

/-- Where `process4` can be held up before its last message. -/
theorem Inv.four_held (unfinished : s.four.i < N) (held : s.FourBlocked ∨ s.FourFinished) :
    s.four.pc = .recvToken ∧ s.toFour = [] ∨ s.four.pc = .receive ∧ s.four.wait = true ∧ s.three.i = s.four.i := by
  rcases held with blocked | finished
  · have free := inv.room_three
    unfold State.FourBlocked at blocked
    cases pc : s.four.pc with
    | recvToken => exact .inl ⟨rfl, by simpa [pc] using blocked⟩
    | receive =>
      simp only [pc] at blocked
      have none := inv.contents.length
      rw [blocked, length_nil] at none
      have order := inv.turns.order
      refine .inr ⟨rfl, ?_, by omega⟩
      by_contra turn
      have there := inv.turns.there pc (by simpa using turn)
      omega
    | sendToken =>
      simp only [pc] at blocked
      omega
    | loop | stat | done | failed => simp [pc] at blocked
  · rcases finished with done | failed
    · exact absurd (inv.placed.four.all done) unfinished.ne
    · exact absurd failed inv.placed.four.fine

theorem Inv.not_stuck (unfinished : s.four.i < N) : ¬s.Stuck := by
  rintro ⟨heldThree, heldFour⟩
  have one := inv.turns.one
  rcases inv.three_held heldThree with ⟨pc, empty⟩ | ⟨pc, wait, full⟩ | done
  · -- `process3` waits for a token, so `process4` has the turn or a token that came after enough messages.
    have wait := inv.placed.three.waits pc
    rcases inv.four_held unfinished heldFour with ⟨pc', empty'⟩ | ⟨pc', wait', none⟩
    · have wait' := inv.placed.four.waits pc'
      simp [empty, empty', wait, wait', pc] at one
    · have token : s.toFour.length = 1 := by simpa [empty, wait, wait', pc] using one
      have enough := inv.turns.filled (by simp [pc]) (.inr (by omega))
      omega
  · -- `process3` waits for room, so `process4` has not emptied the mailbox yet.
    rcases inv.four_held unfinished heldFour with ⟨pc', empty'⟩ | ⟨pc', wait', none⟩
    · have wait' := inv.placed.four.waits pc'
      have token : s.toThree.length = 1 := by simpa [empty', wait, wait', pc] using one
      have few := inv.turns.emptied (.inr (by omega))
      omega
    · omega
  · -- `process3` has ended, so all messages and the last token have been sent.
    have all := inv.placed.three.all (.inr done)
    rcases inv.four_held unfinished heldFour with ⟨pc', empty'⟩ | ⟨pc', wait', none⟩
    · have wait' := inv.placed.four.waits pc'
      have last := inv.turns.last done
      simp [empty', wait'] at last
    · omega

def receivedMessages (events : List Event) : List Message := events.filterMap Event.message?

/-- The message that is received is the next one of `process3`. -/
theorem received_step (step : Step N s event s') {events : List Event}
    (received : receivedMessages events = (range s.four.i).map message) :
    receivedMessages (events ++ [event]) = (range s'.four.i).map message := by
  rw [receivedMessages, filterMap_append]
  change receivedMessages events ++ _ = _
  rw [received]
  cases step with
  | fourReceives here taken good =>
    obtain ⟨rfl, -⟩ := inv.contents.first taken.of_receive
    simp [Event.message?, range_succ]
  | fourBadMessage here taken bad => exact absurd (inv.contents.verified taken) bad
  | threeWaits | threeGoesOn | threeEnds | threeTakesToken | threeBadToken | threeFull | threeRoom | threeGivesToken
  | threeSends | threeLastToken | fourWaits | fourGoesOn | fourEnds | fourTakesToken | fourBadToken | fourEmpty
  | fourMore
  | fourGivesToken => simp [Event.message?]

end

/-- In any interleaving `process4` receives the messages of `process3` in order, and until it has all of them the
programs are not both held up. -/
theorem turn_taking (N : ℕ) {events : List Event} {s : State} (run : Run (Step N) {} events s) :
    receivedMessages events = (range (receivedMessages events).length).map message ∧
      ((receivedMessages events).length < N → ¬s.Stuck) := by
  have reached := run.invariant_labels
    (fun events s => Inv N s ∧ receivedMessages events = (range s.four.i).map message)
    (fun before step => ⟨before.1.step step, received_step before.1 step before.2⟩) ⟨.init N, rfl⟩
  obtain ⟨inv, received⟩ := reached
  have count : (receivedMessages events).length = s.four.i := by simp [received]
  rw [count]
  exact ⟨received, inv.not_stuck⟩

/-- The first message of a thousand: `process4` finds no message and hands the turn over. -/
theorem turn_taking_first_message :
    ∃ s, Run (Step 1000) {} [.four, .four, .four, .three, .three, .three, .received (message 0)] s ∧ ¬s.Stuck := by
  have first : Run (Step 1000) {} [.four] _ := .single (.fourGoesOn rfl (by decide) rfl)
  have second := first.snoc (.fourEmpty rfl rfl)
  have third := second.snoc (.fourGivesToken rfl (.send (by decide)))
  have fourth := third.snoc (.threeWaits rfl (by decide) rfl)
  have fifth := fourth.snoc (.threeTakesToken rfl (.receive token []) rfl)
  have sixth := fifth.snoc (.threeSends rfl (.send (by decide)))
  have seventh := sixth.snoc (.fourReceives rfl (.receive (message 0) []) (verified_message 0))
  exact ⟨_, seventh, (turn_taking 1000 seventh).2 (by decide)⟩

end MicroOs.TurnTaking
