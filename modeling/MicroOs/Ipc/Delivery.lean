import MicroOs.Ipc.Mbox
import MicroOs.Library.BoundedFifo

/-! # Delivery of messages

Any number of threads call `mbox_send` and `mbox_recv` on one mailbox. Each statement of the two functions is a step,
and the threads take their steps in any order; the lock of the mailbox lets one thread at a time go on. Together they
make the mailbox a queue of messages that is bounded by the number of their bytes.
-/

namespace MicroOs.Ipc

open BoundedFifo List

/-- Where a thread is in `mbox_send`. Inside of `condition_wait` it is asleep, then woken. -/
inductive SendPoint
  | enter | test | asleep | woken | copy | move | signal | count | leave
deriving DecidableEq

/-- Where a thread is in `mbox_recv`. -/
inductive RecvPoint
  | enter | test | asleep | woken | header | skip | body | move | broadcast | count | leave
deriving DecidableEq

/-- What a thread does, with the memory of the message that it sends or receives. -/
inductive Pc
  | idle
  | send (point : SendPoint) (m : Memory)
  | recv (point : RecvPoint) (m : Memory)

/-- A mailbox with its lock, its conditions and the threads that use it. -/
structure Mail where
  mbox : Mbox
  owner : Option ℕ := none
  moreSpace : List ℕ := []
  moreData : List ℕ := []
  pc : ℕ → Pc := fun _ => .idle

inductive MailEvent
  | callSend (t : ℕ) (m : Memory)
  | callRecv (t : ℕ) (m : Memory)
  | internal (t : ℕ)
  | returnSend (t : ℕ) (m : Memory)
  | returnRecv (t : ℕ) (m : Memory)

/-- Where a thread goes on that takes the lock. -/
def Pc.acquires : Pc → Option Pc
  | .send .enter m => some (.send .test m)
  | .send .woken m => some (.send .test m)
  | .recv .enter m => some (.recv .test m)
  | .recv .woken m => some (.recv .test m)
  | _ => none

def Pc.wake : Pc → Pc
  | .send .asleep m => .send .woken m
  | .recv .asleep m => .recv .woken m
  | pc => pc

namespace Mail

variable (s : Mail)

def goto (t : ℕ) (pc : Pc) : Mail := { s with pc := Function.update s.pc t pc }

@[simp] theorem goto_self (t : ℕ) (pc : Pc) : (s.goto t pc).pc t = pc := Function.update_self ..

theorem goto_other {t u : ℕ} (other : u ≠ t) (pc : Pc) : (s.goto t pc).pc u = s.pc u := Function.update_of_ne other ..

def wake (threads : List ℕ) : Mail := { s with pc := fun t => if t ∈ threads then (s.pc t).wake else s.pc t }

/-- `condition_signal` on `moreData`. -/
def signalData : Mail :=
  match s.moreData with
  | [] => s
  | t :: rest => { s with moreData := rest }.wake [t]

/-- `condition_broadcast` on `moreSpace`. -/
def broadcastSpace : Mail := { s with moreSpace := [] }.wake s.moreSpace

theorem signalData_unchanged : s.signalData.mbox = s.mbox ∧ s.signalData.owner = s.owner := by
  unfold signalData
  split
  all_goals exact ⟨rfl, rfl⟩

end Mail

/-- The statements that one of the functions executes on the mailbox. -/
inductive Statement : Mbox → Pc → Mbox → Pc → Prop
  | room {q : Mbox} {m : Memory} (enough : q.spaceAvailable.slt (msgSize m) = false) :
      Statement q (.send .test m) q (.send .copy m)
  | copy (q : Mbox) (m : Memory) : Statement q (.send .copy m) (q.copyIn m) (.send .move m)
  | moveHead (q : Mbox) (m : Memory) : Statement q (.send .move m) (q.moveHead m) (.send .signal m)
  | countUp (q : Mbox) (m : Memory) : Statement q (.send .count m) q.countUp (.send .leave m)
  | data {q : Mbox} {m : Memory} (some : q.count ≠ 0#32) : Statement q (.recv .test m) q (.recv .header m)
  | header (q : Mbox) (m : Memory) : Statement q (.recv .header m) q (.recv .skip (q.headerOut m))
  | skip (q : Mbox) (m : Memory) : Statement q (.recv .skip m) q.skipHeader (.recv .body m)
  | body (q : Mbox) (m : Memory) : Statement q (.recv .body m) q (.recv .move (q.bodyOut m))
  | moveTail (q : Mbox) (m : Memory) : Statement q (.recv .move m) (q.moveTail m) (.recv .broadcast m)
  | countDown (q : Mbox) (m : Memory) : Statement q (.recv .count m) q.countDown (.recv .leave m)

inductive MailStep (s : Mail) : MailEvent → Mail → Prop
  | callSend {t : ℕ} (m : Memory) (idle : s.pc t = .idle) : MailStep s (.callSend t m) (s.goto t (.send .enter m))
  | callRecv {t : ℕ} (m : Memory) (idle : s.pc t = .idle) : MailStep s (.callRecv t m) (s.goto t (.recv .enter m))
  | acquire {t : ℕ} {pc : Pc} (next : (s.pc t).acquires = some pc) (free : s.owner = none) :
      MailStep s (.internal t) ({ s with owner := some t }.goto t pc)
  | statement {t : ℕ} {q : Mbox} {pc : Pc} (executed : Statement s.mbox (s.pc t) q pc) :
      MailStep s (.internal t) ({ s with mbox := q }.goto t pc)
  | waitSpace {t : ℕ} {m : Memory} (test : s.pc t = .send .test m)
      (full : s.mbox.spaceAvailable.slt (msgSize m) = true) : MailStep s (.internal t)
        ({ s with owner := none, moreSpace := s.moreSpace ++ [t] }.goto t (.send .asleep m))
  | waitData {t : ℕ} {m : Memory} (test : s.pc t = .recv .test m) (empty : s.mbox.count = 0#32) :
      MailStep s (.internal t) ({ s with owner := none, moreData := s.moreData ++ [t] }.goto t (.recv .asleep m))
  | signal {t : ℕ} {m : Memory} (point : s.pc t = .send .signal m) :
      MailStep s (.internal t) (s.signalData.goto t (.send .count m))
  | broadcast {t : ℕ} {m : Memory} (point : s.pc t = .recv .broadcast m) :
      MailStep s (.internal t) (s.broadcastSpace.goto t (.recv .count m))
  | returnSend {t : ℕ} {m : Memory} (point : s.pc t = .send .leave m) :
      MailStep s (.returnSend t m) ({ s with owner := none }.goto t .idle)
  | returnRecv {t : ℕ} {m : Memory} (point : s.pc t = .recv .leave m) :
      MailStep s (.returnRecv t m) ({ s with owner := none }.goto t .idle)

/-- The points behind the loops that wait. -/
def SendPoint.working : SendPoint → Bool
  | .copy | .move | .signal | .count | .leave => true
  | _ => false

def RecvPoint.working : RecvPoint → Bool
  | .header | .skip | .body | .move | .broadcast | .count | .leave => true
  | _ => false

/-- The thread is between `lock_acquire` and `lock_release`. -/
def Pc.inside : Pc → Bool
  | .idle => false
  | .send point _ => point == .test || point.working
  | .recv point _ => point == .test || point.working

def SendPoint.finish (m : Memory) (q : Mbox) : SendPoint → Mbox
  | .copy => ((q.copyIn m).moveHead m).countUp
  | .move => (q.moveHead m).countUp
  | .signal | .count => q.countUp
  | _ => q

/-- What the rest of `mbox_recv` does to the message and the mailbox. -/
def RecvPoint.finish (m : Memory) (q : Mbox) : RecvPoint → Memory × Mbox
  | .header =>
    let m := q.skipHeader.bodyOut (q.headerOut m)
    (m, (q.skipHeader.moveTail m).countDown)
  | .skip =>
    let m := q.skipHeader.bodyOut m
    (m, (q.skipHeader.moveTail m).countDown)
  | .body =>
    let m := q.bodyOut m
    (m, (q.moveTail m).countDown)
  | .move => (m, (q.moveTail m).countDown)
  | .broadcast | .count => (m, q.countDown)
  | _ => (m, q)

/-- The mailbox while a thread is at a point: it holds the messages, or it will when the thread is done. -/
def Underway (q : Mbox) (queue : List (List Byte)) : Pc → Prop
  | .idle => Stored q queue
  | .send point m =>
    if point.working then Stored (point.finish m q) (queue ++ [content m]) else Stored q queue
  | .recv point m =>
    if point.working then ∃ rest, queue = content (point.finish m q).1 :: rest ∧ Stored (point.finish m q).2 rest
    else Stored q queue

/-- A message that is being sent fits into the buffer. -/
def Pc.Small : Pc → Prop
  | .send _ m => Fits m
  | _ => True

variable {s s' : Mail} {t : ℕ} {q q' : Mbox} {pc pc' : Pc} {queue queue' : List (List Byte)} {m : Memory}

theorem underway_outside (outside : pc.inside = false) : Underway q queue pc ↔ Stored q queue := by
  cases pc with
  | idle => rfl
  | send point m | recv point m =>
    simp only [Pc.inside, Bool.or_eq_false_iff] at outside
    simp [Underway, outside.2]

theorem Statement.inside (executed : Statement q pc q' pc') : pc.inside = true ∧ pc'.inside = true := by
  cases executed <;> exact ⟨rfl, rfl⟩

theorem Statement.underway (executed : Statement q pc q' pc') (small : pc.Small) (before : Underway q queue pc) :
    pc'.Small ∧ Underway q' queue pc' := by
  cases executed with
  | room enough => exact ⟨small, Stored.send before small enough⟩
  | copy m | moveHead m | countUp m => exact ⟨small, before⟩
  | @data m some =>
    have stored : Stored q queue := before
    cases queue with
    | nil => exact absurd (BitVec.eq_of_toNat_eq stored.count) some
    | cons message rest =>
      obtain ⟨same, stored⟩ := stored.receive m
      exact ⟨trivial, rest, by rw [← same]; rfl, stored⟩
  | header m | skip m | body m | moveTail m | countDown m => exact ⟨trivial, before⟩

theorem Pc.acquires_test (q : Mbox) (queue : List (List Byte)) (next : pc.acquires = some pc') :
    pc'.inside = true ∧ (pc.Small → pc'.Small) ∧ (Underway q queue pc' ↔ Stored q queue) := by
  unfold Pc.acquires at next
  split at next
  · cases next
    exact ⟨rfl, id, .rfl⟩
  · cases next
    exact ⟨rfl, id, .rfl⟩
  · cases next
    exact ⟨rfl, id, .rfl⟩
  · cases next
    exact ⟨rfl, id, .rfl⟩
  · cases next

theorem Pc.wake_inside (pc : Pc) : pc.wake.inside = pc.inside := by
  unfold Pc.wake
  split
  · rfl
  · rfl
  · rfl

theorem Pc.Small.wake (small : pc.Small) : pc.wake.Small := by
  unfold Pc.wake
  split
  · exact small
  · trivial
  · exact small

/-- The mailbox holds the messages of `queue`, up to what the thread with the lock has begun. -/
structure MailInv (s : Mail) (queue : List (List Byte)) : Prop where
  critical : ∀ t, (s.pc t).inside = true ↔ s.owner = some t
  small : ∀ t, (s.pc t).Small
  free : s.owner = none → Stored s.mbox queue
  underway : ∀ t, s.owner = some t → Underway s.mbox queue (s.pc t)

/-- The other threads stay inside or outside of the lock. -/
def Others (s s' : Mail) (t : ℕ) : Prop :=
  ∀ u, u ≠ t → (s'.pc u).inside = (s.pc u).inside ∧ ((s.pc u).Small → (s'.pc u).Small)

theorem others_goto (pcs : s'.pc = s.pc) (pc : Pc) : Others s (s'.goto t pc) t := by
  intro u other
  rw [Mail.goto_other s' other, pcs]
  exact ⟨rfl, id⟩

theorem others_wake (pcs : s'.pc = s.pc) (threads : List ℕ) (pc : Pc) : Others s ((s'.wake threads).goto t pc) t := by
  intro u other
  rw [Mail.goto_other _ other, Mail.wake, pcs]
  by_cases woken : u ∈ threads
  · simp only [woken]
    exact ⟨Pc.wake_inside _, Pc.Small.wake⟩
  · simp only [woken, if_false]
    exact ⟨trivial, id⟩

theorem others_signalData (pc : Pc) : Others s (s.signalData.goto t pc) t := by
  unfold Mail.signalData
  split
  · exact others_goto rfl pc
  · exact others_wake rfl _ pc

section Step

variable (inv : MailInv s queue)

include inv

theorem MailInv.call (idle : s.pc t = .idle) (outside : pc.inside = false) (small : pc.Small) :
    MailInv (s.goto t pc) queue := by
  have notOwner : s.owner ≠ some t := by
    rw [ne_eq, ← inv.critical, idle]
    exact Bool.false_ne_true
  refine ⟨?_, ?_, inv.free, ?_⟩
  · intro u
    rcases eq_or_ne u t with rfl | other
    · rw [Mail.goto_self, outside]
      exact iff_of_false Bool.false_ne_true notOwner
    · rw [Mail.goto_other s other]
      exact inv.critical u
  · intro u
    rcases eq_or_ne u t with rfl | other
    · rwa [Mail.goto_self]
    · rw [Mail.goto_other s other]
      exact inv.small u
  · intro u owned
    have other : u ≠ t := by
      rintro rfl
      exact notOwner owned
    rw [Mail.goto_other s other]
    exact inv.underway u owned

theorem MailInv.holds (inside : (s.pc t).inside = true) : s.owner = some t ∧ Underway s.mbox queue (s.pc t) := by
  have owner := (inv.critical t).mp inside
  exact ⟨owner, inv.underway t owner⟩

theorem MailInv.holds_at (point : s.pc t = pc) (inside : pc.inside = true) :
    s.owner = some t ∧ pc.Small ∧ Underway s.mbox queue pc := by
  subst point
  obtain ⟨owner, underway⟩ := inv.holds inside
  exact ⟨owner, inv.small t, underway⟩

/-- A step of the thread that has, takes or returns the lock. -/
theorem MailInv.alone (before : s.owner = none ∨ s.owner = some t) (others : Others s (s'.goto t pc) t)
    (small : pc.Small) (owner : s'.owner = if pc.inside then some t else none) (result : Underway s'.mbox queue' pc) :
    MailInv (s'.goto t pc) queue' := by
  have here : (s'.goto t pc).owner = if pc.inside then some t else none := owner
  refine ⟨?_, ?_, ?_, ?_⟩
  · intro u
    rcases eq_or_ne u t with rfl | other
    · rw [Mail.goto_self, here]
      cases pc.inside with
      | true | false => simp
    · rw [(others u other).1, inv.critical, here]
      apply iff_of_false
      · rcases before with free | own
        · simp [free]
        · simp [own, other.symm]
      · split_ifs
        · simp [other.symm]
        · simp
  · intro u
    rcases eq_or_ne u t with rfl | other
    · rwa [Mail.goto_self]
    · exact (others u other).2 (inv.small u)
  · intro free
    rw [here] at free
    cases outside : pc.inside with
    | true => simp [outside] at free
    | false => exact (underway_outside outside).mp result
  · intro u owned
    rw [here] at owned
    split_ifs at owned
    cases owned
    rwa [Mail.goto_self]

end Step

def MailEvent.seen : MailEvent → Option (Action (List Byte))
  | .returnSend _ m => some (.send (content m))
  | .returnRecv _ m => some (.receive (content m))
  | _ => none

def FitMessages (_ : Mail) : MailEvent → Prop
  | .callSend _ m => Fits m
  | _ => True

theorem flatten_length_eq_load (queue : List (List Byte)) : queue.flatten.length = load length queue :=
  length_flatten

/-- Each step sends a message at the end of the queue, receives the first one, or leaves the queue alone. -/
theorem MailInv.step {event : MailEvent} (inv : MailInv s queue) (taken : Guarded FitMessages MailStep s event s') :
    ∃ queue', MailInv s' queue' ∧ Run (Step length 1024) queue event.seen.toList queue' := by
  obtain ⟨fit, taken⟩ := taken
  cases taken with
  | callSend m idle => exact ⟨queue, inv.call idle rfl fit, .nil queue⟩
  | callRecv m idle => exact ⟨queue, inv.call idle rfl trivial, .nil queue⟩
  | @acquire t pc next free =>
    obtain ⟨inside, small, test⟩ := Pc.acquires_test s.mbox queue next
    refine ⟨queue, inv.alone (.inl free) (others_goto rfl pc) (small (inv.small t)) ?_ ?_, .nil queue⟩
    · rw [if_pos inside]
    · exact test.mpr (inv.free free)
  | @statement t q pc executed =>
    obtain ⟨was, is⟩ := executed.inside
    obtain ⟨owner, before⟩ := inv.holds was
    obtain ⟨small, after⟩ := executed.underway (inv.small t) before
    refine ⟨queue, inv.alone (.inr owner) (others_goto rfl pc) small ?_ after, .nil queue⟩
    rw [if_pos is]
    exact owner
  | @waitSpace t m test full =>
    obtain ⟨owner, small, before⟩ := inv.holds_at test rfl
    exact ⟨queue, inv.alone (.inr owner) (others_goto rfl _) small rfl before, .nil queue⟩
  | @waitData t m test empty =>
    obtain ⟨owner, -, before⟩ := inv.holds_at test rfl
    exact ⟨queue, inv.alone (.inr owner) (others_goto rfl _) trivial rfl before, .nil queue⟩
  | @signal t m point =>
    obtain ⟨owner, small, before⟩ := inv.holds_at point rfl
    obtain ⟨sameMbox, sameOwner⟩ := s.signalData_unchanged
    refine ⟨queue, inv.alone (.inr owner) (others_signalData _) small ?_ ?_, .nil queue⟩
    · rw [sameOwner]
      exact owner
    · rw [sameMbox]
      exact before
  | @broadcast t m point =>
    obtain ⟨owner, -, before⟩ := inv.holds_at point rfl
    exact ⟨queue, inv.alone (.inr owner) (others_wake rfl _ _) trivial owner before, .nil queue⟩
  | @returnSend t m point =>
    obtain ⟨owner, -, before⟩ := inv.holds_at point rfl
    have stored := before
    refine ⟨_, inv.alone (.inr owner) (others_goto rfl _) trivial rfl stored, .single (.send ?_)⟩
    have room := stored.room
    rw [flatten_append, length_append, flatten_length_eq_load] at room
    simpa using room
  | @returnRecv t m point =>
    obtain ⟨owner, -, before⟩ := inv.holds_at point rfl
    obtain ⟨rest, rfl, stored⟩ := before
    exact ⟨rest, inv.alone (.inr owner) (others_goto rfl _) trivial rfl stored, .single (.receive _ rest)⟩

/-- With any callers, an open mailbox is a queue of messages that is bounded by the number of their bytes. -/
theorem mailbox_refines_fifo {events : List MailEvent} (unused : q.used = 0#32)
    (run : Run (Guarded FitMessages MailStep) { mbox := q.opened } events s) :
    ∃ queue, MailInv s queue ∧ Run (Step length 1024) [] (events.filterMap MailEvent.seen) queue := by
  have start : MailInv { mbox := q.opened } [] :=
    ⟨fun t => by simp [Pc.inside], fun t => trivial, fun _ => stored_opened unused, fun t owned => nomatch owned⟩
  exact run.simulates MailInv MailEvent.seen (fun related taken => related.step taken) start

/-- The messages sent, in the order in which the calls returned. -/
def sentMessages (events : List MailEvent) : List (List Byte) :=
  (events.filterMap MailEvent.seen).filterMap Action.sent

/-- The messages received, in the order in which the calls returned. -/
def receivedMessages (events : List MailEvent) : List (List Byte) :=
  (events.filterMap MailEvent.seen).filterMap Action.received

theorem Stored.messages (stored : Stored q queue) : ∃ messages : List Memory, queue = messages.map content ∧
    queue.flatten.length = (messages.map fun m => 4 + (size m).toNat).sum := by
  have framed := stored.framed
  clear stored
  induction queue with
  | nil => exact ⟨[], rfl, rfl⟩
  | cons message queue ih =>
    obtain ⟨m, fits, rfl⟩ := framed message (by simp)
    obtain ⟨messages, rfl, length⟩ := ih fun message member => framed message (by simp [member])
    refine ⟨m :: messages, rfl, ?_⟩
    rw [flatten_cons, length_append, length, fits.content_length, map_cons, sum_cons]

/-- Whatever the callers do, the messages received are the first ones sent, byte for byte, and the rest is in the
mailbox. Whenever the lock is free, the space is what these leave. -/
theorem mailbox_delivery {events : List MailEvent} (unused : q.used = 0#32)
    (run : Run (Guarded FitMessages MailStep) { mbox := q.opened } events s) :
    ∃ queued, sentMessages events = receivedMessages events ++ queued ∧
      (s.owner = none → ∃ messages : List Memory, queued = messages.map content ∧
        s.mbox.spaceAvailable.toNat + (messages.map fun m => 4 + (size m).toNat).sum = 1024) := by
  obtain ⟨queued, inv, fifo⟩ := mailbox_refines_fifo unused run
  refine ⟨queued, sent_eq_received_append fifo, ?_⟩
  intro free
  have stored := inv.free free
  obtain ⟨messages, same, length⟩ := stored.messages
  have room := stored.room
  refine ⟨messages, same, ?_⟩
  rw [stored.spaceAvailable]
  omega

def note : Memory := fun n => [3, 0, 0, 0, 0x61, 0x62, 0x63].getD n 0

/-- One thread sends the message and another one receives it, which leaves the mailbox empty. -/
theorem mailbox_delivery_note :
    ∃ s events, Run (Guarded FitMessages MailStep) { mbox := Mbox.opened { buffer := fun _ => 0#8 } } events s ∧
      s.owner = none ∧ sentMessages events = [[3, 0, 0, 0, 0x61, 0x62, 0x63]] ∧
      receivedMessages events = [[3, 0, 0, 0, 0x61, 0x62, 0x63]] ∧ s.mbox.spaceAvailable.toNat = 1024 := by
  have act {events : List MailEvent} {s s' : Mail} (t : ℕ) (before : Run (Guarded FitMessages MailStep)
      { mbox := Mbox.opened { buffer := fun _ => 0#8 } } events s) (taken : MailStep s (.internal t) s') :
      Run (Guarded FitMessages MailStep) { mbox := Mbox.opened { buffer := fun _ => 0#8 } }
        (events ++ [.internal t]) s' :=
    before.snoc ⟨trivial, taken⟩
  have called : Run (Guarded FitMessages MailStep) { mbox := Mbox.opened { buffer := fun _ => 0#8 } }
      [.callSend 0 note] _ := .single ⟨show Fits note by decide, .callSend _ rfl⟩
  have locked := act 0 called (.acquire rfl rfl)
  have tested := act 0 locked (.statement (.room (by decide)))
  have copied := act 0 tested (.statement (.copy _ _))
  have moved := act 0 copied (.statement (.moveHead _ _))
  have signalled := act 0 moved (.signal rfl)
  have counted := act 0 signalled (.statement (.countUp _ _))
  have sent : Run (Guarded FitMessages MailStep) _ (_ ++ [.returnSend 0 note]) _ :=
    counted.snoc ⟨trivial, .returnSend rfl⟩
  have asked : Run (Guarded FitMessages MailStep) _ (_ ++ [.callRecv 1 fun _ => 0#8]) _ :=
    sent.snoc ⟨trivial, .callRecv _ rfl⟩
  have entered := act 1 asked (.acquire rfl rfl)
  have found := act 1 entered (.statement (.data (by decide)))
  have header := act 1 found (.statement (.header _ _))
  have skipped := act 1 header (.statement (.skip _ _))
  have body := act 1 skipped (.statement (.body _ _))
  have freed := act 1 body (.statement (.moveTail _ _))
  have told := act 1 freed (.broadcast rfl)
  have less := act 1 told (.statement (.countDown _ _))
  have received : Run (Guarded FitMessages MailStep) _ (_ ++ [.returnRecv 1 _]) _ :=
    less.snoc ⟨trivial, .returnRecv rfl⟩
  obtain ⟨s, events, m, run, free, sentIs, receivedIs⟩ : ∃ s events m,
      Run (Guarded FitMessages MailStep) { mbox := Mbox.opened { buffer := fun _ => 0#8 } } events s ∧
        s.owner = none ∧ sentMessages events = [content note] ∧ receivedMessages events = [content m] :=
    ⟨_, _, _, received, rfl, rfl, rfl⟩
  obtain ⟨queued, delivered, space⟩ := mailbox_delivery rfl run
  obtain ⟨messages, rest, room⟩ := space free
  rw [sentIs, receivedIs] at delivered
  obtain ⟨same, empty⟩ := cons.inj delivered
  obtain rfl : messages = [] := map_eq_nil_iff.1 (rest.symm.trans empty.symm)
  rw [← same] at receivedIs
  exact ⟨s, events, run, free, sentIs, receivedIs, room⟩

end MicroOs.Ipc
