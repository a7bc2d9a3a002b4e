import MicroOs.Ipc.Mbox
import MicroOs.Library.Run
import MicroOs.Library.Tally

/-! # System calls on mailboxes

A process passes any `int` for a key or a handle, and any `int` is the size of a message that it sends. Only `mbox_open`
looks at what it is given. A call works under the lock of its mailbox and is one step; a call that has to wait leaves
the mailbox as it is and is tried again.

The field `used` is to be the number of users of a mailbox. It does not tell them apart.
-/

namespace MicroOs.Ipc

open Function BitVec

def maxMbox : BitVec 32 := 5#32

inductive Call
  | mboxOpen (key : BitVec 32)
  | mboxClose (q : BitVec 32)
  | mboxStat (q : BitVec 32)
  | mboxRecv (q : BitVec 32) (m : Memory)
  | mboxSend (q : BitVec 32) (m : Memory)

/-- The test of `mbox_open`. -/
def legalKey (key : BitVec 32) : Bool := key.slt maxMbox && !key.slt 0#32

/-- The index of the mailbox that a call uses. -/
def Call.access : Call → Option ℤ
  | .mboxOpen key => if legalKey key then some key.toInt else none
  | .mboxClose q | .mboxStat q | .mboxRecv q _ | .mboxSend q _ => some q.toInt

/-- What `mbox_close` does to a mailbox under its lock. -/
def Mbox.closed (q : Mbox) : Mbox := { q with used := q.used - 1#32 }

/-- What `mbox_send` does to a mailbox that has space for the message. -/
def Mbox.sent (q : Mbox) (m : Memory) : Mbox := ((q.copyIn m).moveHead m).countUp

/-- What `mbox_recv` does to a mailbox with a message in it. -/
def Mbox.received (q : Mbox) (m : Memory) : Mbox :=
  (q.skipHeader.moveTail (q.skipHeader.bodyOut (q.headerOut m))).countDown

/-- The array `Q`, with what lies around it in memory. -/
abbrev Boxes := ℤ → Mbox

/-- `Q` when the kernel starts: `mbox_init` writes to fields that are zero already. -/
def mboxInit : Boxes := fun _ => { buffer := fun _ => 0#8 }

def Boxes.set (boxes : Boxes) (i : ℤ) (q : Mbox) : Boxes := update boxes i q

inductive CallStep : Boxes → Call → Boxes → Prop
  | mboxOpen {boxes : Boxes} {key : BitVec 32} (legal : legalKey key = true) :
      CallStep boxes (.mboxOpen key) (boxes.set key.toInt (boxes key.toInt).opened)
  | illegalKey {boxes : Boxes} {key : BitVec 32} (illegal : legalKey key = false) :
      CallStep boxes (.mboxOpen key) boxes
  | mboxClose (boxes : Boxes) (q : BitVec 32) :
      CallStep boxes (.mboxClose q) (boxes.set q.toInt (boxes q.toInt).closed)
  | mboxStat (boxes : Boxes) (q : BitVec 32) : CallStep boxes (.mboxStat q) boxes
  | mboxRecv {boxes : Boxes} {q : BitVec 32} {m : Memory} (data : (boxes q.toInt).count ≠ 0#32) :
      CallStep boxes (.mboxRecv q m) (boxes.set q.toInt ((boxes q.toInt).received m))
  | waitData {boxes : Boxes} {q : BitVec 32} {m : Memory} (empty : (boxes q.toInt).count = 0#32) :
      CallStep boxes (.mboxRecv q m) boxes
  | mboxSend {boxes : Boxes} {q : BitVec 32} {m : Memory}
      (room : (boxes q.toInt).spaceAvailable.slt (msgSize m) = false) :
      CallStep boxes (.mboxSend q m) (boxes.set q.toInt ((boxes q.toInt).sent m))
  | waitSpace {boxes : Boxes} {q : BitVec 32} {m : Memory}
      (full : (boxes q.toInt).spaceAvailable.slt (msgSize m) = true) : CallStep boxes (.mboxSend q m) boxes

variable {boxes boxes' : Boxes} {call : Call} {q : Mbox} {m : Memory} {queue : List (List Byte)}

/-- The handle is one of a mailbox, and `MSG_SIZE` of a sent message is an `int` that covers its header. -/
def Call.Valid : Call → Prop
  | .mboxOpen _ => True
  | .mboxClose q | .mboxStat q | .mboxRecv q _ => 0 ≤ q.toInt ∧ q.toInt < 5
  | .mboxSend q m => (0 ≤ q.toInt ∧ q.toInt < 5) ∧ 4 ≤ (msgSize m).toInt

/-- The mailboxes hold complete messages. -/
def Sound (boxes : Boxes) : Prop := ∀ i, 0 ≤ i → i < 5 → ∃ queue, Stored (boxes i) queue

theorem legalKey_range {key : BitVec 32} (legal : legalKey key = true) : 0 ≤ key.toInt ∧ key.toInt < 5 := by
  simp only [legalKey, Bool.and_eq_true, Bool.not_eq_true', ← Bool.not_eq_true, slt_iff_toInt_lt] at legal
  exact ⟨Int.not_lt.1 legal.2, legal.1⟩

theorem Stored.of_used (stored : Stored q queue) (used : BitVec 32) : Stored { q with used := used } queue :=
  ⟨stored.count, stored.tail, stored.head, stored.room, stored.view, stored.framed⟩

theorem Stored.opened (stored : Stored q queue) : ∃ queue, Stored q.opened queue := by
  by_cases unused : q.used = 0#32
  · exact ⟨[], stored_opened unused⟩
  · refine ⟨queue, ?_⟩
    rw [Mbox.opened, if_neg unused]
    exact stored.of_used _

/-- A message for which there is space has a proper size. -/
theorem Stored.fits (stored : Stored q queue) (valid : 4 ≤ (msgSize m).toInt)
    (room : q.spaceAvailable.slt (msgSize m) = false) : Fits m := by
  have space := stored.spaceAvailable
  rw [Bool.eq_false_iff, ne_eq, slt_iff_toInt_lt, toInt_eq_toNat_of_lt (by omega)] at room
  have nonneg : (msgSize m).toInt = (msgSize m).toNat := by
    rw [toInt_eq_toNat_cond] at valid ⊢
    split at valid <;> omega
  have sum : (msgSize m).toNat = (4 + (size m).toNat) % 2 ^ 32 := by
    rw [msgSize, msgTHeaderSize, toNat_add, toNat_ofNat]
  rw [Fits]
  omega

theorem Sound.set {i : ℤ} (sound : Sound boxes) (stored : 0 ≤ i → i < 5 → ∃ queue, Stored q queue) :
    Sound (boxes.set i q) := by
  intro j nonneg bound
  rcases eq_or_ne j i with rfl | other
  · rw [Boxes.set, update_self]
    exact stored nonneg bound
  · rw [Boxes.set, update_of_ne other]
    exact sound j nonneg bound

/-- A valid call leaves complete messages in every mailbox. -/
theorem Sound.step (sound : Sound boxes) (valid : call.Valid) (step : CallStep boxes call boxes') : Sound boxes' := by
  cases step with
  | @mboxOpen key legal =>
    refine sound.set fun nonneg bound => ?_
    obtain ⟨queue, stored⟩ := sound _ nonneg bound
    exact stored.opened
  | mboxClose q =>
    refine sound.set fun nonneg bound => ?_
    obtain ⟨queue, stored⟩ := sound _ nonneg bound
    exact ⟨queue, stored.of_used _⟩
  | mboxRecv data =>
    refine sound.set fun nonneg bound => ?_
    obtain ⟨queue, stored⟩ := sound _ nonneg bound
    cases queue with
    | nil => exact absurd (eq_of_toNat_eq stored.count) data
    | cons message rest => exact ⟨rest, (stored.receive _).2⟩
  | mboxSend room =>
    refine sound.set fun nonneg bound => ?_
    obtain ⟨queue, stored⟩ := sound _ nonneg bound
    exact ⟨_, stored.send (stored.fits valid.2 room) room⟩
  | illegalKey | mboxStat | waitData | waitSpace => exact sound

theorem mboxInit_sound : Sound mboxInit :=
  fun _ _ _ => ⟨[], rfl, Nat.zero_lt_succ _, rfl, Nat.zero_le _, rfl, by simp⟩

theorem Call.Valid.access_range (valid : call.Valid) : ∀ i ∈ call.access, 0 ≤ i ∧ i < 5 := by
  intro i used
  cases call with
  | mboxOpen key =>
    simp only [Call.access, Option.mem_def, Option.ite_none_right_eq_some, Option.some.injEq] at used
    obtain ⟨legal, rfl⟩ := used
    exact legalKey_range legal
  | mboxClose q | mboxStat q | mboxRecv q m =>
    obtain rfl : q.toInt = i := by simpa [Call.access] using used
    exact valid
  | mboxSend q m =>
    obtain rfl : q.toInt = i := by simpa [Call.access] using used
    exact valid.1

/-- With valid handles and sizes, every call uses a mailbox, and each mailbox has its positions inside the buffer and
as many complete messages as it counts. -/
theorem mailboxes_sound {calls : List Call}
    (run : Run (Guarded (fun _ call => call.Valid) CallStep) mboxInit calls boxes) :
    (∀ call ∈ calls, ∀ i ∈ call.access, 0 ≤ i ∧ i < 5) ∧
    ∀ i, 0 ≤ i → i < 5 → (boxes i).head.toNat < 1024 ∧ (boxes i).tail.toNat < 1024 ∧
      ∃ queue, Stored (boxes i) queue := by
  have all := run.invariant_labels
    (fun calls boxes => (∀ call ∈ calls, ∀ i ∈ call.access, 0 ≤ i ∧ i < 5) ∧ Sound boxes)
    (fun {seen before call after} => ?_) ⟨by simp, mboxInit_sound⟩
  · refine ⟨all.1, ?_⟩
    intro i nonneg bound
    obtain ⟨queue, stored⟩ := all.2 i nonneg bound
    have head := stored.head
    exact ⟨by omega, stored.tail, queue, stored⟩
  · rintro ⟨earlier, sound⟩ ⟨valid, step⟩
    refine ⟨?_, sound.step valid step⟩
    intro call' made
    rcases List.mem_append.1 made with made | made
    · exact earlier call' made
    · obtain rfl : call' = call := by simpa using made
      exact valid.access_range

/-- A message whose size is -5. -/
def negativeSize : Memory := fun i => if i = 0 then 0xfb#8 else 0xff#8

/-- `mbox_close` uses the place behind the last mailbox, and `mbox_send` moves the head in front of the buffer. -/
theorem mailboxes_trust_arguments :
    (∃ boxes, Run CallStep mboxInit [.mboxClose 5#32] boxes ∧ (Call.mboxClose 5#32).access = some 5) ∧
    ∃ boxes, Run CallStep mboxInit [.mboxSend 0#32 negativeSize] boxes ∧ size negativeSize = -5#32 ∧
      (boxes 0).head.toInt = -1 :=
  ⟨⟨_, .single (.mboxClose _ _), rfl⟩, _, .single (.mboxSend (by decide)), by decide, by decide⟩

/-- A mailbox is opened and an empty message is sent. -/
theorem mailboxes_sound_empty_message : ∃ boxes,
    Run (Guarded (fun _ call => call.Valid) CallStep) mboxInit [.mboxOpen 0#32, .mboxSend 0#32 fun _ => 0#8] boxes ∧
    (boxes 0).count = 1#32 ∧ ∃ queue, Stored (boxes 0) queue := by
  have run : Run (Guarded (fun _ call => Call.Valid call) CallStep) mboxInit
      [.mboxOpen 0#32, .mboxSend 0#32 fun _ => 0#8] _ :=
    .snoc (.snoc (.nil _) ⟨trivial, .mboxOpen (by decide)⟩)
      ⟨⟨by decide, by decide⟩, .mboxSend (by decide)⟩
  exact ⟨_, run, by decide, ((mailboxes_sound run).2 0 (by decide) (by decide)).2.2⟩

/-- The mailboxes, and for each process how many of its calls of `mbox_open` it has not closed. -/
structure Users where
  boxes : Boxes := mboxInit
  unclosed : ℕ → ℤ → ℕ := fun _ _ => 0

/-- What process `p` has opened and not closed behind a call. -/
def Users.ledger (s : Users) (p : ℕ) : Call → ℕ → ℤ → ℕ
  | .mboxOpen key =>
    if legalKey key then
      fun r i => if i = key.toInt then update (s.unclosed · i) p (s.unclosed p i + 1) r else s.unclosed r i
    else s.unclosed
  | .mboxClose q =>
    fun r i => if i = q.toInt then update (s.unclosed · i) p (s.unclosed p i - 1) r else s.unclosed r i
  | _ => s.unclosed

inductive UserStep : Users → ℕ × Call → Users → Prop
  | call {s : Users} {p : ℕ} {call : Call} {boxes : Boxes} (step : CallStep s.boxes call boxes) :
      UserStep s (p, call) { boxes := boxes, unclosed := s.ledger p call }

/-- A process closes what it has opened, the number of users is an `int`, and the arguments are valid. -/
def Responsible (s : Users) : ℕ × Call → Prop
  | (_, .mboxOpen key) => legalKey key = true → (s.boxes key.toInt).used.toInt ≠ 2 ^ 31 - 1
  | (p, .mboxClose q) => (Call.mboxClose q).Valid ∧ s.unclosed p q.toInt ≠ 0
  | (_, call) => call.Valid

/-- `used` is the number of opens that have not been closed. -/
def Counted (s : Users) : Prop :=
  ∀ i, 0 ≤ i → i < 5 → Tally (fun n : ℕ => (n : ℤ)) (s.boxes i).used.toInt (s.unclosed · i)

variable {s s' : Users} {p : ℕ} {key : BitVec 32} {i : ℤ}

theorem used_opened (q : Mbox) : q.opened.used = q.used + 1#32 := by
  unfold Mbox.opened
  split <;> rfl

theorem Counted.nonneg (counted : Counted s) (nonneg : 0 ≤ i) (bound : i < 5) : 0 ≤ (s.boxes i).used.toInt :=
  (Int.natCast_nonneg (s.unclosed 0 i)).trans ((counted i nonneg bound).weight_le (fun _ => Int.natCast_nonneg _) 0)

theorem Counted.of_used {boxes : Boxes} (counted : Counted s) (same : ∀ i, (boxes i).used = (s.boxes i).used) :
    Counted { s with boxes := boxes } := by
  intro i nonneg bound
  rw [same]
  exact counted i nonneg bound

theorem Counted.move {q : Mbox} {n : ℕ} {unclosed : ℕ → ℤ → ℕ} (counted : Counted s)
    (change : 0 ≤ i → i < 5 → q.used.toInt = (s.boxes i).used.toInt + n - s.unclosed p i)
    (here : (unclosed · i) = update (s.unclosed · i) p n) (elsewhere : ∀ r j, j ≠ i → unclosed r j = s.unclosed r j) :
    Counted { boxes := s.boxes.set i q, unclosed := unclosed } := by
  intro j nonneg bound
  rcases eq_or_ne j i with rfl | other
  · simp only [Boxes.set, update_self, here]
    exact ((counted j nonneg bound).move fun _ _ => rfl).of_eq (change nonneg bound).symm
  · simp only [Boxes.set, update_of_ne other, elsewhere _ _ other]
    exact counted j nonneg bound

theorem used_set {q : Mbox} (same : q.used = (boxes i).used) (j : ℤ) : (boxes.set i q j).used = (boxes j).used := by
  rcases eq_or_ne j i with rfl | other
  · rw [Boxes.set, update_self, same]
  · rw [Boxes.set, update_of_ne other]

theorem toInt_add_one {x : BitVec 32} (small : x.toInt ≠ 2 ^ 31 - 1) : (x + 1#32).toInt = x.toInt + 1 := by
  have upper := x.toInt_lt
  have lower := x.le_toInt
  rw [toInt_add, show (1#32).toInt = 1 from rfl, Int.bmod_eq_of_le_mul_two] <;> omega

theorem toInt_sub_one {x : BitVec 32} (nonneg : 0 ≤ x.toInt) : (x - 1#32).toInt = x.toInt - 1 := by
  have upper := x.toInt_lt
  rw [toInt_sub, show (1#32).toInt = 1 from rfl, Int.bmod_eq_of_le_mul_two] <;> omega

/-- A responsible call keeps the number of users of each mailbox right. -/
theorem Counted.step {event : ℕ × Call} (counted : Counted s) (responsible : Responsible s event)
    (step : UserStep s event s') : Counted s' := by
  cases step with
  | @call p _ _ step =>
    cases step with
    | @mboxOpen key legal =>
      refine counted.move (p := p) (n := s.unclosed p key.toInt + 1) ?_ ?_ ?_
      · intro _ _
        rw [used_opened, toInt_add_one (responsible legal)]
        push_cast
        omega
      · funext r
        simp [Users.ledger, legal]
      · intro r j other
        simp [Users.ledger, legal, other]
    | mboxClose q =>
      obtain ⟨-, opened⟩ := responsible
      refine counted.move (p := p) (n := s.unclosed p q.toInt - 1) ?_ ?_ ?_
      · intro nonneg bound
        rw [Mbox.closed, toInt_sub_one (counted.nonneg nonneg bound)]
        omega
      · funext r
        simp [Users.ledger]
      · intro r j other
        simp [Users.ledger, other]
    | illegalKey illegal => simpa [Users.ledger, illegal] using counted
    | mboxStat | waitData | waitSpace => exact counted
    | mboxRecv | mboxSend => exact counted.of_used (used_set rfl)

/-- A mailbox that a process has opened and not closed keeps its messages when it is opened again. -/
theorem mailbox_in_use_keeps_messages {events : List (ℕ × Call)} {r : ℕ}
    (run : Run (Guarded Responsible UserStep) {} events s) (step : UserStep s (p, .mboxOpen key) s')
    (inUse : s.unclosed r key.toInt ≠ 0) :
    (s'.boxes key.toInt).head = (s.boxes key.toInt).head ∧ (s'.boxes key.toInt).tail = (s.boxes key.toInt).tail ∧
      (s'.boxes key.toInt).count = (s.boxes key.toInt).count := by
  have counted : Counted s := by
    refine run.invariant Counted (fun counted taken => counted.step taken.1 taken.2) ?_
    intro i _ _
    exact .zero fun _ => rfl
  cases step with
  | call step =>
    cases step with
    | mboxOpen legal =>
      obtain ⟨nonneg, bound⟩ := legalKey_range legal
      have credit := (counted _ nonneg bound).weight_le (fun _ => Int.natCast_nonneg _) r
      have used : (s.boxes key.toInt).used ≠ 0#32 := by
        intro unused
        rw [unused] at credit
        have none : (s.unclosed r key.toInt : ℤ) ≤ 0 := credit
        omega
      simp [Boxes.set, Mbox.opened, used]
    | illegalKey => exact ⟨rfl, rfl, rfl⟩

/-- Process 0 opens a mailbox and sends a message. Process 1 closes it, without having opened it, and then opens it. -/
theorem mailbox_reset_in_use : ∃ s s' : Users,
    Run UserStep {} [(0, .mboxOpen 0#32), (0, .mboxSend 0#32 fun _ => 0#8), (1, .mboxClose 0#32)] s ∧
    UserStep s (1, .mboxOpen 0#32) s' ∧ s.unclosed 0 0 = 1 ∧ (s.boxes 0).count = 1#32 ∧ (s'.boxes 0).count = 0#32 := by
  have run : Run UserStep {}
      [(0, .mboxOpen 0#32), (0, .mboxSend 0#32 fun _ => 0#8), (1, .mboxClose 0#32)] _ :=
    .snoc (.snoc (.snoc (.nil _) (.call (.mboxOpen (by decide)))) (.call (.mboxSend (by decide))))
      (.call (.mboxClose _ _))
  exact ⟨_, _, run, .call (.mboxOpen (by decide)), by decide, by decide, by decide⟩

/-- Two processes open a mailbox, one after the other has sent a message. -/
theorem mailbox_in_use_keeps_messages_second_open : ∃ s s' : Users,
    Run (Guarded Responsible UserStep) {} [(0, .mboxOpen 0#32), (0, .mboxSend 0#32 fun _ => 0#8)] s ∧
    UserStep s (1, .mboxOpen 0#32) s' ∧ s.unclosed 0 0 ≠ 0 ∧ (s'.boxes 0).count = (s.boxes 0).count := by
  have run : Run (Guarded Responsible UserStep) {} [(0, .mboxOpen 0#32), (0, .mboxSend 0#32 fun _ => 0#8)] _ :=
    .snoc (.snoc (.nil _) ⟨fun _ => by decide, .call (.mboxOpen (by decide))⟩)
      ⟨⟨by decide, by decide⟩, .call (.mboxSend (by decide))⟩
  refine ⟨_, _, run, .call (.mboxOpen (by decide)), by decide, ?_⟩
  exact (mailbox_in_use_keeps_messages (r := 0) run (.call (.mboxOpen (by decide))) (by decide)).2.2

end MicroOs.Ipc
