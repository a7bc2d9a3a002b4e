import MicroOs.Ipc.Keyboard
import MicroOs.Library.Stretch

/-! # Characters get through the keyboard queue

Between two calls of `yield` or `block`, a context in a section goes on alone. It takes the lock and gives it back
before it leaves the section or sleeps on `moreData`, so that all locks are free whenever a section begins. The mailbox
then holds the messages of the characters that have been accepted and not received.
-/

namespace MicroOs.Keyboard

open Ipc Function List Memory

/-- The characters accepted and received, and the last one that each context has received. -/
structure Observed (ι : Type*) where
  accepted : List Byte := []
  received : List Byte := []
  last : ι → Option Byte := fun _ => none

variable {ι : Type*} [DecidableEq ι]

def Observed.observe (seen : Observed ι) : Event ι → Observed ι
  | .accepted _ _ c => { seen with accepted := seen.accepted ++ [c] }
  | .received t c => { seen with received := seen.received ++ [c], last := update seen.last t (some c) }
  | _ => seen

def observed (events : List (Event ι)) : Observed ι := events.foldl Observed.observe {}

/-- No lock is found taken; only `getchar` waits, and only for a character. A character is dropped only if there is
no room for its message, and is received in its turn. -/
def Harmless (seen : Observed ι) : Event ι → Prop
  | .call .. | .internal _ => True
  | .spins .. | .lockBusy .. | .fails _ => False
  | .sleeps _ job p => job = .getchar ∧ p = .moreData
  | .accepted _ job c => job = .putchar c
  | .dropped _ _ available => available.toNat < charMsgSize.toNat ∧
      available.toNat + 5 * seen.accepted.length = 1024 + 5 * seen.received.length
  | .received _ c => seen.received ++ [c] <+: seen.accepted
  | .returned t c => ∃ c', seen.last t = some c' ∧ c = c'.signExtend 32

def message (c : Byte) : List Byte := [1#8, 0#8, 0#8, 0#8, c]

variable {m : Memory} {c : Byte}

theorem content_message (content_eq : content m = message c) : size m = 1#32 ∧ m 4 = c := by
  have length : turns (msgSize m) = 5 := by
    have same := congrArg length content_eq
    simpa [content, message] using same
  rw [content, length] at content_eq
  simp only [range_succ, range_zero, nil_append, cons_append, map_cons, message, cons.injEq] at content_eq
  obtain ⟨first, second, third, fourth, body, -⟩ := content_eq
  refine ⟨?_, body⟩
  simp only [size, readWord, first, second, third, fourth]
  rfl

theorem content_fill (m : Memory) (c : Byte) : Fits ((m.writeWord 0 1#32).writeByte 4 c) ∧
    content ((m.writeWord 0 1#32).writeByte 4 c) = message c := by
  have small : size ((m.writeWord 0 1#32).writeByte 4 c) = 1#32 := by
    rw [size, readWord_writeByte_disjoint _ _ (.inl (by omega)), readWord_writeWord]
  have fits : Fits ((m.writeWord 0 1#32).writeByte 4 c) := by
    rw [Fits, small]
    decide
  refine ⟨fits, ?_⟩
  rw [content, fits.turns, small]
  simp [range_succ, message, writeByte, writeWord]

theorem messages_length (queue : List Byte) : (queue.map message).flatten.length = 5 * queue.length := by
  induction queue with
  | nil => rfl
  | cons c queue ih =>
    simp only [map_cons, flatten_cons, length_append, length_cons]
    simp only [message, length_cons, length_nil]
    omega

/-- All locks are free, and nobody waits for one or for space. -/
structure Quiet (x : Shared ι) : Prop where
  unlocked : x.locked = false
  clear : ∀ p, x.flag p = false
  nobody : ∀ p, p ≠ .moreData → x.waiting p = []

/-- What `getchar` does behind the loop that waits for a character. -/
def takes : List Instr :=
  .headerOut :: .skipHeader :: .bodyOut :: .moveTail :: (conditionBroadcast .moreSpace ++
    .countDown :: (lockRelease ++ [.received, .leave, .finish]))

/-- What `putchar` does when its message is complete. -/
def offers : List Instr := lockAcquire ++ .stat :: (lockRelease ++ [.ifSpace, .leave])

theorem getchar_eq : getchar = .enter :: (lockAcquire ++ .whileEmpty :: takes) := rfl

theorem putchar_eq (c : Byte) : putchar c = .fill c :: .enter :: offers := rfl

/-- A context that is in no section, or is woken or to be woken inside of `condition_wait`. -/
inductive Settled (last : Option Byte) : Context → Prop
  | idle {d : Locals} (outside : d.depth = 0) : Settled last ⟨d, []⟩
  | called {d : Locals} (outside : d.depth = 0) : Settled last ⟨d, d.job.code⟩
  | filled {d : Locals} {c : Byte} (outside : d.depth = 0) (job : d.job = .putchar c) (fits : Fits d.space)
      (filled : content d.space = message c) : Settled last ⟨d, .enter :: offers⟩
  | waits {d : Locals} (inside : d.depth = 2) (job : d.job = .getchar) :
      Settled last ⟨d, .leave :: (lockAcquire ++ .whileEmpty :: takes)⟩
  | finishes {d : Locals} {c : Byte} (outside : d.depth = 0) (filled : content d.space = message c)
      (received : last = some c) : Settled last ⟨d, [.finish]⟩

structure Rest (seen : Observed ι) (s : State ι) : Prop where
  quiet : Quiet s.shared
  interruptible : ∀ t, s.cpu = some t → (s.context t).locals.depth = 0
  settled : ∀ t, Settled (seen.last t) (s.context t)
  stored : ∃ queue : List Byte, seen.accepted = seen.received ++ queue ∧ Stored s.shared.mbox (queue.map message)

/-- The context `t` is executed among the others of `contexts`. -/
abbrev Goes (contexts : ι → Context) (t : ι) (seen : Observed ι) (x : Shared ι) (d : Locals) (code : List Instr) :
    Prop :=
  Stretch Step Observed.observe Harmless Rest seen ⟨x, some t, update contexts t ⟨d, code⟩⟩

variable {contexts : ι → Context} {t : ι} {seen : Observed ι} {x x' : Shared ι} {d d' : Locals} {i : Instr}
  {code code' : List Instr}

section Inside

variable (inside : 0 < d.depth) (awake : x.Awake t)

include inside awake

theorem goes_execute {outcome : Outcome ι} (result : execute t x d code i = outcome)
    (fine : Harmless seen outcome.event)
    (next : Stretch Step Observed.observe Harmless Rest (seen.observe outcome.event)
      ⟨outcome.shared, outcome.cpu, update contexts t outcome.context⟩) : Goes contexts t seen x d (i :: code) := by
  have alone : ∀ u, State.MayRun ⟨x, some t, update contexts t ⟨d, i :: code⟩⟩ u → u = t := by
    intro u mayRun
    by_contra other
    have outside := mayRun t rfl (Ne.symm other)
    simp only [update_self] at outside
    omega
  have again : update (update contexts t ⟨d, i :: code⟩) t outcome.context =
      update contexts t outcome.context := update_idem ..
  have taken : Step ⟨x, some t, update contexts t ⟨d, i :: code⟩⟩ outcome.event
      ⟨outcome.shared, outcome.cpu, update contexts t outcome.context⟩ := by
    have here : (update contexts t ⟨d, i :: code⟩ t).code = i :: code := by rw [update_self]
    have mayRun : State.MayRun ⟨x, some t, update contexts t ⟨d, i :: code⟩⟩ t := by
      intro u same other
      cases same
      exact absurd rfl other
    have step := Step.execute mayRun awake here rfl
    simpa only [State.put, again, update_self, result] using step
  refine .step taken ?_ fine next
  intro event' target' other
  cases other with
  | @call u job space mayRun idle =>
    obtain rfl := alone u mayRun
    simp at idle
  | @execute u j code' outcome' mayRun _ here result' =>
    obtain rfl := alone u mayRun
    simp only [update_self] at here result'
    cases here
    obtain rfl := result.symm.trans result'
    exact ⟨rfl, by simp [State.put]⟩

theorem goes_next (result : execute t x d code i = .next t x' d' code') (next : Goes contexts t seen x' d' code') :
    Goes contexts t seen x d (i :: code) :=
  goes_execute inside awake result trivial next

variable {condition : Prop} [Decidable condition]

theorem goes_pos (holds : condition) (result : execute t x d code i = .next t x d (if condition then code' else code))
    (next : Goes contexts t seen x d code') : Goes contexts t seen x d (i :: code) :=
  goes_next inside awake (result.trans (congrArg _ (if_pos holds))) next

theorem goes_neg (fails : ¬ condition) (result : execute t x d code i = .next t x d (if condition then code' else code))
    (next : Goes contexts t seen x d code) : Goes contexts t seen x d (i :: code) :=
  goes_next inside awake (result.trans (congrArg _ (if_neg fails))) next

end Inside

omit [DecidableEq ι] in
theorem setFlag_clear {p : Place} (clear : x.flag p = false) : (x.setFlag p true).setFlag p false = x := by
  have same : update (update x.flag p true) p false = x.flag := by
    rw [update_idem, ← clear, update_eq_self]
  rw [Shared.setFlag, Shared.setFlag, same]

omit [DecidableEq ι] in
theorem setLocked_clear (unlocked : x.locked = false) : (x.setLocked true).setLocked false = x := by
  rw [Shared.setLocked, Shared.setLocked, ← unlocked]

omit [DecidableEq ι] in
theorem Shared.Awake.tail (awake : x.Awake t) (p : Place) : (x.setWaiting p (x.waiting p).tail).Awake t := by
  intro p'
  by_cases same : p' = p
  · subst same
    rw [Shared.setWaiting_waiting, update_self]
    exact fun queued => awake p' (mem_of_mem_tail queued)
  · rw [Shared.setWaiting_waiting, update_of_ne same]
    exact awake p'

section Locks

variable {p : Place} (inside : 0 < d.depth) (awake : x.Awake t) (clear : ∀ p, x.flag p = false)

include inside awake clear

theorem goes_spinlockAcquire (next : Goes contexts t seen (x.setFlag p true) d code) :
    Goes contexts t seen x d (.spinlockAcquire p :: code) :=
  goes_next inside awake (if_neg (by simp [clear p])) next

theorem goes_lockAcquire (unlocked : x.locked = false) (next : Goes contexts t seen (x.setLocked true) d code) :
    Goes contexts t seen x d (lockAcquire ++ code) := by
  refine goes_spinlockAcquire inside awake clear ?_
  refine goes_next inside awake (if_neg (by simp [unlocked])) ?_
  refine goes_next inside awake rfl ?_
  refine goes_next inside awake rfl ?_
  rwa [← setFlag_clear (x := x.setLocked true) (clear .lock)] at next

theorem goes_lockRelease (nobody : x.waiting .lock = []) (next : Goes contexts t seen (x.setLocked false) d code) :
    Goes contexts t seen x d (lockRelease ++ code) := by
  refine goes_spinlockAcquire inside awake clear ?_
  refine goes_next inside awake rfl ?_
  refine goes_neg inside awake (not_not.2 nobody) rfl ?_
  refine goes_next inside awake rfl ?_
  rwa [← setFlag_clear (x := x.setLocked false) (clear .lock)] at next

theorem goes_conditionBroadcast (nobody : x.waiting p = []) (next : Goes contexts t seen x d code) :
    Goes contexts t seen x d (conditionBroadcast p ++ code) := by
  refine goes_spinlockAcquire inside awake clear ?_
  refine goes_neg inside awake (not_not.2 nobody) rfl ?_
  refine goes_next inside awake rfl ?_
  rwa [setFlag_clear (clear p)]

theorem goes_conditionSignal (next : Goes contexts t seen (x.setWaiting p (x.waiting p).tail) d code) :
    Goes contexts t seen x d (conditionSignal p ++ code) := by
  have awake' := awake.tail p
  have clear' := setFlag_clear (x := x.setWaiting p (x.waiting p).tail) (clear p)
  refine goes_spinlockAcquire inside awake clear ?_
  by_cases nobody : x.waiting p = []
  · have unchanged : x.setWaiting p (x.waiting p).tail = x := by
      rw [Shared.setWaiting, nobody, tail_nil, ← nobody, update_eq_self]
    rw [unchanged] at next
    refine goes_neg inside awake (not_not.2 nobody) rfl ?_
    refine goes_next inside awake rfl ?_
    rwa [setFlag_clear (clear p)]
  · refine goes_pos inside awake nobody rfl ?_
    refine goes_next inside awake rfl ?_
    refine goes_next (Nat.succ_pos _) awake rfl ?_
    refine goes_next (Nat.succ_pos _) awake' rfl ?_
    refine goes_next inside awake' rfl ?_
    rwa [← clear'] at next

end Locks

/-- The mailbox holds the characters that have been accepted and not received. -/
def Holds (seen : Observed ι) (q : Mbox) (queue : List Byte) : Prop :=
  seen.accepted = seen.received ++ queue ∧ Stored q (queue.map message)

omit [DecidableEq ι] in
theorem Holds.spaceAvailable {q : Mbox} {queue : List Byte} (holds : Holds seen q queue) :
    q.spaceAvailable.toNat + 5 * seen.accepted.length = 1024 + 5 * seen.received.length := by
  obtain ⟨accepted, stored⟩ := holds
  have room := stored.room
  rw [messages_length] at room
  rw [stored.spaceAvailable, messages_length, accepted, length_append]
  omega

omit [DecidableEq ι] in
theorem Holds.enough_iff {q : Mbox} {queue : List Byte} (holds : Holds seen q queue) :
    charMsgSize.sle q.spaceAvailable = true ↔ 5 ≤ q.spaceAvailable.toNat := by
  have small : q.spaceAvailable.toNat ≤ 1024 := by
    rw [holds.2.spaceAvailable]
    omega
  rw [BitVec.sle_iff_toInt_le, BitVec.toInt_eq_toNat_of_lt (x := q.spaceAvailable) (by omega)]
  exact Int.ofNat_le

section Sections

variable {queue : List Byte} (others : ∀ u, u ≠ t → Settled (seen.last u) (contexts u))

include others

theorem rest_update {seen' : Observed ι} {cpu : Option ι} (last : ∀ u, u ≠ t → seen'.last u = seen.last u)
    (quiet : Quiet x) (here : Settled (seen'.last t) ⟨d, code⟩)
    (interruptible : cpu = none ∨ cpu = some t ∧ d.depth = 0) (holds : Holds seen' x.mbox queue) :
    Rest seen' ⟨x, cpu, update contexts t ⟨d, code⟩⟩ where
  quiet := quiet
  interruptible := by
    intro u runs
    rcases interruptible with switched | ⟨same, outside⟩
    · cases switched.symm.trans runs
    · cases same.symm.trans runs
      simpa only [update_self] using outside
  settled := by
    intro u
    by_cases same : u = t
    · subst same
      simpa only [update_self] using here
    · simp only [update_of_ne same, last u same]
      exact others u same
  stored := ⟨queue, holds⟩

variable (quiet : Quiet x) (awake : x.Awake t) (depth : d.depth = 1) (holds : Holds seen x.mbox queue)

include quiet awake depth holds

/-- `getchar` at the test of its loop: it takes a character, or waits for one. -/
theorem goes_whileEmpty (job : d.job = .getchar) :
    Goes contexts t seen (x.setLocked true) d (.whileEmpty :: takes) := by
  have inside : 0 < d.depth := by omega
  obtain ⟨accepted, stored⟩ := holds
  have count := stored.count
  cases queue with
  | nil =>
    have empty : x.mbox.count = 0#32 := BitVec.eq_of_toNat_eq count
    refine goes_pos inside awake empty rfl ?_
    refine goes_lockRelease inside awake quiet.clear (quiet.nobody .lock (by decide)) ?_
    rw [setLocked_clear quiet.unlocked]
    refine goes_next inside awake rfl ?_
    refine goes_execute (Nat.succ_pos _) awake rfl ⟨job, rfl⟩ (.rest ?_)
    refine rest_update others (fun _ _ => rfl) ⟨quiet.unlocked, quiet.clear, ?_⟩ (.waits ?_ job) (.inl rfl)
      ⟨accepted, stored⟩
    · intro p other
      exact (update_of_ne other ..).trans (quiet.nobody p other)
    · exact congrArg (· + 1) depth
  | cons c queue =>
    have some : x.mbox.count ≠ 0#32 := by
      intro empty
      rw [empty] at count
      simp at count
    obtain ⟨filled, stored'⟩ := stored.receive d.space
    obtain rfl := (content_message filled).2
    have taken := accepted.trans (append_cons ..)
    refine goes_neg inside awake some rfl ?_
    refine goes_next inside awake rfl ?_
    refine goes_next inside awake rfl ?_
    refine goes_next inside awake rfl ?_
    refine goes_next inside awake rfl ?_
    refine goes_conditionBroadcast inside awake quiet.clear (quiet.nobody .moreSpace (by decide)) ?_
    refine goes_next inside awake rfl ?_
    refine goes_lockRelease inside awake quiet.clear (quiet.nobody .lock (by decide)) ?_
    refine goes_execute inside awake rfl ⟨queue, taken.symm⟩ ?_
    refine goes_next inside awake rfl (.rest ?_)
    have outside : d.depth - 1 = 0 := by omega
    refine rest_update others (fun u other => update_of_ne other ..) ⟨rfl, quiet.clear, quiet.nobody⟩
      (.finishes outside filled (update_self ..)) (.inr ⟨rfl, outside⟩) ⟨taken, stored'⟩

/-- `getchar` when it takes the lock, at first or after it was woken. -/
theorem goes_takes (job : d.job = .getchar) : Goes contexts t seen x d (lockAcquire ++ .whileEmpty :: takes) :=
  goes_lockAcquire (by omega) awake quiet.clear quiet.unlocked (goes_whileEmpty others quiet awake depth holds job)

/-- `putchar` inside of its section: it puts its character into the mailbox, or drops it. -/
theorem goes_offers {c : Byte} (job : d.job = .putchar c) (fits : Fits d.space) (filled : content d.space = message c) :
    Goes contexts t seen x d offers := by
  have inside : 0 < d.depth := by omega
  have outside : d.depth - 1 = 0 := by omega
  have space := holds.spaceAvailable
  have enough_iff := holds.enough_iff
  obtain ⟨accepted, stored⟩ := holds
  obtain rfl := (content_message filled).2
  refine goes_lockAcquire inside awake quiet.clear quiet.unlocked ?_
  refine goes_next inside awake rfl ?_
  refine goes_lockRelease inside awake quiet.clear (quiet.nobody .lock (by decide)) ?_
  rw [setLocked_clear quiet.unlocked]
  by_cases enough : charMsgSize.sle x.mbox.spaceAvailable = true
  · have room : x.mbox.spaceAvailable.slt (msgSize d.space) = false := by
      have available := stored.spaceAvailable
      rw [enough_iff] at enough
      rw [stored.space_iff fits, filled, show (message (d.space 4)).length = 5 from rfl]
      omega
    have awake' := awake.tail .moreData
    have given : Holds { seen with accepted := seen.accepted ++ [d.space 4] }
        ((x.mbox.copyIn d.space).moveHead d.space).countUp (queue ++ [d.space 4]) := by
      refine ⟨by simp [accepted], ?_⟩
      simpa only [filled, map_append, map_cons, map_nil] using stored.send fits room
    refine goes_next inside awake (if_pos enough) ?_
    refine goes_lockAcquire inside awake quiet.clear quiet.unlocked ?_
    refine goes_neg inside awake (ne_true_of_eq_false room) rfl ?_
    refine goes_next inside awake rfl ?_
    refine goes_next inside awake rfl ?_
    refine goes_conditionSignal inside awake quiet.clear ?_
    refine goes_next inside awake' rfl ?_
    refine goes_lockRelease inside awake' quiet.clear (quiet.nobody .lock (by decide)) ?_
    refine goes_execute inside awake' rfl job ?_
    refine goes_next inside awake' rfl (.rest ?_)
    refine rest_update others (fun _ _ => rfl) ⟨rfl, quiet.clear, ?_⟩ (.idle outside) (.inr ⟨rfl, outside⟩) given
    intro p other
    exact (update_of_ne other ..).trans (quiet.nobody p other)
  · have full : x.mbox.spaceAvailable.toNat < 5 := by
      rw [enough_iff] at enough
      omega
    refine goes_execute inside awake (if_neg enough) ⟨full, space⟩ ?_
    refine goes_next inside awake rfl (.rest ?_)
    exact rest_update others (fun _ _ => rfl) quiet (.idle outside) (.inr ⟨rfl, outside⟩) ⟨accepted, stored⟩

end Sections

variable {s s' : State ι} {event : Event ι}

theorem Settled.code_eq_nil {last : Option Byte} {context : Context} (settled : Settled last context)
    (idle : context.code = []) : context.locals.depth = 0 := by
  cases settled with
  | idle outside | called outside | filled outside | finishes outside => exact outside
  | waits => cases idle

/-- A step from rest is harmless and begins an uninterrupted stretch. -/
theorem Rest.step (resting : Rest seen s) (taken : Step s event s') :
    Harmless seen event ∧ Stretch Step Observed.observe Harmless Rest (seen.observe event) s' := by
  have others := resting.settled
  have quiet := resting.quiet
  obtain ⟨queue, holds⟩ := resting.stored
  cases taken with
  | @call t job space mayRun idle =>
    have outside := (others t).code_eq_nil idle
    refine ⟨trivial, .rest ?_⟩
    exact rest_update (fun u _ => others u) (fun _ _ => rfl) quiet (.called outside) (.inr ⟨rfl, outside⟩) holds
  | @execute t i code outcome mayRun awake here result =>
    have settled := others t
    generalize s.context t = context at settled here result
    cases settled with
    | idle => cases here
    | @called d outside =>
      cases job : d.job with
      | getchar =>
        rw [job, Job.code] at here
        obtain ⟨rfl, rfl⟩ := cons_eq_cons.1 here
        subst result
        exact ⟨trivial, goes_takes (fun u _ => others u) quiet awake (congrArg (· + 1) outside) holds job⟩
      | putchar c =>
        rw [job, Job.code] at here
        obtain ⟨rfl, rfl⟩ := cons_eq_cons.1 here
        subst result
        obtain ⟨fits, filled⟩ := content_fill d.space c
        refine ⟨trivial, .rest ?_⟩
        exact rest_update (fun u _ => others u) (fun _ _ => rfl) quiet (.filled outside job fits filled)
          (.inr ⟨rfl, outside⟩) holds
    | @filled d c outside job fits filled =>
      obtain ⟨rfl, rfl⟩ := cons_eq_cons.1 here
      subst result
      exact ⟨trivial, goes_offers (fun u _ => others u) quiet awake (congrArg (· + 1) outside) holds job fits filled⟩
    | @waits d inside job =>
      obtain ⟨rfl, rfl⟩ := cons_eq_cons.1 here
      subst result
      have depth : d.depth - 1 = 1 := by omega
      exact ⟨trivial, goes_takes (fun u _ => others u) quiet awake depth holds job⟩
    | @finishes d c outside filled received =>
      obtain ⟨rfl, rfl⟩ := cons_eq_cons.1 here
      obtain ⟨size, rfl⟩ := content_message filled
      rw [execute, if_pos size] at result
      subst result
      refine ⟨⟨_, received, rfl⟩, .rest ?_⟩
      exact rest_update (fun u _ => others u) (fun _ _ => rfl) quiet (.idle outside) (.inr ⟨rfl, outside⟩) holds

omit [DecidableEq ι] in
theorem keyboardInit_rest : Rest ({} : Observed ι) keyboardInit where
  quiet := ⟨rfl, fun _ => rfl, fun _ _ => rfl⟩
  interruptible := by
    intro t runs
    cases runs
  settled _ := .idle rfl
  stored := ⟨[], rfl, stored_opened rfl⟩

/-- If what is received is always the next character, what has been received is the beginning of what was accepted. -/
theorem received_prefix {events : List (Event ι)}
    (harmless : Throughout (fun before event => Harmless (observed before) event) events) :
    (observed events).received <+: (observed events).accepted := by
  induction events using reverseRecOn with
  | nil => exact prefix_rfl
  | append_singleton events event ih =>
    obtain ⟨before, fine⟩ := throughout_snoc.1 harmless
    have received := ih before
    rw [observed, foldl_append]
    cases event with
    | accepted t job c => exact received.trans (prefix_append ..)
    | received t c => exact fine
    | _ => exact received

/-- However many contexts call `getchar` and `putchar`: `putchar` never waits and drops a character only if there is
no room for it, and the characters come out in the order in which they were accepted. The section that is executed
can always be brought to its end with all locks free. -/
theorem keyboard_path {events : List (Event ι)} (run : Run Step keyboardInit events s) :
    Throughout (fun before event => Harmless (observed before) event) events ∧
      (observed events).received <+: (observed events).accepted ∧
      ∃ later s', Run Step s later s' ∧ Quiet s'.shared ∧ ∀ t, s'.cpu = some t → (s'.context t).locals.depth = 0 := by
  obtain ⟨harmless, stretch⟩ : Throughout (fun before event => Harmless (observed before) event) events ∧
      Stretch Step Observed.observe Harmless Rest (observed events) s :=
    Stretch.run Rest.step keyboardInit_rest run
  obtain ⟨later, s', onward, resting⟩ := stretch.completes
  exact ⟨harmless, received_prefix harmless, later, s', onward, resting.quiet, resting.interruptible⟩

/-- The next instruction of the context that was executed last. -/
def State.next (s : State ι) (t : ι) : Option (Event ι × State ι) :=
  match (s.context t).code with
  | [] => none
  | i :: code =>
    if s.cpu = some t ∧ t ∉ s.shared.waiting .lock ∧ t ∉ s.shared.waiting .moreSpace ∧
        t ∉ s.shared.waiting .moreData then
      let outcome := execute t s.shared (s.context t).locals code i
      some (outcome.event, s.put t outcome.shared outcome.context outcome.cpu)
    else none

theorem State.next_step (next : s.next t = some (event, s')) : Step s event s' := by
  unfold State.next at next
  split at next
  · cases next
  · rename_i here
    split_ifs at next with may
    cases next
    refine .execute ?_ ?_ here rfl
    · intro u runs other
      cases may.1.symm.trans runs
      exact absurd rfl other
    · intro p
      cases p with
      | lock => exact may.2.1
      | moreSpace => exact may.2.2.1
      | moreData => exact may.2.2.2

/-- A context is executed alone. -/
def State.solo (t : ι) : ℕ → State ι → List (Event ι) × State ι
  | 0, s => ([], s)
  | n + 1, s =>
    match s.next t with
    | none => ([], s)
    | some (event, s') => (event :: (s'.solo t n).1, (s'.solo t n).2)

theorem State.solo_run (s : State ι) (t : ι) (n : ℕ) : Run Step s (s.solo t n).1 (s.solo t n).2 := by
  induction n generalizing s with
  | zero => exact .nil s
  | succ n ih =>
    unfold State.solo
    split
    · exact .nil s
    · rename_i next
      exact (Run.single (State.next_step next)).append (ih _)

def typing : State ℕ := keyboardInit.call 0 (.putchar 97#8) fun _ => 0#8

def asking : State ℕ := (typing.solo 0 40).2.call 1 .getchar fun _ => 0#8

theorem keyboard_path_one_character : ∃ (s : State ℕ) (events : List (Event ℕ)), Run Step keyboardInit events s ∧
    (observed events).received = [97#8] ∧
    Throughout (fun before event => Harmless (observed before) event) events ∧
    (observed events).received <+: (observed events).accepted ∧
    ∃ later s', Run Step s later s' ∧ Quiet s'.shared ∧ ∀ t, s'.cpu = some t → (s'.context t).locals.depth = 0 := by
  have typed : Step keyboardInit (.call 0 (.putchar 97#8)) typing := .call _ _ (fun u runs => nomatch runs) rfl
  have asked : Step (typing.solo 0 40).2 (.call 1 .getchar) asking := by
    refine .call _ _ ?_ (isEmpty_iff.1 (by decide +kernel))
    intro u runs _
    have cpu : (typing.solo 0 40).2.cpu = some 0 := by decide +kernel
    cases cpu.symm.trans runs
    decide +kernel
  have accepted := (Run.single typed).append (typing.solo_run 0 40)
  have run := accepted.append ((Run.single asked).append (asking.solo_run 1 40))
  exact ⟨_, _, run, by decide +kernel, keyboard_path run⟩

end MicroOs.Keyboard
