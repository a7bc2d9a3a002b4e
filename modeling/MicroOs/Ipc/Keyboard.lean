import MicroOs.Ipc.Syscalls

/-! # The keyboard queue

`getchar` and `putchar` use mailbox `QUEUE` with the interrupts disabled. A process executes the first; an interrupt
handler executes the second, on top of whatever it has interrupted. Either is called a context here, and `ι` is the
type of the contexts.

The functions of `keyboard.c`, `mbox.c`, `sync.c` and `scheduler.c` that a context goes through are lists of
instructions. A context executes one at a time. While it is in a section of `nointerrupt_enter`, another one gets on
only when it calls `yield` or `block`: the nesting of its sections is kept with it, as `scheduler_entry` does.
-/

namespace MicroOs.Keyboard

open Ipc

/-- The lock of the mailbox and its two conditions, each with a wait queue and a spin lock. -/
inductive Place
  | lock | moreSpace | moreData
deriving DecidableEq

inductive Instr
  /-- `nointerrupt_enter`. -/
  | enter
  /-- `nointerrupt_leave`. -/
  | leave
  | spinlockAcquire (p : Place)
  | spinlockRelease (p : Place)
  /-- `while (l->locked)` of `lock_acquire`. -/
  | whileLocked
  | setLocked (locked : Bool)
  /-- The body of `block` inside of its section. -/
  | sleep (p : Place)
  /-- The body of `unblock` inside of its section. -/
  | wake (p : Place)
  /-- `unblock` if the wait queue is not empty. -/
  | ifWaiting (p : Place)
  /-- `unblock` while the wait queue is not empty. -/
  | whileWaiting (p : Place)
  /-- `while (Q[q].count == 0)` of `mbox_recv`. -/
  | whileEmpty
  | headerOut | skipHeader | bodyOut | moveTail | countDown
  /-- The return of `mbox_recv`. -/
  | received
  /-- The two assignments of `mbox_stat`. -/
  | stat
  /-- `if (available_space >= CHAR_MSG_SIZE)` of `putchar`. -/
  | ifSpace
  /-- `while (space_available(&Q[q]) < msgSize)` of `mbox_send`. -/
  | whileFull
  | copyIn | moveHead | countUp
  /-- The return of `mbox_send`. -/
  | sent
  /-- The message of `putchar` is put together. -/
  | fill (c : Byte)
  /-- The assertion of `getchar`, and its return. -/
  | finish

def charMsgSize : BitVec 32 := 5#32

def block (p : Place) : List Instr := [.enter, .sleep p, .leave]

def unblock (p : Place) : List Instr := [.enter, .wake p, .leave]

def lockAcquire : List Instr := [.spinlockAcquire .lock, .whileLocked, .setLocked true, .spinlockRelease .lock]

def lockRelease : List Instr := [.spinlockAcquire .lock, .setLocked false, .ifWaiting .lock, .spinlockRelease .lock]

def conditionWait (p : Place) : List Instr := lockRelease ++ block p ++ lockAcquire

def conditionSignal (p : Place) : List Instr := [.spinlockAcquire p, .ifWaiting p, .spinlockRelease p]

def conditionBroadcast (p : Place) : List Instr := [.spinlockAcquire p, .whileWaiting p, .spinlockRelease p]

def mboxStat : List Instr := lockAcquire ++ [.stat] ++ lockRelease

def mboxRecv : List Instr :=
  lockAcquire ++ [.whileEmpty, .headerOut, .skipHeader, .bodyOut, .moveTail] ++ conditionBroadcast .moreSpace ++
    [.countDown] ++ lockRelease ++ [.received]

def mboxSend : List Instr :=
  lockAcquire ++ [.whileFull, .copyIn, .moveHead] ++ conditionSignal .moreData ++ [.countUp] ++ lockRelease ++ [.sent]

def getchar : List Instr := [.enter] ++ mboxRecv ++ [.leave, .finish]

def putchar (c : Byte) : List Instr := [.fill c, .enter] ++ mboxStat ++ [.ifSpace, .leave]

inductive Job
  | getchar
  | putchar (c : Byte)
deriving DecidableEq

def Job.code : Job → List Instr
  | .getchar => Keyboard.getchar
  | .putchar c => Keyboard.putchar c

/-- The variables of a context, and how many sections it is in. -/
structure Locals where
  job : Job := .getchar
  depth : ℕ := 0
  space : Memory := fun _ => 0#8
  count : BitVec 32 := 0#32
  availableSpace : BitVec 32 := 0#32

structure Context where
  locals : Locals := {}
  code : List Instr := []

/-- What the contexts share. A context sleeps if it is in one of the wait queues. -/
structure Shared (ι : Type*) where
  mbox : Mbox
  locked : Bool := false
  flag : Place → Bool := fun _ => false
  waiting : Place → List ι := fun _ => []

/-- `cpu` is the context that was executed last, unless it has called `yield` or `block`. -/
structure State (ι : Type*) where
  shared : Shared ι
  cpu : Option ι := none
  context : ι → Context := fun _ => {}

inductive Event (ι : Type*)
  | call (t : ι) (job : Job)
  | internal (t : ι)
  /-- A spin lock is not free, and the context calls `yield`. -/
  | spins (t : ι) (job : Job) (p : Place)
  /-- The lock is not free. -/
  | lockBusy (t : ι) (job : Job)
  | sleeps (t : ι) (job : Job) (p : Place)
  /-- `putchar` has put its character into the mailbox. -/
  | accepted (t : ι) (job : Job) (c : Byte)
  /-- `putchar` drops its character, with so many bytes available. -/
  | dropped (t : ι) (job : Job) (available : BitVec 32)
  /-- `getchar` has taken a character out of the mailbox. -/
  | received (t : ι) (c : Byte)
  /-- `getchar` returns what it stores in `*c`. -/
  | returned (t : ι) (c : BitVec 32)
  /-- The assertion of `getchar` fails. -/
  | fails (t : ι)

variable {ι : Type*} [DecidableEq ι]

namespace Shared

variable (x : Shared ι)

def setMbox (q : Mbox) : Shared ι := { x with mbox := q }

def setLocked (locked : Bool) : Shared ι := { x with locked := locked }

@[simps locked]
def setFlag (p : Place) (flag : Bool) : Shared ι := { x with flag := Function.update x.flag p flag }

@[simps waiting]
def setWaiting (p : Place) (contexts : List ι) : Shared ι := { x with waiting := Function.update x.waiting p contexts }

def Awake (t : ι) : Prop := ∀ p, t ∉ x.waiting p

end Shared

structure Outcome (ι : Type*) where
  event : Event ι
  shared : Shared ι
  context : Context
  cpu : Option ι

/-- The context goes on, with nothing to be seen. -/
def Outcome.next (t : ι) (x : Shared ι) (d : Locals) (code : List Instr) : Outcome ι :=
  ⟨.internal t, x, ⟨d, code⟩, some t⟩

/-- The context goes on. -/
def Outcome.see (event : Event ι) (t : ι) (x : Shared ι) (d : Locals) (code : List Instr) : Outcome ι :=
  ⟨event, x, ⟨d, code⟩, some t⟩

/-- The context gives the CPU away. -/
def Outcome.switch (event : Event ι) (x : Shared ι) (d : Locals) (code : List Instr) : Outcome ι :=
  ⟨event, x, ⟨d, code⟩, none⟩

/-- One instruction, and what follows it. -/
def execute (t : ι) (x : Shared ι) (d : Locals) (code : List Instr) : Instr → Outcome ι
  | .enter => .next t x { d with depth := d.depth + 1 } code
  | .leave => .next t x { d with depth := d.depth - 1 } code
  | .spinlockAcquire p =>
    if x.flag p then .switch (.spins t d.job p) x d (.spinlockAcquire p :: code) else .next t (x.setFlag p true) d code
  | .spinlockRelease p => .next t (x.setFlag p false) d code
  | .whileLocked =>
    if x.locked then .see (.lockBusy t d.job) t x d
      ([.spinlockRelease .lock] ++ block .lock ++ [.spinlockAcquire .lock, .whileLocked] ++ code)
    else .next t x d code
  | .setLocked locked => .next t (x.setLocked locked) d code
  | .sleep p => .switch (.sleeps t d.job p) (x.setWaiting p (x.waiting p ++ [t])) d code
  | .wake p => .next t (x.setWaiting p (x.waiting p).tail) d code
  | .ifWaiting p => .next t x d (if x.waiting p ≠ [] then unblock p ++ code else code)
  | .whileWaiting p => .next t x d (if x.waiting p ≠ [] then unblock p ++ .whileWaiting p :: code else code)
  | .whileEmpty =>
    .next t x d (if x.mbox.count = 0#32 then conditionWait .moreData ++ .whileEmpty :: code else code)
  | .headerOut => .next t x { d with space := x.mbox.headerOut d.space } code
  | .skipHeader => .next t (x.setMbox x.mbox.skipHeader) d code
  | .bodyOut => .next t x { d with space := x.mbox.bodyOut d.space } code
  | .moveTail => .next t (x.setMbox (x.mbox.moveTail d.space)) d code
  | .countDown => .next t (x.setMbox x.mbox.countDown) d code
  | .received => .see (.received t (d.space 4)) t x d code
  | .stat => .next t x { d with count := x.mbox.count, availableSpace := x.mbox.spaceAvailable } code
  | .ifSpace =>
    if charMsgSize.sle d.availableSpace then .next t x d (mboxSend ++ code)
    else .see (.dropped t d.job x.mbox.spaceAvailable) t x d code
  | .whileFull =>
    .next t x d (if x.mbox.spaceAvailable.slt (msgSize d.space) then conditionWait .moreSpace ++ .whileFull :: code
      else code)
  | .copyIn => .next t (x.setMbox (x.mbox.copyIn d.space)) d code
  | .moveHead => .next t (x.setMbox (x.mbox.moveHead d.space)) d code
  | .countUp => .next t (x.setMbox x.mbox.countUp) d code
  | .sent => .see (.accepted t d.job (d.space 4)) t x d code
  | .fill c => .next t x { d with space := (d.space.writeWord 0 1#32).writeByte 4 c } code
  | .finish =>
    if size d.space = 1#32 then .see (.returned t ((d.space 4).signExtend 32)) t x d code
    else .see (.fails t) t x d []

namespace State

variable (s : State ι)

/-- The context is executed already, or the one that is can be interrupted. -/
def MayRun (t : ι) : Prop := ∀ u, s.cpu = some u → u ≠ t → (s.context u).locals.depth = 0

def put (t : ι) (x : Shared ι) (context : Context) (cpu : Option ι) : State ι :=
  { shared := x, cpu := cpu, context := Function.update s.context t context }

/-- The context calls one of the functions. Its variable `space` is not initialised. -/
def call (t : ι) (job : Job) (space : Memory) : State ι :=
  s.put t s.shared ⟨{ job := job, depth := (s.context t).locals.depth, space := space }, job.code⟩ (some t)

end State

inductive Step (s : State ι) : Event ι → State ι → Prop
  | call {t : ι} (job : Job) (space : Memory) (mayRun : s.MayRun t) (idle : (s.context t).code = []) :
      Step s (.call t job) (s.call t job space)
  | execute {t : ι} {i : Instr} {code : List Instr} {outcome : Outcome ι} (mayRun : s.MayRun t)
      (awake : s.shared.Awake t) (here : (s.context t).code = i :: code)
      (result : Keyboard.execute t s.shared (s.context t).locals code i = outcome) :
      Step s outcome.event (s.put t outcome.shared outcome.context outcome.cpu)

/-- The state that `mbox_init` and `keyboard_init` leave. -/
def keyboardInit : State ι := { shared := { mbox := (mboxInit 0).opened } }

end MicroOs.Keyboard
