import MicroOs.Library.Run
import MicroOs.Tasks.Queue

/-! # The scheduler

Tasks are created, yield, are preempted, sleep, block on a wait queue, are unblocked and exit. The kernel runs on one
processor and each of these functions disables interrupts, so a step is a stretch of code that applies at most one of
`queue_insert` and `queue_shift`. Where several stretches follow each other without interrupts, `phase` tells what comes
next. `create_thread` and `create_process` enable interrupts between the allocation and the insertion.

`κ` is the type of the wait queues: those of locks, conditions and semaphores.
-/

namespace MicroOs.Tasks

open Function

inductive Status
  | firstTime | ready | sleeping | blocked | exited
deriving DecidableEq

/-- A variable that points to a queue: `freelist`, `current_running` or a wait queue. -/
inductive Queue (κ : Type*)
  | free
  | ready
  | wait (q : κ)
deriving DecidableEq

inductive Phase
  /-- The kernel is starting: it creates threads. -/
  | boot
  /-- The current task runs. -/
  | idle
  /-- `unblock` is going to insert the task into the ready queue. -/
  | insert (job : Pcb)
  /-- `scheduler` is going to look at the status of the current task. -/
  | schedule
  /-- `scheduler` is going to free the task. -/
  | free (outgoing : Pcb)
  /-- `scheduler` is at the condition of its loop. -/
  | test
deriving DecidableEq

/-- The process control blocks and the queues. `created` are the tasks allocated and not in the ready queue yet. -/
structure TaskTable (κ : Type*) where
  links : Links Pcb
  queue : Queue κ → Option Pcb
  status : Pcb → Status
  wakeupTime : Pcb → ℕ
  created : List Pcb
  phase : Phase

variable {κ : Type*} [DecidableEq κ]

inductive Action (κ : Type*)
  /-- The allocation in `create_thread` and `create_process`. -/
  | alloc (p : Pcb)
  /-- The insertion in `create_thread` and `create_process`. -/
  | create (p : Pcb)
  /-- The stores of `msleep`. -/
  | sleep (time : ℕ)
  /-- `yield` or `preempt`. -/
  | yield
  | block (q : κ) (p : Pcb)
  | unblock (q : κ) (p : Pcb)
  | insert (p : Pcb)
  | exit (p : Pcb)
  /-- The scheduler passes to the next task; `ticks` is the time. -/
  | turn (ticks : ℕ)
  | removeBlocked (p : Pcb)
  | removeExited (p : Pcb)
  | free (p : Pcb)
  /-- Another round of the scheduler's loop. -/
  | again
  | dispatch (p : Pcb)
  /-- `kernel_main` starts the first thread. -/
  | start (p : Pcb)
deriving DecidableEq

/-- The queue that `queue_insert` or `queue_shift` is applied to. -/
def Action.queue : Action κ → Option (Queue κ)
  | .alloc _ | .free _ => some .free
  | .create _ | .insert _ | .removeBlocked _ | .removeExited _ => some .ready
  | .unblock q _ => some (.wait q)
  | _ => none

/-- The links and the free list when `init_pcb_table` has inserted those of a list. -/
def insertFree (links : Links Pcb) (freelist : Option Pcb) : List Pcb → Option (Links Pcb × Option Pcb)
  | [] => some (links, freelist)
  | p :: rest => (queueInsert links freelist p).bind fun table => insertFree table.1 table.2 rest

@[simps -fullyApplied links queue status wakeupTime created phase]
def bootTable (links : Links Pcb) (freelist : Option Pcb) : TaskTable κ where
  links := links
  queue := update (fun _ => none) .free freelist
  status _ := .firstTime
  wakeupTime _ := 0
  created := []
  phase := .boot

/-- `init_pcb_table`: all process control blocks are put into the free list. -/
def initPcbTable : Option (TaskTable κ) :=
  (insertFree ⟨fun _ => none, fun _ => none⟩ none (List.finRange pcbTableSize)).map fun table =>
    bootTable table.1 table.2

/-- The phases in which tasks may be created. -/
def Phase.calls : Phase → Bool
  | .boot | .idle => true
  | _ => false

namespace TaskTable

/-- An assignment to a queue variable, with the stores to the links before it. -/
@[simps -fullyApplied links queue status wakeupTime created phase]
def relink (s : TaskTable κ) (links : Links Pcb) (queue : Queue κ) (head : Option Pcb) : TaskTable κ :=
  { s with links := links, queue := update s.queue queue head }

@[simps -fullyApplied links queue status wakeupTime created phase]
def setStatus (s : TaskTable κ) (p : Pcb) (status : Status) : TaskTable κ :=
  { s with status := update s.status p status }

@[simps -fullyApplied links queue status wakeupTime created phase]
def goto (s : TaskTable κ) (phase : Phase) : TaskTable κ := { s with phase := phase }

/-- `dispatch`: a task that has not run is ready from now on. -/
def dispatch (s : TaskTable κ) (p : Pcb) : TaskTable κ :=
  (if s.status p = .firstTime then s.setStatus p .ready else s).goto .idle

omit [DecidableEq κ] in
@[simp] theorem created_dispatch (s : TaskTable κ) (p : Pcb) : (s.dispatch p).created = s.created := by
  unfold dispatch
  split <;> rfl

omit [DecidableEq κ] in
theorem status_dispatch_of_ne (s : TaskTable κ) {p a : Pcb} (different : a ≠ p) :
    (s.dispatch p).status a = s.status a := by
  unfold dispatch
  split
  · simp [different]
  · rfl

/-- The case of `scheduler` for a sleeping task. -/
def wake (s : TaskTable κ) (p : Pcb) (ticks : ℕ) : TaskTable κ :=
  if s.status p = .sleeping ∧ s.wakeupTime p < ticks then s.setStatus p .ready else s

end TaskTable

inductive TaskStep (s : TaskTable κ) : Action κ → TaskTable κ → Prop
  | alloc {p : Pcb} {links : Links Pcb} {head : Option Pcb} (calls : s.phase.calls = true)
      (shift : queueShift s.links (s.queue .free) = (links, head, some p)) :
      TaskStep s (.alloc p) { (s.relink links .free head).setStatus p .firstTime with created := p :: s.created }
  | create {p : Pcb} {links : Links Pcb} {head : Option Pcb} (calls : s.phase.calls = true)
      (mine : p ∈ s.created) (inserted : queueInsert s.links (s.queue .ready) p = some (links, head)) :
      TaskStep s (.create p) { s.relink links .ready head with created := s.created.erase p }
  | sleep {p : Pcb} {time : ℕ} (runs : s.phase = .idle) (current : s.queue .ready = some p) : TaskStep s (.sleep time)
        { s.setStatus p .sleeping with wakeupTime := update s.wakeupTime p time }
  | yield {p : Pcb} (runs : s.phase = .idle) (current : s.queue .ready = some p) : TaskStep s .yield (s.goto .schedule)
  | block {q : κ} {p : Pcb} {links : Links Pcb} {head : Option Pcb} (runs : s.phase = .idle)
      (current : s.queue .ready = some p) (queued : waitEnqueue s.links (s.queue (.wait q)) p = some (links, head)) :
      TaskStep s (.block q p) (((s.setStatus p .blocked).relink links (.wait q) head).goto .schedule)
  | unblock {q : κ} {p : Pcb} {links : Links Pcb} {head : Option Pcb} (runs : s.phase = .idle)
      (shift : queueShift s.links (s.queue (.wait q)) = (links, head, some p)) :
      TaskStep s (.unblock q p) (((s.relink links (.wait q) head).setStatus p .ready).goto (.insert p))
  | insert {p : Pcb} {links : Links Pcb} {head : Option Pcb} (next : s.phase = .insert p)
      (inserted : queueInsert s.links (s.queue .ready) p = some (links, head)) :
      TaskStep s (.insert p) ((s.relink links .ready head).goto .idle)
  | exit {p : Pcb} (runs : s.phase = .idle) (current : s.queue .ready = some p) :
      TaskStep s (.exit p) ((s.setStatus p .exited).goto .schedule)
  | turn {p : Pcb} {ticks : ℕ} (next : s.phase = .schedule) (current : s.queue .ready = some p)
      (alive : s.status p ≠ .blocked ∧ s.status p ≠ .exited) :
      TaskStep s (.turn ticks) (((s.wake p ticks).relink s.links .ready (s.links.next p)).goto .test)
  | removeBlocked {p : Pcb} {links : Links Pcb} {head : Option Pcb} (next : s.phase = .schedule)
      (status : s.status p = .blocked) (shift : queueShift s.links (s.queue .ready) = (links, head, some p))
      (more : head ≠ none) : TaskStep s (.removeBlocked p) ((s.relink links .ready head).goto .test)
  | removeExited {p : Pcb} {links : Links Pcb} {head : Option Pcb} (next : s.phase = .schedule)
      (status : s.status p = .exited) (shift : queueShift s.links (s.queue .ready) = (links, head, some p))
      (more : head ≠ none) : TaskStep s (.removeExited p) ((s.relink links .ready head).goto (.free p))
  | free {p : Pcb} {links : Links Pcb} {head : Option Pcb} (next : s.phase = .free p)
      (inserted : queueInsert s.links (s.queue .free) p = some (links, head)) :
      TaskStep s (.free p) ((s.relink links .free head).goto .test)
  | again {p : Pcb} (next : s.phase = .test) (current : s.queue .ready = some p)
      (waits : s.status p ≠ .ready ∧ s.status p ≠ .firstTime) : TaskStep s .again (s.goto .schedule)
  | dispatch {p : Pcb} (next : s.phase = .test) (current : s.queue .ready = some p)
      (runs : s.status p = .ready ∨ s.status p = .firstTime) : TaskStep s (.dispatch p) (s.dispatch p)
  | start {p : Pcb} (next : s.phase = .boot) (current : s.queue .ready = some p) : TaskStep s (.start p) (s.dispatch p)

end MicroOs.Tasks
