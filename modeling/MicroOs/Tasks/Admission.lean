import MicroOs.Library.Threads
import MicroOs.Paging.Lifecycle
import MicroOs.Tasks.Queue

/-! # Admission of processes

`create_process` counts the processes that run and lets a new one in while frames are left for it. Calls are
serialised by `load_process_lock_debug`, and a caller may sleep while it holds the lock. Processes exit meanwhile,
which changes the counter without the lock: what a caller has computed before it slept may be too low, but never too
high.
-/

namespace MicroOs.Admission

open Function List

open Paging (pageSpaceAvailable averagePagesPerProcess pageablePages mayLaunch Kernel)
open Tasks (Pcb queueShift queueInsert)

def newProcessWaitTimeForPages : BitVec 32 := 1000#32

/-- A task that may run: its process control block with the flag `is_thread`. -/
structure Task where
  pcb : Pcb
  isThread : Bool
deriving DecidableEq

def Task.weight (task : Task) : ℕ := if task.isThread then 0 else 1

/-- What a new process takes: `running_processes`, the process control blocks with their free list, the frames. -/
structure Resources where
  running : BitVec 32
  links : Links Pcb
  freelist : Option Pcb
  frames : Kernel

/-- Where a caller of `create_process` is, with the local variables `page_space_available` and `wait_counter`. -/
inductive Point
  | outside
  | acquire
  /-- at the test of `first_process` -/
  | start
  | compute
  /-- at the condition of the loop -/
  | test (pageSpace waitCounter : BitVec 32)
  | again (waitCounter : BitVec 32)
  | sleep (pageSpace waitCounter : BitVec 32)
  | refuse
  /-- behind the loop, at the test of `wait_load` -/
  | pass
  | delay
  | count
  | alloc
  | setup (p : Pcb)
  | insert (p : Pcb)
  | accept

def Point.Inside : Point → Prop
  | .outside | .acquire => False
  | _ => True

/-- The caller is past the test of `first_process`. -/
def Point.Begun : Point → Prop
  | .outside | .acquire | .start => False
  | _ => True

structure State (ι : Type*) where
  pc : ι → Point
  /-- the arguments `location` and `size` of each caller -/
  args : ι → BitVec 32 × BitVec 32
  lock : Bool
  firstProcess : Bool
  waitLoad : Bool
  resources : Resources
  /-- `current_running`, the head of the ready queue -/
  ready : Option Pcb
  /-- the tasks that have been inserted into the ready queue and have not exited -/
  live : List Task

variable {ι : Type*} [DecidableEq ι]

inductive Move
  | call (location size : BitVec 32)
  /-- a statement between the call and the return, except for the next one -/
  | work
  /-- `running_processes += 1` -/
  | admitted
  /-- `return 1` -/
  | refuse
  /-- `return 0` -/
  | accept

inductive Event (ι : Type*)
  | caller (t : ι) (move : Move)
  | exit (task : Task)
  /-- scheduling, page faults, new threads -/
  | other

namespace State

/-- The kernel when it starts; `running_processes` is static and zero. -/
def boot (links : Links Pcb) (freelist : Option Pcb) (frames : Kernel) : State ι where
  pc _ := .outside
  args _ := (0#32, 0#32)
  lock := false
  firstProcess := true
  waitLoad := false
  resources := { running := 0#32, links, freelist, frames }
  ready := none
  live := []

def goto (s : State ι) (t : ι) (p : Point) : State ι := { s with pc := update s.pc t p }

/-- `exit`, for a task of either kind. -/
def exit (s : State ι) (task : Task) : State ι :=
  { s with
    resources :=
      { s.resources with running := if task.isThread then s.resources.running else s.resources.running - 1#32 }
    live := s.live.erase task }

/-- The number of processes that may run. -/
def processes (s : State ι) : ℕ := s.live.countP fun task => !task.isThread

end State

/-- The wait has become too long: `wait_counter*NEW_PROCESS_WAIT_TIME_FOR_PAGES > 2000`. -/
def tooLong (waitCounter : BitVec 32) : Bool := 2000#32 < waitCounter * newProcessWaitTimeForPages

def tooFew (pageSpace : BitVec 32) : Bool := pageSpace < averagePagesPerProcess + 1#32

inductive Step (s : State ι) : Event ι → State ι → Prop
  | call {t : ι} {location size : BitVec 32} (here : s.pc t = .outside) :
      Step s (.caller t (.call location size))
        { s.goto t .acquire with args := update s.args t (location, size) }
  | acquire {t : ι} (here : s.pc t = .acquire) (free : s.lock = false) :
      Step s (.caller t .work) { s.goto t .start with lock := true }
  | first {t : ι} (here : s.pc t = .start) (first : s.firstProcess = true) :
      Step s (.caller t .work)
        { s.goto t .compute with firstProcess := false, resources := { s.resources with running := 0#32 } }
  | notFirst {t : ι} (here : s.pc t = .start) (later : s.firstProcess = false) :
      Step s (.caller t .work) (s.goto t .compute)
  | compute {t : ι} (here : s.pc t = .compute) :
      Step s (.caller t .work) (s.goto t (.test (pageSpaceAvailable s.resources.running.toNat) 0#32))
  | wait {t : ι} {pageSpace waitCounter : BitVec 32} (here : s.pc t = .test pageSpace waitCounter)
      (few : tooFew pageSpace = true) : Step s (.caller t .work) (s.goto t (.again waitCounter))
  | again {t : ι} {waitCounter : BitVec 32} (here : s.pc t = .again waitCounter) :
      Step s (.caller t .work)
        { s.goto t (.sleep (pageSpaceAvailable s.resources.running.toNat) waitCounter) with waitLoad := true }
  | wake {t : ι} {pageSpace waitCounter : BitVec 32} (here : s.pc t = .sleep pageSpace waitCounter)
      (short : tooLong (waitCounter + 1#32) = false) :
      Step s (.caller t .work) (s.goto t (.test pageSpace (waitCounter + 1#32)))
  | giveUp {t : ι} {pageSpace waitCounter : BitVec 32} (here : s.pc t = .sleep pageSpace waitCounter)
      (long : tooLong (waitCounter + 1#32) = true) : Step s (.caller t .work) (s.goto t .refuse)
  | refuse {t : ι} (here : s.pc t = .refuse) : Step s (.caller t .refuse) { s.goto t .outside with lock := false }
  | pass {t : ι} {pageSpace waitCounter : BitVec 32} (here : s.pc t = .test pageSpace waitCounter)
      (enough : tooFew pageSpace = false) : Step s (.caller t .work) (s.goto t .pass)
  | delay {t : ι} (here : s.pc t = .pass) (waited : s.waitLoad = true) : Step s (.caller t .work) (s.goto t .delay)
  | resume {t : ι} (here : s.pc t = .delay) : Step s (.caller t .work) { s.goto t .count with waitLoad := false }
  | noDelay {t : ι} (here : s.pc t = .pass) (direct : s.waitLoad = false) : Step s (.caller t .work) (s.goto t .count)
  | launch {t : ι} (here : s.pc t = .count) :
      Step s (.caller t .admitted)
        { s.goto t .alloc with resources := { s.resources with running := s.resources.running + 1#32 } }
  | alloc {t : ι} {p : Pcb} {links : Links Pcb} {head : Option Pcb} (here : s.pc t = .alloc)
      (shift : queueShift s.resources.links s.resources.freelist = (links, head, some p)) :
      Step s (.caller t .work)
        { s.goto t (.setup p) with resources := { s.resources with links := links, freelist := head } }
  | setup {t : ι} {p : Pcb} {frames : Kernel} (here : s.pc t = .setup p)
      (built : s.resources.frames.createPcb Paging.config false (s.args t).1 (s.args t).2 = .ok frames) :
      Step s (.caller t .work) { s.goto t (.insert p) with resources := { s.resources with frames := frames } }
  | insert {t : ι} {p : Pcb} {links : Links Pcb} {head : Option Pcb} (here : s.pc t = .insert p)
      (inserted : queueInsert s.resources.links s.ready p = some (links, head)) :
      Step s (.caller t .work)
        { s.goto t .accept with
          resources := { s.resources with links := links }, ready := head, live := ⟨p, false⟩ :: s.live }
  | accept {t : ι} (here : s.pc t = .accept) : Step s (.caller t .accept) { s.goto t .outside with lock := false }
  | exit {task : Task} (alive : task ∈ s.live) : Step s (.exit task) (s.exit task)
  | thread {p : Pcb} : Step s .other { s with live := ⟨p, true⟩ :: s.live }
  | other {links : Links Pcb} {freelist ready : Option Pcb} {frames : Kernel} :
      Step s .other
        { s with
          resources := { s.resources with links := links, freelist := freelist, frames := frames }
          ready := ready }

variable {s s' : State ι} {event : Event ι} {events : List (Event ι)} {t : ι} {p : Point}

@[simp] theorem State.goto_pc : (s.goto t p).pc = update s.pc t p := rfl

/-- The space was computed with no less processes running, and no more than four. -/
def UpToDate (running : ℕ) (pageSpace : BitVec 32) : Prop :=
  ∃ earlier, running ≤ earlier ∧ earlier ≤ 4 ∧ pageSpace = pageSpaceAvailable earlier

/-- What holds where a caller is, of the counter and the number of processes that may run. -/
def Point.Fact (running processes : ℕ) : Point → Prop
  | .test pageSpace _ | .sleep pageSpace _ => UpToDate running pageSpace
  | .pass | .delay | .count => running < 4
  | .alloc | .setup _ | .insert _ => processes < running
  | _ => True

theorem Point.Begun.inside (begun : p.Begun) : p.Inside := by
  cases p with
  | outside | acquire | start => exact begun.elim
  | _ => trivial

variable {running processes : ℕ}

theorem Point.Fact.of_outside (p : Point) (outside : ¬ p.Inside) : p.Fact running processes := by
  cases p with
  | outside | acquire => trivial
  | _ => exact absurd trivial outside

theorem Point.Fact.exit {running' processes' : ℕ} (fact : p.Fact running processes)
    (less : running' ≤ running) (kept : processes < running → processes' < running') : p.Fact running' processes' := by
  cases p with
  | test | sleep =>
    obtain ⟨earlier, before, bound, same⟩ := fact
    exact ⟨earlier, less.trans before, bound, same⟩
  | pass | delay | count => exact less.trans_lt fact
  | alloc | setup | insert => exact kept fact
  | _ => trivial

theorem UpToDate.lt {pageSpace : BitVec 32} (known : UpToDate running pageSpace)
    (enough : tooFew pageSpace = false) : running < 4 := by
  obtain ⟨earlier, before, bound, rfl⟩ := known
  have room := (Paging.mayLaunch_iff earlier bound).mp (congrArg not enough)
  exact before.trans_lt room

structure Inv (s : State ι) : Prop where
  exclusive : Exclusive Point.Inside s.lock s.pc
  facts : Everywhere (Point.Fact s.resources.running.toNat s.processes) s.pc
  few : s.resources.running.toNat ≤ 4
  counted : s.processes ≤ s.resources.running.toNat
  begun : Ensures Point.Begun (s.firstProcess = false) s.pc
  fresh : s.firstProcess = true → s.resources.running = 0#32

omit [DecidableEq ι] in
theorem Inv.boot (links : Links Pcb) (freelist : Option Pcb) (frames : Kernel) :
    Inv (State.boot links freelist frames : State ι) where
  exclusive := ⟨fun _ _ within => within.elim, fun _ _ within => within⟩
  facts _ := trivial
  few := Nat.zero_le 4
  counted := le_rfl
  begun _ begun := begun.elim
  fresh _ := rfl

namespace Inv

omit [DecidableEq ι] in
theorem begun_of (here : s.pc t = p) (begun : p.Begun) : (s.pc t).Begun := here ▸ begun

omit [DecidableEq ι] in
theorem fact_of (inv : Inv s) (here : s.pc t = p) : p.Fact s.resources.running.toNat s.processes :=
  here ▸ inv.facts t

theorem act (inv : Inv s) (begun : (s.pc t).Begun) (lock : s'.lock = s.lock)
    (first : s'.firstProcess = s.firstProcess) (moved : s'.pc = update s.pc t p)
    (fact : p.Fact s'.resources.running.toNat s'.processes) (few : s'.resources.running.toNat ≤ 4)
    (counted : s'.processes ≤ s'.resources.running.toNat) : Inv s' := by
  have later : s'.firstProcess = false := first.trans (inv.begun t begun)
  refine ⟨?_, ?_, few, counted, fun _ _ => later, ?_⟩
  · rw [lock, moved]
    exact inv.exclusive.move fun _ => begun.inside
  · rw [moved]
    exact inv.exclusive.everywhere begun.inside Point.Fact.of_outside fact
  · rw [later]
    exact nofun

theorem move (inv : Inv s) (begun : (s.pc t).Begun) (fact : p.Fact s.resources.running.toNat s.processes) :
    Inv (s.goto t p) :=
  inv.act begun rfl rfl rfl fact inv.few inv.counted

theorem start (inv : Inv s) (here : s.pc t = .start) (lock : s'.lock = s.lock) (later : s'.firstProcess = false)
    (moved : s'.pc = update s.pc t .compute) (same : s'.resources = s.resources) (live : s'.live = s.live) :
    Inv s' := by
  have within : (s.pc t).Inside := by
    rw [here]
    trivial
  have processes : s'.processes = s.processes := by rw [State.processes, live, State.processes]
  refine ⟨?_, ?_, ?_, ?_, fun _ _ => later, ?_⟩
  · rw [lock, moved]
    exact inv.exclusive.move fun _ => within
  · rw [moved, same, processes]
    exact inv.facts.move trivial
  · rw [same]
    exact inv.few
  · rw [same, processes]
    exact inv.counted
  · rw [later]
    exact nofun

theorem leave (inv : Inv s) (begun : (s.pc t).Begun) : Inv { s.goto t .outside with lock := false } where
  exclusive := inv.exclusive.leave begun.inside (fun within : Point.Inside .outside => within) false
  facts := inv.facts.move trivial
  few := inv.few
  counted := inv.counted
  begun := inv.begun.move False.elim
  fresh := inv.fresh

omit [DecidableEq ι] in
theorem toNat_succ (inv : Inv s) : (s.resources.running + 1#32).toNat = s.resources.running.toNat + 1 := by
  have few := inv.few
  bv_omega

omit [DecidableEq ι] in
theorem processes_exit {task : Task} (alive : task ∈ s.live) : (s.exit task).processes + task.weight = s.processes := by
  have split : s.processes = (s.exit task).processes + task.weight := by
    unfold State.processes State.exit
    rw [(perm_cons_erase alive).countP_eq]
    cases kind : task.isThread with
    | true | false => simp [Task.weight, kind]
  exact split.symm

omit [DecidableEq ι] in
theorem running_exit {task : Task} (inv : Inv s) (alive : task ∈ s.live) :
    (s.exit task).resources.running.toNat + task.weight = s.resources.running.toNat := by
  have fewer := processes_exit alive
  have counted := inv.counted
  unfold State.exit
  cases kind : task.isThread with
  | true => simp [Task.weight, kind]
  | false =>
    have one : task.weight = 1 := by simp [Task.weight, kind]
    simp only [Bool.false_eq_true, if_false]
    bv_omega

omit [DecidableEq ι] in
theorem exit {task : Task} (inv : Inv s) (alive : task ∈ s.live) : Inv (s.exit task) := by
  have processes := processes_exit alive
  have running := inv.running_exit alive
  have counted := inv.counted
  have few := inv.few
  refine ⟨inv.exclusive, ?_, by omega, by omega, inv.begun, ?_⟩
  · intro t
    exact (inv.facts t).exit (by omega) (by omega)
  · intro first
    rw [inv.fresh first] at running
    exact BitVec.eq_of_toNat_eq (Nat.eq_zero_of_add_eq_zero running).1

/-- The counter stays between the number of processes that may run and four. -/
theorem step (inv : Inv s) (taken : Step s event s') : Inv s' := by
  cases taken with
  | call here =>
    exact ⟨inv.exclusive.move False.elim, inv.facts.move trivial, inv.few, inv.counted, inv.begun.move False.elim,
      inv.fresh⟩
  | @acquire t here free =>
    exact ⟨inv.exclusive.enter free t .start, inv.facts.move trivial, inv.few, inv.counted, inv.begun.move False.elim,
      inv.fresh⟩
  | first here first =>
    refine inv.start here rfl rfl rfl ?_ rfl
    rw [← inv.fresh first]
  | notFirst here later => exact inv.start here rfl later rfl rfl rfl
  | compute here => exact inv.move (begun_of here trivial) ⟨_, le_rfl, inv.few, rfl⟩
  | wait here few | giveUp here long => exact inv.move (begun_of here trivial) trivial
  | again here =>
    exact inv.act (begun_of here trivial) rfl rfl rfl ⟨_, le_rfl, inv.few, rfl⟩ inv.few inv.counted
  | wake here short | delay here waited | noDelay here direct =>
    have fact := inv.fact_of here
    exact inv.move (begun_of here trivial) fact
  | refuse here | accept here => exact inv.leave (begun_of here trivial)
  | pass here enough => exact inv.move (begun_of here trivial) ((inv.fact_of here).lt enough)
  | resume here | alloc here shift | setup here built =>
    have fact := inv.fact_of here
    exact inv.act (begun_of here trivial) rfl rfl rfl fact inv.few inv.counted
  | launch here =>
    have room : s.resources.running.toNat < 4 := inv.fact_of here
    have more := inv.toNat_succ
    have counted : s.processes < (s.resources.running + 1#32).toNat := by
      rw [more]
      exact Nat.lt_succ_of_le inv.counted
    have few : (s.resources.running + 1#32).toNat ≤ 4 := by
      rw [more]
      exact room
    exact inv.act (begun_of here trivial) rfl rfl rfl counted few counted.le
  | insert here inserted =>
    have room := inv.fact_of here
    refine inv.act (begun_of here trivial) rfl rfl rfl trivial inv.few ?_
    unfold State.processes
    rw [countP_cons]
    exact room
  | exit alive => exact inv.exit alive
  | thread | other => exact ⟨inv.exclusive, inv.facts, inv.few, inv.counted, inv.begun, inv.fresh⟩

theorem of_run {links : Links Pcb} {freelist : Option Pcb} {frames : Kernel}
    (run : Run Step (State.boot links freelist frames) events s) : Inv s :=
  run.invariant Inv (fun inv taken => inv.step taken) (.boot links freelist frames)

omit [DecidableEq ι] in
/-- Where a process is counted there is room for it, as `mayLaunch` says. -/
theorem mayLaunch (inv : Inv s) (here : s.pc t = .count) : Paging.mayLaunch s.resources.running.toNat = true :=
  (Paging.mayLaunch_iff _ inv.few).mpr (inv.fact_of here)

omit [DecidableEq ι] in
/-- The space for processes is a difference of natural numbers. -/
theorem pageSpaceAvailable_toNat (inv : Inv s) :
    s.resources.running.toNat * averagePagesPerProcess.toNat ≤ pageablePages ∧
      (pageSpaceAvailable s.resources.running.toNat).toNat =
        pageablePages - s.resources.running.toNat * averagePagesPerProcess.toNat := by
  have all : ∀ running ≤ 4, running * averagePagesPerProcess.toNat ≤ pageablePages ∧
      (pageSpaceAvailable running).toNat = pageablePages - running * averagePagesPerProcess.toNat := by decide
  exact all _ inv.few

end Inv

def Event.admits : Event ι → Bool
  | .caller _ .admitted => true
  | _ => false

def Event.ends : Event ι → Bool
  | .exit task => !task.isThread
  | _ => false

/-- The counter follows what happens to processes. -/
theorem Inv.running_step (inv : Inv s) (taken : Step s event s') :
    s'.resources.running.toNat + event.ends.toNat = s.resources.running.toNat + event.admits.toNat := by
  cases taken with
  | first here first =>
    rw [inv.fresh first]
    rfl
  | launch here => exact inv.toNat_succ
  | @exit task alive =>
    have running := inv.running_exit alive
    have weight : (Event.exit task : Event ι).ends.toNat = task.weight := by
      obtain ⟨p, isThread⟩ := task
      cases isThread with
      | true | false => rfl
    rw [weight]
    exact running
  | _ => rfl

theorem running_run {links : Links Pcb} {freelist : Option Pcb} {frames : Kernel}
    (run : Run Step (State.boot links freelist frames) events s) :
    s.resources.running.toNat + events.countP Event.ends = events.countP Event.admits := by
  induction run with
  | nil => rfl
  | @snoc middle target before event earlier last ih =>
    have changed := (Inv.of_run earlier).running_step last
    have single : ∀ (counts : Event ι → Bool), [event].countP counts = (counts event).toNat := by
      intro counts
      cases found : counts event with
      | true | false => simp [found]
    rw [countP_append, countP_append, single, single]
    omega

def Point.Undecided : Point → Prop
  | .acquire | .start | .compute | .test _ _ | .again _ | .sleep _ _ | .refuse => True
  | _ => False

theorem Inv.undecided_resources {move : Move} (inv : Inv s) (taken : Step s (.caller t move) s')
    (undecided : (s'.pc t).Undecided) : s'.resources = s.resources := by
  cases taken with
  | first here first =>
    rw [← inv.fresh first]
  | launch here | alloc here | setup here | insert here =>
    simp [Point.Undecided] at undecided
  | _ => rfl

theorem undecided_update {u : ι} (undecided : (update s.pc u p t).Undecided)
    (before : p.Undecided → (s.pc u).Undecided) : (s.pc t).Undecided := by
  by_cases same : t = u
  · subst same
    rw [update_self] at undecided
    exact before undecided
  · rwa [update_of_ne same] at undecided

omit [DecidableEq ι] in
theorem undecided_of (here : s.pc t = p) (undecided : p.Undecided) : (s.pc t).Undecided := here ▸ undecided

/-- A call that is decided stays so. -/
theorem Step.undecided (taken : Step s event s') (undecided : (s'.pc t).Undecided)
    (same : ∀ location size, event ≠ .caller t (.call location size)) : (s.pc t).Undecided := by
  cases taken with
  | @call u location size here =>
    have other : t ≠ u := by
      rintro rfl
      exact same location size rfl
    change (update s.pc u .acquire t).Undecided at undecided
    rwa [update_of_ne other] at undecided
  | acquire here | first here | notFirst here | compute here | wait here | again here | wake here | giveUp here =>
    exact undecided_update undecided fun _ => undecided_of here trivial
  | refuse here | pass here | delay here | resume here | noDelay here | launch here | alloc here | setup here
  | insert here | accept here => exact undecided_update undecided False.elim
  | exit alive | thread | other => exact undecided

/-- A call that may still be refused could be before. -/
theorem undecided_run (run : Run Step s events s') (undecided : (s'.pc t).Undecided)
    (same : ∀ location size, .caller t (.call location size) ∉ events) : (s.pc t).Undecided := by
  induction run with
  | nil => exact undecided
  | @snoc middle target before event earlier last ih =>
    refine ih (last.undecided undecided ?_) ?_
    · rintro location size rfl
      exact same location size (mem_append_right _ mem_cons_self)
    · intro location size member
      exact same location size (mem_append_left _ member)

/-- The counter is the number of processes that were let in and have not exited, at most four, and the space for
processes does not wrap. A call that is refused takes none of the resources, and the lock is free behind it. -/
theorem admission_control {links : Links Pcb} {freelist : Option Pcb} {frames : Kernel}
    (run : Run Step (State.boot links freelist frames : State ι) events s) :
    s.resources.running.toNat + events.countP Event.ends = events.countP Event.admits ∧
      s.resources.running.toNat ≤ 4 ∧
      s.resources.running.toNat * averagePagesPerProcess.toNat ≤ pageablePages ∧
      (pageSpaceAvailable s.resources.running.toNat).toNat =
        pageablePages - s.resources.running.toNat * averagePagesPerProcess.toNat ∧
      ∀ t move s₁ later s₂ s₃, Step s (.caller t move) s₁ → Run Step s₁ later s₂ →
        (∀ location size, .caller t (.call location size) ∉ later) → Step s₂ (.caller t .refuse) s₃ →
        s₁.resources = s.resources ∧ s₃.resources = s₂.resources ∧ s₃.lock = false := by
  have inv := Inv.of_run run
  obtain ⟨small, exact⟩ := inv.pageSpaceAvailable_toNat
  refine ⟨running_run run, inv.few, small, exact, ?_⟩
  intro t move s₁ later s₂ s₃ first rest same last
  cases last with
  | refuse here =>
    have undecided := undecided_run rest (undecided_of here trivial) same
    exact ⟨inv.undecided_resources first undecided, rfl, rfl⟩

/-- The first process is let in at once. -/
theorem admission_control_first_process : ∃ s : State Unit, Run Step (State.boot ⟨fun _ => none, fun _ => none⟩ none
      (Kernel.boot (fun _ => 0#8) (fun _ _ => 0#8) (fun _ => .good) fun _ => 0#64))
      [.caller () (.call 0#32 16#32), .caller () .work, .caller () .work, .caller () .work, .caller () .work,
        .caller () .work, .caller () .admitted] s ∧ s.resources.running.toNat = 1 := by
  have called : Run Step (State.boot ⟨fun _ => none, fun _ => none⟩ none
      (Kernel.boot (fun _ => 0#8) (fun _ _ => 0#8) (fun _ => .good) fun _ => 0#64))
      [.caller () (.call 0#32 16#32)] _ := .single (.call rfl)
  have acquired := called.snoc (.acquire (t := ()) rfl rfl)
  have computed := (acquired.snoc (.first (t := ()) rfl rfl)).snoc (.compute (t := ()) rfl)
  have passed := (computed.snoc (.pass (t := ()) rfl (by decide))).snoc (.noDelay (t := ()) rfl rfl)
  have run := passed.snoc (.launch (t := ()) rfl)
  exact ⟨_, run, (admission_control run).1⟩

end MicroOs.Admission
