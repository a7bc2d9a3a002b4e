import MicroOs.Paging.Transparency

/-! # The life cycle of processes

`create_process` lets a new process in while less than four are running, and pins three frames for it. `exit` takes
the process out of the ready queue and no more: the frames of a process that has ended stay pinned or queued. So each
process that was ever created takes three frames from those that can be allocated, and the tenth one takes the last.
-/

namespace MicroOs.Paging

open BitMask List Kernel

def averagePagesPerProcess : BitVec 32 := 7#32

def pageSpaceAvailable (running : ℕ) : BitVec 32 :=
  BitVec.ofNat 32 pageablePages - BitVec.ofNat 32 running * averagePagesPerProcess

/-- The test of `create_process` that lets a process in; otherwise it waits for a while. -/
def mayLaunch (running : ℕ) : Bool := !decide (pageSpaceAvailable running < averagePagesPerProcess + 1#32)

/-- The kernel stacks that the threads started at boot leave for processes. -/
def processStacks : ℕ := 21

/-- Why the system has stopped: in `allocate_page` or after a failed read from the disk. -/
inductive Stop
  | allocation (halt : Halt)
  | load
deriving DecidableEq

/-- The memory manager with the processes that are alive; `running_processes` is their number. -/
structure Machine where
  kernel : Kernel
  alive : List ℕ := []
  created : ℕ := 0
  stopped : Option Stop := none

inductive LifeEvent
  | kernel (event : Event)
  | refuse
  | exit (p : ℕ)

def Event.createsProcess : Event → Bool
  | .setup isThread _ _ => !isThread
  | _ => false

def Event.allocates : Event → Bool
  | .setup isThread _ _ => !isThread
  | .fault _ _ _ => true
  | _ => false

namespace Machine

variable (m : Machine)

/-- Processes are let in by `create_process`, and use their images as long as they are alive. -/
def Allows : Event → Prop
  | .setup isThread _ _ => isThread = false → mayLaunch m.alive.length = true ∧ m.created < processStacks
  | .fault p vaddr errorCode => p ∈ m.alive ∧ InImage (m.kernel.pcb p) vaddr ∧ hasFlag errorCode 1#32 = false
  | .read p vaddr _ => p ∈ m.alive ∧ InImage (m.kernel.pcb p) vaddr
  | .write p vaddr _ => p ∈ m.alive ∧ InImage (m.kernel.pcb p) vaddr

def after (event : Event) (kernel : Kernel) : Machine :=
  if event.createsProcess then { m with kernel, alive := m.kernel.pcbCount :: m.alive, created := m.created + 1 }
  else { m with kernel }

end Machine

/-- How an event stops the system. -/
inductive Stops (s : Kernel) : Event → Stop → Prop
  | setup {isThread : Bool} {swapLoc swapSize : BitVec 32} {halt : Halt}
      (failed : s.createPcb config isThread swapLoc swapSize = .error halt) :
      Stops s (.setup isThread swapLoc swapSize) (.allocation halt)
  | fault {p : ℕ} {vaddr errorCode : BitVec 32} {halt : Halt} (absent : s.NotPresent p vaddr)
      (failed : s.allocatePage config = .error halt) :
      Stops s (.fault p vaddr errorCode) (.allocation halt)
  | load {p : ℕ} {vaddr errorCode : BitVec 32} {halt : Halt} {result : ℕ × Kernel} (absent : s.NotPresent p vaddr)
      (allocated : s.allocatePage config = .ok result)
      (failed : s.pageFaultHandler config p vaddr errorCode = .error halt) :
      Stops s (.fault p vaddr errorCode) .load

/-- The steps of a machine that has not stopped. -/
inductive LifeStep (m : Machine) : LifeEvent → Machine → Prop
  | runs {event : Event} {s' : Kernel} (running : m.stopped = none) (allowed : m.Allows event)
      (step : Step config m.kernel event s') : LifeStep m (.kernel event) (m.after event s')
  | stops {event : Event} {stop : Stop} (running : m.stopped = none) (allowed : m.Allows event)
      (stops : Stops m.kernel event stop) : LifeStep m (.kernel event) { m with stopped := some stop }
  | refuse (running : m.stopped = none) (full : mayLaunch m.alive.length = false) : LifeStep m .refuse m
  | exit {p : ℕ} (running : m.stopped = none) (member : p ∈ m.alive) :
      LifeStep m (.exit p) { m with alive := m.alive.erase p }

variable {m m' : Machine} {event : LifeEvent} {events : List LifeEvent}

theorem mayLaunch_iff : ∀ running ≤ 4, (mayLaunch running = true ↔ running < 4) := by decide

def LifeEvent.allocates : LifeEvent → Bool
  | .kernel event => event.allocates
  | _ => false

def LifeEvent.createsProcess : LifeEvent → Bool
  | .kernel event => event.createsProcess
  | _ => false

def createdProcesses (events : List LifeEvent) : ℕ := events.countP LifeEvent.createsProcess

/-- Frames are asked for only while less than ten processes have been created. -/
def AllocatesEarly (events : List LifeEvent) : Prop :=
  Throughout (fun before event => event.allocates = true → createdProcesses before < 10) events

def ShortImages (_ : Machine) : LifeEvent → Prop
  | .kernel (.setup isThread _ swapSize) => isThread = false → ShortImage swapSize
  | _ => True

variable {s s' : Kernel} {next next' : ℕ} {queue queue' : List ℕ} {role role' : ℕ → Role}

/-- A new process takes three frames for good, and everything else leaves as many as before. -/
theorem ImageStep.allocatable {event : Event} (step : ImageStep s next queue role event s' next' queue' role') :
    MicroOs.Paging.allocatable next' queue' + (if event.createsProcess then 3 else 0) =
      MicroOs.Paging.allocatable next queue := by
  cases step with
  | thread swapLoc swapSize | read at_frame | write at_frame => rfl
  | process short constructed evolves => exact constructed.allocatable
  | fault known process inside load =>
    obtain ⟨first, -, -⟩ := load
    have taken := first.allocatable
    simp only [MicroOs.Paging.allocatable, length_append] at taken ⊢
    exact taken

/-- Whatever asks for a frame gets one. -/
theorem ImageStep.had_frame {event : Event} (step : ImageStep s next queue role event s' next' queue' role')
    (allocates : event.allocates = true) : 0 < MicroOs.Paging.allocatable next queue := by
  cases step with
  | thread swapLoc swapSize | read at_frame | write at_frame => cases allocates
  | process short constructed evolves =>
    have taken := constructed.allocatable
    omega
  | fault known process inside load =>
    obtain ⟨first, -, -⟩ := load
    have taken := first.allocatable
    omega

theorem ImageStep.new_process {event : Event} (step : ImageStep s next queue role event s' next' queue' role')
    (creates : event.createsProcess = true) : s.pcbCount < s'.pcbCount ∧ (s'.pcb s.pcbCount).isThread = false := by
  cases step with
  | thread swapLoc swapSize | fault known process inside load | read at_frame | write at_frame => cases creates
  | process short constructed evolves =>
    obtain ⟨⟨pageDirectory, pcb⟩, count, -⟩ := constructed.static
    constructor
    · rw [count]
      exact Nat.lt_succ_self _
    · rw [pcb, Function.update_self, withPcb_self]

/-- What is known of a machine after some events. -/
inductive Accounted (seen : List LifeEvent) (m : Machine) : Prop
  | running {next : ℕ} {queue : List ℕ} {role : ℕ → Role} (running : m.stopped = none)
      (inv : ImageInv m.kernel next queue role) (frames : allocatable next queue + 3 * m.created = 30)
      (alive : ∀ p ∈ m.alive, p < m.kernel.pcbCount ∧ (m.kernel.pcb p).isThread = false)
      (created : m.created = createdProcesses seen) (early : AllocatesEarly seen)
  | exhausted (stopped : m.stopped = some (.allocation .abortk)) (late : ¬AllocatesEarly seen)
  | failed (stopped : m.stopped = some .load) (early : AllocatesEarly seen)

theorem Machine.Allows.inside {event : Event} (allowed : m.Allows event) (short : ShortImages m (.kernel event)) :
    InsideImages m.kernel event := by
  cases event with
  | setup isThread swapLoc swapSize => exact short
  | fault p vaddr errorCode => exact allowed.2.1
  | read p vaddr byte | write p vaddr byte => exact allowed.2

theorem createdProcesses_snoc :
    createdProcesses (events ++ [event]) = createdProcesses events + if event.createsProcess then 1 else 0 := by
  rw [createdProcesses, countP_append, countP_singleton, createdProcesses]

/-- The system stops for want of a frame when ten processes have been created, and only then. -/
theorem Stops.frames {event : Event} {stop : Stop} (stops : Stops m.kernel event stop)
    (inv : ImageInv m.kernel next queue role)
    (short : ShortImages m (.kernel event)) (frames : allocatable next queue + 3 * m.created = 30) :
    event.allocates = true ∧ (m.created < 10 ∧ stop = .load ∨ ¬m.created < 10 ∧ stop = .allocation .abortk) := by
  cases stops with
  | @setup isThread swapLoc swapSize halt failed =>
    cases isThread with
    | true =>
      rw [createThread_eq] at failed
      cases failed
    | false =>
      refine ⟨rfl, .inr ?_⟩
      by_cases early : m.created < 10
      · obtain ⟨s', _, _, ran, -⟩ := inv.system.construct swapLoc (by omega) (ShortImage.finite (short rfl))
        rw [ran] at failed
        cases failed
      · rw [inv.system.construct_exhausted swapLoc swapSize (by omega)] at failed
        cases failed
        exact ⟨early, rfl⟩
  | fault absent failed =>
    refine ⟨rfl, .inr ?_⟩
    by_cases early : m.created < 10
    · obtain ⟨_, s', _, _, allocated⟩ := inv.system.map.allocate inv.system.alloc inv.system.kernel (by omega)
      rw [allocated.ran inv.system.alloc] at failed
      cases failed
    · rw [inv.system.alloc.allocatePage_exhausted (by omega)] at failed
      cases failed
      exact ⟨early, rfl⟩
  | load absent allocated failed =>
    refine ⟨rfl, .inl ⟨?_, rfl⟩⟩
    by_contra late
    rw [inv.system.alloc.allocatePage_exhausted (by omega)] at allocated
    cases allocated

/-- An event keeps the account of the frames, or the machine stops for one of two reasons. -/
theorem Accounted.step {seen : List LifeEvent} (accounted : Accounted seen m)
    (taken : Guarded ShortImages LifeStep m event m') : Accounted (seen ++ [event]) m' := by
  obtain ⟨short, taken⟩ := taken
  have notStopped : m.stopped = none := by
    cases taken with
    | runs running allowed step => exact running
    | stops running allowed stops => exact running
    | refuse running full => exact running
    | exit running member => exact running
  cases accounted with
  | exhausted stopped late | failed stopped early => cases notStopped.symm.trans stopped
  | running running inv frames alive created early =>
    cases taken with
    | @runs event s' _ allowed step =>
      obtain ⟨next', queue', role', inv', step⟩ := inv.step ⟨allowed.inside short, step⟩
      have taken := step.allocatable
      obtain ⟨pcb, -, grown⟩ := step.static
      have early' : AllocatesEarly (seen ++ [.kernel event]) := by
        refine throughout_snoc.mpr ⟨early, fun allocates => ?_⟩
        have := step.had_frame allocates
        omega
      have alive' : ∀ p ∈ m.alive, p < s'.pcbCount ∧ (s'.pcb p).isThread = false := by
        intro p member
        obtain ⟨known, process⟩ := alive p member
        exact ⟨known.trans_le grown, by rw [pcb p known, process]⟩
      have count : createdProcesses (seen ++ [.kernel event]) = m.created + if event.createsProcess then 1 else 0 := by
        rw [createdProcesses_snoc, created]
        rfl
      cases creates : event.createsProcess with
      | true =>
        rw [creates, if_pos rfl] at taken count
        rw [Machine.after, creates, if_pos rfl]
        have frames' : allocatable next' queue' + 3 * (m.created + 1) = 30 := by omega
        refine .running running inv' frames' ?_ count.symm early'
        rintro p (_ | ⟨_, member⟩)
        · exact step.new_process creates
        · exact alive' p member
      | false =>
        rw [creates, if_neg Bool.false_ne_true] at taken count
        rw [Machine.after, creates, if_neg Bool.false_ne_true]
        have frames' : allocatable next' queue' + 3 * m.created = 30 := by omega
        exact .running running inv' frames' alive' count.symm early'
    | stops _ allowed stops =>
      obtain ⟨allocates, ⟨few, rfl⟩ | ⟨many, rfl⟩⟩ := stops.frames inv short frames
      · exact .failed rfl (throughout_snoc.mpr ⟨early, fun _ => created ▸ few⟩)
      · refine .exhausted rfl fun all => many ?_
        rw [created]
        exact (throughout_snoc.mp all).2 allocates
    | refuse _ full =>
      refine .running running inv frames alive ?_ (throughout_snoc.mpr ⟨early, fun allocates => nomatch allocates⟩)
      rw [createdProcesses_snoc, created]
      rfl
    | exit _ member =>
      refine .running running inv frames ?_ ?_ (throughout_snoc.mpr ⟨early, fun allocates => nomatch allocates⟩)
      · intro p still
        exact alive p (mem_of_mem_erase still)
      · rw [createdProcesses_snoc, created]
        rfl

/-- No process is left without a frame exactly when frames are asked for only while less than ten processes have been
created. -/
theorem frames_not_exhausted_iff {mem : Memory} {disk : BitVec 32 → Memory} {scsi : ℕ → ScsiResult}
    {ticks : ℕ → BitVec 64} {s₀ : Kernel} (booted : (boot mem disk scsi ticks).initMemory config = .ok s₀)
    (run : Run (Guarded ShortImages LifeStep) { kernel := s₀ } events m) :
    m.stopped ≠ some (.allocation .abortk) ↔ AllocatesEarly events := by
  rw [initMemory_eq] at booted
  cases booted
  have start : Accounted [] { kernel := initial mem disk scsi ticks } :=
    .running rfl (imageInv_initial mem disk scsi ticks) rfl (fun p member => nomatch member) rfl (throughout_nil _)
  have accounted := run.invariant_labels Accounted (fun before taken => before.step taken) start
  cases accounted with
  | running running inv frames alive created early | failed running early =>
    rw [running]
    exact iff_of_true nofun early
  | exhausted stopped late =>
    rw [stopped]
    exact iff_of_false (fun different => different rfl) late

/-- Processes with images of two pages, each ended before the next is created. -/
def oneByOne (n : ℕ) : List LifeEvent :=
  (range n).flatMap fun p => [.kernel (.setup false 0#32 16#32), .exit p]

theorem oneByOne_succ (n : ℕ) : oneByOne (n + 1) = oneByOne n ++ [.kernel (.setup false 0#32 16#32)] ++ [.exit n] := by
  rw [oneByOne, range_succ, flatMap_append, oneByOne, append_assoc]
  rfl

theorem run_oneByOne (n : ℕ) (bound : n ≤ 10) :
    ∃ s role, Run (Guarded ShortImages LifeStep)
        { kernel := initial (fun _ => 0#8) (fun _ _ => 0#8) (fun _ => .good) fun _ => 0#64 } (oneByOne n)
        { kernel := s, created := n } ∧
      ImageInv s (3 + 3 * n) [] role ∧ s.pcbCount = n := by
  induction n with
  | zero => exact ⟨_, _, .nil _, imageInv_initial _ _ _ _, rfl⟩
  | succ n ih =>
    obtain ⟨s, role, run, inv, count⟩ := ih (by omega)
    have short : ShortImage 16#32 := by decide
    obtain ⟨s', role', ran, inv', -, count', -⟩ := inv.newProcess count 0#32 short (by rw [pageablePages]; omega)
    have admitted : mayLaunch 0 = true ∧ n < processStacks := by
      rw [processStacks]
      exact ⟨by decide, by omega⟩
    have create : Guarded ShortImages LifeStep { kernel := s, created := n } (.kernel (.setup false 0#32 16#32))
        { kernel := s', alive := [s.pcbCount], created := n + 1 } :=
      ⟨fun _ => short, .runs rfl (fun _ => admitted) (.setup ran)⟩
    have exit : Guarded ShortImages LifeStep { kernel := s', alive := [n], created := n + 1 } (.exit n)
        { kernel := s', created := n + 1 } := by
      have step : LifeStep { kernel := s', alive := [n], created := n + 1 } (.exit n) _ :=
        .exit rfl (mem_singleton_self n)
      rw [erase_cons_head] at step
      exact ⟨trivial, step⟩
    rw [count] at create
    refine ⟨s', role', ?_, inv', count'⟩
    rw [oneByOne_succ]
    exact (run.snoc create).snoc exit

/-- Ten processes have come and gone, and the eleventh finds no frame: not one is free or can be evicted. -/
theorem finished_processes_exhaust_frames : ∃ s₀ events m,
    (boot (fun _ => 0#8) (fun _ _ => 0#8) (fun _ => .good) fun _ => 0#64).initMemory config = .ok s₀ ∧
      events = oneByOne 10 ++ [.kernel (.setup false 0#32 16#32)] ∧
      Run (Guarded ShortImages LifeStep) { kernel := s₀ } events m ∧ m.alive = [] ∧
      m.stopped = some (.allocation .abortk) := by
  obtain ⟨s, role, run, inv, count⟩ := run_oneByOne 10 le_rfl
  have failed := inv.system.construct_exhausted 0#32 16#32 rfl
  have admitted : mayLaunch 0 = true ∧ 10 < processStacks := by decide
  have stop : Guarded ShortImages LifeStep { kernel := s, created := 10 } (.kernel (.setup false 0#32 16#32))
      { kernel := s, created := 10, stopped := some (.allocation .abortk) } :=
    ⟨fun _ => by decide, .stops rfl (fun _ => admitted) (.setup failed)⟩
  exact ⟨_, _, _, initMemory_eq _ _ _ _, rfl, run.snoc stop, rfl, rfl⟩

/-- Ten processes, one after another, do find their frames. -/
theorem frames_not_exhausted_oneByOne : ∃ s₀ m,
    (boot (fun _ => 0#8) (fun _ _ => 0#8) (fun _ => .good) fun _ => 0#64).initMemory config = .ok s₀ ∧
      Run (Guarded ShortImages LifeStep) { kernel := s₀ } (oneByOne 10) m ∧ AllocatesEarly (oneByOne 10) := by
  obtain ⟨s, role, run, -⟩ := run_oneByOne 10 le_rfl
  exact ⟨_, _, initMemory_eq .., run, (frames_not_exhausted_iff (initMemory_eq ..) run).mp nofun⟩

end MicroOs.Paging
