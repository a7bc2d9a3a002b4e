import MicroOs.Library.Run

/-! # Critical sections

`nointerrupt_count_val` counts the critical sections that are open, and is one variable for all tasks. It is kept on the
kernel stack of a task that `scheduler_entry` switches out. A system call, a page fault or an interrupt is handled on
the kernel stack of the task that runs, and may be handled while another one is.

A kernel stack is modelled by what its owner has to undo: the sections it has entered, the handlers it runs, and the
context that `scheduler_entry` saves. `ι` is the type of the tasks.
-/

namespace MicroOs.Sync

open BitVec List

/-- How far a handler is with its critical section. -/
inductive HandlerState
  /-- It has called `nointerrupt_enter`. -/
  | closed
  /-- It has called `nointerrupt_leave`, to be interrupted while it works. -/
  | opened
  /-- It has called `nointerrupt_leave_delayed`, and is going to execute `iret`. -/
  | returning
deriving DecidableEq

inductive Frame
  /-- A call of `nointerrupt_enter` that is to be matched by one of `nointerrupt_leave`. -/
  | entered
  /-- A handler, with the interrupt flag that `iret` restores. -/
  | handler (state : HandlerState) (flag : Bool)
  /-- The interrupt flag and the counter that `scheduler_entry` pushes. -/
  | context (flag : Bool) (count : BitVec 32)
deriving DecidableEq

inductive Mode (ι : Type*)
  | running (t : ι)
  /-- `kernel_main` or `scheduler`, which `inner` times has called `nointerrupt_enter` and not `nointerrupt_leave`. -/
  | scheduling (inner : ℕ)
  /-- An assertion has failed. -/
  | halted
deriving DecidableEq

/-- The counter, the interrupt flag and the kernel stacks. A task without a stack has not been dispatched. -/
structure Cpu (ι : Type*) where
  count : BitVec 32 := 1
  flag : Bool := false
  mode : Mode ι := .scheduling 1
  stack : ι → Option (List Frame) := fun _ => none

variable {ι : Type*} [DecidableEq ι]

namespace Cpu

def enter (s : Cpu ι) : Cpu ι := { s with flag := false, count := s.count + 1 }

def leave (s : Cpu ι) : Cpu ι :=
  { s with count := s.count - 1, flag := if s.count - 1 = 0 then true else s.flag }

def leaveDelayed (s : Cpu ι) : Cpu ι := { s with count := s.count - 1 }

/-- The move of 1 to the low byte of the counter in `dispatch`, for a task that is new. -/
def firstTime (s : Cpu ι) : Cpu ι := { s with count := s.count &&& ~~~0xff ||| 1 }

def setFlag (s : Cpu ι) (flag : Bool) : Cpu ι := { s with flag := flag }

def setStack (s : Cpu ι) (t : ι) (frames : List Frame) : Cpu ι :=
  { s with stack := Function.update s.stack t (some frames) }

theorem stack_setStack (s : Cpu ι) (t : ι) (frames : List Frame) : (s.setStack t frames).stack t = some frames :=
  Function.update_self ..

def goto (s : Cpu ι) (mode : Mode ι) : Cpu ι := { s with mode := mode }

end Cpu

/-- What a handler is called for. -/
inductive Cause
  | irq | syscall | pageFault
deriving DecidableEq

inductive CpuAction (ι : Type*)
  | enter
  | leave
  | handle (cause : Cause)
  /-- `nointerrupt_leave` and `nointerrupt_enter` around the work of a handler. -/
  | openUp
  | closeUp
  /-- `nointerrupt_leave_delayed` at the end of a handler. -/
  | leaveDelayed
  | leaveDelayedFails
  | iret
  /-- `scheduler_entry`, called by `yield`, `preempt`, `block` or `exit`. -/
  | switch (t : ι) (count : BitVec 32)
  | enterScheduler
  | leaveScheduler
  /-- The rest of `scheduler_entry`, in a task that was switched out. -/
  | resume (t : ι) (count : BitVec 32)
  /-- The first dispatch of a task. -/
  | start (t : ι)
  | startFails (t : ι)
deriving DecidableEq

inductive CpuStep (s : Cpu ι) : CpuAction ι → Cpu ι → Prop
  | enter {t : ι} {frames : List Frame} (runs : s.mode = .running t) (top : s.stack t = some frames) :
      CpuStep s .enter (s.enter.setStack t (.entered :: frames))
  | leave {t : ι} {frames : List Frame} (runs : s.mode = .running t)
      (top : s.stack t = some (.entered :: frames)) : CpuStep s .leave (s.leave.setStack t frames)
  | handle {t : ι} {frames : List Frame} {cause : Cause} (runs : s.mode = .running t)
      (top : s.stack t = some frames) (outside : s.count = 0) (enabled : cause = .irq → s.flag = true) :
      CpuStep s (.handle cause) (s.enter.setStack t (.handler .closed s.flag :: frames))
  | openUp {t : ι} {frames : List Frame} {flag : Bool} (runs : s.mode = .running t)
      (top : s.stack t = some (.handler .closed flag :: frames)) :
      CpuStep s .openUp (s.leave.setStack t (.handler .opened flag :: frames))
  | closeUp {t : ι} {frames : List Frame} {flag : Bool} (runs : s.mode = .running t)
      (top : s.stack t = some (.handler .opened flag :: frames)) :
      CpuStep s .closeUp (s.enter.setStack t (.handler .closed flag :: frames))
  | leaveDelayed {t : ι} {frames : List Frame} {flag : Bool} (runs : s.mode = .running t)
      (top : s.stack t = some (.handler .closed flag :: frames)) (holds : s.leaveDelayed.count = 0) :
      CpuStep s .leaveDelayed (s.leaveDelayed.setStack t (.handler .returning flag :: frames))
  | leaveDelayedFails {t : ι} {frames : List Frame} {flag : Bool} (runs : s.mode = .running t)
      (top : s.stack t = some (.handler .closed flag :: frames)) (fails : s.leaveDelayed.count ≠ 0) :
      CpuStep s .leaveDelayedFails ((s.leaveDelayed.setFlag false).goto .halted)
  | iret {t : ι} {frames : List Frame} {flag : Bool} (runs : s.mode = .running t)
      (top : s.stack t = some (.handler .returning flag :: frames)) :
      CpuStep s .iret ((s.setFlag flag).setStack t frames)
  | switch {t : ι} {frames : List Frame} (runs : s.mode = .running t) (top : s.stack t = some (.entered :: frames)) :
      CpuStep s (.switch t s.count)
        ((s.enter.setStack t (.context s.flag s.count :: .entered :: frames)).goto (.scheduling 1))
  | enterScheduler {inner : ℕ} (runs : s.mode = .scheduling inner) :
      CpuStep s .enterScheduler (s.enter.goto (.scheduling (inner + 1)))
  | leaveScheduler {inner : ℕ} (runs : s.mode = .scheduling (inner + 1)) (more : 0 < inner) :
      CpuStep s .leaveScheduler (s.leave.goto (.scheduling inner))
  | resume {t : ι} {frames : List Frame} {flag : Bool} {count : BitVec 32}
      (runs : s.mode = .scheduling 1) (top : s.stack t = some (.context flag count :: frames)) :
      CpuStep s (.resume t count) (({ s with count := count, flag := flag }.setStack t frames).goto (.running t))
  | start {t : ι} (runs : s.mode = .scheduling 1) (new : s.stack t = none)
      (holds : s.firstTime.leaveDelayed.count = 0) :
      CpuStep s (.start t) (((s.firstTime.leaveDelayed.setFlag true).setStack t []).goto (.running t))
  | startFails {t : ι} (runs : s.mode = .scheduling 1) (new : s.stack t = none)
      (fails : s.firstTime.leaveDelayed.count ≠ 0) :
      CpuStep s (.startFails t) ((s.firstTime.leaveDelayed.setFlag false).goto .halted)

/-- A kernel stack with `n` open sections. A handler is called when no section is open. -/
inductive Nested : List Frame → ℕ → Prop
  | nil : Nested [] 0
  | entered {frames : List Frame} {n : ℕ} (rest : Nested frames n) : Nested (.entered :: frames) (n + 1)
  | closed {frames : List Frame} {flag : Bool} (rest : Nested frames 0) : Nested (.handler .closed flag :: frames) 1
  | opened {frames : List Frame} {flag : Bool} (rest : Nested frames 0) : Nested (.handler .opened flag :: frames) 0
  | returning {frames : List Frame} {flag : Bool} (rest : Nested frames 0) :
      Nested (.handler .returning flag :: frames) 0

def CpuAction.switched (t : ι) : CpuAction ι → Option (BitVec 32)
  | .switch u count => if u = t then some count else none
  | _ => none

def CpuAction.enters : CpuAction ι → Bool
  | .enter | .handle _ | .closeUp | .switch _ _ | .enterScheduler => true
  | _ => false

/-- `nointerrupt_enter` does not wrap the counter around. -/
def Counts (s : Cpu ι) (action : CpuAction ι) : Prop := action.enters = true → s.count ≠ allOnes 32

instance (s : Cpu ι) (action : CpuAction ι) : Decidable (Counts s action) := inferInstanceAs (Decidable (_ → _))

/-- What holds behind a history of steps. -/
structure SectionInv (events : List (CpuAction ι)) (s : Cpu ι) : Prop where
  flag : s.flag = true → s.count = 0
  running : ∀ t, s.mode = .running t → ∃ frames, s.stack t = some frames ∧ Nested frames s.count.toNat
  scheduling : ∀ inner, s.mode = .scheduling inner → 0 < inner ∧ inner ≤ s.count.toNat
  suspended : ∀ t frames, s.mode ≠ .running t → s.stack t = some frames →
    ∃ count rest, frames = .context false count :: rest ∧ Nested rest count.toNat ∧
      (events.filterMap (·.switched t)).getLast? = some count

namespace SectionInv

variable {events : List (CpuAction ι)} {action : CpuAction ι} {s s' : Cpu ι} {t : ι} {frames : List Frame} {n : ℕ}

theorem toNat_add_one {count : BitVec 32} (small : count ≠ allOnes 32) : (count + 1).toNat = count.toNat + 1 := by
  have different : count.toNat ≠ 2 ^ 32 - 1 := fun same => small (eq_of_toNat_eq (by simpa using same))
  rw [toNat_add, show (1 : BitVec 32).toNat = 1 from rfl]
  omega

theorem toNat_sub_one {count : BitVec 32} (positive : count.toNat = n + 1) : (count - 1).toNat = n := by
  rw [toNat_sub, show (1 : BitVec 32).toNat = 1 from rfl]
  omega

section

variable (inv : SectionInv events s)
include inv

theorem nested (runs : s.mode = .running t) (top : s.stack t = some frames) : Nested frames s.count.toNat := by
  obtain ⟨frames', top', nested⟩ := inv.running t runs
  rw [top] at top'
  cases top'
  exact nested

theorem sections (runs : s.mode = .running t) (top : s.stack t = some frames) :
    ∃ n, s.count.toNat = n ∧ Nested frames n :=
  ⟨_, rfl, inv.nested runs top⟩

/-- A section is open, so that interrupts are disabled. -/
theorem disabled (positive : s.count.toNat = n + 1) : s.flag = false := by
  cases flag : s.flag with
  | false => rfl
  | true => simp [inv.flag flag] at positive

theorem run (quiet : ∀ u, action.switched u = none) (others : ∀ u ≠ t, s.mode ≠ .running u)
    (mode : s'.mode = .running t) (updated : s'.stack = Function.update s.stack t (some frames))
    (nested : Nested frames s'.count.toNat) (flag : s'.flag = true → s'.count = 0) :
    SectionInv (events ++ [action]) s' := by
  refine ⟨flag, ?_, by simp [mode], ?_⟩
  · intro u running
    obtain rfl : t = u := by simpa [mode] using running
    exact ⟨frames, by simp [updated], nested⟩
  · intro u frames' stopped top
    have other : u ≠ t := fun same => stopped (by rw [mode, same])
    have old := inv.suspended u frames' (others u other) (by simpa [updated, other] using top)
    simpa [quiet u] using old

end

omit [DecidableEq ι] in
theorem not_running (runs : s.mode = .running t) : ∀ u ≠ t, s.mode ≠ .running u := by
  rintro u other running
  exact other (by simpa [runs] using running.symm)

section

variable (inv : SectionInv events s)
include inv

theorem enter (runs : s.mode = .running t) (quiet : ∀ u, action.switched u = none)
    (small : s.count ≠ allOnes 32) (nested : Nested frames (s.count.toNat + 1)) :
    SectionInv (events ++ [action]) (s.enter.setStack t frames) := by
  refine inv.run quiet (not_running runs) runs rfl ?_ (nofun)
  rw [← toNat_add_one small] at nested
  exact nested

theorem leave (runs : s.mode = .running t) (quiet : ∀ u, action.switched u = none)
    (positive : s.count.toNat = n + 1) (nested : Nested frames n) :
    SectionInv (events ++ [action]) (s.leave.setStack t frames) := by
  refine inv.run quiet (not_running runs) runs rfl ?_ ?_
  · rw [← toNat_sub_one positive] at nested
    exact nested
  · intro enabled
    by_cases zero : s.count - 1 = 0
    · exact zero
    · change (if s.count - 1 = 0 then true else s.flag) = true at enabled
      rw [if_neg zero, inv.disabled positive] at enabled
      cases enabled

theorem switch (runs : s.mode = .running t) (top : s.stack t = some (.entered :: frames))
    (small : s.count ≠ allOnes 32) : SectionInv (events ++ [.switch t s.count])
      ((s.enter.setStack t (.context s.flag s.count :: .entered :: frames)).goto (.scheduling 1)) := by
  have nested := inv.nested runs top
  have disabled : s.flag = false := by
    obtain ⟨n, count, nested⟩ := inv.sections runs top
    cases nested
    exact inv.disabled count
  refine ⟨by simp [Cpu.enter, Cpu.setStack, Cpu.goto], by simp [Cpu.goto], ?_, ?_⟩
  · intro inner scheduling
    obtain rfl : 1 = inner := by simpa [Cpu.goto] using scheduling
    have positive := toNat_add_one small
    refine ⟨Nat.one_pos, ?_⟩
    change 1 ≤ (s.count + 1).toNat
    omega
  · rintro u frames' - top'
    rcases eq_or_ne u t with rfl | other
    · refine ⟨s.count, .entered :: frames, ?_, nested, by simp [CpuAction.switched]⟩
      simpa [Cpu.goto, Cpu.setStack, disabled] using top'.symm
    · have old := inv.suspended u frames' (by simpa [runs] using other.symm)
        (by simpa [Cpu.goto, Cpu.setStack, Cpu.enter, other] using top')
      simpa [CpuAction.switched, other.symm] using old

theorem schedule {inner : ℕ} (quiet : ∀ u, action.switched u = none)
    (last : ∀ u, s.mode ≠ .running u) (mode : s'.mode = .scheduling inner) (unchanged : s'.stack = s.stack)
    (positive : 0 < inner) (bound : inner ≤ s'.count.toNat) (disabled : s'.flag = false) :
    SectionInv (events ++ [action]) s' := by
  refine ⟨by simp [disabled], by simp [mode], ?_, ?_⟩
  · intro inner' scheduling
    obtain rfl : inner = inner' := by simpa [mode] using scheduling
    exact ⟨positive, bound⟩
  · rintro u frames' - top
    rw [unchanged] at top
    simpa [quiet u] using inv.suspended u frames' (last u) top

theorem halt (quiet : ∀ u, action.switched u = none)
    (last : ∀ u, s.mode ≠ .running u) (mode : s'.mode = .halted) (unchanged : s'.stack = s.stack)
    (disabled : s'.flag = false) : SectionInv (events ++ [action]) s' := by
  refine ⟨by simp [disabled], by simp [mode], by simp [mode], ?_⟩
  rintro u frames' - top
  rw [unchanged] at top
  simpa [quiet u] using inv.suspended u frames' (last u) top

theorem returns {flag : Bool} (runs : s.mode = .running t)
    (top : s.stack t = some (.handler .closed flag :: frames)) : s.leaveDelayed.count = 0 ∧ Nested frames 0 := by
  obtain ⟨n, count, nested⟩ := inv.sections runs top
  cases nested with
  | closed rest => exact ⟨eq_of_toNat_eq (toNat_sub_one count), rest⟩

/-- The open sections of every stack agree with the counter that belongs to it. -/
theorem step (counts : Counts s action) (step : CpuStep s action s') : SectionInv (events ++ [action]) s' := by
  cases step with
  | enter runs top => exact inv.enter runs (fun _ => rfl) (counts rfl) (.entered (inv.nested runs top))
  | leave runs top =>
    obtain ⟨n, count, nested⟩ := inv.sections runs top
    cases nested with
    | entered rest => exact inv.leave runs (fun _ => rfl) count rest
  | handle runs top outside =>
    have nested := inv.nested runs top
    rw [outside] at nested
    refine inv.enter runs (fun _ => rfl) (counts rfl) ?_
    rw [outside]
    exact .closed nested
  | openUp runs top =>
    obtain ⟨n, count, nested⟩ := inv.sections runs top
    cases nested with
    | closed rest => exact inv.leave runs (fun _ => rfl) count (.opened rest)
  | closeUp runs top =>
    obtain ⟨n, count, nested⟩ := inv.sections runs top
    cases nested with
    | opened rest =>
      refine inv.enter runs (fun _ => rfl) (counts rfl) ?_
      rw [count]
      exact .closed rest
  | leaveDelayed runs top =>
    obtain ⟨zero, rest⟩ := inv.returns runs top
    refine inv.run (fun _ => rfl) (not_running runs) runs rfl ?_ (fun _ => zero)
    change Nested _ s.leaveDelayed.count.toNat
    rw [zero]
    exact .returning rest
  | leaveDelayedFails runs top fails => exact absurd (inv.returns runs top).1 fails
  | iret runs top =>
    obtain ⟨n, count, nested⟩ := inv.sections runs top
    cases nested with
    | returning rest =>
      refine inv.run (fun _ => rfl) (not_running runs) runs rfl ?_ fun _ => eq_of_toNat_eq count
      change Nested _ s.count.toNat
      rw [count]
      exact rest
  | switch runs top => exact inv.switch runs top (counts rfl)
  | enterScheduler runs =>
    have bound := inv.scheduling _ runs
    have next := toNat_add_one (counts rfl)
    refine inv.schedule (fun _ => rfl) (by simp [runs]) rfl rfl (by omega) ?_ rfl
    change _ ≤ (s.count + 1).toNat
    omega
  | @leaveScheduler inner runs more =>
    obtain ⟨-, bound⟩ := inv.scheduling _ runs
    obtain ⟨n, positive⟩ : ∃ n, s.count.toNat = n + 1 := ⟨s.count.toNat - 1, by omega⟩
    have next := toNat_sub_one positive
    refine inv.schedule (fun _ => rfl) (by simp [runs]) rfl rfl more ?_ ?_
    · change _ ≤ (s.count - 1).toNat
      omega
    · have nonzero : s.count - 1 ≠ 0 := by
        intro zero
        rw [zero] at next
        change 0 = n at next
        omega
      exact (if_neg nonzero).trans (inv.disabled positive)
  | resume runs top =>
    obtain ⟨count, rest, same, nested, -⟩ := inv.suspended _ _ (by simp [runs]) top
    obtain ⟨⟨rfl, rfl⟩, rfl⟩ := by simpa using same
    exact inv.run (fun _ => rfl) (by simp [runs]) rfl rfl nested (by simp [Cpu.setStack, Cpu.goto])
  | start runs new holds =>
    refine inv.run (fun _ => rfl) (by simp [runs]) rfl rfl ?_ fun _ => holds
    change Nested _ s.firstTime.leaveDelayed.count.toNat
    rw [holds]
    exact .nil
  | startFails runs new fails =>
    exact inv.halt (fun _ => rfl) (by simp [runs]) rfl rfl rfl

end

theorem init : SectionInv [] ({} : Cpu ι) := by
  refine ⟨by simp, by simp, ?_, by simp⟩
  intro inner scheduling
  obtain rfl : 1 = inner := by simpa using scheduling
  exact ⟨Nat.one_pos, Nat.le_refl 1⟩

end SectionInv

/-- In every run in which the counter does not wrap around, the flag is set only when the counter is 0, a task that
is resumed has the counter with which it was switched out, and the assertion of `nointerrupt_leave_delayed` never
fails when a handler returns. -/
theorem critical_section_discipline {events : List (CpuAction ι)} {s : Cpu ι}
    (run : Run (Guarded Counts CpuStep) {} events s) :
    (s.flag = true → s.count = 0) ∧
    Throughout (fun before event => ∀ t count, event = .resume t count →
      (before.filterMap (·.switched t)).getLast? = some count) events ∧
    .leaveDelayedFails ∉ events := by
  have all := run.invariant_labels (fun events s => SectionInv events s ∧
      Throughout (fun before event => ∀ t count, event = .resume t count →
        (before.filterMap (·.switched t)).getLast? = some count) events ∧ .leaveDelayedFails ∉ events)
    (fun {seen before event after} => ?_) ⟨.init, throughout_nil _, by simp⟩
  · exact ⟨all.1.flag, all.2⟩
  · rintro ⟨inv, resumed, returned⟩ ⟨counts, step⟩
    refine ⟨inv.step counts step, throughout_snoc.2 ⟨resumed, ?_⟩, ?_⟩
    · rintro t count rfl
      cases step with
      | resume runs top =>
        obtain ⟨count, rest, same, -, last⟩ := inv.suspended t _ (by simp [runs]) top
        obtain ⟨⟨rfl, rfl⟩, rfl⟩ := by simpa using same
        exact last
    · rw [mem_append, mem_singleton]
      rintro (earlier | rfl)
      · exact returned earlier
      · cases step with
        | leaveDelayedFails runs top fails => exact fails (inv.returns runs top).1

theorem run_enter {s : Cpu ι} {t : ι} {frames : List Frame} (runs : s.mode = .running t)
    (top : s.stack t = some frames) (n : ℕ) :
    ∃ s', Run CpuStep s (List.replicate n .enter) s' ∧ s'.mode = .running t ∧ s'.count = s.count + BitVec.ofNat 32 n ∧
      s'.stack t = some (List.replicate n .entered ++ frames) := by
  induction n with
  | zero => exact ⟨s, .nil s, runs, by simp, top⟩
  | succ n ih =>
    obtain ⟨s', run, runs', count, top'⟩ := ih
    refine ⟨s'.enter.setStack t (.entered :: (List.replicate n .entered ++ frames)), ?_, runs', ?_, ?_⟩
    · rw [List.replicate_succ']
      exact .snoc run (.enter runs' top')
    · simp [Cpu.enter, Cpu.setStack, count, BitVec.ofNat_add, BitVec.add_assoc]
    · simp [Cpu.setStack, List.replicate_succ]

/-- A task leaves two sections when the counter has come round to 1. -/
theorem run_wrapped {n : ℕ} (wrapped : BitVec.ofNat 32 (n + 2) = 1) : ∃ s : Cpu Unit,
    Run CpuStep {} ([.start ()] ++ replicate (n + 2) .enter ++ [.leave] ++ [.leave]) s ∧ s.flag = true ∧
      s.count ≠ 0 := by
  have first : CpuStep ({} : Cpu Unit) (.start ()) _ := .start rfl rfl (by decide)
  obtain ⟨s, run, runs, count, top⟩ := run_enter (t := ())
    (show (((({} : Cpu Unit).firstTime.leaveDelayed.setFlag true).setStack () []).goto (.running ())).mode = _ from rfl)
    rfl (n + 2)
  have count : s.count = 1 := by
    rw [count, wrapped]
    decide
  have second : CpuStep s .leave _ := .leave runs top
  have third : CpuStep (s.leave.setStack () (.entered :: (replicate n .entered ++ []))) .leave _ :=
    .leave runs (Cpu.stack_setStack ..)
  refine ⟨_, .snoc (.snoc ((Run.single first).append run) second) third, ?_, ?_⟩
  all_goals simp [Cpu.leave, Cpu.setStack, count]

/-- A task that enters `2 ^ 32 + 1` sections and leaves two of them has interrupts enabled. -/
theorem critical_section_wraps : ∃ s : Cpu Unit,
    Run CpuStep {} ([.start ()] ++ replicate (2 ^ 32 + 1) .enter ++ [.leave] ++ [.leave]) s ∧ s.flag = true ∧
      s.count ≠ 0 :=
  run_wrapped (by decide)

/-- A timer interrupt preempts the first task, and another task that blocks lets it go on. -/
theorem critical_section_discipline_preemption : ∃ (events : List (CpuAction (Fin 2))) (s : Cpu (Fin 2)),
    Run (Guarded Counts CpuStep) {} events s ∧ .resume 0 2 ∈ events ∧ .leaveDelayed ∈ events ∧ s.flag = true ∧
      s.count = 0 := by
  have run : Run (Guarded Counts CpuStep) ({} : Cpu (Fin 2))
      [.start 0, .handle .irq, .enter, .switch 0 2, .start 1, .enter, .switch 1 1, .resume 0 2, .leave, .leaveDelayed,
        .iret] _ :=
    .snoc (.snoc (.snoc (.snoc (.snoc (.snoc (.snoc (.snoc (.snoc (.snoc (.snoc (.nil _)
      ⟨by decide, .start rfl rfl (by decide)⟩)
      ⟨by decide, .handle rfl rfl rfl (fun _ => rfl)⟩)
      ⟨by decide, .enter rfl rfl⟩)
      ⟨by decide, .switch rfl rfl⟩)
      ⟨by decide, .start rfl rfl (by decide)⟩)
      ⟨by decide, .enter rfl rfl⟩)
      ⟨by decide, .switch rfl rfl⟩)
      ⟨by decide, .resume rfl rfl⟩)
      ⟨by decide, .leave rfl rfl⟩)
      ⟨by decide, .leaveDelayed rfl rfl (by decide)⟩)
      ⟨by decide, .iret rfl rfl⟩
  exact ⟨_, _, run, by decide, by decide, rfl, (critical_section_discipline run).1 rfl⟩

end MicroOs.Sync
