import MicroOs.Tasks.Conservation

/-! # Sleeping long enough

`msleep` stores a deadline and the status of a sleeping task, and yields. The scheduler finds the task in the ready
queue on each of its rounds, and makes it ready when the tick counter is past the deadline. So a task is dispatched
again only behind its deadline.

The deadline is a sum of 64 bits, but the product of milliseconds, clock rate and 1000 is one of 32 bits. A longer sleep
has the deadline of what is left of the product, and the task is dispatched too early.
-/

namespace MicroOs.Tasks

open List

variable {κ : Type*} [DecidableEq κ]

/-- The deadline that `msleep` stores, given the tick counter and the clock rate. -/
def msleepWakeup (time : BitVec 64) (msecs cpuMhz : BitVec 32) : BitVec 64 :=
  time + (msecs * cpuMhz * 1000#32).setWidth 64

def sleepTicks (msecs cpuMhz : BitVec 32) : ℕ := msecs.toNat * cpuMhz.toNat * 1000

/-- The value of the tick counter that the scheduler reads. -/
def Action.ticks : Action κ → Option ℕ
  | .turn ticks => some ticks
  | _ => none

/-- The values of the tick counter after `time` do not decrease and have 64 bits. -/
def TicksFrom (time : ℕ) (events : List (Action κ)) : Prop :=
  (time :: events.filterMap (·.ticks)).Pairwise (· ≤ ·) ∧ ∀ ticks ∈ events.filterMap (·.ticks), ticks < 2 ^ 64

def lastTicks (time : ℕ) (events : List (Action κ)) : ℕ := (events.filterMap (·.ticks)).getLastD time

/-- While a task is in `msleep`, it only yields. Interrupt handlers may unblock other tasks. -/
def InMsleep (p : Pcb) (s : TaskTable κ) (action : Action κ) : Prop :=
  s.phase = .idle → s.queue .ready = some p → s.status p = .sleeping →
    action = .yield ∨ ∃ q job, action = .unblock q job

/-- Whenever a task calls `msleep`, in any reachable state, and is dispatched again, as many ticks have passed as it
has asked for. -/
def SleepsLongEnough (κ : Type*) [DecidableEq κ] (time : BitVec 64) (msecs cpuMhz : BitVec 32) : Prop :=
  ∀ (s₀ s s₁ s₂ s₃ : TaskTable κ) (events later : List (Action κ)) (p : Pcb), initPcbTable = some s₀ →
    Run TaskStep s₀ events s → s.queue .ready = some p →
    TaskStep s (.sleep (msleepWakeup time msecs cpuMhz).toNat) s₁ →
    Run (Guarded (InMsleep p) TaskStep) s₁ later s₂ → TicksFrom time.toNat later → TaskStep s₂ (.dispatch p) s₃ →
    time.toNat + sleepTicks msecs cpuMhz ≤ lastTicks time.toNat later

/-- The task has gone to sleep until a time. -/
structure Asleep (p : Pcb) (wakeup : ℕ) (s : TaskTable κ) : Prop where
  status : s.status p = .sleeping
  wakeup : s.wakeupTime p = wakeup
  started : s.phase ≠ .boot

omit [DecidableEq κ] in
theorem status_wake (s : TaskTable κ) (p a : Pcb) (ticks : ℕ) (asleep : a ≠ p ∨ ticks ≤ s.wakeupTime p) :
    (s.wake p ticks).status a = s.status a := by
  unfold TaskTable.wake
  split_ifs with late
  · rcases asleep with other | early
    · simp [other]
    · omega
  · rfl

omit [DecidableEq κ] in
theorem wakeupTime_wake (s : TaskTable κ) (p : Pcb) (ticks : ℕ) : (s.wake p ticks).wakeupTime = s.wakeupTime := by
  unfold TaskTable.wake
  split_ifs <;> rfl

omit [DecidableEq κ] in
theorem wakeupTime_dispatch (s : TaskTable κ) (p : Pcb) : (s.dispatch p).wakeupTime = s.wakeupTime := by
  unfold TaskTable.dispatch
  split_ifs <;> rfl

omit [DecidableEq κ] in
theorem phase_dispatch (s : TaskTable κ) (p : Pcb) : (s.dispatch p).phase = .idle := by
  unfold TaskTable.dispatch
  split_ifs <;> rfl

namespace Asleep

variable {events : List (Action κ)} {s s' : TaskTable κ} {contents : Contents κ} {joined : Option κ} {p : Pcb}
  {action : Action κ} {wakeup : ℕ}

/-- Only the scheduler wakes a task that is in `msleep`, and only behind its deadline. -/
theorem step (asleep : Asleep p wakeup s) (layout : Layout events s contents joined)
    (here : p ∈ contents (some .ready)) (inMsleep : InMsleep p s action) (step : TaskStep s action s') :
    Asleep p wakeup s' ∨ ∃ ticks, action = .turn ticks ∧ wakeup < ticks := by
  -- what the current task does to itself, the sleeping one does not do
  have other {a : Pcb} (runs : s.phase = .idle) (current : s.queue .ready = some a)
      (acts : action ≠ .yield ∧ ∀ q job, action ≠ .unblock q job) : p ≠ a := by
    rintro rfl
    rcases inMsleep runs current asleep.status with rfl | ⟨q, job, rfl⟩
    · exact acts.1 rfl
    · exact acts.2 q job rfl
  obtain ⟨status, deadline, started⟩ := id asleep
  cases step with
  | @alloc a _ _ calls shift =>
    have free : a ∈ contents (some .free) := by
      obtain ⟨rest, first, -⟩ := layout.arranged.of_shift (by simp) shift
      simp [first]
    have different := layout.ne_of_mem here free (by simp)
    exact .inl ⟨by simpa [different] using status, deadline, started⟩
  | create => exact .inl ⟨status, deadline, started⟩
  | @sleep a _ runs current =>
    have different := other runs current (by simp)
    exact .inl ⟨by simpa [different] using status, by simpa [different] using deadline, started⟩
  | yield | insert | removeBlocked | removeExited | free | again => exact .inl ⟨status, deadline, by simp⟩
  | @block q a _ _ runs current | @exit a runs current =>
    have different := other runs current (by simp)
    exact .inl ⟨by simpa [different] using status, deadline, by simp⟩
  | @unblock q a _ _ runs shift =>
    have waiting : a ∈ contents (some (.wait q)) := by
      obtain rfl := layout.not_joined (by simp [runs])
      obtain ⟨rest, first, -⟩ := layout.arranged.of_shift (by simp) shift
      simp [first]
    have different := layout.ne_of_mem here waiting (by simp)
    exact .inl ⟨by simpa [different] using status, deadline, by simp⟩
  | @turn a ticks next current alive =>
    rcases eq_or_ne p a with rfl | different
    · rcases lt_or_ge wakeup ticks with late | early
      · exact .inr ⟨ticks, rfl, late⟩
      · refine .inl ⟨?_, ?_, by simp⟩
        · simpa [status_wake s p p ticks (.inr (deadline ▸ early))] using status
        · simpa [wakeupTime_wake] using deadline
    · refine .inl ⟨?_, ?_, by simp⟩
      · simpa [status_wake s a p ticks (.inl different)] using status
      · simpa [wakeupTime_wake] using deadline
  | @dispatch a next current runs =>
    have different : p ≠ a := by
      rintro rfl
      simp [status] at runs
    refine .inl ⟨(s.status_dispatch_of_ne different).trans status, ?_, ?_⟩
    · rw [wakeupTime_dispatch, deadline]
    · rw [phase_dispatch]
      simp
  | start next => exact absurd next started

/-- A task in `msleep` still sleeps, or the tick counter has passed its deadline. -/
theorem run {later : List (Action κ)} (asleep : Asleep p wakeup s) (layout : Layout events s contents joined)
    (here : p ∈ contents (some .ready)) (run : Run (Guarded (InMsleep p) TaskStep) s later s') :
    Asleep p wakeup s' ∨ ∃ ticks ∈ later.filterMap (·.ticks), wakeup < ticks := by
  have reached := run.invariant_labels (fun seen u =>
    (∃ contents joined, Layout (events ++ seen) u contents joined ∧ p ∈ contents (some .ready) ∧ Asleep p wakeup u) ∨
      ∃ ticks ∈ seen.filterMap (·.ticks), wakeup < ticks) ?_ ?_
  · rcases reached with ⟨-, -, -, -, still⟩ | passed
    · exact .inl still
    · exact .inr passed
  · rintro seen before action after (⟨contents, joined, layout, here, asleep⟩ | ⟨ticks, read, late⟩) ⟨inMsleep, taken⟩
    · obtain ⟨contents', joined', layout', stays⟩ := layout.step taken
      rw [append_assoc] at layout'
      rcases asleep.step layout here inMsleep taken with still | ⟨ticks, rfl, late⟩
      · refine .inl ⟨contents', joined', layout', stays p here ?_, still⟩
        simp [asleep.status]
      · exact .inr ⟨ticks, by simp [Action.ticks], late⟩
    · exact .inr ⟨ticks, by rw [filterMap_append]; exact mem_append_left _ read, late⟩
  · exact .inl ⟨contents, joined, by rwa [append_nil], here, asleep⟩

end Asleep

/-- A task that is dispatched again after `msleep` has been passed by the scheduler behind its deadline. -/
theorem exists_ticks_of_dispatch {s₀ s s₁ s₂ s₃ : TaskTable κ} {events later : List (Action κ)} {p : Pcb} {wakeup : ℕ}
    (start : initPcbTable = some s₀) (before : Run TaskStep s₀ events s) (current : s.queue .ready = some p)
    (sleeps : TaskStep s (.sleep wakeup) s₁) (after : Run (Guarded (InMsleep p) TaskStep) s₁ later s₂)
    (dispatched : TaskStep s₂ (.dispatch p) s₃) : ∃ ticks ∈ later.filterMap (·.ticks), wakeup < ticks := by
  obtain ⟨contents, joined, layout⟩ := exists_layout start (before.snoc sleeps)
  have ready : s₁.queue .ready = some p := by
    cases sleeps
    exact current
  have asleep : Asleep p wakeup s₁ := by
    cases sleeps with
    | sleep runs same =>
      obtain rfl := Option.some.inj (current.symm.trans same)
      exact ⟨by simp, by simp, by simp [runs]⟩
  rcases asleep.run layout (layout.mem_ready ready) after with still | passed
  · cases dispatched with
    | dispatch next same runs => simp [still.status] at runs
  · exact passed

omit [DecidableEq κ] in
theorem le_lastTicks {time ticks : ℕ} {events : List (Action κ)} (clock : TicksFrom time events)
    (read : ticks ∈ events.filterMap (·.ticks)) :
    ticks ≤ lastTicks time events ∧ time ≤ lastTicks time events ∧ lastTicks time events < 2 ^ 64 := by
  obtain ⟨sorted, small⟩ := clock
  unfold lastTicks
  generalize events.filterMap (·.ticks) = values at read sorted small ⊢
  obtain ⟨before, last, rfl⟩ := eq_nil_or_concat values |>.resolve_left (ne_nil_of_mem read)
  simp only [concat_eq_append] at read sorted small ⊢
  rw [getLastD_concat]
  rw [pairwise_cons, pairwise_append] at sorted
  refine ⟨?_, sorted.1 last (by simp), small last (by simp)⟩
  rcases mem_append.1 read with earlier | same
  · exact sorted.2.2.2 ticks earlier last (by simp)
  · exact (mem_singleton.1 same).le

theorem toNat_msleepWakeup (time : BitVec 64) (msecs cpuMhz : BitVec 32) :
    (msleepWakeup time msecs cpuMhz).toNat = (time.toNat + sleepTicks msecs cpuMhz % 2 ^ 32) % 2 ^ 64 := by
  have product : (msecs * cpuMhz * 1000#32).toNat = sleepTicks msecs cpuMhz % 2 ^ 32 := by
    simp [sleepTicks, Nat.mod_mul_mod]
  rw [msleepWakeup, BitVec.toNat_add, BitVec.toNat_setWidth]
  omega

/-- A thread is created and started. -/
theorem exists_single : ∃ (s₀ s : TaskTable κ) (events : List (Action κ)) (contents : Contents κ),
    initPcbTable = some s₀ ∧ Run TaskStep s₀ events s ∧ s.phase = .idle ∧ Layout events s contents none ∧
      contents (some .ready) = [0] := by
  obtain ⟨links, head, start, layout⟩ := @initPcbTable_layout κ _
  have free : initContents (some (Queue.free : Queue κ)) = 0 :: (finRange pcbTableSize).drop 1 := rfl
  obtain ⟨links₁, shift₁, -⟩ := layout.arranged.shift free (by simp)
  have step₁ := TaskStep.alloc rfl shift₁
  have layout₁ := layout.alloc rfl shift₁
  obtain ⟨links₂, insert₂, -⟩ := layout₁.arranged.insert (k := .ready) (p := 0) (.inr rfl) (by simp)
  have step₂ := TaskStep.create rfl (by simp) insert₂
  have layout₂ := layout₁.create rfl (by simp) insert₂
  have current₂ := layout₂.ready_eq.trans (show _ = some 0 by simp [initContents])
  have step₃ := TaskStep.start rfl current₂
  have layout₃ := layout₂.dispatch (fun _ => ⟨rfl, rfl⟩ : (Action.start 0 : Action κ).Quiet) current₂ (by simp) rfl
  exact ⟨_, _, _, _, start, .snoc (.snoc (.snoc (.nil _) step₁) step₂) step₃, phase_dispatch .., layout₃,
    by simp [initContents]⟩

/-- The only task sleeps, and is dispatched again as soon as the scheduler has read a tick counter behind the
deadline. -/
theorem dispatch_single {s : TaskTable κ} {events : List (Action κ)} {contents : Contents κ} {p : Pcb}
    {wakeup ticks : ℕ} (runs : s.phase = .idle) (layout : Layout events s contents none)
    (single : contents (some .ready) = [p]) (late : wakeup < ticks) :
    ∃ s₁ s₂ s₃, TaskStep s (.sleep wakeup) s₁ ∧
      Run (Guarded (InMsleep p) TaskStep) s₁ [.yield, .turn ticks] s₂ ∧ TaskStep s₂ (.dispatch p) s₃ := by
  have current : s.queue .ready = some p := by rw [layout.ready_eq, single]; rfl
  have next : s.links.next p = some p := by
    have ring := layout.arranged.shape .ready
    rw [single] at ring
    exact ring.rotate.head_eq
  obtain ⟨s₁, sleeps, idle, ready, links, status, deadline⟩ : ∃ s₁, TaskStep s (.sleep wakeup) s₁ ∧
      s₁.phase = .idle ∧ s₁.queue .ready = some p ∧ s₁.links = s.links ∧ s₁.status p = .sleeping ∧
      s₁.wakeupTime p = wakeup :=
    ⟨_, .sleep runs current, runs, current, rfl, by simp, by simp⟩
  have yielded : Run (Guarded (InMsleep p) TaskStep) s₁ [.yield] (s₁.goto .schedule) :=
    .single ⟨fun _ _ _ => .inl rfl, .yield idle ready⟩
  have turns : TaskStep (s₁.goto .schedule) (.turn ticks) _ := .turn rfl ready (by simp [status])
  have turned := yielded.snoc ⟨fun idle => by simp at idle, turns⟩
  refine ⟨s₁, _, _, sleeps, turned, .dispatch rfl ?_ (.inl ?_)⟩
  · simpa [links] using next
  · simp [TaskTable.wake, status, deadline, late]

/-- A sleep lasts as many ticks as it was asked for exactly when they are fewer than `2 ^ 32` and the deadline is not
past the end of the tick counter, or is its last value: then the task is not dispatched at all. -/
theorem sleepsLongEnough_iff (time : BitVec 64) (msecs cpuMhz : BitVec 32) :
    SleepsLongEnough κ time msecs cpuMhz ↔
      sleepTicks msecs cpuMhz < 2 ^ 32 ∧ time.toNat + sleepTicks msecs cpuMhz < 2 ^ 64 ∨
      time.toNat + sleepTicks msecs cpuMhz % 2 ^ 32 = 2 ^ 64 - 1 := by
  have deadline := toNat_msleepWakeup time msecs cpuMhz
  constructor
  · intro enough
    by_contra other
    obtain ⟨s₀, s, events, contents, start, before, runs, layout, single⟩ := @exists_single κ _
    have current : s.queue .ready = some 0 := by rw [layout.ready_eq, single]; rfl
    -- the first value of the tick counter that wakes the task
    obtain ⟨ticks, late, after, fits, early⟩ : ∃ ticks, (msleepWakeup time msecs cpuMhz).toNat < ticks ∧
        time.toNat ≤ ticks ∧ ticks < 2 ^ 64 ∧ ticks < time.toNat + sleepTicks msecs cpuMhz := by
      refine ⟨max time.toNat ((msleepWakeup time msecs cpuMhz).toNat + 1), ?_⟩
      omega
    obtain ⟨s₁, s₂, s₃, sleeps, run, dispatched⟩ := dispatch_single runs layout single late
    have clock : TicksFrom time.toNat ([.yield, .turn ticks] : List (Action κ)) := by
      refine ⟨by simp [Action.ticks, after], ?_⟩
      simpa [Action.ticks] using fits
    have passed := enough s₀ s s₁ s₂ s₃ events _ 0 start before current sleeps run clock dispatched
    have last : lastTicks time.toNat ([.yield, .turn ticks] : List (Action κ)) = ticks := rfl
    omega
  · intro condition s₀ s s₁ s₂ s₃ events later p start before current sleeps run clock dispatched
    obtain ⟨ticks, read, late⟩ := exists_ticks_of_dispatch start before current sleeps run dispatched
    obtain ⟨upper, after, fits⟩ := le_lastTicks clock read
    omega

/-- Four seconds at 1000 MHz. -/
theorem sleepsLongEnough_seconds : SleepsLongEnough Unit 1000000#64 4000#32 1000#32 :=
  (sleepsLongEnough_iff _ _ _).2 (.inl (by decide))

/-- Of five seconds at 1000 MHz, the task sleeps less than one. -/
theorem five_seconds_end_early :
    sleepTicks 5000#32 1000#32 = 5000000000 ∧ msleepWakeup 0#64 5000#32 1000#32 = 705032704#64 ∧
      ¬SleepsLongEnough Unit 0#64 5000#32 1000#32 := by
  refine ⟨by decide, by decide, ?_⟩
  intro enough
  obtain ⟨s₀, s, events, contents, start, before, runs, layout, single⟩ := @exists_single Unit _
  have current : s.queue .ready = some 0 := by rw [layout.ready_eq, single]; rfl
  have late : (msleepWakeup 0#64 5000#32 1000#32).toNat < 705032705 := by decide
  obtain ⟨s₁, s₂, s₃, sleeps, run, dispatched⟩ := dispatch_single runs layout single late
  have passed := enough s₀ s s₁ s₂ s₃ events _ 0 start before current sleeps run
    (by simp [TicksFrom, Action.ticks]) dispatched
  exact absurd passed (by decide)

end MicroOs.Tasks
