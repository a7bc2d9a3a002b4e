import MicroOs.Sync.Lock

/-! # Condition variables

Any number of threads share a lock `m` and a condition `c`. They acquire and release the lock, wait on the condition and
signal it, in the atomic implementation and in any order of their steps. The lock is the one of `Lock`: the two calls of
`condition_wait` that give it back and take it again run the steps of `lock_release` and `lock_acquire`.
-/

namespace MicroOs.Sync

open Function

variable {ι : Type*} [DecidableEq ι]

/-- Where a thread is in `condition_signal_atomic` or `condition_broadcast_atomic`. -/
inductive SignalPoint
  | spin | test | wake | leave
deriving DecidableEq

/-- What a thread does to the condition. In `condition_wait` it is `releasing` until `block`, and `acquiring` behind
it. -/
inductive CondPc
  | outside
  | releasing
  | asleep
  | woken
  | acquiring
  | signal (all : Bool) (point : SignalPoint)
deriving DecidableEq

/-- `condition_t` as `CONDITION_INIT` sets it up, with its lock and the threads that use both. -/
structure Cond (ι : Type*) where
  lock : Lock ι := {}
  inner : Bool := false
  queue : List ι := []
  pc : ι → CondPc := fun _ => .outside

/-- What a thread does in one step. A step of the lock tells whether it gives the lock back in `condition_wait`. -/
inductive CondAction (ι : Type*)
  | lock (waits : Bool) (action : LockAction ι)
  | callWait
  | block
  | reacquire
  | returnWait
  | callSignal (all : Bool)
  | spin
  | yield
  | foundEmpty
  | foundWaiter
  | unblock (woken : ι)
  | leave

def LockAction.isCall : LockAction ι → Bool
  | .callAcquire | .callRelease => true
  | _ => false

def Cond.goto (s : Cond ι) (t : ι) (pc : CondPc) : Cond ι := { s with pc := update s.pc t pc }

/-- `condition_signal` unblocks one thread, `condition_broadcast` goes back to its test. -/
def SignalPoint.afterWake (all : Bool) : SignalPoint := if all then .test else .leave

inductive CondStep (s : Cond ι) : ι × CondAction ι → Cond ι → Prop
  | lock {t : ι} {action : LockAction ι} {lock : Lock ι} (point : s.pc t = .outside)
      (step : LockStep s.lock (t, action) lock) : CondStep s (t, .lock false action) { s with lock := lock }
  | callWait {t : ι} {lock : Lock ι} (point : s.pc t = .outside) (step : LockStep s.lock (t, .callRelease) lock) :
      CondStep s (t, .callWait) ({ s with lock := lock }.goto t .releasing)
  | releaseLock {t : ι} {action : LockAction ι} {lock : Lock ι} (point : s.pc t = .releasing)
      (notCall : action.isCall = false) (step : LockStep s.lock (t, action) lock) :
      CondStep s (t, .lock true action) { s with lock := lock }
  | block {t : ι} (point : s.pc t = .releasing) (released : s.lock.pc t = .outside) :
      CondStep s (t, .block) ({ s with queue := s.queue ++ [t] }.goto t .asleep)
  | reacquire {t : ι} {lock : Lock ι} (point : s.pc t = .woken) (step : LockStep s.lock (t, .callAcquire) lock) :
      CondStep s (t, .reacquire) ({ s with lock := lock }.goto t .acquiring)
  | acquireLock {t : ι} {action : LockAction ι} {lock : Lock ι} (point : s.pc t = .acquiring)
      (notCall : action.isCall = false) (step : LockStep s.lock (t, action) lock) :
      CondStep s (t, .lock false action) { s with lock := lock }
  | returnWait {t : ι} (point : s.pc t = .acquiring) (acquired : s.lock.pc t = .outside) :
      CondStep s (t, .returnWait) (s.goto t .outside)
  | callSignal {t : ι} (all : Bool) (point : s.pc t = .outside) (outside : s.lock.pc t = .outside) :
      CondStep s (t, .callSignal all) (s.goto t (.signal all .spin))
  | spin {t : ι} {all : Bool} (point : s.pc t = .signal all .spin) (clear : s.inner = false) :
      CondStep s (t, .spin) ({ s with inner := true }.goto t (.signal all .test))
  | yield {t : ι} {all : Bool} (point : s.pc t = .signal all .spin) (set : s.inner = true) : CondStep s (t, .yield) s
  | foundEmpty {t : ι} {all : Bool} (point : s.pc t = .signal all .test) (empty : s.queue = []) :
      CondStep s (t, .foundEmpty) (s.goto t (.signal all .leave))
  | foundWaiter {t : ι} {all : Bool} (point : s.pc t = .signal all .test) (waiter : s.queue ≠ []) :
      CondStep s (t, .foundWaiter) (s.goto t (.signal all .wake))
  | unblock {t first : ι} {all : Bool} {rest : List ι} (point : s.pc t = .signal all .wake)
      (queue : s.queue = first :: rest) : CondStep s (t, .unblock first)
        (({ s with queue := rest }.goto first .woken).goto t (.signal all (.afterWake all)))
  | leave {t : ι} {all : Bool} (point : s.pc t = .signal all .leave) :
      CondStep s (t, .leave) ({ s with inner := false }.goto t .outside)

/-- What has happened, for a waiting thread `t` and a signalling thread `u`, since `t` has released the lock. -/
inductive Stage
  | idle | released | acquired | missed
deriving DecidableEq

/-- Thread `t` releases the lock in `condition_wait`; then `u` acquires it; then a signal of `u` finds the queue
empty. -/
def Stage.next (t u : ι) (stage : Stage) (event : ι × CondAction ι) : Stage :=
  match stage, event with
  | _, (_, .unblock woken) => if woken = t then .idle else stage
  | .idle, (v, .lock true .clear) => if v = t then .released else stage
  | .released, (v, .lock _ .take) => if v = u then .acquired else stage
  | .acquired, (v, .foundEmpty) => if v = u then .missed else stage
  | _, _ => stage

/-- In `condition_wait`, behind `lock_release` and before `block`. -/
def Cond.InWindow (s : Cond ι) (t : ι) : Prop := s.pc t = .releasing ∧ s.lock.pc t = .outside

/-- No thread is short of `block` when a signal or broadcast finds the queue empty. -/
def SignalsSleepers (s : Cond ι) (event : ι × CondAction ι) : Prop :=
  event.2 = .foundEmpty → ∀ t, ¬ s.InWindow t

@[simp] def CondPc.sleeps : CondPc → Bool
  | .asleep => true
  | _ => false

/-- The thread has cleared `locked` in `lock_release`. -/
@[simp] def LockPc.pastClear : LockPc → Bool
  | .release .test | .release .wake | .release .leave | .outside => true
  | _ => false

/-- The thread sleeps on the condition, or is on its way there at a point of the lock. -/
def Cond.Waits (s : Cond ι) (points : LockPc → Prop) (t : ι) : Prop :=
  s.pc t = .asleep ∨ s.pc t = .releasing ∧ points (s.lock.pc t)

structure CondInv (s : Cond ι) : Prop where
  queued : Queued s.lock
  parked : Parked (CondPc.sleeps ·) s.queue s.pc

variable {s s' : Cond ι} {lock lock' : Lock ι} {event : ι × CondAction ι} {action : LockAction ι} {t u : ι}

omit [DecidableEq ι] in
theorem CondInv.mem_queue (inv : CondInv s) (t : ι) : t ∈ s.queue ↔ s.pc t = .asleep := by
  rw [inv.parked.mem_iff]
  cases s.pc t <;> simp

omit [DecidableEq ι] in
theorem CondInv.init : CondInv ({} : Cond ι) := ⟨.init, ⟨List.nodup_nil, by simp⟩⟩

/-- The lock and the queue of the condition stay in order. -/
theorem CondStep.inv (step : CondStep s event s') (inv : CondInv s) : CondInv s' := by
  obtain ⟨queued, parked⟩ := id inv
  cases step with
  | lock _ step | releaseLock _ _ step | acquireLock _ _ step => exact ⟨step.queued queued, parked⟩
  | callWait point step | reacquire point step =>
    exact ⟨step.queued queued, parked.move (by simp [point]) (by simp)⟩
  | block point => exact ⟨queued, parked.block (by simp [point]) (by simp)⟩
  | returnWait point | spin point | foundEmpty point | foundWaiter point | leave point =>
    exact ⟨queued, parked.move (by simp [point]) (by simp)⟩
  | callSignal all point => exact ⟨queued, parked.move (by simp [point]) (by simp)⟩
  | yield => exact inv
  | @unblock t first all rest point queue =>
    refine ⟨queued, ?_⟩
    have other : first ≠ t := by
      rintro rfl
      have sleeps := (inv.mem_queue first).1 (by simp [queue])
      simp [point] at sleeps
    have point' : update s.pc first .woken t = .signal all .wake := by
      rw [update_of_ne other.symm, point]
    rw [queue] at parked
    exact (parked.unblock (by simp)).move (by simp [point']) (by simp)

theorem LockStep.pastClear (step : LockStep lock (t, action) lock') (notCall : action.isCall = false)
    (past : (lock.pc t).pastClear = true) : (lock'.pc t).pastClear = true := by
  cases step with
  | callAcquire | callRelease => cases notCall
  | spin next =>
    obtain ⟨woken, point, rfl⟩ | ⟨point, rfl⟩ := LockPc.afterSpin_cases next
    all_goals simp [point] at past
  | yield => exact past
  | foundLocked point | foundFree point | drop point | block point | take point | acquired point =>
    simp [point] at past
  | _ => simp [Lock.goto]

theorem LockStep.outside (step : LockStep lock (t, action) lock') (notCall : action.isCall = false) :
    lock.pc t ≠ .outside := by
  intro outside
  cases step with
  | callAcquire | callRelease => cases notCall
  | spin next | yield next => simp [outside, LockPc.afterSpin] at next
  | _ => simp_all

/-- A step leaves the other threads where they are, except for the one that it unblocks. -/
theorem CondStep.frame {action : CondAction ι} (step : CondStep s (u, action) s') (other : t ≠ u) :
    action = .unblock t ∨ s'.pc t = s.pc t := by
  cases step with
  | lock | releaseLock | acquireLock | yield => exact .inr rfl
  | @unblock _ first all rest point queue =>
    by_cases same : first = t
    · exact .inl (by rw [same])
    · exact .inr ((update_of_ne other ..).trans (update_of_ne (Ne.symm same) ..))
  | _ => exact .inr (update_of_ne other ..)

theorem CondStep.frame_lock {action : CondAction ι} (step : CondStep s (u, action) s') (inv : CondInv s)
    (other : t ≠ u) (awake : (s.lock.pc t).asleep = false) : s'.lock.pc t = s.lock.pc t := by
  cases step with
  | lock _ step | callWait _ step | reacquire _ step => exact step.frame inv.queued other awake
  | releaseLock _ _ step | acquireLock _ _ step => exact step.frame inv.queued other awake
  | _ => rfl

/-- A thread that waits goes on to do so until it is unblocked. -/
theorem CondStep.waits {points : LockPc → Prop} (awake : ∀ pc, points pc → pc.asleep = false)
    (kept : ∀ {lock action lock'}, LockStep lock (t, action) lock' → action.isCall = false → points (lock.pc t) →
      points (lock'.pc t)) (step : CondStep s event s') (inv : CondInv s) (waits : s.Waits points t) :
    event.2 = .unblock t ∨ s'.Waits points t := by
  obtain ⟨u, action⟩ := event
  by_cases same : t = u
  · subst same
    rcases waits with asleep | ⟨releasing, past⟩
    · cases step <;> simp_all
    · cases step with
      | releaseLock _ notCall step => exact .inr (.inr ⟨releasing, kept step notCall past⟩)
      | block => exact .inr (.inl (update_self ..))
      | _ => simp_all
  · rcases step.frame same with woken | unmoved
    · exact .inl woken
    · refine .inr ?_
      rcases waits with asleep | ⟨releasing, past⟩
      · exact .inl (unmoved.trans asleep)
      · refine .inr ⟨unmoved.trans releasing, ?_⟩
        rwa [step.frame_lock inv same (awake _ past)]

/-- What is known of the waiting thread in each stage, and that its signal has not been missed. -/
structure Watched (t : ι) (stage : Stage) (s : Cond ι) : Prop extends CondInv s where
  released : stage = .released → s.Waits (LockPc.pastClear ·) t
  acquired : stage = .acquired → s.Waits (· = .outside) t
  notMissed : stage ≠ .missed

theorem LockPc.pastClear_awake (pc : LockPc) (there : pc.pastClear = true) : pc.asleep = false := by
  unfold pastClear at there
  split at there
  · rfl
  · rfl
  · rfl
  · rfl
  · cases there

theorem LockPc.pastClear_cases {pc : LockPc} (there : pc.pastClear = true) : pc = .outside ∨ pc.inside = true := by
  unfold pastClear at there
  split at there
  · exact .inr rfl
  · exact .inr rfl
  · exact .inr rfl
  · exact .inl rfl
  · cases there

/-- While a thread takes the lock, no other is inside of `lock_release`. -/
theorem LockStep.take_outside (step : LockStep lock (u, .take) lock') (queued : Queued lock)
    (past : (lock.pc t).pastClear = true) : lock'.pc t = .outside := by
  have frame := fun other => step.frame (u := t) queued other (LockPc.pastClear_awake _ past)
  cases step with
  | take point =>
    have other : t ≠ u := by
      rintro rfl
      simp [point] at past
    rw [frame other]
    rcases LockPc.pastClear_cases past with outside | inside
    · exact outside
    · exact absurd (queued.exclusive.unique inside (by simp [point])) other

omit [DecidableEq ι] in
theorem Watched.idle (inv : CondInv s) : Watched t .idle s := ⟨inv, nofun, nofun, nofun⟩

theorem Watched.keep {stage : Stage} (watched : Watched t stage s) (step : CondStep s event s')
    (notWoken : event.2 ≠ .unblock t) : Watched t stage s' where
  toCondInv := step.inv watched.toCondInv
  released now := by
    have waits := step.waits LockPc.pastClear_awake LockStep.pastClear watched.toCondInv (watched.released now)
    exact waits.resolve_left notWoken
  acquired now := by
    have waits := step.waits (by simp) (fun step notCall outside => absurd outside (step.outside notCall))
      watched.toCondInv (watched.acquired now)
    exact waits.resolve_left notWoken
  notMissed := watched.notMissed

theorem Watched.clear (watched : Watched t .idle s) (step : CondStep s (t, .lock true .clear) s') :
    Watched t .released s' where
  toCondInv := step.inv watched.toCondInv
  released _ := by
    cases step with
    | releaseLock point _ step =>
      cases step with
      | clear => exact .inr ⟨point, by simp [Lock.goto]⟩
  acquired := nofun
  notMissed := nofun

theorem Watched.take {waits : Bool} (watched : Watched t .released s) (step : CondStep s (u, .lock waits .take) s') :
    Watched t .acquired s' where
  toCondInv := step.inv watched.toCondInv
  released := nofun
  acquired _ := by
    have frame : s'.pc = s.pc ∧ LockStep s.lock (u, .take) s'.lock := by
      cases step with
      | lock _ step | releaseLock _ _ step | acquireLock _ _ step => exact ⟨rfl, step⟩
    unfold Cond.Waits
    rw [frame.1]
    rcases watched.released rfl with asleep | ⟨releasing, past⟩
    · exact .inl asleep
    · exact .inr ⟨releasing, frame.2.take_outside watched.queued past⟩
  notMissed := nofun

theorem Watched.not_acquired (watched : Watched t .acquired s) (sees : SignalsSleepers s (u, .foundEmpty))
    (step : CondStep s (u, .foundEmpty) s') : False := by
  rcases watched.acquired rfl with asleep | window
  · have queued := (watched.toCondInv.mem_queue t).2 asleep
    cases step with
    | foundEmpty _ empty => simp [empty] at queued
  · exact sees rfl t window

/-- In no stage has the signal of the waiting thread been missed. -/
theorem Watched.step {stage : Stage} (watched : Watched t stage s) (sees : SignalsSleepers s event)
    (step : CondStep s event s') : Watched t (stage.next t u event) s' := by
  unfold Stage.next
  split
  · split_ifs with same
    · exact .idle (step.inv watched.toCondInv)
    · exact watched.keep step (by simpa using same)
  · split_ifs with same
    · subst same
      exact watched.clear step
    · exact watched.keep step (by simp)
  · split_ifs with same
    · exact watched.take step
    · exact watched.keep step (by simp)
  · split_ifs with same
    · exact (watched.not_acquired sees step).elim
    · exact watched.keep step (by simp)
  · rename_i other _ _ _
    exact watched.keep step fun unblocks => other event.1 t (Prod.ext rfl unblocks)

/-- Threads use the lock of the condition as if it were alone: for themselves, or when they give it back in
`condition_wait`. -/
theorem run_lock (waits : Bool) {events : List (ι × LockAction ι)} (run : Run LockStep lock events lock') (s : Cond ι)
    (places : ∀ event ∈ events, if waits then s.pc event.1 = .releasing ∧ event.2.isCall = false
      else s.pc event.1 = .outside) :
    Run CondStep { s with lock := lock } (events.map fun event => (event.1, .lock waits event.2))
      { s with lock := lock' } := by
  induction run with
  | nil => exact .nil _
  | @snoc middle last events event _ step ih =>
    rw [List.map_append]
    have place := places event (by simp)
    refine .snoc (ih fun event seen => places event (List.mem_append_left _ seen)) ?_
    cases waits with
    | false => exact .lock place step
    | true => exact .releaseLock place.1 place.2 step

end MicroOs.Sync
