import MicroOs.Sync.Condition
import MicroOs.Sync.Mutex

/-! # Monitors

A lock with a condition: `condition_wait` gives the lock back while the thread sleeps and takes it again. Threads that
release the lock or wait only when they hold it exclude each other, and hold the lock when `condition_wait` returns.
-/

namespace MicroOs.Sync

open Function

variable {ι : Type*} [DecidableEq ι] {s s' : Cond ι} {event : ι × CondAction ι} {lock lock' : Lock ι} {t u : ι}
  {action : LockAction ι}

/-- Each thread releases the lock, or waits on the condition, only when it holds the lock. -/
def UsesHeld (s : Cond ι) (event : ι × CondAction ι) : Prop :=
  event.2 = .lock false .callRelease ∨ event.2 = .callWait → s.lock.holds event.1 = true

/-- The thread is inside of `lock_acquire`, or it is outside and holds the lock. -/
@[simp] def Retakes : Bool × LockPc → Bool
  | (_, .acquire _ _) => true
  | (holds, .outside) => holds
  | _ => false

theorem LockStep.retakes (step : LockStep lock (u, action) lock') (own : u = t → action.isCall = false)
    (before : Retakes (lock.place t) = true) : Retakes (lock'.place t) = true := by
  by_cases same : t = u
  · cases step with
    | spin next =>
      obtain ⟨woken, point, rfl⟩ | ⟨point, rfl⟩ := LockPc.afterSpin_cases next
      all_goals simp_all [Lock.place, Lock.goto]
    | _ => simp_all [Lock.place, Lock.goto, LockAction.isCall]
  · cases step with
    | @unblock _ first =>
      by_cases woken : t = first <;> simp_all [Lock.place, Lock.goto]
    | _ => simp_all [Lock.place, Lock.goto]

structure MonitorInv (s : Cond ι) : Prop where
  owner : OwnerInv s.lock
  retakes : ∀ t, s.pc t = .acquiring → Retakes (s.lock.place t) = true

/-- A thread moves on outside of the call of `lock_acquire`, and the lock stays as it is. -/
theorem MonitorInv.move {pc : CondPc} (inv : MonitorInv s) (same : s'.lock = s.lock) (moved : s'.pc = update s.pc t pc)
    (elsewhere : pc ≠ .acquiring) : MonitorInv s' := by
  refine ⟨same ▸ inv.owner, fun u here => same ▸ inv.retakes u ?_⟩
  rw [moved] at here
  by_cases at_t : u = t
  · subst at_t
    exact absurd ((update_self ..).symm.trans here) elsewhere
  · exact (update_of_ne at_t ..).symm.trans here

theorem MonitorInv.step_lock (inv : MonitorInv s) (step : LockStep s.lock (t, action) lock')
    (held : ReleasesHeld s.lock (t, action)) (own : s.pc t = .acquiring → action.isCall = false) :
    MonitorInv { s with lock := lock' } :=
  ⟨inv.owner.step ⟨held, step⟩, fun u here => step.retakes (fun same => own (same ▸ here)) (inv.retakes u here)⟩

/-- A thread that waits gives the lock back and holds it again afterwards. -/
theorem MonitorInv.step (inv : MonitorInv s) (step : Guarded UsesHeld CondStep s event s') : MonitorInv s' := by
  obtain ⟨held, step⟩ := step
  cases step with
  | lock point step => exact inv.step_lock step (fun release => held (.inl (congrArg _ release))) (by simp [point])
  | callWait point step =>
    exact (inv.step_lock step (fun _ => held (.inr rfl)) (by simp [point])).move rfl rfl (by simp)
  | releaseLock point notCall step => exact inv.step_lock step (by rintro rfl; cases notCall) (by simp [point])
  | acquireLock point notCall step => exact inv.step_lock step (by rintro rfl; cases notCall) fun _ => notCall
  | @reacquire t lock point step =>
    have moved := inv.step_lock step nofun (by simp [point])
    refine ⟨moved.owner, fun u here => ?_⟩
    by_cases same : u = t
    · subst same
      cases step
      simp [Lock.place, Cond.goto, Lock.goto]
    · exact moved.retakes u ((update_of_ne same ..).symm.trans here)
  | yield => exact inv
  | @unblock t first all rest =>
    have woken : MonitorInv (s.goto first .woken) := inv.move rfl rfl (by simp)
    exact woken.move rfl rfl (by simp)
  | _ => exact inv.move rfl rfl (by simp)

/-- Threads exclude each other, and a thread that returns from `condition_wait` holds the lock. -/
theorem monitor_mutual_exclusion {events : List (ι × CondAction ι)}
    (run : Run (Guarded UsesHeld CondStep) ({} : Cond ι) events s) :
    (∀ t u, s.lock.holds t = true → s.lock.holds u = true → t = u) ∧
      ∀ t, s.pc t = .acquiring → s.lock.pc t = .outside → s.lock.holds t = true := by
  have inv := run.invariant MonitorInv (fun inv step => inv.step step) ⟨.init, nofun⟩
  constructor
  · intro t u holds holds'
    exact inv.owner.owner.unique (owns_of_holds holds) (owns_of_holds holds')
  · intro t acquiring outside
    simpa [Lock.place, outside] using inv.retakes t acquiring

/-- The first thread waits on the condition, and the second acquires the lock. -/
theorem monitor_mutual_exclusion_waiting : ∃ events s, Run (Guarded UsesHeld CondStep) ({} : Cond (Fin 2)) events s ∧
    s.queue = [0] ∧ s.lock.holds 1 = true ∧ ∀ t u, s.lock.holds t = true → s.lock.holds u = true → t = u := by
  have held : Run (Guarded UsesHeld CondStep) ({} : Cond (Fin 2)) _ _ :=
    (run_lock false (run_acquire (t := 0) rfl rfl rfl) {} (by simp)).guarded (by simp [UsesHeld])
  have call := held.snoc ⟨fun _ => rfl, .callWait (t := 0) rfl (.callRelease rfl)⟩
  have asleep := (call.append ((run_lock true (run_release (t := 0) rfl rfl rfl) (Cond.goto {} 0 .releasing)
    (by decide)).guarded (by simp [UsesHeld]))).snoc ⟨by simp [UsesHeld], .block (t := 0) rfl rfl⟩
  have acquired := asleep.append ((run_lock false (run_acquire (t := 1) rfl rfl rfl)
    ((({ queue := [0] } : Cond (Fin 2)).goto 0 .releasing).goto 0 .asleep) (by decide)).guarded (by simp [UsesHeld]))
  exact ⟨_, _, acquired, rfl, rfl, (monitor_mutual_exclusion acquired).1⟩

end MicroOs.Sync
