import MicroOs.Library.Run
import MicroOs.Library.Threads

/-! # The blocking lock

Any number of threads call `lock_acquire` and `lock_release` in their atomic implementation. A task switch is possible
wherever interrupts are enabled, so each access to the lock is a step of its own; `block` and `unblock` run with the
interrupts off and are one step each. The wait queue is the list of the tasks in the order in which `block` has linked
them.
-/

namespace MicroOs.Sync

open Function

variable {ι : Type*} [DecidableEq ι]

/-- Where a thread is in `lock_acquire_atomic`. -/
inductive AcquirePoint
  | spin | test | drop | block | asleep | take | leave
deriving DecidableEq

/-- Where a thread is in `lock_release_atomic`. -/
inductive ReleasePoint
  | spin | clear | test | wake | leave
deriving DecidableEq

/-- What a thread does. One that `unblock` has woken is remembered until it finds the lock taken again. -/
inductive LockPc
  | outside
  | acquire (woken : Bool) (point : AcquirePoint)
  | release (point : ReleasePoint)
deriving DecidableEq

/-- Where a thread goes on when it has set the flag of `inner_lock`. -/
def LockPc.afterSpin : LockPc → Option LockPc
  | .acquire woken .spin => some (.acquire woken .test)
  | .release .spin => some (.release .clear)
  | _ => none

/-- `lock_t` as `LOCK_INIT` sets it up, with its threads. A thread `holds` the lock from the return of `lock_acquire`
to its call of `lock_release`. -/
structure Lock (ι : Type*) where
  locked : Bool := false
  inner : Bool := false
  queue : List ι := []
  pc : ι → LockPc := fun _ => .outside
  holds : ι → Bool := fun _ => false

/-- What a thread does to the lock in one step. -/
inductive LockAction (ι : Type*)
  | callAcquire
  | callRelease
  | spin
  | yield
  | foundLocked
  | foundFree
  | drop
  | block
  | take
  | acquired
  | clear
  | foundEmpty
  | foundWaiter
  | unblock (woken : ι)
  | released
deriving DecidableEq

def Lock.goto (s : Lock ι) (t : ι) (pc : LockPc) : Lock ι := { s with pc := update s.pc t pc }

theorem Lock.goto_self (s : Lock ι) (t : ι) (pc : LockPc) : (s.goto t pc).pc t = pc := update_self ..

inductive LockStep (s : Lock ι) : ι × LockAction ι → Lock ι → Prop
  | callAcquire {t : ι} (point : s.pc t = .outside) : LockStep s (t, .callAcquire) (s.goto t (.acquire false .spin))
  | callRelease {t : ι} (point : s.pc t = .outside) :
      LockStep s (t, .callRelease) ({ s with holds := update s.holds t false }.goto t (.release .spin))
  | spin {t : ι} {pc : LockPc} (next : (s.pc t).afterSpin = some pc) (clear : s.inner = false) :
      LockStep s (t, .spin) ({ s with inner := true }.goto t pc)
  -- the flag was set already: `yield`, and try again
  | yield {t : ι} {pc : LockPc} (next : (s.pc t).afterSpin = some pc) (set : s.inner = true) : LockStep s (t, .yield) s
  | foundLocked {t : ι} {woken : Bool} (point : s.pc t = .acquire woken .test)
      (taken : s.locked = true) : LockStep s (t, .foundLocked) (s.goto t (.acquire false .drop))
  | foundFree {t : ι} {woken : Bool} (point : s.pc t = .acquire woken .test) (free : s.locked = false) :
      LockStep s (t, .foundFree) (s.goto t (.acquire woken .take))
  | drop {t : ι} {woken : Bool} (point : s.pc t = .acquire woken .drop) :
      LockStep s (t, .drop) ({ s with inner := false }.goto t (.acquire woken .block))
  | block {t : ι} {woken : Bool} (point : s.pc t = .acquire woken .block) :
      LockStep s (t, .block) ({ s with queue := s.queue ++ [t] }.goto t (.acquire woken .asleep))
  | take {t : ι} {woken : Bool} (point : s.pc t = .acquire woken .take) :
      LockStep s (t, .take) ({ s with locked := true }.goto t (.acquire woken .leave))
  | acquired {t : ι} {woken : Bool} (point : s.pc t = .acquire woken .leave) : LockStep s (t, .acquired)
        ({ s with inner := false, holds := update s.holds t true }.goto t .outside)
  | clear {t : ι} (point : s.pc t = .release .clear) :
      LockStep s (t, .clear) ({ s with locked := false }.goto t (.release .test))
  | foundEmpty {t : ι} (point : s.pc t = .release .test) (empty : s.queue = []) :
      LockStep s (t, .foundEmpty) (s.goto t (.release .leave))
  | foundWaiter {t : ι} (point : s.pc t = .release .test) (waiter : s.queue ≠ []) :
      LockStep s (t, .foundWaiter) (s.goto t (.release .wake))
  -- an empty queue would fail the assertion of `unblock`
  | unblock {t first : ι} {rest : List ι} (point : s.pc t = .release .wake) (queue : s.queue = first :: rest) :
      LockStep s (t, .unblock first)
        (({ s with queue := rest }.goto first (.acquire true .spin)).goto t (.release .leave))
  | released {t : ι} (point : s.pc t = .release .leave) :
      LockStep s (t, .released) ({ s with inner := false }.goto t .outside)

@[simp] def LockPc.inside : LockPc → Bool
  | .acquire _ .test | .acquire _ .drop | .acquire _ .take | .acquire _ .leave => true
  | .release .clear | .release .test | .release .wake | .release .leave => true
  | _ => false

@[simp] def LockPc.asleep : LockPc → Bool
  | .acquire _ .asleep => true
  | _ => false

variable {s s' : Lock ι} {event : ι × LockAction ι} {pc pc' : LockPc} {t : ι}

theorem LockPc.afterSpin_cases (next : pc.afterSpin = some pc') :
    (∃ woken, pc = .acquire woken .spin ∧ pc' = .acquire woken .test) ∨
      pc = .release .spin ∧ pc' = .release .clear := by
  unfold afterSpin at next
  split at next
  · cases next
    exact .inl ⟨_, rfl, rfl⟩
  · cases next
    exact .inr ⟨rfl, rfl⟩
  · cases next

/-- One thread at a time has `inner_lock`, and the queue lists the sleeping threads. -/
structure Queued (s : Lock ι) : Prop where
  exclusive : Exclusive (LockPc.inside ·) s.inner s.pc
  parked : Parked (LockPc.asleep ·) s.queue s.pc

omit [DecidableEq ι] in
/-- The thread that `unblock` wakes is not the one that calls it. -/
theorem Queued.first_ne {first : ι} {rest : List ι} (queued : Queued s) (point : s.pc t = .release .wake)
    (queue : s.queue = first :: rest) : first ≠ t := by
  rintro rfl
  have sleeps := (queued.parked.mem_iff first).1 (by simp [queue])
  simp [point] at sleeps

/-- A thread joins the queue when it falls asleep and leaves it when it is woken. -/
theorem LockStep.queued (step : LockStep s event s') (queued : Queued s) : Queued s' := by
  obtain ⟨exclusive, parked⟩ := id queued
  cases step with
  | callAcquire point | callRelease point =>
    exact ⟨exclusive.move (by simp), parked.move (by simp [point]) (by simp)⟩
  | spin next clear =>
    refine ⟨exclusive.enter clear _ _, ?_⟩
    obtain ⟨woken, point, rfl⟩ | ⟨point, rfl⟩ := LockPc.afterSpin_cases next
    all_goals exact parked.move (by simp [point]) (by simp)
  | yield => exact ⟨exclusive, parked⟩
  | foundLocked point | foundFree point | take point | clear point | foundEmpty point | foundWaiter point =>
    exact ⟨exclusive.move (by simp [point]), parked.move (by simp [point]) (by simp)⟩
  | drop point | acquired point | released point =>
    exact ⟨exclusive.leave (by simp [point]) (by simp) _, parked.move (by simp [point]) (by simp)⟩
  | block point => exact ⟨exclusive.move (by simp), parked.block (by simp [point]) rfl⟩
  | @unblock t first rest point queue =>
    have point' : update s.pc first (.acquire true .spin) t = .release .wake := by
      rw [update_of_ne (queued.first_ne point queue).symm, point]
    rw [queue] at parked
    constructor
    · exact (exclusive.move (by simp)).move (by simp [point'])
    · exact (parked.unblock (by simp)).move (by simp [point']) (by simp)

/-- A step leaves the other threads where they are, except for one that sleeps. -/
theorem LockStep.frame {action : LockAction ι} {u : ι} (step : LockStep s (t, action) s') (queued : Queued s)
    (other : u ≠ t) (awake : (s.pc u).asleep = false) : s'.pc u = s.pc u := by
  cases step with
  | yield => rfl
  | @unblock _ first rest point queue =>
    have sleeps := (queued.parked.mem_iff first).1 (by simp [queue])
    have notFirst : u ≠ first := by
      rintro rfl
      rw [awake] at sleeps
      cases sleeps
    exact (update_of_ne other ..).trans (update_of_ne notFirst ..)
  | _ => exact update_of_ne other ..

/-- The thread has given `inner_lock` back in order to sleep, and is not on the queue yet. -/
@[simp] def LockPc.inWindow : LockPc → Bool
  | .acquire _ .block => true
  | _ => false

/-- The thread has been unblocked and has not looked at the lock since. -/
@[simp] def LockPc.unblocked : LockPc → Bool
  | .acquire true .spin | .acquire true .test | .acquire true .take => true
  | _ => false

/-- The thread is in `lock_release` and has not come past its wake-up. -/
@[simp] def LockPc.releasing : LockPc → Bool
  | .release .spin | .release .clear | .release .test | .release .wake => true
  | _ => false

/-- A thread sleeps on the queue of a free lock, and no thread is going to wake it. -/
structure Stuck (s : Lock ι) : Prop where
  free : s.locked = false
  sleeper : s.queue ≠ []
  notReleasing : ∀ t, (s.pc t).releasing = false
  notUnblocked : ∀ t, (s.pc t).unblocked = false

/-- No thread is short of `block` when `lock_release` finds the queue empty. -/
def SeesWaiters (s : Lock ι) (event : ι × LockAction ι) : Prop :=
  event.2 = .foundEmpty → ∀ t, (s.pc t).inWindow = false

@[simp] def LockPc.drops : LockPc → Bool
  | .acquire _ .drop => true
  | _ => false

/-- The thread sleeps or is about to. -/
@[simp] def LockPc.waits : LockPc → Bool
  | .acquire _ .block | .acquire _ .asleep => true
  | _ => false

/-- The thread is going to wake a sleeping one, or to take the lock. -/
@[simp] def LockPc.wakes : LockPc → Bool
  | .release .test | .release .wake => true
  | .acquire true .spin | .acquire true .test | .acquire true .take => true
  | _ => false

theorem LockPc.drops_inside (pc : LockPc) (there : pc.drops = true) : pc.inside = true := by
  unfold drops at there
  split at there
  · rfl
  · cases there

theorem LockPc.waits_iff (pc : LockPc) : pc.waits = true ↔ pc.inWindow = true ∨ pc.asleep = true := by
  unfold waits inWindow asleep
  split
  · simp
  · simp
  · simp_all

theorem LockPc.wakes_cases (there : pc.wakes = true) : pc.releasing = true ∨ pc.unblocked = true := by
  unfold wakes at there
  split at there
  · exact .inl rfl
  · exact .inl rfl
  · exact .inr rfl
  · exact .inr rfl
  · exact .inr rfl
  · cases there

/-- A free lock with waiting threads has a thread that is going to wake one of them. -/
structure WakeInv (s : Lock ι) : Prop extends Queued s where
  dropped : Ensures (LockPc.drops ·) (s.locked = true) s.pc
  owed : s.locked = false → Somewhere (LockPc.waits ·) s.pc → Somewhere (LockPc.wakes ·) s.pc

/-- A thread decides to wait while the lock is taken, and nobody can release it before the thread drops `inner_lock`. -/
theorem LockStep.dropped (step : LockStep s event s') (inv : WakeInv s) :
    Ensures (LockPc.drops ·) (s'.locked = true) s'.pc := by
  have before := inv.dropped
  cases step with
  | callAcquire | callRelease | foundFree | drop | block | acquired | foundEmpty | foundWaiter | released =>
    exact before.move (by simp)
  | spin next =>
    obtain ⟨woken, point, rfl⟩ | ⟨point, rfl⟩ := LockPc.afterSpin_cases next
    all_goals exact before.move (by simp)
  | yield => exact before
  | foundLocked _ taken => exact fun _ _ => taken
  | take => exact fun _ _ => rfl
  | clear point => exact inv.exclusive.ensures (by simp [point]) LockPc.drops_inside (by simp)
  | unblock => exact (before.move (by simp)).move (by simp)

/-- A step that moves a thread neither to the waiting ones nor away from those that wake leaves the debt as it is. -/
theorem WakeInv.owed_move (inv : WakeInv s) (free : s.locked = false) (waits : pc.waits = true → (s.pc t).waits = true)
    (wakes : (s.pc t).wakes = true → pc.wakes = true) (waiter : Somewhere (LockPc.waits ·) (update s.pc t pc)) :
    Somewhere (LockPc.wakes ·) (update s.pc t pc) :=
  (inv.owed free (waiter.back waits)).move wakes

theorem LockStep.owed (step : LockStep s event s') (sees : SeesWaiters s event) (inv : WakeInv s)
    (free : s'.locked = false) (waiter : Somewhere (LockPc.waits ·) s'.pc) : Somewhere (LockPc.wakes ·) s'.pc := by
  cases step with
  | callAcquire point | callRelease point | acquired point | foundWaiter point | released point =>
    exact inv.owed_move free (by simp) (by simp [point]) waiter
  | spin next =>
    obtain ⟨woken, point, rfl⟩ | ⟨point, rfl⟩ := LockPc.afterSpin_cases next
    · exact inv.owed_move free (by simp) (by cases woken <;> simp [point]) waiter
    · exact inv.owed_move free (by simp) (by simp [point]) waiter
  | yield => exact inv.owed free waiter
  | foundLocked point taken =>
    have same : s.locked = false := free
    simp [same] at taken
  | @foundFree t woken point => exact inv.owed_move free (by simp) (by cases woken <;> simp [point]) waiter
  | @drop t woken point =>
    have taken := inv.dropped t (by simp [point])
    have same : s.locked = false := free
    simp [same] at taken
  | block point => exact inv.owed_move free (by simp [point]) (by simp [point]) waiter
  | take => cases free
  | clear => exact .here rfl
  | foundEmpty point empty =>
    obtain ⟨u, waits⟩ := Somewhere.back waiter (by simp)
    rcases (LockPc.waits_iff _).1 waits with window | sleeps
    · rw [sees rfl u] at window
      cases window
    · have queued := (inv.parked.mem_iff u).2 sleeps
      simp [empty] at queued
  | @unblock t first rest point queue =>
    have other : first ≠ t := inv.toQueued.first_ne point queue
    exact ⟨first, by simp [Lock.goto, update_of_ne other]⟩

theorem WakeInv.step (inv : WakeInv s) (step : Guarded SeesWaiters LockStep s event s') : WakeInv s' :=
  ⟨step.2.queued inv.toQueued, step.2.dropped inv, step.2.owed step.1 inv⟩

omit [DecidableEq ι] in
theorem Queued.init : Queued ({} : Lock ι) :=
  ⟨⟨nofun, nofun⟩, ⟨List.nodup_nil, by simp⟩⟩

omit [DecidableEq ι] in
theorem WakeInv.init : WakeInv ({} : Lock ι) :=
  ⟨.init, nofun, fun _ waiter => absurd waiter (by simp [Somewhere])⟩

omit [DecidableEq ι] in
theorem WakeInv.not_stuck (inv : WakeInv s) : ¬ Stuck s := by
  intro stuck
  obtain ⟨t, queued⟩ := List.exists_mem_of_ne_nil _ stuck.sleeper
  have waits := (LockPc.waits_iff _).2 (.inr ((inv.parked.mem_iff t).1 queued))
  obtain ⟨u, wakes⟩ := inv.owed stuck.free ⟨t, waits⟩
  rcases LockPc.wakes_cases wakes with releasing | unblocked
  · rw [stuck.notReleasing u] at releasing
    cases releasing
  · rw [stuck.notUnblocked u] at unblocked
    cases unblocked

/-- No thread is left asleep on a free lock, as long as every thread that gives `inner_lock` back in `lock_acquire`
gets to `block` before a `lock_release` looks for waiting threads. -/
theorem lock_wakeup_not_lost {events : List (ι × LockAction ι)}
    (run : Run (Guarded SeesWaiters LockStep) ({} : Lock ι) events s) : ¬ Stuck s :=
  (run.invariant WakeInv (fun inv step => inv.step step) .init).not_stuck

theorem run_spin (clear : s.inner = false) (outside : s.pc t = .outside) :
    Run LockStep s [(t, .callAcquire), (t, .spin)] ({ s with inner := true }.goto t (.acquire false .test)) := by
  have spin : LockStep (s.goto t (.acquire false .spin)) (t, .spin) _ :=
    .spin (by rw [Lock.goto_self]; rfl) clear
  have run := Run.snoc (.snoc (.nil s) (.callAcquire outside)) spin
  simpa [Lock.goto] using run

/-- A thread that finds the lock free and is not disturbed acquires it. -/
theorem run_acquire (free : s.locked = false) (clear : s.inner = false) (outside : s.pc t = .outside) :
    Run LockStep s [(t, .callAcquire), (t, .spin), (t, .foundFree), (t, .take), (t, .acquired)]
      { s with locked := true, holds := update s.holds t true } := by
  have found : LockStep ({ s with inner := true }.goto t (.acquire false .test)) (t, .foundFree) _ :=
    .foundFree (Lock.goto_self ..) free
  have run := Run.snoc (.snoc (.snoc (run_spin clear outside) found) (.take (Lock.goto_self ..)))
    (.acquired (Lock.goto_self ..))
  simpa [Lock.goto, ← outside, ← clear] using run

/-- A thread that finds the lock taken gives `inner_lock` back before it sleeps. -/
theorem run_window (taken : s.locked = true) (clear : s.inner = false) (outside : s.pc t = .outside) :
    Run LockStep s [(t, .callAcquire), (t, .spin), (t, .foundLocked), (t, .drop)]
      (s.goto t (.acquire false .block)) := by
  have found : LockStep ({ s with inner := true }.goto t (.acquire false .test)) (t, .foundLocked) _ :=
    .foundLocked (Lock.goto_self ..) taken
  have run := Run.snoc (.snoc (run_spin clear outside) found) (.drop (Lock.goto_self ..))
  simpa [Lock.goto, ← clear] using run

/-- A thread that is not disturbed and finds nobody waiting releases the lock. -/
theorem run_release (clear : s.inner = false) (empty : s.queue = []) (point : s.pc t = .release .spin) :
    Run LockStep s [(t, .spin), (t, .clear), (t, .foundEmpty), (t, .released)]
      ({ s with locked := false }.goto t .outside) := by
  have spin : LockStep s (t, .spin) _ := .spin (by rw [point]; rfl) clear
  have run := Run.snoc (.snoc (.snoc (.snoc (.nil s) spin) (.clear (Lock.goto_self ..)))
    (.foundEmpty (Lock.goto_self ..) empty)) (.released (Lock.goto_self ..))
  simpa [Lock.goto, ← clear] using run

/-- The second thread finds the lock taken and gives `inner_lock` back. Before it gets to `block` the first releases
the lock and finds no waiting thread. The second then sleeps on a free lock. -/
theorem lock_wakeup_lost : ∃ events s, Run LockStep ({} : Lock (Fin 2)) events s ∧ Stuck s := by
  have held := run_acquire (s := ({} : Lock (Fin 2))) (t := 0) rfl rfl rfl
  have window := held.append (run_window (t := 1) rfl rfl rfl)
  have released := (window.snoc (.callRelease (t := 0) rfl)).append (run_release (t := 0) rfl rfl rfl)
  exact ⟨_, _, .snoc released (.block (t := 1) rfl), rfl, by decide, by decide, by decide⟩

/-- The second thread sleeps when the first releases the lock, and is woken. -/
theorem lock_wakeup_not_lost_handover : ∃ events s, Run (Guarded SeesWaiters LockStep) ({} : Lock (Fin 2)) events s ∧
    s.locked = false ∧ (s.pc 1).unblocked = true ∧ ¬ Stuck s := by
  have held := run_acquire (s := ({} : Lock (Fin 2))) (t := 0) rfl rfl rfl
  have asleep := (held.append (run_window (t := 1) rfl rfl rfl)).snoc (.block (t := 1) rfl)
  have woken : Run LockStep ({} : Lock (Fin 2)) _ _ :=
    .snoc (.snoc (.snoc (.snoc (.snoc asleep (.callRelease (t := 0) rfl)) (.spin (t := 0) rfl rfl))
      (.clear (t := 0) rfl)) (.foundWaiter (t := 0) rfl (by decide))) (.unblock (t := 0) rfl rfl)
  have seen : Run (Guarded SeesWaiters LockStep) _ _ _ := woken.guarded (by simp [SeesWaiters])
  exact ⟨_, _, seen, rfl, rfl, lock_wakeup_not_lost seen⟩

end MicroOs.Sync
