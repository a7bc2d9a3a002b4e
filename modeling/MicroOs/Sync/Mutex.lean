import MicroOs.Sync.Lock

/-! # Mutual exclusion

The lock is taken exactly as long as a thread owns it: from the assignment to `locked` in `lock_acquire`, through the
time in which the thread holds the lock, to the assignment in `lock_release`. Both assignments are made with
`inner_lock`, so the ownership is a critical section of its own, whose flag is `locked`.
-/

namespace MicroOs.Sync

open Function

variable {ι : Type*} [DecidableEq ι] {s s' : Lock ι} {event : ι × LockAction ι} {t : ι}

/-- Each thread releases only a lock that it holds. -/
def ReleasesHeld (s : Lock ι) (event : ι × LockAction ι) : Prop :=
  event.2 = .callRelease → s.holds event.1 = true

/-- Whether a thread holds the lock, and where it is. -/
def Lock.place (s : Lock ι) (t : ι) : Bool × LockPc := (s.holds t, s.pc t)

/-- The thread has set `locked` and is going to clear it. -/
@[simp] def Owns : Bool × LockPc → Bool
  | (_, .acquire _ .leave) | (_, .release .spin) | (_, .release .clear) => true
  | (holds, _) => holds

/-- A thread that releases the lock does not hold it any more. -/
@[simp] def GivesUp : Bool × LockPc → Bool
  | (holds, .release _) => !holds
  | _ => true

@[simp] def LockPc.takes : LockPc → Bool
  | .acquire _ .take => true
  | _ => false

@[simp] def LockPc.unblocks : LockPc → Bool
  | .release .wake => true
  | _ => false

theorem Lock.place_goto (s : Lock ι) (t : ι) (pc : LockPc) :
    (s.goto t pc).place = update s.place t (s.holds t, pc) := by
  funext u
  by_cases same : u = t
  · subst same
    simp [place, goto]
  · simp [place, goto, update_of_ne same]

theorem Lock.place_holds (s : Lock ι) (t : ι) (holds : Bool) (pc : LockPc) :
    ({ s with holds := update s.holds t holds }.goto t pc).place = update s.place t (holds, pc) := by
  funext u
  by_cases same : u = t
  · subst same
    simp [place, goto]
  · simp [place, goto, update_of_ne same]

/-- The owner is unique, the lock is free when a thread takes it, and there is one to unblock. -/
structure OwnerInv (s : Lock ι) : Prop extends Queued s where
  owner : Exclusive (Owns ·) s.locked s.place
  givesUp : Everywhere (GivesUp ·) s.place
  taken : Ensures (LockPc.takes ·) (s.locked = false) s.pc
  waiter : Ensures (LockPc.unblocks ·) (s.queue ≠ []) s.pc

theorem LockPc.asleep_cases {pc : LockPc} (there : pc.asleep = true) : ∃ woken, pc = .acquire woken .asleep := by
  unfold asleep at there
  split at there
  · exact ⟨_, rfl⟩
  · cases there

theorem LockPc.takes_inside (pc : LockPc) (there : pc.takes = true) : pc.inside = true := by
  unfold takes at there
  split at there
  · rfl
  · cases there

theorem LockPc.unblocks_inside (pc : LockPc) (there : pc.unblocks = true) : pc.inside = true := by
  unfold unblocks at there
  split at there
  · rfl
  · cases there

omit [DecidableEq ι] in
theorem OwnerInv.gone {point : ReleasePoint} (inv : OwnerInv s) (there : s.pc t = .release point) :
    s.holds t = false := by
  have gone := inv.givesUp t
  simpa [Lock.place, there] using gone

omit [DecidableEq ι] in
theorem owns_of_holds (holds : s.holds t = true) : Owns (s.place t) = true := by
  unfold Owns
  split
  · rfl
  · rfl
  · rfl
  · simp_all [Lock.place]

/-- The lock has one owner, from setting `locked` to clearing it. -/
theorem LockStep.owner (step : LockStep s event s') (own : ReleasesHeld s event) (inv : OwnerInv s) :
    Exclusive (Owns ·) s'.locked s'.place ∧ Everywhere (GivesUp ·) s'.place := by
  have owner := inv.owner
  have givesUp := inv.givesUp
  cases step with
  | callAcquire point | foundLocked point | foundFree point | drop point | block point | released point =>
    rw [Lock.place_goto]
    exact ⟨owner.move (by simp [Lock.place, point]), givesUp.move (by simp)⟩
  | @callRelease t point =>
    rw [Lock.place_holds]
    exact ⟨owner.move (by simp [Lock.place, point, own rfl]), givesUp.move (by simp)⟩
  | @spin t _ next =>
    rw [Lock.place_goto]
    obtain ⟨woken, point, rfl⟩ | ⟨point, rfl⟩ := LockPc.afterSpin_cases next
    · exact ⟨owner.move (by simp [Lock.place, point]), givesUp.move (by simp)⟩
    · exact ⟨owner.move (by simp [Lock.place, point]), givesUp.move (by simpa using inv.gone point)⟩
  | yield => exact ⟨owner, givesUp⟩
  | @take t _ point =>
    rw [Lock.place_goto]
    exact ⟨owner.enter (inv.taken t (by simp [point])) _ _, givesUp.move (by simp)⟩
  | @acquired t woken point =>
    have moved := Lock.place_holds { s with inner := false } t true .outside
    rw [moved]
    exact ⟨owner.move (by simp [Lock.place, point]), givesUp.move (by simp)⟩
  | @clear t point =>
    have gone := inv.gone point
    rw [Lock.place_goto]
    exact ⟨owner.leave (by simp [Lock.place, point]) (by simpa using gone) _, givesUp.move (by simpa using gone)⟩
  | foundEmpty point | foundWaiter point =>
    rw [Lock.place_goto]
    exact ⟨owner.move (by simp [Lock.place, point]), givesUp.move (by simpa using inv.gone point)⟩
  | @unblock t first rest point queue =>
    have gone := inv.gone point
    obtain ⟨woken, sleeps⟩ := LockPc.asleep_cases ((inv.parked.mem_iff first).1 (by simp [queue]))
    have moved := Lock.place_goto { s with queue := rest } first (.acquire true .spin)
    rw [Lock.place_goto, moved]
    constructor
    · refine Exclusive.move (owner.move ?_) ?_
      · simp [Lock.place, sleeps]
      · simp [Lock.goto, gone]
    · exact (givesUp.move (by simp)).move (by simp [Lock.goto, gone])

theorem LockStep.taken (step : LockStep s event s') (inv : OwnerInv s) :
    Ensures (LockPc.takes ·) (s'.locked = false) s'.pc := by
  have before := inv.taken
  cases step with
  | callAcquire | callRelease | foundLocked | drop | block | acquired | foundEmpty | foundWaiter | released =>
    exact before.move (by simp)
  | spin next =>
    obtain ⟨woken, point, rfl⟩ | ⟨point, rfl⟩ := LockPc.afterSpin_cases next
    all_goals exact before.move (by simp)
  | yield => exact before
  | foundFree _ free => exact before.move fun _ => free
  | take point => exact inv.exclusive.ensures (by simp [point]) LockPc.takes_inside (by simp)
  | clear => exact fun _ _ => rfl
  | unblock => exact (before.move (by simp)).move (by simp)

/-- Threads join the queue without `inner_lock`, but only the thread with `inner_lock` takes one from it. -/
theorem LockStep.waiter (step : LockStep s event s') (inv : OwnerInv s) :
    Ensures (LockPc.unblocks ·) (s'.queue ≠ []) s'.pc := by
  have before := inv.waiter
  cases step with
  | callAcquire | callRelease | foundLocked | foundFree | drop | take | acquired | clear | foundEmpty | released =>
    exact before.move (by simp)
  | spin next =>
    obtain ⟨woken, point, rfl⟩ | ⟨point, rfl⟩ := LockPc.afterSpin_cases next
    all_goals exact before.move (by simp)
  | yield => exact before
  | block => exact fun _ _ => by simp [Lock.goto]
  | foundWaiter _ waiter => exact before.move fun _ => waiter
  | @unblock t first rest point queue =>
    have point' : update s.pc first (.acquire true .spin) t = .release .wake := by
      rw [update_of_ne (inv.toQueued.first_ne point queue).symm, point]
    have exclusive := inv.exclusive.move (t := first) (p := .acquire true .spin) (by simp)
    exact exclusive.ensures (by simp [point']) LockPc.unblocks_inside (by simp)

theorem OwnerInv.step (inv : OwnerInv s) (step : Guarded ReleasesHeld LockStep s event s') : OwnerInv s' :=
  ⟨step.2.queued inv.toQueued, (step.2.owner step.1 inv).1, (step.2.owner step.1 inv).2, step.2.taken inv,
    step.2.waiter inv⟩

omit [DecidableEq ι] in
theorem OwnerInv.init : OwnerInv ({} : Lock ι) :=
  ⟨.init, ⟨by simp [Lock.place], by simp [Lock.place]⟩, by simp [Everywhere, Lock.place], nofun, nofun⟩

/-- One thread at most holds the lock, and `lock_release` calls `unblock` on a queue that is not empty. -/
theorem lock_mutual_exclusion {events : List (ι × LockAction ι)}
    (run : Run (Guarded ReleasesHeld LockStep) ({} : Lock ι) events s) :
    (∀ t u, s.holds t = true → s.holds u = true → t = u) ∧ ∀ t, s.pc t = .release .wake → s.queue ≠ [] := by
  have inv := run.invariant OwnerInv (fun inv step => inv.step step) .init
  constructor
  · intro t u holds holds'
    exact inv.owner.unique (owns_of_holds holds) (owns_of_holds holds')
  · intro t there
    exact inv.waiter t (by simp [there])

/-- The first thread releases the lock that it holds while the second sleeps, and is about to unblock it. -/
theorem lock_mutual_exclusion_handover :
    ∃ events s, Run (Guarded ReleasesHeld LockStep) ({} : Lock (Fin 2)) events s ∧
      s.pc 0 = .release .wake ∧ s.queue = [1] ∧
      (∀ t u, s.holds t = true → s.holds u = true → t = u) ∧ ∀ t, s.pc t = .release .wake → s.queue ≠ [] := by
  have held := run_acquire (s := ({} : Lock (Fin 2))) (t := 0) rfl rfl rfl
  have asleep := (held.append (run_window (t := 1) rfl rfl rfl)).snoc (.block (t := 1) rfl)
  have guarded : Run (Guarded ReleasesHeld LockStep) ({} : Lock (Fin 2)) _ _ := asleep.guarded (by simp [ReleasesHeld])
  have call : Run (Guarded ReleasesHeld LockStep) ({} : Lock (Fin 2)) _ _ :=
    .snoc guarded ⟨fun _ => rfl, .callRelease (t := 0) rfl⟩
  have run : Run (Guarded ReleasesHeld LockStep) ({} : Lock (Fin 2)) _ _ :=
    .snoc (.snoc (.snoc call ⟨by simp [ReleasesHeld], .spin (t := 0) rfl rfl⟩)
      ⟨by simp [ReleasesHeld], .clear (t := 0) rfl⟩)
      ⟨by simp [ReleasesHeld], .foundWaiter (t := 0) rfl (by decide)⟩
  exact ⟨_, _, run, rfl, rfl, lock_mutual_exclusion run⟩

end MicroOs.Sync
