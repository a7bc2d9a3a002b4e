import MicroOs.Library.Run
import MicroOs.Library.Tally
import MicroOs.Library.Threads

/-! # Semaphores

Any number of threads call `semaphore_up` and `semaphore_down` in their atomic implementation, in any order of their
steps. Every thread that waits is accounted for: by the value while it is negative, by an `up` that has not got to its
wake-up, or by an `up` that looked for a waiting thread and found none.
-/

namespace MicroOs.Sync

open Function

variable {ι : Type*} [DecidableEq ι]

/-- Where a thread is in `semaphore_up_atomic`: it adds, tests the value, looks at the queue. -/
inductive UpPoint
  | spin | add | test | look | wake | leave
deriving DecidableEq

/-- Where a thread is in `semaphore_down_atomic`. -/
inductive DownPoint
  | spin | sub | test | drop | block | asleep | respin | leave
deriving DecidableEq

inductive SemPc
  | outside
  | up (point : UpPoint)
  | down (point : DownPoint)
deriving DecidableEq

/-- Where a thread goes on when it has set the flag of `inner_lock`. -/
def SemPc.afterSpin : SemPc → Option SemPc
  | .up .spin => some (.up .add)
  | .down .spin => some (.down .sub)
  | .down .respin => some (.down .leave)
  | _ => none

/-- `semaphore_t` as `SEMAPHORE_INIT` sets it up, with its threads. Where the value leaves the range of an `int`,
which is undefined in C, the run goes on. -/
structure Semaphore (ι : Type*) where
  value : ℤ
  inner : Bool := false
  queue : List ι := []
  pc : ι → SemPc := fun _ => .outside

inductive SemAction (ι : Type*)
  | callUp
  | callDown
  | spin
  | yield
  | add
  | foundPositive
  | foundNotPositive
  | foundEmpty
  | foundWaiter
  | unblock (woken : ι)
  | returnUp
  | sub
  | foundUnit
  | foundNone
  | drop
  | block
  | returnDown
deriving DecidableEq

def Semaphore.goto (s : Semaphore ι) (t : ι) (pc : SemPc) : Semaphore ι := { s with pc := update s.pc t pc }

inductive SemStep (s : Semaphore ι) : ι × SemAction ι → Semaphore ι → Prop
  | callUp {t : ι} (point : s.pc t = .outside) : SemStep s (t, .callUp) (s.goto t (.up .spin))
  | callDown {t : ι} (point : s.pc t = .outside) : SemStep s (t, .callDown) (s.goto t (.down .spin))
  | spin {t : ι} {pc : SemPc} (next : (s.pc t).afterSpin = some pc) (clear : s.inner = false) :
      SemStep s (t, .spin) ({ s with inner := true }.goto t pc)
  | yield {t : ι} {pc : SemPc} (next : (s.pc t).afterSpin = some pc) (set : s.inner = true) : SemStep s (t, .yield) s
  | add {t : ι} (point : s.pc t = .up .add) : SemStep s (t, .add) ({ s with value := s.value + 1 }.goto t (.up .test))
  | foundPositive {t : ι} (point : s.pc t = .up .test) (positive : 0 < s.value) :
      SemStep s (t, .foundPositive) (s.goto t (.up .leave))
  | foundNotPositive {t : ι} (point : s.pc t = .up .test) (small : s.value ≤ 0) :
      SemStep s (t, .foundNotPositive) (s.goto t (.up .look))
  | foundEmpty {t : ι} (point : s.pc t = .up .look) (empty : s.queue = []) :
      SemStep s (t, .foundEmpty) (s.goto t (.up .leave))
  | foundWaiter {t : ι} (point : s.pc t = .up .look) (waiter : s.queue ≠ []) :
      SemStep s (t, .foundWaiter) (s.goto t (.up .wake))
  | unblock {t first : ι} {rest : List ι} (point : s.pc t = .up .wake) (queue : s.queue = first :: rest) :
      SemStep s (t, .unblock first) (({ s with queue := rest }.goto first (.down .respin)).goto t (.up .leave))
  | returnUp {t : ι} (point : s.pc t = .up .leave) :
      SemStep s (t, .returnUp) ({ s with inner := false }.goto t .outside)
  | sub {t : ι} (point : s.pc t = .down .sub) :
      SemStep s (t, .sub) ({ s with value := s.value - 1 }.goto t (.down .test))
  | foundUnit {t : ι} (point : s.pc t = .down .test) (enough : 0 ≤ s.value) :
      SemStep s (t, .foundUnit) (s.goto t (.down .leave))
  | foundNone {t : ι} (point : s.pc t = .down .test) (negative : s.value < 0) :
      SemStep s (t, .foundNone) (s.goto t (.down .drop))
  | drop {t : ι} (point : s.pc t = .down .drop) : SemStep s (t, .drop) ({ s with inner := false }.goto t (.down .block))
  | block {t : ι} (point : s.pc t = .down .block) :
      SemStep s (t, .block) ({ s with queue := s.queue ++ [t] }.goto t (.down .asleep))
  | returnDown {t : ι} (point : s.pc t = .down .leave) :
      SemStep s (t, .returnDown) ({ s with inner := false }.goto t .outside)

@[simp] def SemPc.inside : SemPc → Bool
  | .up .add | .up .test | .up .look | .up .wake | .up .leave => true
  | .down .sub | .down .test | .down .drop | .down .leave => true
  | _ => false

@[simp] def SemPc.asleep : SemPc → Bool
  | .down .asleep => true
  | _ => false

variable {s s' : Semaphore ι} {event : ι × SemAction ι} {pc pc' : SemPc} {t : ι}

theorem SemPc.afterSpin_cases (next : pc.afterSpin = some pc') :
    pc = .up .spin ∧ pc' = .up .add ∨ pc = .down .spin ∧ pc' = .down .sub ∨
      pc = .down .respin ∧ pc' = .down .leave := by
  unfold afterSpin at next
  split at next
  · cases next
    exact .inl ⟨rfl, rfl⟩
  · cases next
    exact .inr (.inl ⟨rfl, rfl⟩)
  · cases next
    exact .inr (.inr ⟨rfl, rfl⟩)
  · cases next

structure SemQueued (s : Semaphore ι) : Prop where
  exclusive : Exclusive (SemPc.inside ·) s.inner s.pc
  parked : Parked (SemPc.asleep ·) s.queue s.pc

omit [DecidableEq ι] in
theorem SemQueued.first {first : ι} {rest : List ι} (queued : SemQueued s) (queue : s.queue = first :: rest) :
    s.pc first = .down .asleep := by
  have sleeps := (queued.parked.mem_iff first).1 (by simp [queue])
  unfold SemPc.asleep at sleeps
  split at sleeps
  · assumption
  · cases sleeps

omit [DecidableEq ι] in
theorem SemQueued.first_ne {first : ι} {rest : List ι} (queued : SemQueued s) (point : s.pc t = .up .wake)
    (queue : s.queue = first :: rest) : first ≠ t := by
  rintro rfl
  simp [queued.first queue] at point

/-- The queue lists the sleeping threads after every step. -/
theorem SemStep.queued (step : SemStep s event s') (queued : SemQueued s) : SemQueued s' := by
  obtain ⟨exclusive, parked⟩ := id queued
  cases step with
  | callUp point | callDown point => exact ⟨exclusive.move (by simp), parked.move (by simp [point]) (by simp)⟩
  | spin next clear =>
    refine ⟨exclusive.enter clear _ _, ?_⟩
    obtain ⟨point, rfl⟩ | ⟨point, rfl⟩ | ⟨point, rfl⟩ := SemPc.afterSpin_cases next
    all_goals exact parked.move (by simp [point]) (by simp)
  | yield => exact queued
  | unblock point queue =>
    have point' := (update_of_ne (queued.first_ne point queue).symm (.down .respin) s.pc).trans point
    rw [queue] at parked
    constructor
    · exact (exclusive.move (by simp)).move (by simp [point'])
    · exact (parked.unblock (by simp)).move (by simp [point']) (by simp)
  | returnUp point | drop point | returnDown point =>
    exact ⟨exclusive.leave (by simp [point]) (by simp) _, parked.move (by simp [point]) (by simp)⟩
  | block point => exact ⟨exclusive.move (by simp), parked.block (by simp [point]) (by simp)⟩
  | add point | foundPositive point | foundNotPositive point | foundEmpty point | foundWaiter point | sub point
  | foundUnit point | foundNone point =>
    exact ⟨exclusive.move (by simp [point]), parked.move (by simp [point]) (by simp)⟩

/-- A waiting thread counts for one; an `up` that is going to wake one counts against it. -/
@[simp] def SemPc.waiting (value : ℤ) : SemPc → ℤ
  | .down .test => if value < 0 then 1 else 0
  | .down .drop | .down .block | .down .asleep => 1
  | .up .test => if value ≤ 0 then -1 else 0
  | .up .look | .up .wake => -1
  | _ => 0

/-- The thread has subtracted from the value and not returned. -/
@[simp] def SemPc.taken : SemPc → ℤ
  | .down .test | .down .drop | .down .block | .down .asleep | .down .respin | .down .leave => 1
  | _ => 0

/-- The number of `up` calls that found no thread to wake although the value was not positive. -/
def misses (events : List (ι × SemAction ι)) : ℕ := events.countP (·.2 = .foundEmpty)

/-- The number of `up` calls that have executed their increment. -/
def increments (events : List (ι × SemAction ι)) : ℕ := events.countP (·.2 = .add)

def returns (events : List (ι × SemAction ι)) : ℕ := events.countP (·.2 = .returnDown)

section

variable (events : List (ι × SemAction ι))
include events

theorem misses_snoc (event : ι × SemAction ι) :
    misses (events ++ [event]) = misses events + if event.2 = .foundEmpty then 1 else 0 := by
  simp [misses, List.countP_singleton]

theorem increments_snoc (event : ι × SemAction ι) :
    increments (events ++ [event]) = increments events + if event.2 = .add then 1 else 0 := by
  simp [increments, List.countP_singleton]

theorem returns_snoc (event : ι × SemAction ι) :
    returns (events ++ [event]) = returns events + if event.2 = .returnDown then 1 else 0 := by
  simp [returns, List.countP_singleton]

end

/-- Only a thread with `inner_lock` looks at the value. -/
theorem SemPc.waiting_outside (outside : pc.inside = false) (value value' : ℤ) :
    pc.waiting value = pc.waiting value' := by
  cases pc with
  | outside => rfl
  | up point | down point => cases point <;> simp_all

omit [DecidableEq ι] in
theorem SemQueued.others (queued : SemQueued s) (within : (s.pc t).inside = true) (value value' : ℤ) (u : ι)
    (other : u ≠ t) : (s.pc u).waiting value = (s.pc u).waiting value' := by
  refine SemPc.waiting_outside ?_ value value'
  by_contra inside
  exact other (queued.exclusive.unique (by simpa using inside) within)

variable {seen : List (ι × SemAction ι)}

/-- The account of waiting threads: the value, the misses and the initial value. -/
theorem SemStep.waiting {n : ℤ} (step : SemStep s event s') (queued : SemQueued s)
    (before : Tally (SemPc.waiting s.value) (max 0 (-s.value) + misses seen - max 0 (-n)) s.pc) :
    Tally (SemPc.waiting s'.value) (max 0 (-s'.value) + misses (seen ++ [event]) - max 0 (-n)) s'.pc := by
  rw [misses_snoc]
  cases step with
  | callUp point | callDown point | foundWaiter point | returnUp point | drop point | block point
  | returnDown point =>
    exact (before.move fun _ _ => rfl).of_eq (by simp [point, Semaphore.goto])
  | spin next clear =>
    obtain ⟨point, rfl⟩ | ⟨point, rfl⟩ | ⟨point, rfl⟩ := SemPc.afterSpin_cases next
    all_goals exact (before.move fun _ _ => rfl).of_eq (by simp [point, Semaphore.goto])
  | yield => simpa using before
  | add point | sub point =>
    refine (before.move (queued.others (by simp [point]) _ _)).of_eq ?_
    simp only [point, Semaphore.goto, SemPc.waiting, reduceCtorEq, if_false]
    split_ifs <;> omega
  | foundPositive point side | foundNotPositive point side | foundNone point side =>
    exact (before.move fun _ _ => rfl).of_eq (by simp [point, Semaphore.goto, side])
  | foundEmpty point =>
    refine (before.move fun _ _ => rfl).of_eq ?_
    simp only [point, Semaphore.goto, SemPc.waiting, if_true]
    omega
  | unblock point queue =>
    have point' := (update_of_ne (queued.first_ne point queue).symm (.down .respin) s.pc).trans point
    refine ((before.move fun _ _ => rfl).move fun _ _ => rfl).of_eq ?_
    simp only [point', queued.first queue, Semaphore.goto, SemPc.waiting, reduceCtorEq, if_false]
    omega
  | foundUnit point enough =>
    exact (before.move fun _ _ => rfl).of_eq (by simp [point, Semaphore.goto, not_lt.2 enough])

/-- The account of units between the subtraction and the return of `down`. -/
theorem SemStep.taken {n : ℤ} (step : SemStep s event s') (queued : SemQueued s)
    (before : Tally SemPc.taken (n + increments seen - returns seen - s.value) s.pc) :
    Tally SemPc.taken (n + increments (seen ++ [event]) - returns (seen ++ [event]) - s'.value) s'.pc := by
  rw [increments_snoc, returns_snoc]
  cases step with
  | spin next clear =>
    obtain ⟨point, rfl⟩ | ⟨point, rfl⟩ | ⟨point, rfl⟩ := SemPc.afterSpin_cases next
    all_goals exact (before.move fun _ _ => rfl).of_eq (by simp [point, Semaphore.goto])
  | yield => simpa using before
  | unblock point queue =>
    have point' := (update_of_ne (queued.first_ne point queue).symm (.down .respin) s.pc).trans point
    refine ((before.move fun _ _ => rfl).move fun _ _ => rfl).of_eq ?_
    simp [point', queued.first queue, Semaphore.goto]
  | add point | sub point | returnDown point =>
    refine (before.move fun _ _ => rfl).of_eq ?_
    simp only [point, Semaphore.goto, SemPc.taken, reduceCtorEq, if_false, if_true]
    omega
  | callUp point | callDown point | foundPositive point | foundNotPositive point | foundEmpty point | foundWaiter point
  | returnUp point | foundUnit point | foundNone point | drop point | block point =>
    exact (before.move fun _ _ => rfl).of_eq (by simp [point, Semaphore.goto])

/-- The two accounts after the events of a run from the value `n`. -/
structure SemInv (n : ℤ) (seen : List (ι × SemAction ι)) (s : Semaphore ι) : Prop extends SemQueued s where
  waiting : Tally (SemPc.waiting s.value) (max 0 (-s.value) + misses seen - max 0 (-n)) s.pc
  taken : Tally SemPc.taken (n + increments seen - returns seen - s.value) s.pc

theorem SemInv.init (n : ℤ) : SemInv n [] ({ value := n } : Semaphore ι) where
  exclusive := ⟨nofun, nofun⟩
  parked := ⟨List.nodup_nil, by simp⟩
  waiting := (Tally.zero fun _ => rfl).of_eq (by simp [misses])
  taken := (Tally.zero fun _ => rfl).of_eq (by simp [increments, returns])

theorem SemInv.run {n : ℤ} {events : List (ι × SemAction ι)}
    (run : Run SemStep ({ value := n } : Semaphore ι) events s) : SemInv n events s :=
  run.invariant_labels (SemInv n)
    (fun inv step =>
      ⟨step.queued inv.toSemQueued, step.waiting inv.toSemQueued inv.waiting, step.taken inv.toSemQueued inv.taken⟩)
    (.init n)

/-- No operation is in progress, except for sleeping threads. -/
def Quiet (s : Semaphore ι) : Prop := ∀ t, s.pc t = .outside ∨ s.pc t = .down .asleep

/-- An account in which a sleeping thread counts for one, and a thread that has not called for nothing. -/
theorem SemQueued.length {weight : SemPc → ℤ} (queued : SemQueued s) (quiet : Quiet s)
    (one : weight (.down .asleep) = 1) (none : weight .outside = 0) : Tally weight s.queue.length s.pc := by
  refine Tally.length queued.parked.nodup ?_ ?_
  · intro t listed
    have sleeps := (queued.parked.mem_iff t).1 listed
    rcases quiet t with outside | asleep
    · simp [outside] at sleeps
    · rw [asleep, one]
  · intro t notQueued
    rcases quiet t with outside | asleep
    · rw [outside, none]
    · exact absurd ((queued.parked.mem_iff t).2 (by simp [asleep])) notQueued

/-- What the sleeping threads are accounted for by. -/
theorem SemInv.length_queue {n : ℤ} (inv : SemInv n seen s) (quiet : Quiet s) :
    (s.queue.length : ℤ) = max 0 (-s.value) + misses seen - max 0 (-n) :=
  (inv.length quiet rfl rfl).unique inv.waiting

/-- When no operation is in progress, the value tells the number of sleeping threads exactly if the `up` calls that
found no thread to wake are those that the initial value asks for: none, unless it was negative. -/
theorem semaphore_accounting_iff {n : ℤ} {events : List (ι × SemAction ι)}
    (run : Run SemStep ({ value := n } : Semaphore ι) events s) (quiet : Quiet s) :
    (s.queue.length : ℤ) = max 0 (-s.value) ↔ (misses events : ℤ) = max 0 (-n) := by
  have length := (SemInv.run run).length_queue quiet
  omega

/-- The first thread takes a unit that is not there. Before it gets to `block` the second returns a unit and finds no
thread to wake. The first then sleeps although the value is 0. -/
theorem semaphore_sleeper_missed : ∃ events s, Run SemStep ({ value := 0 } : Semaphore (Fin 2)) events s ∧
    Quiet s ∧ s.value = 0 ∧ s.queue = [0] := by
  have window : Run SemStep ({ value := 0 } : Semaphore (Fin 2)) _ _ :=
    .snoc (.snoc (.snoc (.snoc (.snoc (.nil _) (.callDown (t := 0) rfl)) (.spin (t := 0) rfl rfl)) (.sub (t := 0) rfl))
      (.foundNone (t := 0) rfl (by decide))) (.drop (t := 0) rfl)
  have up : Run SemStep ({ value := 0 } : Semaphore (Fin 2)) _ _ :=
    .snoc (.snoc (.snoc (.snoc (.snoc (.snoc window (.callUp (t := 1) rfl)) (.spin (t := 1) rfl rfl))
      (.add (t := 1) rfl)) (.foundNotPositive (t := 1) rfl (by decide))) (.foundEmpty (t := 1) rfl rfl))
      (.returnUp (t := 1) rfl)
  exact ⟨_, _, .snoc up (.block (t := 0) rfl), by unfold Quiet; decide, rfl, rfl⟩

/-- A thread that takes a unit from an empty semaphore sleeps, and is accounted for. -/
theorem semaphore_accounting_one_sleeper : ∃ events s, Run SemStep ({ value := 0 } : Semaphore (Fin 2)) events s ∧
    s.value = -1 ∧ s.queue = [0] ∧ ((s.queue.length : ℤ) = max 0 (-s.value) ↔ (misses events : ℤ) = max 0 (-0)) := by
  have run : Run SemStep ({ value := 0 } : Semaphore (Fin 2)) _ _ :=
    .snoc (.snoc (.snoc (.snoc (.snoc (.snoc (.nil _) (.callDown (t := 0) rfl)) (.spin (t := 0) rfl rfl))
      (.sub (t := 0) rfl)) (.foundNone (t := 0) rfl (by decide))) (.drop (t := 0) rfl)) (.block (t := 0) rfl)
  exact ⟨_, _, run, rfl, rfl, semaphore_accounting_iff run (by unfold Quiet; decide)⟩

theorem SemPc.waiting_le_taken (value : ℤ) (pc : SemPc) : pc.waiting value ≤ pc.taken := by
  cases pc with
  | outside => exact le_rfl
  | up point | down point =>
    cases point with
    | test =>
      simp only [SemPc.waiting, SemPc.taken]
      split_ifs <;> omega
    | _ => simp

/-- No more `down` calls return than there are units, initial ones and those of the `up` calls. -/
theorem semaphore_bound {n : ℤ} (initial : 0 ≤ n) {events : List (ι × SemAction ι)}
    (run : Run SemStep ({ value := n } : Semaphore ι) events s) : (returns events : ℤ) ≤ n + increments events := by
  have inv := SemInv.run run
  have fewer := inv.waiting.le inv.taken fun t => SemPc.waiting_le_taken s.value (s.pc t)
  omega

/-- The one unit of a fork is taken once. -/
theorem semaphore_bound_one_unit : ∃ events s, Run SemStep ({ value := 1 } : Semaphore (Fin 2)) events s ∧
    returns events = 1 ∧ (returns events : ℤ) ≤ 1 + increments events := by
  have run : Run SemStep ({ value := 1 } : Semaphore (Fin 2)) _ _ :=
    .snoc (.snoc (.snoc (.snoc (.snoc (.nil _) (.callDown (t := 0) rfl)) (.spin (t := 0) rfl rfl)) (.sub (t := 0) rfl))
      (.foundUnit (t := 0) rfl (by decide))) (.returnDown (t := 0) rfl)
  exact ⟨_, _, run, by decide, semaphore_bound (by decide) run⟩

end MicroOs.Sync
