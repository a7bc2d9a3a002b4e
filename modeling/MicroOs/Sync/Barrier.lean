import MicroOs.Library.Run
import MicroOs.Library.Tally
import MicroOs.Library.Threads

/-! # The barrier

The barrier of `n` threads that `BARRIER_INIT` sets up, and exactly `n` threads that call `barrier_wait` again and
again. The mutex is taken and given back in one step; `condition_wait` gives it back and sleeps in one step. A thread
that sleeps may be woken at any time, by the broadcast or without a reason.

The rounds of the barrier are counted up and down by turns. A thread takes part in the round that is open, or it is
still on its way out of the one before.
-/

namespace MicroOs.Sync

open Function

variable {v : Visitor} {rounds : ℕ} {up : Bool}

/-- Where a thread is in `barrier_wait`, and its branch: `up` tells that `count_up` was set. -/
inductive BarrierPc
  | outside
  | enter
  | branch
  | count (up : Bool)
  | test (up : Bool)
  | asleep (up : Bool)
  | woken (up : Bool)
  | check (up : Bool)
  | broadcast (up : Bool)
  | reset (up : Bool)
  | flip (up : Bool)
  | leave
deriving DecidableEq

/-- A thread, with the number of its calls of `barrier_wait` and of those that returned. -/
structure Visitor where
  pc : BarrierPc := .outside
  entered : ℕ := 0
  returned : ℕ := 0

/-- `barrier_t` as `BARRIER_INIT(n)` sets it up, with its threads. `rounds` counts the assignments to `count_up`. -/
structure Barrier (n : ℕ) where
  mutex : Bool := false
  count1 : ℤ := 0
  count2 : ℤ := 0
  countUp : Bool := true
  rounds : ℕ := 0
  visitor : Fin n → Visitor := fun _ => {}

variable {n : ℕ}

def Visitor.call (v : Visitor) : Visitor := { v with pc := .enter, entered := v.entered + 1 }

def Visitor.goto (v : Visitor) (pc : BarrierPc) : Visitor := { v with pc := pc }

def Visitor.leave (v : Visitor) : Visitor := { v with pc := .outside, returned := v.returned + 1 }

def Visitor.wake (v : Visitor) : Visitor :=
  match v.pc with
  | .asleep up => v.goto (.woken up)
  | _ => v

def Barrier.set (s : Barrier n) (t : Fin n) (v : Visitor) : Barrier n :=
  { s with visitor := update s.visitor t v }

def Barrier.goto (s : Barrier n) (t : Fin n) (pc : BarrierPc) : Barrier n := s.set t ((s.visitor t).goto pc)

def Barrier.Pending (s : Barrier n) (up : Bool) : Prop := if up then s.count1 < n else 0 < s.count2

def Barrier.counted (s : Barrier n) (up : Bool) : Barrier n :=
  if up then { s with count1 := s.count1 + 1 } else { s with count2 := s.count2 - 1 }

/-- The assignment that gets the other counter ready for the next round. -/
def Barrier.reset (s : Barrier n) (up : Bool) : Barrier n :=
  if up then { s with count2 := n } else { s with count1 := 0 }

inductive BarrierAction
  | call | acquire | branch | count | wait | wake | reacquire | arrived | notLast | last | broadcast | reset | flip
  | leave
deriving DecidableEq

inductive BarrierStep (s : Barrier n) : Fin n × BarrierAction → Barrier n → Prop
  | call {t : Fin n} (point : (s.visitor t).pc = .outside) : BarrierStep s (t, .call) (s.set t (s.visitor t).call)
  | acquire {t : Fin n} (point : (s.visitor t).pc = .enter) (free : s.mutex = false) :
      BarrierStep s (t, .acquire) ({ s with mutex := true }.goto t .branch)
  | branch {t : Fin n} (point : (s.visitor t).pc = .branch) : BarrierStep s (t, .branch) (s.goto t (.count s.countUp))
  | count {t : Fin n} {up : Bool} (point : (s.visitor t).pc = .count up) :
      BarrierStep s (t, .count) ((s.counted up).goto t (.test up))
  | wait {t : Fin n} {up : Bool} (point : (s.visitor t).pc = .test up) (pending : s.Pending up) :
      BarrierStep s (t, .wait) ({ s with mutex := false }.goto t (.asleep up))
  | wake {t : Fin n} {up : Bool} (point : (s.visitor t).pc = .asleep up) :
      BarrierStep s (t, .wake) (s.goto t (.woken up))
  | reacquire {t : Fin n} {up : Bool} (point : (s.visitor t).pc = .woken up) (free : s.mutex = false) :
      BarrierStep s (t, .reacquire) ({ s with mutex := true }.goto t (.test up))
  | arrived {t : Fin n} {up : Bool} (point : (s.visitor t).pc = .test up) (done : ¬ s.Pending up) :
      BarrierStep s (t, .arrived) (s.goto t (.check up))
  | notLast {t : Fin n} {up : Bool} (point : (s.visitor t).pc = .check up) (turned : s.countUp ≠ up) :
      BarrierStep s (t, .notLast) (s.goto t .leave)
  | last {t : Fin n} {up : Bool} (point : (s.visitor t).pc = .check up) (same : s.countUp = up) :
      BarrierStep s (t, .last) (s.goto t (.broadcast up))
  | broadcast {t : Fin n} {up : Bool} (point : (s.visitor t).pc = .broadcast up) :
      BarrierStep s (t, .broadcast) ({ s with visitor := fun u => (s.visitor u).wake }.goto t (.reset up))
  | reset {t : Fin n} {up : Bool} (point : (s.visitor t).pc = .reset up) :
      BarrierStep s (t, .reset) ((s.reset up).goto t (.flip up))
  | flip {t : Fin n} {up : Bool} (point : (s.visitor t).pc = .flip up) :
      BarrierStep s (t, .flip) ({ s with countUp := !up, rounds := s.rounds + 1 }.goto t .leave)
  | leave {t : Fin n} (point : (s.visitor t).pc = .leave) :
      BarrierStep s (t, .leave) ({ s with mutex := false }.set t (s.visitor t).leave)

@[simp] def BarrierPc.inside : BarrierPc → Bool
  | .outside | .enter | .asleep _ | .woken _ => false
  | _ => true

/-- The branch that the thread has taken and not left. -/
@[simp] def BarrierPc.direction : BarrierPc → Option Bool
  | .count up | .test up | .asleep up | .woken up | .check up | .broadcast up | .reset up | .flip up => some up
  | _ => none

/-- The round in which a thread takes part, when `rounds` are over. -/
@[simp] def Visitor.Placed (rounds : ℕ) (v : Visitor) : Prop :=
  match v.pc with
  | .outside => v.entered = rounds ∧ v.returned = rounds
  | .enter | .branch => v.entered = rounds + 1 ∧ v.returned = rounds
  | .count up | .broadcast up | .reset up | .flip up =>
    v.entered = rounds + 1 ∧ v.returned = rounds ∧ up = decide (Odd v.entered)
  | .test up | .asleep up | .woken up | .check up =>
    (v.entered = rounds ∨ v.entered = rounds + 1) ∧ v.entered = v.returned + 1 ∧ up = decide (Odd v.entered)
  | .leave => v.entered = rounds ∧ rounds = v.returned + 1

/-- Between the increment or decrement and the assignment to `count_up`. -/
@[simp] def BarrierPc.counted : BarrierPc → Bool
  | .test _ | .asleep _ | .woken _ | .check _ | .broadcast _ | .reset _ | .flip _ => true
  | _ => false

/-- Between the end of the loop and the assignment to `count_up`. -/
@[simp] def BarrierPc.last : BarrierPc → Bool
  | .check _ | .broadcast _ | .reset _ | .flip _ => true
  | _ => false

/-- The thread has been counted in the round that is open. -/
def Visitor.present (rounds : ℕ) (v : Visitor) : ℤ := if v.pc.counted = true ∧ v.entered = rounds + 1 then 1 else 0

/-- The thread has found that all have arrived in the round that is open. -/
def Visitor.IsLast (rounds : ℕ) (v : Visitor) : Prop := v.pc.last = true ∧ v.entered = rounds + 1

/-- How many threads the counter of the open round has counted. -/
def Barrier.arrivals (s : Barrier n) : ℤ := if Even s.rounds then s.count1 else n - s.count2

structure BarrierInv (s : Barrier n) : Prop where
  exclusive : Exclusive (·.pc.inside) s.mutex s.visitor
  countUp : s.countUp = decide (Even s.rounds)
  placed : Everywhere (Visitor.Placed s.rounds) s.visitor
  arrivals : Tally (Visitor.present s.rounds) s.arrivals s.visitor
  last : Ensures (Visitor.IsLast s.rounds) (s.arrivals = n) s.visitor
  resetUp : Ensures (·.pc = .flip true) (s.count2 = n) s.visitor
  resetDown : Ensures (·.pc = .flip false) (s.count1 = 0) s.visitor

variable {s s' : Barrier n} {t : Fin n} {event : Fin n × BarrierAction}

theorem BarrierInv.init : BarrierInv ({} : Barrier n) where
  exclusive := ⟨nofun, nofun⟩
  countUp := rfl
  placed _ := ⟨rfl, rfl⟩
  arrivals := Tally.zero fun _ => rfl
  last _ there := by cases there.1
  resetUp := nofun
  resetDown := nofun

theorem BarrierInv.set {mutex : Bool} (inv : BarrierInv s)
    (exclusive : Exclusive (·.pc.inside) mutex (update s.visitor t v)) (placed : v.Placed s.rounds)
    (present : v.present s.rounds = (s.visitor t).present s.rounds) (last : v.IsLast s.rounds → s.arrivals = n)
    (noFlip : ∀ up, v.pc ≠ .flip up) : BarrierInv ({ s with mutex := mutex }.set t v) where
  exclusive := exclusive
  countUp := inv.countUp
  placed := inv.placed.move placed
  arrivals := (inv.arrivals.move fun _ _ => rfl).of_eq (by rw [present]; exact add_sub_cancel_right ..)
  last := inv.last.move last
  resetUp := inv.resetUp.move fun flip => absurd flip (noFlip true)
  resetDown := inv.resetDown.move fun flip => absurd flip (noFlip false)

/-- What does not tell a sleeping thread from a woken one does not notice a broadcast. -/
theorem Visitor.wake_same {α : Type*} (observe : Visitor → α)
    (same : ∀ v up, v.pc = .asleep up → observe (v.goto (.woken up)) = observe v) (v : Visitor) :
    observe v.wake = observe v := by
  unfold wake
  split
  · exact same v _ (by assumption)
  · rfl

theorem Visitor.present_goto {pc : BarrierPc} (same : pc.counted = v.pc.counted) (rounds : ℕ) :
    (v.goto pc).present rounds = v.present rounds := by
  unfold present
  rw [← same]
  rfl

theorem BarrierInv.goto {mutex : Bool} {pc : BarrierPc} (inv : BarrierInv s)
    (exclusive : Exclusive (·.pc.inside) mutex (update s.visitor t ((s.visitor t).goto pc)))
    (placed : ((s.visitor t).goto pc).Placed s.rounds) (counted : pc.counted = (s.visitor t).pc.counted)
    (goesOn : pc.last = false) : BarrierInv ({ s with mutex := mutex }.goto t pc) := by
  refine inv.set exclusive placed (Visitor.present_goto counted _) ?_ ?_
  · rintro ⟨last, -⟩
    cases goesOn.symm.trans last
  · rintro up rfl
    cases goesOn

theorem BarrierInv.wake (inv : BarrierInv s) : BarrierInv { s with visitor := fun u => (s.visitor u).wake } where
  exclusive := by
    refine inv.exclusive.mono fun t within => ?_
    rwa [Visitor.wake_same (·.pc.inside) (by simp +contextual [Visitor.goto])] at within
  countUp := inv.countUp
  placed t := by
    rw [Visitor.wake_same (Visitor.Placed s.rounds) (by simp +contextual [Visitor.goto])]
    exact inv.placed t
  arrivals := by
    refine inv.arrivals.congr fun t => Visitor.wake_same (Visitor.present s.rounds) ?_ (s.visitor t)
    intro v up asleep
    exact Visitor.present_goto (by simp [asleep]) s.rounds
  last t there := by
    have same := Visitor.wake_same (Visitor.IsLast s.rounds)
      (by simp +contextual [Visitor.goto, Visitor.IsLast]) (s.visitor t)
    exact inv.last t (same.mp there)
  resetUp t there := by
    have same := Visitor.wake_same (·.pc = .flip true) (by simp +contextual [Visitor.goto]) (s.visitor t)
    exact inv.resetUp t (same.mp there)
  resetDown t there := by
    have same := Visitor.wake_same (·.pc = .flip false) (by simp +contextual [Visitor.goto]) (s.visitor t)
    exact inv.resetDown t (same.mp there)

theorem Visitor.present_le (rounds : ℕ) (v : Visitor) : v.present rounds ≤ 1 := by
  unfold present
  split_ifs
  · exact le_rfl
  · exact zero_le_one

theorem BarrierInv.arrivals_le (inv : BarrierInv s) : s.arrivals ≤ n := by
  simpa using inv.arrivals.le_card fun t => (s.visitor t).present_le s.rounds

/-- The branch that a thread takes is that of the round in which it takes part. -/
theorem odd_iff (rounds : ℕ) : decide (Odd (rounds + 1)) = decide (Even rounds) := by
  simp [Nat.odd_add_one]

theorem BarrierInv.arrived (inv : BarrierInv s) (done : ¬ s.Pending (decide (Even s.rounds))) : s.arrivals = n := by
  have bound := inv.arrivals_le
  unfold Barrier.arrivals Barrier.Pending at *
  by_cases even : Even s.rounds
  · simp only [even, decide_true, if_true] at *
    omega
  · simp only [even, decide_false, if_false, Bool.false_eq_true] at *
    omega

theorem Visitor.IsLast.inside (there : v.IsLast rounds) : v.pc.inside = true := by
  obtain ⟨last, _⟩ := there
  unfold BarrierPc.last at last
  split at last
  all_goals simp_all

theorem Visitor.flip_inside (up : Bool) (v : Visitor) (there : v.pc = .flip up) : v.pc.inside = true := by
  simp [there]

section

variable (inv : BarrierInv s)
include inv

/-- The thread with the mutex assigns to the counters. -/
theorem BarrierInv.assign {count1 count2 : ℤ} {v : Visitor}
    (within : (s.visitor t).pc.inside = true) (placed : v.Placed s.rounds)
    (arrivals : { s with count1 := count1, count2 := count2 }.arrivals =
      s.arrivals + v.present s.rounds - (s.visitor t).present s.rounds)
    (last : v.IsLast s.rounds → { s with count1 := count1, count2 := count2 }.arrivals = (n : ℤ))
    (resetUp : v.pc = .flip true → count2 = n) (resetDown : v.pc = .flip false → count1 = 0) :
    BarrierInv ({ s with count1 := count1, count2 := count2 }.set t v) where
  exclusive := inv.exclusive.move fun _ => within
  countUp := inv.countUp
  placed := inv.placed.move placed
  arrivals := (inv.arrivals.move fun _ _ => rfl).of_eq arrivals.symm
  last := inv.exclusive.ensures within (fun _ there => there.inside) last
  resetUp := inv.exclusive.ensures within (Visitor.flip_inside true) resetUp
  resetDown := inv.exclusive.ensures within (Visitor.flip_inside false) resetDown

theorem BarrierInv.count (point : (s.visitor t).pc = .count up) : BarrierInv ((s.counted up).goto t (.test up)) := by
  have placed := inv.placed t
  simp only [Visitor.Placed, point] at placed
  obtain ⟨entered, returned, taken⟩ := placed
  have parity := taken.trans (by rw [entered, odd_iff] : _ = decide (Even s.rounds))
  have absent : (s.visitor t).present s.rounds = 0 := by simp [Visitor.present, point]
  have present : ((s.visitor t).goto (.test up)).present s.rounds = 1 := by
    simp [Visitor.present, Visitor.goto, entered]
  have placed : ((s.visitor t).goto (.test up)).Placed s.rounds :=
    ⟨.inr entered, entered.trans (by rw [← returned]; rfl), taken⟩
  cases up with
  | true =>
    have even : Even s.rounds := by simpa using parity
    refine inv.assign (by simp [point]) placed ?_ (fun last => absurd last.1 (by simp [Visitor.goto])) nofun nofun
    refine Eq.trans ?_ (congrArg₂ (s.arrivals + · - ·) present absent).symm
    simp [Barrier.arrivals, even]
  | false =>
    have odd : ¬ Even s.rounds := by simpa using parity
    refine inv.assign (by simp [point]) placed ?_ (fun last => absurd last.1 (by simp [Visitor.goto])) nofun nofun
    refine Eq.trans ?_ (congrArg₂ (s.arrivals + · - ·) present absent).symm
    simp only [Barrier.arrivals, odd, if_false]
    omega

theorem BarrierInv.reset (point : (s.visitor t).pc = .reset up) : BarrierInv ((s.reset up).goto t (.flip up)) := by
  have placed := inv.placed t
  simp only [Visitor.Placed, point] at placed
  have parity := placed.2.2.trans (by rw [placed.1, odd_iff] : _ = decide (Even s.rounds))
  have present : ((s.visitor t).goto (.flip up)).present s.rounds = (s.visitor t).present s.rounds :=
    Visitor.present_goto (by simp [point]) _
  have full := inv.last t ⟨by simp [point], placed.1⟩
  cases up with
  | true =>
    have even : Even s.rounds := by simpa using parity
    have same : { s with count2 := n }.arrivals = s.arrivals := by simp [Barrier.arrivals, even]
    refine inv.assign (by simp [point]) placed ?_ (fun _ => same.trans full) (fun _ => rfl) nofun
    exact same.trans (by rw [← present]; exact (add_sub_cancel_right ..).symm)
  | false =>
    have odd : ¬ Even s.rounds := by simpa using parity
    have same : { s with count1 := 0 }.arrivals = s.arrivals := by simp [Barrier.arrivals, odd]
    refine inv.assign (by simp [point]) placed ?_ (fun _ => same.trans full) nofun (fun _ => rfl)
    exact same.trans (by rw [← present]; exact (add_sub_cancel_right ..).symm)

theorem BarrierInv.all_present (full : s.arrivals = n) (u : Fin n) :
    (s.visitor u).pc.counted = true ∧ (s.visitor u).entered = s.rounds + 1 := by
  have arrivals := inv.arrivals.of_eq (full.trans (by simp : (n : ℤ) = Fintype.card (Fin n)))
  have present := arrivals.all_one (fun t => (s.visitor t).present_le s.rounds) u
  unfold Visitor.present at present
  by_contra away
  rw [if_neg away] at present
  cases present

end

/-- A thread that sleeps when its round is over is on its way out. -/
theorem Visitor.Placed.next (placed : v.Placed rounds) (counted : v.pc.counted = true)
    (outside : v.pc.inside = false) (entered : v.entered = rounds + 1) : v.Placed (rounds + 1) := by
  unfold Visitor.Placed at *
  cases point : v.pc with
  | asleep up | woken up =>
    simp only [point] at placed
    exact ⟨.inl entered, placed.2⟩
  | _ => simp [point] at counted outside

/-- The round is over. -/
theorem BarrierInv.flip (inv : BarrierInv s) (point : (s.visitor t).pc = .flip up) :
    BarrierInv ({ s with countUp := !up, rounds := s.rounds + 1 }.goto t .leave) := by
  have placed := inv.placed t
  simp only [Visitor.Placed, point] at placed
  have parity := placed.2.2.trans (by rw [placed.1, odd_iff] : _ = decide (Even s.rounds))
  have within : (s.visitor t).pc.inside = true := by simp [point]
  have all := inv.all_present (inv.last t ⟨by simp [point], placed.1⟩)
  have entered : Everywhere (·.entered = s.rounds + 1) (update s.visitor t ((s.visitor t).goto .leave)) :=
    Everywhere.move (fun u => (all u).2) placed.1
  have fresh : { s with countUp := !up, rounds := s.rounds + 1 }.arrivals = 0 := by
    cases up with
    | true =>
      have even : Even s.rounds := by simpa using parity
      simp [Barrier.arrivals, even, inv.resetUp t point]
    | false =>
      have odd : ¬ Even s.rounds := by simpa using parity
      simp [Barrier.arrivals, Nat.even_add_one, odd, inv.resetDown t point]
  constructor
  · exact inv.exclusive.move fun _ => within
  · change (!up) = decide (Even (s.rounds + 1))
    rw [parity]
    by_cases even : Even s.rounds <;> simp [even, Nat.even_add_one]
  · intro u
    by_cases same : u = t
    · subst same
      simp [Barrier.goto, Barrier.set, Visitor.goto, placed.1, placed.2.1]
    · have outside : (s.visitor u).pc.inside = false := by
        by_contra inside
        exact same (inv.exclusive.unique (by simpa using inside) within)
      simpa [Barrier.goto, Barrier.set, update_of_ne same] using
        (inv.placed u).next (all u).1 outside (all u).2
  · refine (Tally.zero ?_).of_eq fresh.symm
    intro u
    refine if_neg fun present => ?_
    exact absurd ((entered u).symm.trans present.2) (by simp [Barrier.goto, Barrier.set])
  · intro u last
    exact absurd ((entered u).symm.trans last.2) (by simp [Barrier.goto, Barrier.set])
  · exact inv.exclusive.ensures within (Visitor.flip_inside true) nofun
  · exact inv.exclusive.ensures within (Visitor.flip_inside false) nofun

/-- One thread moves, within the open round or out of the one before. -/
theorem BarrierInv.step (inv : BarrierInv s) (step : BarrierStep s event s') : BarrierInv s' := by
  cases step with
  | @call t point =>
    have placed := inv.placed t
    simp only [Visitor.Placed, point] at placed
    refine inv.set (inv.exclusive.move (by simp [Visitor.call])) ?_ ?_ ?_ ?_
    · simp [Visitor.call, placed]
    · simp [Visitor.call, Visitor.present, point]
    · simp [Visitor.call, Visitor.IsLast]
    · simp [Visitor.call]
  | @acquire t point free | @reacquire t up point free =>
    have placed := inv.placed t
    simp only [Visitor.Placed, point] at placed
    exact inv.goto (inv.exclusive.enter free _ _) placed (by simp [point]) rfl
  | @branch t point =>
    have placed := inv.placed t
    simp only [Visitor.Placed, point] at placed
    refine inv.goto (inv.exclusive.move (by simp [point])) ⟨placed.1, placed.2, ?_⟩ (by simp [point]) rfl
    rw [inv.countUp, ← odd_iff, ← placed.1]
    rfl
  | count point => exact inv.count point
  | @wait t up point pending =>
    have placed := inv.placed t
    simp only [Visitor.Placed, point] at placed
    exact inv.goto (inv.exclusive.leave (by simp [point]) (by simp [Visitor.goto]) false) placed (by simp [point]) rfl
  | @wake t up point =>
    have placed := inv.placed t
    simp only [Visitor.Placed, point] at placed
    exact inv.goto (inv.exclusive.move (by simp [Visitor.goto])) placed (by simp [point]) rfl
  | @arrived t up point done =>
    have placed := inv.placed t
    simp only [Visitor.Placed, point] at placed
    refine inv.set (inv.exclusive.move (by simp [point])) ?_ ?_ ?_ ?_
    · exact placed
    · exact Visitor.present_goto (by simp [point]) _
    · intro last
      have now : (s.visitor t).entered = s.rounds + 1 := last.2
      rw [placed.2.2, now, odd_iff] at done
      exact inv.arrived done
    · simp [Visitor.goto]
  | @notLast t up point turned =>
    have placed := inv.placed t
    simp only [Visitor.Placed, point] at placed
    have before : (s.visitor t).entered = s.rounds := by
      rcases placed.1 with before | now
      · exact before
      · rw [placed.2.2, now, odd_iff] at turned
        exact absurd inv.countUp turned
    refine inv.set (inv.exclusive.move (by simp [point])) ?_ ?_ ?_ ?_
    · simp [Visitor.goto, before, ← placed.2.1]
    · simp [Visitor.goto, Visitor.present, before]
    · simp [Visitor.goto, Visitor.IsLast]
    · simp [Visitor.goto]
  | @last t up point same =>
    have placed := inv.placed t
    simp only [Visitor.Placed, point] at placed
    have now : (s.visitor t).entered = s.rounds + 1 := by
      rcases placed.1 with before | now
      · have turned := inv.countUp
        rw [same, placed.2.2, before] at turned
        simp [← Nat.not_even_iff_odd] at turned
      · exact now
    refine inv.set (inv.exclusive.move (by simp [point])) ?_ ?_ ?_ ?_
    · have returned : (s.visitor t).returned = s.rounds := by omega
      exact ⟨now, returned, placed.2.2⟩
    · exact Visitor.present_goto (by simp [point]) _
    · intro _
      exact inv.last t ⟨by simp [point], now⟩
    · simp [Visitor.goto]
  | @broadcast t up point =>
    have placed := inv.placed t
    simp only [Visitor.Placed, point] at placed
    have awake : (s.visitor t).wake = s.visitor t := by simp [Visitor.wake, point]
    refine inv.wake.set (inv.wake.exclusive.move (by simp [awake, point])) ?_ ?_ ?_ ?_
    · change ((s.visitor t).wake.goto (.reset up)).Placed s.rounds
      rw [awake]
      exact placed
    · change ((s.visitor t).wake.goto (.reset up)).present s.rounds = (s.visitor t).wake.present s.rounds
      rw [awake]
      exact Visitor.present_goto (by simp [point]) _
    · intro _
      exact inv.last t ⟨by simp [point], placed.1⟩
    · simp [Visitor.goto]
  | reset point => exact inv.reset point
  | flip point => exact inv.flip point
  | @leave t point =>
    have placed := inv.placed t
    simp only [Visitor.Placed, point] at placed
    refine inv.set (inv.exclusive.leave (by simp [point]) (by simp [Visitor.leave]) false) ?_ ?_ ?_ ?_
    · exact ⟨placed.1, placed.2.symm⟩
    · simp [Visitor.leave, Visitor.present, point]
    · simp [Visitor.leave, Visitor.IsLast]
    · simp [Visitor.leave]

theorem Visitor.Placed.rounds_le (placed : v.Placed rounds) : v.returned ≤ rounds ∧ rounds ≤ v.entered := by
  unfold Visitor.Placed at placed
  split at placed
  all_goals omega

theorem Visitor.Placed.direction (placed : v.Placed rounds)
    (direction : v.pc.direction = some up) : up = decide (Odd v.entered) := by
  unfold Visitor.Placed at placed
  unfold BarrierPc.direction at direction
  split at direction
  all_goals simp_all

/-- No thread returns from a call before every thread has entered its call with the same number. Odd calls count up,
even ones down, and every assignment turns `count_up`. -/
theorem barrier_safety {events : List (Fin n × BarrierAction)} (run : Run BarrierStep ({} : Barrier n) events s) :
    (∀ t u, (s.visitor t).returned ≤ (s.visitor u).entered) ∧
      (∀ t up, (s.visitor t).pc.direction = some up → up = decide (Odd (s.visitor t).entered)) ∧
      s.countUp = decide (Even s.rounds) := by
  have inv := run.invariant BarrierInv (fun inv step => inv.step step) .init
  refine ⟨?_, ?_, inv.countUp⟩
  · intro t u
    exact (inv.placed t).rounds_le.1.trans (inv.placed u).rounds_le.2
  · intro t up direction
    exact (inv.placed t).direction direction

/-- The second of two threads returns while the first is still asleep in the same round. -/
theorem barrier_safety_two_threads : ∃ events s, Run BarrierStep ({} : Barrier 2) events s ∧
    (s.visitor 1).returned = 1 ∧ s.countUp = false ∧ (∀ t u, (s.visitor t).returned ≤ (s.visitor u).entered) ∧
      (∀ t up, (s.visitor t).pc.direction = some up → up = decide (Odd (s.visitor t).entered)) ∧
      s.countUp = decide (Even s.rounds) := by
  have first : Run BarrierStep ({} : Barrier 2) _ _ :=
    .snoc (.snoc (.snoc (.snoc (.snoc (.nil _) (.call (t := 0) rfl)) (.acquire (t := 0) rfl rfl))
      (.branch (t := 0) rfl)) (.count (t := 0) rfl))
      (.wait (t := 0) rfl (by simp [Barrier.Pending, Barrier.counted, Barrier.goto, Barrier.set]))
  have second : Run BarrierStep ({} : Barrier 2) _ _ :=
    .snoc (.snoc (.snoc (.snoc first (.call (t := 1) rfl)) (.acquire (t := 1) rfl rfl)) (.branch (t := 1) rfl))
      (.count (t := 1) rfl)
  have run : Run BarrierStep ({} : Barrier 2) _ _ :=
    .snoc (.snoc (.snoc (.snoc (.snoc (.snoc second (.arrived (t := 1) rfl
      (by simp [Barrier.Pending, Barrier.counted, Barrier.goto, Barrier.set]))) (.last (t := 1) rfl rfl))
      (.broadcast (t := 1) rfl)) (.reset (t := 1) rfl)) (.flip (t := 1) rfl)) (.leave (t := 1) rfl)
  exact ⟨_, _, run, rfl, rfl, barrier_safety run⟩

end MicroOs.Sync
