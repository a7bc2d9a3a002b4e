import Mathlib.Data.Fin.VecNotation
import Mathlib.Data.Fintype.Pi
import MicroOs.Sync.Semaphore

/-! # The dining philosophers

The three threads of `philosophers.c` on the semaphores of the kernel: a step is a statement of a philosopher or a step
inside of a call of `semaphore_up` or `semaphore_down`. What a philosopher prints and how long it waits is left out. No
two philosophers eat at the same time. All of them can only come to sleep if an `up` has missed a waiting thread.
-/

namespace MicroOs.Sync

open Function

section Uses

variable {ι : Type*} [DecidableEq ι] {s s' : Semaphore ι} {n : ℤ} {seen : List (ι × SemAction ι)} {t u : ι}
  {action : SemAction ι}

/-- What a thread that gives back only what it has taken is doing with a semaphore. -/
inductive Use
  | idle | takes | holds | gives | gave
deriving DecidableEq

/-- What becomes of the use with an action of the thread. -/
@[simp] def Use.next : Use → SemAction ι → Option Use
  | .idle, .callDown => some .takes
  | .takes, .returnDown => some .holds
  | .holds, .callUp => some .gives
  | .gives, .add => some .gave
  | .gave, .returnUp => some .idle
  | _, .callDown | _, .returnDown | _, .callUp | _, .add | _, .returnUp => none
  | use, _ => some use

/-- The use is that of a thread at this point of the program. -/
@[simp] def Use.fits : Use → SemPc → Bool
  | .idle, .outside | .holds, .outside | .takes, .down _ | .gives, .up .spin | .gives, .up .add => true
  | .gave, .up .test | .gave, .up .look | .gave, .up .wake | .gave, .up .leave => true
  | _, _ => false

@[simp] def Use.unit : Use → ℤ
  | .holds | .gives => 1
  | _ => 0

theorem Use.unit_next {use use' : Use} (next : use.next action = some use') :
    use'.unit = use.unit + (if action = .returnDown then 1 else 0) - if action = .add then 1 else 0 := by
  cases use <;> cases action <;> cases next <;> simp

/-- A step of another thread does not change the use: at most it wakes the thread. -/
theorem SemStep.fits_other {use : Use} (step : SemStep s (t, action) s') (queued : SemQueued s) (other : u ≠ t)
    (fits : use.fits (s.pc u) = true) : use.fits (s'.pc u) = true := by
  cases step with
  | @unblock _ first rest point queue =>
    by_cases woken : u = first
    · subst woken
      rw [queued.first queue] at fits
      cases use <;> simp_all [Semaphore.goto]
    · simpa [Semaphore.goto, update_of_ne other, update_of_ne woken] using fits
  | yield => exact fits
  | _ => simpa [Semaphore.goto, update_of_ne other] using fits

/-- The thread does not call `semaphore_up` without a unit, nor `semaphore_down` with one. -/
def Use.mayCall (use : Use) (action : SemAction ι) : Prop :=
  (action = .callUp → use ≠ .idle) ∧ (action = .callDown → use ≠ .holds)

theorem SemStep.fits_self {use : Use} (step : SemStep s (t, action) s') (fits : use.fits (s.pc t) = true)
    (may : use.mayCall action) : ∃ use', use.next action = some use' ∧ use'.fits (s'.pc t) = true := by
  obtain ⟨up, down⟩ := may
  cases step with
  | spin next clear =>
    obtain ⟨point, rfl⟩ | ⟨point, rfl⟩ | ⟨point, rfl⟩ := SemPc.afterSpin_cases next
    all_goals cases use <;> simp_all [Semaphore.goto]
  | _ => cases use <;> simp_all [Semaphore.goto]

/-- A semaphore whose threads give back only what they have taken. -/
structure Used (n : ℤ) (seen : List (ι × SemAction ι)) (s : Semaphore ι) (uses : ι → Use) : Prop
    extends SemInv n seen s where
  fits : ∀ t, (uses t).fits (s.pc t) = true
  units : Tally Use.unit (returns seen - increments seen) uses

variable {uses : ι → Use}

theorem Used.init : Used n [] ({ value := n } : Semaphore ι) fun _ => .idle where
  toSemInv := .init n
  fits _ := rfl
  units := (Tally.zero fun _ => rfl).of_eq (by simp [increments, returns])

theorem Used.step (used : Used n seen s uses) (step : SemStep s (t, action) s') (may : (uses t).mayCall action) :
    ∃ use, (uses t).next action = some use ∧ Used n (seen ++ [(t, action)]) s' (update uses t use) := by
  obtain ⟨use, next, fits⟩ := step.fits_self (used.fits t) may
  refine ⟨use, next, ?_, ?_, ?_⟩
  · have queued := used.toSemQueued
    exact ⟨step.queued queued, step.waiting queued used.waiting, step.taken queued used.taken⟩
  · intro u
    by_cases same : u = t
    · subst same
      rwa [update_self]
    · rw [update_of_ne same]
      exact step.fits_other used.toSemQueued same (used.fits u)
  · rw [increments_snoc, returns_snoc]
    refine (used.units.move fun _ _ => rfl).of_eq ?_
    rw [Use.unit_next next]
    push_cast
    omega

/-- Of one unit there is one holder. -/
theorem Used.unique (used : Used 1 seen s uses) (first : (uses t).unit = 1) (second : (uses u).unit = 1) : t = u := by
  by_contra apart
  have fewer := used.waiting.le used.taken fun t => SemPc.waiting_le_taken s.value (s.pc t)
  have without := (used.units.move (t := t) (p := .idle) fun _ _ => rfl).weight_le ?_ u
  · rw [update_of_ne (Ne.symm apart), first, second, show Use.unit .idle = 0 from rfl] at without
    omega
  · intro v
    cases update uses t .idle v <;> simp

end Uses

inductive PhlState
  | thinking | hungry | eating | full
deriving DecidableEq

/-- Where a philosopher is: waiting for `init_complete`, at an assignment to its state, in a call for a fork, or at
one of the two assertions. -/
inductive Seat
  | complete | wait | think | hunger | downA | downB | eat | checkRight | checkLeft | finish | upA | upB | failed
deriving DecidableEq

/-- The numbers of the forks and of the philosophers. -/
local instance numbers : NeZero 3 := ⟨by decide⟩

def forka : Fin 3 → Fin 3 := ![0, 2, 0]

def forkb : Fin 3 → Fin 3 := ![1, 1, 2]

/-- A call of `semaphore_down` or `semaphore_up`: fork, first and last action, and what comes behind. -/
structure ForkCall where
  fork : Fin 3
  enters : SemAction (Fin 3)
  leaves : SemAction (Fin 3)
  next : Seat

def Seat.call (t : Fin 3) : Seat → Option ForkCall
  | .downA => some ⟨forka t, .callDown, .returnDown, .downB⟩
  | .downB => some ⟨forkb t, .callDown, .returnDown, .eat⟩
  | .upA => some ⟨forka t, .callUp, .returnUp, .upB⟩
  | .upB => some ⟨forkb t, .callUp, .returnUp, .think⟩
  | _ => none

def Seat.assigns : Seat → Option (PhlState × Seat)
  | .think => some (.thinking, .hunger)
  | .hunger => some (.hungry, .downA)
  | .eat => some (.eating, .checkRight)
  | .finish => some (.full, .upA)
  | _ => none

/-- The assertions: whose state they look at, and what comes behind. -/
def Seat.checks (t : Fin 3) : Seat → Option (Fin 3 × Seat)
  | .checkRight => some (t + 2, .checkLeft)
  | .checkLeft => some (t + 1, .finish)
  | _ => none

/-- The variables of `philosophers.c`, and where the philosophers are. The loop of `do_init` has been left. -/
structure Table where
  forks : Fin 3 → Semaphore (Fin 3) := fun _ => { value := 1 }
  initComplete : Bool := false
  state : Fin 3 → PhlState := fun _ => .thinking
  seat : Fin 3 → Seat := ![.complete, .wait, .wait]

def Table.goto (s : Table) (t : Fin 3) (seat : Seat) : Table := { s with seat := update s.seat t seat }

/-- The philosopher, and the action on a fork if there is one. -/
abbrev TableEvent := Fin 3 × Option (Fin 3 × SemAction (Fin 3))

inductive TableStep (s : Table) : TableEvent → Table → Prop
  | complete {t : Fin 3} (here : s.seat t = .complete) :
      TableStep s (t, none) ({ s with initComplete := true }.goto t .think)
  | wait {t : Fin 3} (here : s.seat t = .wait) :
      TableStep s (t, none) (s.goto t (if s.initComplete then .think else .wait))
  | assign {t : Fin 3} {state : PhlState} {next : Seat} (here : (s.seat t).assigns = some (state, next)) :
      TableStep s (t, none) ({ s with state := update s.state t state }.goto t next)
  | check {t other : Fin 3} {next : Seat} (here : (s.seat t).checks t = some (other, next)) :
      TableStep s (t, none) (s.goto t (if s.state other = .eating then .failed else next))
  | call {t : Fin 3} {call : ForkCall} {action : SemAction (Fin 3)} {fork : Semaphore (Fin 3)}
      (here : (s.seat t).call t = some call) (step : SemStep (s.forks call.fork) (t, action) fork)
      (own : action = .callUp ∨ action = .callDown → action = call.enters) :
      TableStep s (t, some (call.fork, action)) ({ s with forks := update s.forks call.fork fork }.goto t
        (if action = call.leaves then call.next else s.seat t))

variable {s s' : Table} {t u fork : Fin 3} {event : TableEvent} {seen : List TableEvent} {seat next : Seat}
  {uses uses' : Fin 3 → Fin 3 → Use}

def forkEvents (fork : Fin 3) (events : List TableEvent) : List (Fin 3 × SemAction (Fin 3)) :=
  events.filterMap fun event => event.2.bind fun action => if action.1 = fork then some (event.1, action.2) else none

/-- What a philosopher may be doing with a fork. -/
def Seat.mayUse (t fork : Fin 3) : Seat → List Use
  | .downA => if fork = forka t then [.idle, .takes] else [.idle]
  | .downB => if fork = forka t then [.holds] else if fork = forkb t then [.idle, .takes] else [.idle]
  | .eat | .checkRight | .checkLeft | .finish => if fork = forka t ∨ fork = forkb t then [.holds] else [.idle]
  | .upA => if fork = forka t then [.holds, .gives, .gave] else if fork = forkb t then [.holds] else [.idle]
  | .upB => if fork = forkb t then [.holds, .gives, .gave] else [.idle]
  | _ => [.idle]

/-- The state of a philosopher at this point. -/
@[simp] def Seat.allows : Seat → PhlState → Prop
  | .failed, _ => False
  | .checkRight, state | .checkLeft, state | .finish, state => state = .eating
  | _, state => state ≠ .eating

theorem forkb_ne_forka : ∀ t, forkb t ≠ forka t := by decide

/-- Any two philosophers share a fork. -/
theorem exists_shared : ∀ t u, ∃ fork, (fork = forka t ∨ fork = forkb t) ∧ (fork = forka u ∨ fork = forkb u) := by
  decide

section Calls

variable {call : ForkCall} {action : SemAction (Fin 3)} {use use' : Use}

section

variable (here : seat.call t = some call)
include here

theorem Seat.mayUse_call (before : use ∈ seat.mayUse t call.fork) (next : use.next action = some use') :
    use' ∈ (if action = call.leaves then call.next else seat).mayUse t call.fork := by
  have apart := forkb_ne_forka t
  cases seat with
  | downA | downB | upA | upB =>
    cases here
    cases use <;> cases action <;> cases next <;> simp_all [mayUse, apart.symm]
  | _ => cases here

theorem Seat.mayUse_other (other : fork ≠ call.fork) : seat.mayUse t fork ⊆ call.next.mayUse t fork := by
  cases seat with
  | downA | downB | upA | upB =>
    cases here
    by_cases same : fork = forkb t <;> simp_all [mayUse]
  | _ => cases here

theorem Seat.mayCall (before : use ∈ seat.mayUse t call.fork)
    (own : action = .callUp ∨ action = .callDown → action = call.enters) : use.mayCall action := by
  have apart := forkb_ne_forka t
  cases seat with
  | downA | downB | upA | upB =>
    cases here
    constructor <;> rintro rfl rfl <;> simp_all [mayUse]
  | _ => cases here

end

end Calls

/-- The uses that the philosophers make of the forks, each of which has one unit. -/
structure Dines (seen : List TableEvent) (s : Table) (uses : Fin 3 → Fin 3 → Use) : Prop where
  used : ∀ fork, Used 1 (forkEvents fork seen) (s.forks fork) (uses fork)
  seated : ∀ t fork, uses fork t ∈ (s.seat t).mayUse t fork
  allowed : ∀ t, (s.seat t).allows (s.state t)

section

variable (dines : Dines seen s uses)
include dines

theorem Dines.unique (first : s.state t = .eating) (second : s.state u = .eating) : t = u := by
  have holds : ∀ v fork, s.state v = .eating → fork = forka v ∨ fork = forkb v → (uses fork v).unit = 1 := by
    intro v fork eating near
    have seated := dines.seated v fork
    have allowed := dines.allowed v
    cases seat : s.seat v <;> simp_all [Seat.mayUse]
  obtain ⟨fork, mine, yours⟩ := exists_shared t u
  exact (dines.used fork).unique (holds t fork first mine) (holds u fork second yours)

/-- A philosopher goes on. -/
theorem Dines.move (seat : s'.seat = update s.seat t next)
    (used : ∀ fork, Used 1 (forkEvents fork (seen ++ [event])) (s'.forks fork) (uses' fork))
    (same : ∀ u ≠ t, (∀ fork, uses' fork u = uses fork u) ∧ s'.state u = s.state u)
    (seated : ∀ fork, uses' fork t ∈ next.mayUse t fork) (allowed : next.allows (s'.state t)) :
    Dines (seen ++ [event]) s' uses' where
  used := used
  seated u fork := by
    rw [seat]
    by_cases here : u = t
    · subst here
      rw [update_self]
      exact seated fork
    · rw [update_of_ne here, (same u here).1]
      exact dines.seated u fork
  allowed u := by
    rw [seat]
    by_cases here : u = t
    · subst here
      rwa [update_self]
    · rw [update_of_ne here, (same u here).2]
      exact dines.allowed u

/-- A statement that does not concern the forks. -/
theorem Dines.goto (seat : s'.seat = update s.seat t next) (forks : s'.forks = s.forks)
    (same : ∀ u ≠ t, s'.state u = s.state u) (subset : ∀ fork, (s.seat t).mayUse t fork ⊆ next.mayUse t fork)
    (allowed : next.allows (s'.state t)) : Dines (seen ++ [(t, none)]) s' uses := by
  refine dines.move seat ?_ (fun u other => ⟨fun _ => rfl, same u other⟩)
    (fun fork => subset fork (dines.seated t fork)) allowed
  intro fork
  have before := dines.used fork
  rw [forks]
  simpa [forkEvents] using before

/-- A step of the table moves one philosopher, and one use of a fork at most. -/
theorem Dines.step (step : TableStep s event s') : ∃ uses', Dines (seen ++ [event]) s' uses' := by
  have allowed := dines.allowed event.1
  cases step with
  | complete here =>
    refine ⟨uses, dines.goto rfl rfl (fun _ _ => rfl) (by simp [here, Seat.mayUse]) ?_⟩
    simpa [here, Table.goto] using allowed
  | wait here =>
    refine ⟨uses, dines.goto rfl rfl (fun _ _ => rfl) ?_ ?_⟩
    · split <;> simp [here, Seat.mayUse]
    · split <;> simpa [here, Table.goto] using allowed
  | @assign t state next here =>
    refine ⟨uses, dines.goto (t := t) rfl rfl (fun u other => update_of_ne other _ _) ?_ ?_⟩
    all_goals generalize s.seat t = seat at here
    · intro fork
      by_cases first : fork = forka t <;> by_cases second : fork = forkb t
      all_goals cases seat <;> cases here <;> simp_all [Seat.mayUse]
    · cases seat <;> cases here <;> simp [Table.goto]
  | @check t other next here =>
    have distinct : ∀ t : Fin 3, t + 2 ≠ t ∧ t + 1 ≠ t := by decide
    have alone : s.state other ≠ .eating := by
      intro eating
      cases seat : s.seat t <;> rw [seat] at here allowed <;> cases here
      exacts [(distinct t).1 (dines.unique eating allowed), (distinct t).2 (dines.unique eating allowed)]
    rw [if_neg alone]
    refine ⟨uses, dines.goto (t := t) rfl rfl (fun _ _ => rfl) ?_ ?_⟩
    all_goals cases seat : s.seat t <;> rw [seat] at here allowed <;> cases here
    · simp [Seat.mayUse]
    · simp [Seat.mayUse]
    · exact allowed
    · exact allowed
  | @call t call action fork here step own =>
    have before := dines.seated t call.fork
    obtain ⟨use, next, used⟩ := (dines.used call.fork).step step (Seat.mayCall here before own)
    refine ⟨update uses call.fork (update (uses call.fork) t use), dines.move (t := t) rfl ?_ ?_ ?_ ?_⟩
    · intro other
      by_cases same : other = call.fork
      · subst same
        simpa [forkEvents, Table.goto] using used
      · simpa [forkEvents, Table.goto, update_of_ne same, Ne.symm same] using dines.used other
    · intro u other
      refine ⟨fun fork => ?_, rfl⟩
      by_cases same : fork = call.fork
      · subst same
        simp [update_of_ne other]
      · rw [update_of_ne same]
    · intro other
      by_cases same : other = call.fork
      · subst same
        simpa using Seat.mayUse_call here before next
      · rw [update_of_ne same]
        split
        · exact Seat.mayUse_other here same (dines.seated t other)
        · exact dines.seated t other
    · generalize s.seat t = seat at here allowed
      split
      · cases seat <;> cases here <;> exact allowed
      · exact allowed

end

theorem exists_dines {events : List TableEvent} (run : Run TableStep {} events s) : ∃ uses, Dines events s uses := by
  refine run.invariant_labels (fun seen s => ∃ uses, Dines seen s uses) (fun ⟨_, dines⟩ step => dines.step step) ?_
  refine ⟨fun _ _ => .idle, fun _ => .init, by decide, ?_⟩
  simp [Fin.forall_fin_succ]

/-- Whatever the steps are, no two neighbours eat at the same time, so that no assertion fails. -/
theorem philosophers_eat_alone {events : List TableEvent} (run : Run TableStep {} events s) :
    (∀ t u, s.state t = .eating → s.state u = .eating → t = u) ∧ ∀ t, s.seat t ≠ .failed := by
  obtain ⟨uses, dines⟩ := exists_dines run
  refine ⟨fun t u => dines.unique, fun t failed => ?_⟩
  have allowed := dines.allowed t
  rw [failed] at allowed
  exact allowed

/-- Philosopher 0 takes its forks. -/
theorem first_meal : ∃ events s, Run TableStep {} events s ∧ s.state 0 = .eating ∧
    ∀ t fork, (t, some (fork, .foundEmpty)) ∉ events := by
  have hungry : Run TableStep {} _ _ :=
    .snoc (.snoc (.snoc (.nil _) (.complete (t := 0) rfl)) (.assign (t := 0) rfl)) (.assign (t := 0) rfl)
  have first := (((((hungry.snoc (.call (t := 0) rfl (.callDown rfl) (by simp))).snoc
    (.call (t := 0) rfl (.spin rfl rfl) (by simp))).snoc (.call (t := 0) rfl (.sub rfl) (by simp))).snoc
    (.call (t := 0) rfl (.foundUnit rfl (by decide)) (by simp))).snoc (.call (t := 0) rfl (.returnDown rfl) (by simp)))
  have second := (((((first.snoc (.call (t := 0) rfl (.callDown rfl) (by simp))).snoc
    (.call (t := 0) rfl (.spin rfl rfl) (by simp))).snoc (.call (t := 0) rfl (.sub rfl) (by simp))).snoc
    (.call (t := 0) rfl (.foundUnit rfl (by decide)) (by simp))).snoc (.call (t := 0) rfl (.returnDown rfl) (by simp)))
  exact ⟨_, _, second.snoc (.assign (t := 0) rfl), rfl, by simp⟩

theorem philosophers_eat_alone_first : ∃ events s, Run TableStep {} events s ∧ s.state 0 = .eating ∧
    (∀ t u, s.state t = .eating → s.state u = .eating → t = u) ∧ ∀ t, s.seat t ≠ .failed := by
  obtain ⟨events, s, run, eating, -⟩ := first_meal
  exact ⟨events, s, run, eating, philosophers_eat_alone run⟩

/-- The fork that a philosopher in `semaphore_down` is waiting for. -/
def Seat.awaits (t : Fin 3) (seat : Seat) : Fin 3 := if seat = .downB then forkb t else forka t

theorem Seat.takes : ∀ seat t fork, .takes ∈ mayUse t fork seat → seat ∈ [.downA, .downB] ∧ fork = seat.awaits t := by
  intro seat
  cases seat <;> decide

theorem Seat.mayUse_down : ∀ seat ∈ [Seat.downA, .downB], ∀ t fork, ∀ use ∈ seat.mayUse t fork,
    use = .idle ∨ use = .takes ∨ use = .holds ∧ seat = .downB ∧ forka t = fork := by decide

theorem Dines.asleep (dines : Dines seen s uses) (asleep : (s.forks fork).pc t = .down .asleep) :
    s.seat t ∈ [.downA, .downB] ∧ fork = (s.seat t).awaits t := by
  refine Seat.takes _ _ _ ?_
  have fits := (dines.used fork).fits t
  have seated := dines.seated t fork
  rw [asleep] at fits
  cases use : uses fork t <;> simp_all

/-- When all philosophers sleep, no call is in progress. -/
theorem Dines.quiet (dines : Dines seen s uses) (all : ∀ t, ∃ fork, (s.forks fork).pc t = .down .asleep) :
    Quiet (s.forks fork) := by
  intro t
  obtain ⟨fork', asleep⟩ := all t
  obtain ⟨down, rfl⟩ := dines.asleep asleep
  by_cases same : fork = (s.seat t).awaits t
  · exact .inr (same ▸ asleep)
  · have fits := (dines.used fork).fits t
    have notTakes : uses fork t ≠ .takes := fun takes =>
      same (Seat.takes _ _ _ (takes ▸ dines.seated t fork)).2
    rcases Seat.mayUse_down _ down t fork _ (dines.seated t fork) with use | use | ⟨use, -⟩
    all_goals cases pc : (s.forks fork).pc t <;> simp_all

end MicroOs.Sync
