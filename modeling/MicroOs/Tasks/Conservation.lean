import MicroOs.Tasks.Arrangement

/-! # No task is lost or duplicated

Every process control block is in one of the queues, or the kernel holds it between taking it out of one queue and
inserting it into another. A task that blocks is in the ready queue until the scheduler takes it out, when the last link
of its wait queue leads to it already.
-/

namespace MicroOs.Tasks

open Links Phase List Option

variable {κ : Type*} [DecidableEq κ] {action : Action κ} {s' : TaskTable κ} {a : Pcb}

/-- The process control blocks that the kernel is going to insert into a queue. -/
def Phase.held : Phase → List Pcb
  | .insert p | .free p => [p]
  | _ => []

theorem Phase.ne_schedule_of_calls {phase : Phase} (calls : phase.calls = true) : phase ≠ .schedule := by
  rintro rfl
  simp [Phase.calls] at calls

theorem Phase.held_of_calls {phase : Phase} (calls : phase.calls = true) : phase.held = [] := by
  cases phase with
  | boot | idle => rfl
  | _ => simp [Phase.calls] at calls

/-- The task that blocks on wait queue `q`. -/
def Action.blocks (q : κ) : Action κ → Option Pcb
  | .block r p => if r = q then some p else none
  | _ => none

/-- The task that wait queue `q` gives up. -/
def Action.wakes (q : κ) : Action κ → Option Pcb
  | .unblock r p => if r = q then some p else none
  | _ => none

section Effects

variable (q r : κ) (p : Pcb)

@[simp] theorem Action.blocks_block : (block r p).blocks q = if r = q then some p else none := rfl

@[simp] theorem Action.wakes_block : (block r p).wakes q = none := rfl

@[simp] theorem Action.blocks_unblock : (unblock r p).blocks q = none := rfl

@[simp] theorem Action.wakes_unblock : (unblock r p).wakes q = if r = q then some p else none := rfl

end Effects

def Action.Quiet (action : Action κ) : Prop := ∀ q, action.blocks q = none ∧ action.wakes q = none

/-- Where the last link of a wait queue leads to, when the current task has joined `joined`. -/
def TaskTable.stop (s : TaskTable κ) (joined : Option κ) (q : κ) : Option Pcb :=
  if joined = some q then s.queue .ready else none

@[simp] theorem TaskTable.stop_none (s : TaskTable κ) : s.stop none = fun _ => none := by
  funext q
  simp [stop]

/-- What is in the queues behind a history of steps. -/
structure Layout (events : List (Action κ)) (s : TaskTable κ) (contents : Contents κ) (joined : Option κ) : Prop where
  arranged : Arranged s.links s.queue (s.stop joined) contents
  held : (contents none).Perm (s.created ++ s.phase.held)
  /-- A task outside the queues may run, unless it is freed. -/
  able : ∀ p ∈ contents none, s.status p = .ready ∨ s.status p = .firstTime ∨ s.phase = .free p
  /-- A task of the ready queue may run, unless the scheduler is going to take it out. -/
  live : ∀ p ∈ contents (some .ready), s.status p = .blocked ∨ s.status p = .exited →
    s.phase = .schedule ∧ s.queue .ready = some p
  joined_iff : joined.isSome ↔ s.phase = .schedule ∧ ∃ p, s.queue .ready = some p ∧ s.status p = .blocked
  order : ∀ q, events.filterMap (·.blocks q) =
    events.filterMap (·.wakes q) ++ (contents (some (.wait q)) ++ (s.stop joined q).toList)

namespace Layout

variable {events : List (Action κ)} {s : TaskTable κ} {contents : Contents κ} {joined : Option κ}
  {p : Pcb} {links : Links Pcb} {head : Option Pcb}

section

variable (layout : Layout events s contents joined)
include layout

theorem ready_eq : s.queue .ready = (contents (some .ready)).head? :=
  IsRing.head_eq (layout.arranged.shape .ready)

theorem not_joined (other : s.phase ≠ .schedule) : joined = none := by
  have none_joined := layout.joined_iff.not.2 fun blocking => other blocking.1
  simpa using none_joined

theorem not_joined_of_status (current : s.queue .ready = some p) (status : s.status p ≠ .blocked) : joined = none := by
  have none_joined := layout.joined_iff.not.2 fun ⟨_, a, isCurrent, blocked⟩ =>
    status (some.inj (current.symm.trans isCurrent) ▸ blocked)
  simpa using none_joined

theorem ne_of_mem {i j : Option (Queue κ)}
    (here : a ∈ contents i) (there : p ∈ contents j) (distinct : i ≠ j) : a ≠ p := by
  rintro rfl
  exact distinct (layout.arranged.placed.unique here there)

theorem mem_ready (current : s.queue .ready = some p) : p ∈ contents (some .ready) :=
  mem_of_head? (layout.ready_eq ▸ current)

theorem alive (other : s.phase ≠ .schedule)
    (current : s.queue .ready = some p) : s.status p ≠ .blocked ∧ s.status p ≠ .exited := by
  have live := layout.live p (layout.mem_ready current)
  exact ⟨fun blocked => other (live (.inl blocked)).1, fun exited => other (live (.inr exited)).1⟩

theorem order_of_quiet (quiet : action.Quiet) (q : κ) : (events ++ [action]).filterMap (·.blocks q) =
      (events ++ [action]).filterMap (·.wakes q) ++ (contents (some (.wait q)) ++ (s.stop joined q).toList) := by
  simpa [quiet q] using layout.order q

end

section

variable (layout : Layout events s contents none)
include layout

theorem alloc (calls : s.phase.calls = true) (shift : queueShift s.links (s.queue .free) = (links, head, some p)) :
    Layout (events ++ [.alloc p]) { (s.relink links .free head).setStatus p .firstTime with created := p :: s.created }
      (contents.take .free p) none := by
  obtain ⟨rest, first, -, arranged⟩ := layout.arranged.of_shift (by simp) shift
  have here : p ∈ contents (some .free) := by simp [first]
  refine ⟨by simpa using arranged, by simpa using layout.held, ?_, ?_, ?_, ?_⟩
  · intro a inside
    rcases mem_cons.1 inside with rfl | inside
    · simp
    · simpa [layout.ne_of_mem inside here (by simp)] using layout.able a inside
  · intro a inside
    have inside : a ∈ contents (some .ready) := by simpa using inside
    simpa [layout.ne_of_mem inside here (by simp)] using layout.live a inside
  · simp [ne_schedule_of_calls calls]
  · intro q
    simpa using layout.order_of_quiet (fun _ => ⟨rfl, rfl⟩) q

theorem put {k : Queue κ} (quiet : action.Quiet) (ring : k = .free ∨ k = .ready)
    (here : p ∈ contents none) (inserted : queueInsert s.links (s.queue k) p = some (links, head))
    (relinked : s'.links = links ∧ s'.queue = Function.update s.queue k head ∧ s'.status = s.status)
    (phases : s.phase ≠ .schedule ∧ s'.phase ≠ .schedule)
    (held : ((contents none).erase p).Perm (s'.created ++ s'.phase.held))
    (freed : ∀ a ≠ p, s.phase = .free a → s'.phase = .free a) (able : k = .ready → s.phase ≠ .free p) :
    Layout (events ++ [action]) s' (contents.put k p) none := by
  obtain ⟨sameLinks, sameQueue, sameStatus⟩ := relinked
  refine ⟨?_, held, ?_, ?_, by simp [phases.2], ?_⟩
  · simpa [sameLinks, sameQueue] using layout.arranged.of_insert ring here inserted
  · intro a inside
    obtain ⟨different, inside⟩ := (layout.arranged.placed.nodup none).mem_erase_iff.1 inside
    rw [sameStatus]
    exact (layout.able a inside).imp_right (.imp_right (freed a different))
  · intro a inside stopped
    rw [sameStatus] at stopped
    have old : a ∉ contents (some .ready) := fun inside => phases.1 (layout.live a inside stopped).1
    have new : k = .ready ∧ a = p := by
      by_cases target : Queue.ready = k
      · simpa [target.symm, old] using inside
      · simp [target, old] at inside
    obtain ⟨rfl, rfl⟩ := new
    rcases layout.able a here with able' | able' | able'
    · simp [able'] at stopped
    · simp [able'] at stopped
    · exact absurd able' (able rfl)
  · intro q
    rcases ring with rfl | rfl <;> simpa using layout.order_of_quiet quiet q

theorem create (calls : s.phase.calls = true) (mine : p ∈ s.created)
    (inserted : queueInsert s.links (s.queue .ready) p = some (links, head)) :
    Layout (events ++ [.create p]) { s.relink links .ready head with created := s.created.erase p }
      (contents.put .ready p) none := by
  have idle := ne_schedule_of_calls calls
  have here : p ∈ contents none := layout.held.mem_iff.2 (mem_append_left _ mine)
  have held := layout.held.erase p
  rw [erase_append_left _ mine] at held
  refine layout.put (fun _ => ⟨rfl, rfl⟩) (.inr rfl) here inserted ⟨rfl, rfl, rfl⟩ ⟨idle, idle⟩ held
    (fun _ _ same => same) ?_
  rintro - freed
  simp [freed, Phase.calls] at calls

end

theorem held_last (layout : Layout events s contents joined) (held : s.phase.held = [p]) :
    p ∈ contents none ∧ ((contents none).erase p).Perm s.created := by
  have perm := layout.held
  rw [held] at perm
  refine ⟨perm.mem_iff.2 (by simp), ?_⟩
  simpa using (perm.trans (perm_append_singleton p _)).erase p

section

variable (layout : Layout events s contents none)
include layout

theorem insert (next : s.phase = .insert p) (inserted : queueInsert s.links (s.queue .ready) p = some (links, head)) :
    Layout (events ++ [.insert p]) ((s.relink links .ready head).goto .idle) (contents.put .ready p) none := by
  obtain ⟨here, rest⟩ := layout.held_last (by rw [next]; rfl)
  exact layout.put (fun _ => ⟨rfl, rfl⟩) (.inr rfl) here inserted ⟨rfl, rfl, rfl⟩ (by simp [next])
    (by simpa [Phase.held] using rest) (by simp [next]) (by simp [next])

theorem free (next : s.phase = .free p) (inserted : queueInsert s.links (s.queue .free) p = some (links, head)) :
    Layout (events ++ [.free p]) ((s.relink links .free head).goto .test) (contents.put .free p) none := by
  obtain ⟨here, rest⟩ := layout.held_last (by rw [next]; rfl)
  exact layout.put (fun _ => ⟨rfl, rfl⟩) (.inl rfl) here inserted ⟨rfl, rfl, rfl⟩ (by simp [next])
    (by simpa [Phase.held] using rest) (by simp [next, eq_comm]) (by simp)

theorem restatus (quiet : action.Quiet) (current : s.queue .ready = some p)
    (same : s'.links = s.links ∧ s'.queue = s.queue ∧ s'.created = s.created)
    (others : ∀ a ≠ p, s'.status a = s.status a) (held : s.phase.held = [] ∧ s'.phase.held = [])
    (final : s'.status p ≠ .blocked) (exits : s'.status p = .exited → s'.phase = .schedule) :
    Layout (events ++ [action]) s' contents none := by
  obtain ⟨sameLinks, sameQueue, sameCreated⟩ := same
  have here := layout.mem_ready current
  refine ⟨?_, ?_, ?_, ?_, ?_, ?_⟩
  · simpa [sameLinks, sameQueue] using layout.arranged
  · simpa [sameCreated, held] using layout.held
  · intro a inside
    rw [others a (layout.ne_of_mem inside here (by simp))]
    rcases layout.able a inside with able | able | able
    · exact .inl able
    · exact .inr (.inl able)
    · simp [able, Phase.held] at held
  · intro a inside stopped
    rcases eq_or_ne a p with rfl | different
    · exact ⟨exits (stopped.resolve_left final), sameQueue ▸ current⟩
    · rw [others a different] at stopped
      have isCurrent := (layout.live a inside stopped).2
      exact absurd (some.inj (isCurrent.symm.trans current)) different
  · simp [sameQueue, current, final]
  · intro q
    simpa using layout.order_of_quiet quiet q

theorem dispatch (quiet : action.Quiet)
    (current : s.queue .ready = some p) (other : s.phase ≠ .schedule) (held : s.phase.held = []) :
    Layout (events ++ [action]) (s.dispatch p) contents none := by
  have alive := layout.alive other current
  unfold TaskTable.dispatch
  split
  · refine layout.restatus quiet current ⟨rfl, rfl, rfl⟩ ?_ ⟨held, rfl⟩ (by simp) (by simp)
    intro a different
    simp [different]
  · exact layout.restatus quiet current ⟨rfl, rfl, rfl⟩ (fun _ _ => rfl) ⟨held, rfl⟩ alive.1
      fun exited => absurd exited alive.2

theorem turn {ticks : ℕ} (next : s.phase = .schedule)
    (current : s.queue .ready = some p) (alive : s.status p ≠ .blocked ∧ s.status p ≠ .exited) :
    Layout (events ++ [.turn ticks]) (((s.wake p ticks).relink s.links .ready (s.links.next p)).goto .test)
      (contents.rotate .ready p) none := by
  obtain ⟨rest, first⟩ := head?_eq_some_iff.1 (layout.ready_eq ▸ current)
  have here := layout.mem_ready current
  have status (a : Pcb) : (s.wake p ticks).status a = s.status a ∨ a = p ∧ (s.wake p ticks).status a = .ready := by
    unfold TaskTable.wake
    split
    · rcases eq_or_ne a p with rfl | different
      · simp
      · simp [different]
    · exact .inl rfl
  have same : (s.wake p ticks).queue = s.queue ∧ (s.wake p ticks).created = s.created := by
    unfold TaskTable.wake
    split <;> exact ⟨rfl, rfl⟩
  refine ⟨?_, ?_, ?_, ?_, by simp, ?_⟩
  · simpa [same] using layout.arranged.rotate first
  · simpa [same, next, Phase.held] using layout.held
  · intro a inside
    have different := layout.ne_of_mem inside here (by simp)
    have able := layout.able a inside
    simpa [(status a).resolve_right (by simp [different]), next] using able
  · intro a inside stopped
    rcases status a with old | ⟨-, woken⟩
    · have inside : a ∈ contents (some .ready) := by simpa [first, or_comm] using inside
      have stopped' : s.status a = .blocked ∨ s.status a = .exited := by simpa [old] using stopped
      have isCurrent := (layout.live a inside stopped').2
      obtain rfl := some.inj (isCurrent.symm.trans current)
      exact (stopped'.elim alive.1 alive.2).elim
    · simp [woken] at stopped
  · intro q
    simpa using layout.order_of_quiet (fun _ => ⟨rfl, rfl⟩) q

theorem block {q : κ} (runs : s.phase = .idle)
    (current : s.queue .ready = some p) (queued : waitEnqueue s.links (s.queue (.wait q)) p = some (links, head)) :
    Layout (events ++ [.block q p]) (((s.setStatus p .blocked).relink links (.wait q) head).goto .schedule)
      contents (some q) := by
  have here := layout.mem_ready current
  have stop : (((s.setStatus p .blocked).relink links (.wait q) head).goto .schedule).stop (some q) =
      Function.update (s.stop none) q (some p) := by
    funext r
    rcases eq_or_ne r q with rfl | other
    · simp [TaskTable.stop, current]
    · simp [TaskTable.stop, other, other.symm]
  refine ⟨?_, ?_, ?_, ?_, ?_, ?_⟩
  · rw [stop]
    simpa using layout.arranged.of_enqueue (by simp) queued
  · simpa [runs, Phase.held] using layout.held
  · intro a inside
    simpa [layout.ne_of_mem inside here (by simp), runs] using layout.able a inside
  · intro a inside stopped
    rcases eq_or_ne a p with rfl | different
    · simp [current]
    · have stopped : s.status a = .blocked ∨ s.status a = .exited := by simpa [different] using stopped
      have scheduled := (layout.live a inside stopped).1
      simp [runs] at scheduled
  · simp [current]
  · intro r
    rw [stop]
    have order := layout.order r
    rcases eq_or_ne r q with rfl | other
    · simp [order]
    · simp [order, other, other.symm]

theorem unblock {q : κ} (runs : s.phase = .idle)
    (shift : queueShift s.links (s.queue (.wait q)) = (links, head, some p)) :
    Layout (events ++ [.unblock q p]) (((s.relink links (.wait q) head).setStatus p .ready).goto (.insert p))
      (contents.take (.wait q) p) none := by
  obtain ⟨rest, first, -, arranged⟩ := layout.arranged.of_shift (by simp) shift
  have here : p ∈ contents (some (.wait q)) := by simp [first]
  refine ⟨by simpa using arranged, ?_, ?_, ?_, by simp, ?_⟩
  · have held := layout.held
    simp only [runs, Phase.held, append_nil] at held
    simpa [Phase.held] using (held.cons p).trans (perm_append_singleton p s.created).symm
  · intro a inside
    rcases mem_cons.1 inside with rfl | inside
    · simp
    · simpa [layout.ne_of_mem inside here (by simp), runs] using layout.able a inside
  · intro a inside stopped
    have inside : a ∈ contents (some .ready) := by simpa using inside
    have stopped : s.status a = .blocked ∨ s.status a = .exited := by
      simpa [layout.ne_of_mem inside here (by simp)] using stopped
    have scheduled := (layout.live a inside stopped).1
    simp [runs] at scheduled
  · intro r
    have order := layout.order r
    rcases eq_or_ne r q with rfl | other
    · simp [order, first]
    · simp [order, other, other.symm]

end

theorem alive_of_take (layout : Layout events s contents joined)
    (current : s.queue .ready = some p) (inside : a ∈ contents.take .ready p (some .ready)) :
    ¬ (s.status a = .blocked ∨ s.status a = .exited) := by
  intro stopped
  obtain ⟨rest, first⟩ := head?_eq_some_iff.1 (layout.ready_eq ▸ current)
  have later : a ∈ rest := by simpa [first] using inside
  have isCurrent := (layout.live a (by simp [first, later]) stopped).2
  obtain rfl := some.inj (isCurrent.symm.trans current)
  have nodup := layout.arranged.placed.nodup (some .ready)
  rw [first] at nodup
  exact (nodup_cons.1 nodup).1 later

theorem removeExited (layout : Layout events s contents none) (next : s.phase = .schedule)
    (current : s.queue .ready = some p) (shift : queueShift s.links (s.queue .ready) = (links, head, some p)) :
    Layout (events ++ [.removeExited p]) ((s.relink links .ready head).goto (.free p))
      (contents.take .ready p) none := by
  obtain ⟨rest, first, -, arranged⟩ := layout.arranged.of_shift (by simp) shift
  refine ⟨by simpa using arranged, ?_, ?_, ?_, by simp, ?_⟩
  · have held := layout.held
    simp only [next, Phase.held, append_nil] at held
    simpa [Phase.held] using (held.cons p).trans (perm_append_singleton p s.created).symm
  · intro a inside
    rcases mem_cons.1 inside with rfl | inside
    · simp
    · have able := layout.able a inside
      simp only [next, reduceCtorEq, or_false] at able
      exact able.imp_right .inl
  · intro a inside stopped
    exact absurd stopped (layout.alive_of_take current inside)
  · intro q
    simpa using layout.order_of_quiet (fun _ => ⟨rfl, rfl⟩) q

theorem removeBlocked {q : κ} (layout : Layout events s contents (some q)) (next : s.phase = .schedule)
    (current : s.queue .ready = some p) (shift : queueShift s.links (s.queue .ready) = (links, head, some p)) :
    Layout (events ++ [.removeBlocked p]) ((s.relink links .ready head).goto .test)
      ((contents.take .ready p).put (.wait q) p) none := by
  obtain ⟨rest, first, -, arranged⟩ := layout.arranged.of_shift (by simp) shift
  have leads : s.stop (some q) q = some p := by simp [TaskTable.stop, current]
  have stop : Function.update (s.stop (some q)) q none = fun _ => none := by
    funext r
    rcases eq_or_ne r q with rfl | other
    · simp
    · simp [TaskTable.stop, other, other.symm]
  refine ⟨?_, ?_, ?_, ?_, by simp, ?_⟩
  · simpa [stop] using arranged.join leads (by simp)
  · simpa [next, Phase.held] using layout.held
  · intro a inside
    have able := layout.able a (by simpa using inside)
    simpa [next] using able
  · intro a inside stopped
    exact absurd stopped (layout.alive_of_take current (by simpa using inside))
  · intro r
    have order := layout.order_of_quiet (fun _ => ⟨rfl, rfl⟩ : (Action.removeBlocked p).Quiet) r
    rcases eq_or_ne r q with rfl | other
    · simpa [leads] using order
    · simpa [TaskTable.stop, other, other.symm] using order

theorem mem_take (layout : Layout events s contents joined) (current : s.queue .ready = some p)
    (stopped : s.status p = .blocked ∨ s.status p = .exited) (inside : a ∈ contents (some .ready))
    (alive : s.status a ≠ .blocked ∧ s.status a ≠ .exited) : a ∈ contents.take .ready p (some .ready) := by
  obtain ⟨rest, first⟩ := head?_eq_some_iff.1 (layout.ready_eq ▸ current)
  rw [first] at inside
  rcases mem_cons.1 inside with rfl | later
  · exact (stopped.elim alive.1 alive.2).elim
  · simpa [first] using later

/-- Every step keeps the queues in order, and the tasks that are neither blocked nor exited in the ready queue. -/
theorem step (layout : Layout events s contents joined)
    (step : TaskStep s action s') : ∃ contents' joined', Layout (events ++ [action]) s' contents' joined' ∧
      ∀ a ∈ contents (some .ready), s.status a ≠ .blocked ∧ s.status a ≠ .exited → a ∈ contents' (some .ready) := by
  cases step with
  | alloc calls shift =>
    obtain rfl := layout.not_joined (ne_schedule_of_calls calls)
    exact ⟨_, _, layout.alloc calls shift, fun a inside _ => by simpa using inside⟩
  | create calls mine inserted =>
    obtain rfl := layout.not_joined (ne_schedule_of_calls calls)
    exact ⟨_, _, layout.create calls mine inserted, fun a inside _ => by simp [inside]⟩
  | insert next inserted =>
    obtain rfl := layout.not_joined (by simp [next])
    exact ⟨_, _, layout.insert next inserted, fun a inside _ => by simp [inside]⟩
  | free next inserted =>
    obtain rfl := layout.not_joined (by simp [next])
    exact ⟨_, _, layout.free next inserted, fun a inside _ => by simpa using inside⟩
  | @sleep p _ runs current =>
    obtain rfl := layout.not_joined (by simp [runs])
    refine ⟨_, _, layout.restatus (fun _ => ⟨rfl, rfl⟩) current ⟨rfl, rfl, rfl⟩ ?_ (by simp [runs, Phase.held])
      (by simp) (by simp), fun _ inside _ => inside⟩
    intro a different
    simp [different]
  | @yield p runs current | again runs current waits =>
    obtain rfl := layout.not_joined (by simp [runs])
    have alive := layout.alive (by simp [runs]) current
    exact ⟨_, _, layout.restatus (fun _ => ⟨rfl, rfl⟩) current ⟨rfl, rfl, rfl⟩ (fun _ _ => rfl)
      (by simp [runs, Phase.held]) alive.1 (fun _ => rfl), fun _ inside _ => inside⟩
  | exit runs current =>
    obtain rfl := layout.not_joined (by simp [runs])
    refine ⟨_, _, layout.restatus (fun _ => ⟨rfl, rfl⟩) current ⟨rfl, rfl, rfl⟩ ?_ (by simp [runs, Phase.held])
      (by simp) (fun _ => rfl), fun _ inside _ => inside⟩
    intro a different
    simp [different]
  | dispatch next current | start next current =>
    obtain rfl := layout.not_joined (by simp [next])
    exact ⟨_, _, layout.dispatch (fun _ => ⟨rfl, rfl⟩) current (by simp [next]) (by simp [next, Phase.held]),
      fun _ inside _ => inside⟩
  | block runs current queued =>
    obtain rfl := layout.not_joined (by simp [runs])
    exact ⟨_, _, layout.block runs current queued, fun _ inside _ => inside⟩
  | unblock runs shift =>
    obtain rfl := layout.not_joined (by simp [runs])
    exact ⟨_, _, layout.unblock runs shift, fun a inside _ => by simpa using inside⟩
  | turn next current alive =>
    obtain rfl := layout.not_joined_of_status current alive.1
    obtain ⟨rest, first⟩ := head?_eq_some_iff.1 (layout.ready_eq ▸ current)
    exact ⟨_, _, layout.turn next current alive, fun a inside _ => by simpa [first, or_comm] using inside⟩
  | removeBlocked next status shift =>
    have current := queueShift_removed shift
    obtain ⟨q, rfl⟩ := isSome_iff_exists.1 (layout.joined_iff.2 ⟨next, _, current, status⟩)
    exact ⟨_, _, layout.removeBlocked next current shift,
      fun a inside alive => by simpa using layout.mem_take current (.inl status) inside alive⟩
  | removeExited next status shift =>
    have current := queueShift_removed shift
    obtain rfl := layout.not_joined_of_status current (by simp [status])
    exact ⟨_, _, layout.removeExited next current shift,
      fun a inside alive => layout.mem_take current (.inr status) inside alive⟩

end Layout

theorem insertFree_ring {links : Links Pcb} {head : Option Pcb} {inserted rest : List Pcb}
    (ring : IsRing links head inserted) (nodup : (inserted ++ rest).Nodup)
    (unlinked : ∀ p ∈ rest, links.next p = none) :
    ∃ links', insertFree links head rest = some (links', (inserted ++ rest).head?) ∧
      IsRing links' (inserted ++ rest).head? (inserted ++ rest) := by
  induction rest generalizing links head inserted with
  | nil =>
    refine ⟨links, ?_, ?_⟩
    · simp [insertFree, ring.head_eq]
    · simpa [← ring.head_eq] using ring
  | cons p rest ih =>
    have new : p ∉ inserted := fun inside => (nodup_append.1 nodup).2.2 p inside p (by simp) rfl
    obtain ⟨links', result, longer, same⟩ := queueInsert_ring ring new (unlinked p (by simp))
    rw [append_cons] at nodup ⊢
    have unlinked' : ∀ a ∈ rest, links'.next a = none := by
      intro a inside
      have outside : a ∉ inserted ++ [p] := fun there => (nodup_append.1 nodup).2.2 a there a inside rfl
      rw [(same a outside).1, unlinked a (by simp [inside])]
    obtain ⟨links'', inserted', ring'⟩ := ih longer nodup unlinked'
    exact ⟨links'', by rw [insertFree, result, bind_some, inserted'], ring'⟩

def initContents : Contents κ
  | some .free => finRange pcbTableSize
  | _ => []

theorem initPcbTable_layout : ∃ links head, initPcbTable (κ := κ) = some (bootTable links head) ∧
    Layout [] (bootTable links head) (initContents : Contents κ) none := by
  obtain ⟨links, result, ring⟩ :=
    insertFree_ring (IsRing.nil ⟨fun _ => none, fun _ => none⟩) (nodup_finRange pcbTableSize) (by simp)
  have shape (k : Queue κ) : k.Shape links (fun _ => none)
      ((bootTable links (finRange pcbTableSize).head?).queue k) (initContents (some k)) := by
    cases k with
    | free => exact ring
    | ready => exact .nil links
    | wait q => exact ⟨rfl, by simp [initContents]⟩
  have placed : Placement (initContents : Contents κ) := by
    refine ⟨?_, ?_⟩
    · rintro (_ | _ | _ | _)
      · exact .nil
      · exact nodup_finRange pcbTableSize
      all_goals exact .nil
    · intro p
      refine ⟨some .free, mem_finRange p, ?_⟩
      rintro (_ | _ | _ | _) inside
      · cases inside
      · rfl
      all_goals cases inside
  refine ⟨links, _, map_eq_some_iff.2 ⟨_, result, rfl⟩, ⟨by simp [initContents], ?_, placed⟩, ?_, ?_, ?_, ?_, ?_⟩
  · exact shape
  · exact .refl _
  · simp [initContents]
  · simp [initContents]
  · simp
  · simp [initContents]

/-- Every reachable state has its queues in order. -/
theorem exists_layout {s₀ s : TaskTable κ} {events : List (Action κ)} (start : initPcbTable = some s₀)
    (run : Run TaskStep s₀ events s) : ∃ contents joined, Layout events s contents joined := by
  refine run.invariant_labels (fun events s => ∃ contents joined, Layout events s contents joined) ?_ ?_
  · rintro seen before event after ⟨contents, joined, layout⟩ step
    obtain ⟨contents', joined', next, -⟩ := layout.step step
    exact ⟨contents', joined', next⟩
  · obtain ⟨links, head, same, layout⟩ := @initPcbTable_layout κ _
    obtain rfl := some.inj (start.symm.trans same)
    exact ⟨_, _, layout⟩

/-- Two threads are created and started, and the first one blocks. -/
def waitingEvents : List (Action Unit) :=
  [.alloc 0, .alloc 1, .create 0, .create 1, .start 0, .block () 0, .removeBlocked 0, .dispatch 1]

theorem exists_waiting : ∃ s₀ s : TaskTable Unit, initPcbTable = some s₀ ∧ Run TaskStep s₀ waitingEvents s ∧
    s.phase = .idle ∧ s.created = [] ∧ ∃ contents, Layout waitingEvents s contents none ∧
      contents (some (.wait ())) = [0] := by
  obtain ⟨links, head, start, layout⟩ := @initPcbTable_layout Unit _
  have free : initContents (some (Queue.free : Queue Unit)) = 0 :: 1 :: (finRange pcbTableSize).drop 2 := rfl
  obtain ⟨links₁, shift₁, -⟩ := layout.arranged.shift free (by simp)
  have step₁ := TaskStep.alloc rfl shift₁
  have layout₁ := layout.alloc rfl shift₁
  obtain ⟨links₂, shift₂, -⟩ := layout₁.arranged.shift (k := .free) (p := 1) (by simp [free]; rfl) (by simp)
  have step₂ := TaskStep.alloc rfl shift₂
  have layout₂ := layout₁.alloc rfl shift₂
  obtain ⟨links₃, insert₃, -⟩ := layout₂.arranged.insert (k := .ready) (p := 0) (.inr rfl) (by simp)
  have step₃ := TaskStep.create rfl (by simp) insert₃
  have layout₃ := layout₂.create rfl (by simp) insert₃
  obtain ⟨links₄, insert₄, -⟩ := layout₃.arranged.insert (k := .ready) (p := 1) (.inr rfl) (by simp)
  have step₄ := TaskStep.create rfl (by simp) insert₄
  have layout₄ := layout₃.create rfl (by simp) insert₄
  have current₄ := layout₄.ready_eq.trans (show _ = some 0 by simp [initContents])
  have step₅ := TaskStep.start rfl current₄
  have layout₅ := layout₄.dispatch (fun _ => ⟨rfl, rfl⟩ : (Action.start 0 : Action Unit).Quiet) current₄ (by simp) rfl
  have current₅ := layout₅.ready_eq.trans (show _ = some 0 by simp [initContents])
  obtain ⟨links₆, queued₆, -⟩ := layout₅.arranged.enqueue (q := ()) (p := 0) (by simp)
  have step₆ := TaskStep.block rfl current₅ queued₆
  have layout₆ := layout₅.block rfl current₅ queued₆
  obtain ⟨links₇, shift₇, -⟩ := layout₆.arranged.shift (k := .ready) (p := 0) (by simp [initContents]; rfl) (by simp)
  have step₇ := TaskStep.removeBlocked rfl (by simp) shift₇ (by simp)
  have layout₇ := layout₆.removeBlocked rfl (queueShift_removed shift₇) shift₇
  have current₇ := layout₇.ready_eq.trans (show _ = some 1 by simp [initContents])
  have other : (1 : Pcb) ≠ 0 := by decide
  have step₈ := TaskStep.dispatch rfl current₇ (.inr (by simp [other, TaskTable.status_dispatch_of_ne _ other]))
  have layout₈ :=
    layout₇.dispatch (fun _ => ⟨rfl, rfl⟩ : (Action.dispatch 1 : Action Unit).Quiet) current₇ (by simp) rfl
  refine ⟨_, _, start, ?_, ?_, ?_, _, layout₈, ?_⟩
  · exact .snoc (.snoc (.snoc (.snoc (.snoc (.snoc (.snoc (.snoc (.nil _) step₁) step₂) step₃) step₄) step₅) step₆)
      step₇) step₈
  · rfl
  · simp
  · simp [initContents]

theorem exists_unblock : ∃ s₀ s s' : TaskTable Unit, initPcbTable = some s₀ ∧ Run TaskStep s₀ waitingEvents s ∧
    TaskStep s (.unblock () 0) s' ∧ s.queue (.wait ()) = some 0 ∧ s.links.previous 0 = none := by
  obtain ⟨s₀, s, start, run, idle, -, contents, layout, waiting⟩ := exists_waiting
  obtain ⟨links, shift, -⟩ := layout.arranged.shift waiting (by simp)
  have line : IsQueue s.links (s.queue (.wait ())) (contents (some (.wait ()))) none := by
    simpa [Queue.Shape] using layout.arranged.shape (.wait ())
  rw [waiting] at line
  exact ⟨s₀, s, _, start, run, .unblock idle shift, line.path.1, line.single 0 (by simp)⟩

variable {s₀ s : TaskTable κ} {events : List (Action κ)}

/-- `queue_insert` and `queue_shift` are applied to a well-formed ring, but for the `queue_shift` in `unblock`: a
wait queue is never one. -/
theorem task_queue_well_formed_iff :
    (∀ inserted p later, finRange pcbTableSize = inserted ++ p :: later →
      ∃ links freelist, insertFree ⟨fun _ => none, fun _ => none⟩ none inserted = some (links, freelist) ∧
        WellFormed links freelist) ∧
    ∀ {s₀ s s' : TaskTable κ} {events : List (Action κ)} {action : Action κ} {k : Queue κ}, initPcbTable = some s₀ →
      Run TaskStep s₀ events s → TaskStep s action s' → action.queue = some k → s.queue k ≠ none →
      (WellFormed s.links (s.queue k) ↔ ∀ q, k ≠ .wait q) := by
  refine ⟨?_, ?_⟩
  · intro inserted p later split
    have nodup := nodup_finRange pcbTableSize
    rw [split] at nodup
    obtain ⟨links, result, ring⟩ :=
      insertFree_ring (IsRing.nil ⟨fun _ => none, fun _ => none⟩) (nodup_append.1 nodup).1 (by simp)
    exact ⟨links, _, result, ring.wellFormed⟩
  · intro s₀ s s' events action k start run step applied filled
    obtain ⟨contents, joined, layout⟩ := exists_layout start run
    have shape := layout.arranged.shape k
    cases k with
    | free | ready => simpa using IsRing.wellFormed shape
    | wait q =>
      -- Only `unblock` shifts a wait queue, when no task is on its way there.
      obtain ⟨p, runs⟩ : ∃ p, action = .unblock q p ∧ s.phase = .idle := by
        cases step with
        | unblock runs shift =>
          obtain rfl : _ = q := by simpa [Action.queue] using applied
          exact ⟨_, rfl, runs⟩
        | _ => simp [Action.queue] at applied
      obtain rfl := layout.not_joined (by simp [runs])
      have line : IsQueue s.links (s.queue (.wait q)) (contents (some (.wait q))) none := by
        simpa [Queue.Shape] using shape
      cases inside : contents (some (.wait q)) with
      | nil =>
        rw [inside] at line
        exact absurd line.path.head_eq filled
      | cons first rest =>
        rw [inside] at line
        simpa using line.not_wellFormed

/-- `unblock` shifts a wait queue of one task. The first link that is followed, its `previous`, is a null pointer. -/
theorem unblock_follows_null_link : ∃ s₀ s s' : TaskTable Unit, initPcbTable = some s₀ ∧
    Run TaskStep s₀ waitingEvents s ∧ TaskStep s (.unblock () 0) s' ∧ s.queue (.wait ()) = some 0 ∧
    s.links.previous 0 = none ∧ ¬ WellFormed s.links (s.queue (.wait ())) := by
  obtain ⟨s₀, s, s', start, run, step, waiting, unlinked⟩ := exists_unblock
  refine ⟨s₀, s, s', start, run, step, waiting, unlinked, ?_⟩
  intro formed
  obtain ⟨_, before, -, previous, -⟩ := formed 0 ⟨[], waiting⟩
  rw [unlinked] at previous
  cases previous

theorem task_queue_well_formed_iff_unblock : ∃ s₀ s s' : TaskTable Unit, initPcbTable = some s₀ ∧
    Run TaskStep s₀ waitingEvents s ∧ TaskStep s (.unblock () 0) s' ∧
    (WellFormed s.links (s.queue (.wait ())) ↔ ∀ q, Queue.wait () ≠ .wait q) := by
  obtain ⟨s₀, s, s', start, run, step, waiting, -⟩ := exists_unblock
  exact ⟨s₀, s, s', start, run, step, task_queue_well_formed_iff.2 start run step rfl (by simp [waiting])⟩

/-- No process control block is lost or duplicated, the ready queue has no blocked or exited task but one that the
scheduler is about to remove, waiting tasks are woken in the order in which they blocked, and a task that is
dispatched may run. -/
theorem pcb_conservation (start : initPcbTable = some s₀) (run : Run TaskStep s₀ events s) :
    (s.phase.calls = true → s.created = [] → ∀ p, ∃! k : Queue κ, Holds s.links (s.queue k) p) ∧
    (∀ p, Holds s.links (s.queue .ready) p → s.status p = .blocked ∨ s.status p = .exited →
      s.phase = .schedule ∧ s.queue .ready = some p) ∧
    (∀ q, events.filterMap (·.wakes q) <+: events.filterMap (·.blocks q)) ∧
    ∀ p s', TaskStep s (.dispatch p) s' →
      s.queue .ready = some p ∧ (s.status p = .ready ∨ s.status p = .firstTime) := by
  obtain ⟨contents, joined, layout⟩ := exists_layout start run
  refine ⟨?_, ?_, ?_, ?_⟩
  · intro calls complete p
    obtain rfl := layout.not_joined (ne_schedule_of_calls calls)
    have none_held : contents none = [] := by
      have held := layout.held
      rw [complete, held_of_calls calls] at held
      exact perm_nil.1 held
    have holds (k : Queue κ) : Holds s.links (s.queue k) p ↔ p ∈ contents (some k) := by
      have shape := layout.arranged.shape k
      cases k with
      | free | ready => exact IsRing.holds_iff shape
      | wait q => exact IsQueue.holds_iff (by simpa [Queue.Shape] using shape)
    simp only [holds]
    obtain ⟨place, inside, unique⟩ := layout.arranged.placed.existsUnique p
    cases place with
    | none => simp [none_held] at inside
    | some k => exact ⟨k, inside, fun j there => some.inj (unique (some j) there)⟩
  · intro p found
    have ring := layout.arranged.shape .ready
    exact layout.live p (ring.holds_iff.1 found)
  · intro q
    exact ⟨_, (layout.order q).symm⟩
  · intro p s' step
    cases step with
    | dispatch next current runs => exact ⟨current, runs⟩

theorem pcb_conservation_waiting : ∃ s₀ s : TaskTable Unit, initPcbTable = some s₀ ∧
    Run TaskStep s₀ waitingEvents s ∧ ∀ p, ∃! k : Queue Unit, Holds s.links (s.queue k) p := by
  obtain ⟨s₀, s, start, run, idle, complete, -⟩ := exists_waiting
  exact ⟨s₀, s, start, run, (pcb_conservation start run).1 (by simp [idle, Phase.calls]) complete⟩

end MicroOs.Tasks
