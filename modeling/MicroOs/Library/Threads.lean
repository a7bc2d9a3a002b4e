import Mathlib.Data.List.Nodup

/-! # Threads that share a critical section and a wait queue

Every thread is at a point of its program. A step moves one thread to another point; the rules below say what it keeps
of a critical section that a flag protects, and of a queue on which threads sleep.
-/

namespace MicroOs

open Function

variable {ι π : Type*} [DecidableEq ι] {pc : ι → π} {t : ι} {p : π} {points : π → Prop}

def Somewhere (points : π → Prop) (pc : ι → π) : Prop := ∃ t, points (pc t)

theorem Somewhere.here (here : points p) : Somewhere points (update pc t p) :=
  ⟨t, by rwa [update_self]⟩

theorem Somewhere.move (found : Somewhere points pc) (kept : points (pc t) → points p) :
    Somewhere points (update pc t p) := by
  obtain ⟨u, there⟩ := found
  by_cases same : u = t
  · subst same
    exact .here (kept there)
  · exact ⟨u, by rwa [update_of_ne same]⟩

theorem Somewhere.back (found : Somewhere points (update pc t p))
    (kept : points p → points (pc t)) : Somewhere points pc := by
  obtain ⟨u, there⟩ := found
  by_cases same : u = t
  · subst same
    rw [update_self] at there
    exact ⟨u, kept there⟩
  · rw [update_of_ne same] at there
    exact ⟨u, there⟩

def Everywhere (points : π → Prop) (pc : ι → π) : Prop := ∀ t, points (pc t)

theorem Everywhere.move (everywhere : Everywhere points pc) (here : points p) : Everywhere points (update pc t p) := by
  intro u
  by_cases same : u = t
  · subst same
    rwa [update_self]
  · rw [update_of_ne same]
    exact everywhere u

/-- Whenever a thread is at one of the points, the fact holds. -/
def Ensures (points : π → Prop) (fact : Prop) (pc : ι → π) : Prop := ∀ t, points (pc t) → fact

theorem Ensures.move {fact : Prop} (ensures : Ensures points fact pc) (here : points p → fact) :
    Ensures points fact (update pc t p) := by
  intro u there
  by_cases same : u = t
  · subst same
    rw [update_self] at there
    exact here there
  · rw [update_of_ne same] at there
    exact ensures u there

/-- One thread at most is inside of the section, and none while the flag is clear. -/
structure Exclusive (inside : π → Prop) (flag : Bool) (pc : ι → π) : Prop where
  unique : ∀ ⦃t u⦄, inside (pc t) → inside (pc u) → t = u
  free : flag = false → ∀ t, ¬ inside (pc t)

namespace Exclusive

variable {inside : π → Prop} {flag : Bool}

/-- The thread that sets the flag may go inside. -/
theorem enter (exclusive : Exclusive inside flag pc) (clear : flag = false) (t : ι) (p : π) :
    Exclusive inside true (update pc t p) where
  unique := by
    have only : ∀ u, inside (update pc t p u) → u = t := by
      intro u within
      by_contra other
      rw [update_of_ne other] at within
      exact exclusive.free clear u within
    intro u v within within'
    rw [only u within, only v within']
  free clear := by cases clear

omit [DecidableEq ι] in
theorem mono {pc' : ι → π} (exclusive : Exclusive inside flag pc) (before : ∀ t, inside (pc' t) → inside (pc t)) :
    Exclusive inside flag pc' :=
  ⟨fun t u within within' => exclusive.unique (before t within) (before u within'),
    fun clear t within => exclusive.free clear t (before t within)⟩

section

variable (exclusive : Exclusive inside flag pc)
include exclusive

theorem move (kept : inside p → inside (pc t)) : Exclusive inside flag (update pc t p) := by
  refine exclusive.mono ?_
  intro u within
  by_cases same : u = t
  · subst same
    rw [update_self] at within
    exact kept within
  · rwa [update_of_ne same] at within

theorem leave (within : inside (pc t)) (outside : ¬ inside p) (flag' : Bool) :
    Exclusive inside flag' (update pc t p) := by
  have empty : ∀ u, ¬ inside (update pc t p u) := by
    intro u within'
    by_cases same : u = t
    · subst same
      rw [update_self] at within'
      exact outside within'
    · rw [update_of_ne same] at within'
      exact same (exclusive.unique within' within)
  exact ⟨fun u _ within' _ => absurd within' (empty u), fun _ => empty⟩

/-- What holds at points of the section is the business of the thread that is inside. -/
theorem ensures {fact : Prop} (within : inside (pc t))
    (included : ∀ q, points q → inside q) (here : points p → fact) : Ensures points fact (update pc t p) := by
  intro u there
  by_cases same : u = t
  · subst same
    rw [update_self] at there
    exact here there
  · rw [update_of_ne same] at there
    exact absurd (exclusive.unique (included _ there) within) same

/-- What holds at all points outside of the section holds everywhere once it holds where the thread inside goes. -/
theorem everywhere {fact : π → Prop} (within : inside (pc t))
    (outside : ∀ q, ¬ inside q → fact q) (here : fact p) : Everywhere fact (update pc t p) := by
  intro u
  by_cases same : u = t
  · subst same
    rwa [update_self]
  · rw [update_of_ne same]
    exact outside _ fun within' => same (exclusive.unique within' within)

end

end Exclusive

/-- The queue lists the threads that sleep on it, each of them once. -/
structure Parked (asleep : π → Prop) (queue : List ι) (pc : ι → π) : Prop where
  nodup : queue.Nodup
  mem_iff : ∀ t, t ∈ queue ↔ asleep (pc t)

namespace Parked

variable {asleep : π → Prop} {queue : List ι}

theorem move (parked : Parked asleep queue pc) (awake : ¬ asleep (pc t)) (awake' : ¬ asleep p) :
    Parked asleep queue (update pc t p) where
  nodup := parked.nodup
  mem_iff u := by
    by_cases same : u = t
    · subst same
      rw [update_self, parked.mem_iff]
      exact ⟨fun sleeps => absurd sleeps awake, fun sleeps => absurd sleeps awake'⟩
    · rw [update_of_ne same, parked.mem_iff]

theorem block (parked : Parked asleep queue pc) (awake : ¬ asleep (pc t)) (sleeps : asleep p) :
    Parked asleep (queue ++ [t]) (update pc t p) where
  nodup := by
    have new : t ∉ queue := fun queued => awake ((parked.mem_iff t).1 queued)
    rw [List.nodup_append]
    refine ⟨parked.nodup, List.nodup_singleton t, ?_⟩
    rintro u queued v last rfl
    rw [List.mem_singleton] at last
    exact new (last ▸ queued)
  mem_iff u := by
    by_cases same : u = t
    · subst same
      simpa using sleeps
    · rw [update_of_ne same, ← parked.mem_iff]
      simp [same]

theorem unblock (parked : Parked asleep (t :: queue) pc) (awake : ¬ asleep p) :
    Parked asleep queue (update pc t p) where
  nodup := parked.nodup.of_cons
  mem_iff u := by
    by_cases same : u = t
    · subst same
      rw [update_self]
      exact ⟨fun queued => absurd queued parked.nodup.notMem, fun sleeps => absurd sleeps awake⟩
    · rw [update_of_ne same, ← parked.mem_iff]
      simp [same]

end Parked

end MicroOs
