import Mathlib.Data.List.Basic

/-! # Computations that record what they read

A computation over a memory that keeps the list of the addresses it has read and may fail to return. For each way of
putting computations together there is a rule for what is returned when only a region is read, and a rule that no read
is forgotten: one read outside of a region shows in every result of the computation.
-/

namespace MicroOs

open List

universe u

/-- A computation with the addresses that have been read, the latest one first. -/
abbrev Reading (A α : Type u) := StateT (List A) Option α

namespace Reading

variable {A α β : Type u}

def read (memory : A → α) (address : A) : Reading A α := fun seen => some (memory address, address :: seen)

def never : Reading A α := fun _ => none

theorem bind_apply (m : Reading A α) (f : α → Reading A β) (seen : List A) :
    (m >>= f) seen = (m seen).bind fun result => f result.1 result.2 := rfl

/-- After some reads in the region, a computation goes on as another one. -/
def Reaches (m m' : Reading A α) (region : A → Prop) : Prop :=
  ∀ seen, ∃ reads, m seen = m' (reads ++ seen) ∧ ∀ address ∈ reads, region address

/-- The computation returns `value` and reads only in the region. -/
def Returns (m : Reading A α) (region : A → Prop) (value : α) : Prop := Reaches m (pure value) region

variable {region : A → Prop} {m : Reading A α} {f : α → Reading A β} {value : α} {result : β}

theorem Reaches.trans {first second third : Reading A α} (start : Reaches first second region)
    (rest : Reaches second third region) : Reaches first third region := by
  intro seen
  obtain ⟨reads, same, inside⟩ := start seen
  obtain ⟨more, same', inside'⟩ := rest (reads ++ seen)
  refine ⟨more ++ reads, ?_, ?_⟩
  · rw [same, same', append_assoc]
  · intro address member
    rcases mem_append.mp member with later | earlier
    · exact inside' address later
    · exact inside address earlier

theorem Returns.mono {larger : A → Prop} (returns : Returns m region value)
    (inside : ∀ address, region address → larger address) : Returns m larger value := by
  intro seen
  obtain ⟨reads, same, within⟩ := returns seen
  exact ⟨reads, same, fun address member => inside address (within address member)⟩

theorem returns_pure (value : α) : Returns (pure value) region value := fun _ => ⟨[], rfl, forall_mem_nil _⟩

theorem returns_read (memory : A → α) {address : A} (inside : region address) :
    Returns (read memory address) region (memory address) :=
  fun _ => ⟨[address], rfl, forall_mem_singleton.mpr inside⟩

section

variable (returns : Returns m region value)
include returns

theorem Returns.reaches (f : α → Reading A β) : Reaches (m >>= f) (f value) region := by
  intro seen
  obtain ⟨reads, returned, inside⟩ := returns seen
  refine ⟨reads, ?_, inside⟩
  rw [bind_apply, returned]
  rfl

theorem Returns.bind (rest : Returns (f value) region result) :
    Returns (m >>= f) region result := (returns.reaches f).trans rest

theorem Returns.unique {region' : A → Prop} {value' : α} (returns' : Returns m region' value') : value = value' := by
  obtain ⟨reads, same, -⟩ := returns []
  obtain ⟨reads', same', -⟩ := returns' []
  rw [same] at same'
  exact congrArg Prod.fst (Option.some.inj same')

end

def Keeps (m : Reading A α) : Prop :=
  ∀ seen value after, m seen = some (value, after) → ∀ address ∈ seen, address ∈ after

@[grind ←] theorem keeps_pure (value : α) : Keeps (pure value : Reading A α) := by
  intro seen _ after returned address member
  cases returned
  exact member

@[grind ←] theorem keeps_never : Keeps (never : Reading A α) := by
  intro seen value after returned
  cases returned

@[grind ←] theorem keeps_read (memory : A → α) (address : A) : Keeps (read memory address) := by
  intro seen value after returned other member
  cases returned
  exact mem_cons_of_mem _ member

@[grind ←] theorem Keeps.bind (first : Keeps m) (second : ∀ value, Keeps (f value)) : Keeps (m >>= f) := by
  intro seen result after returned address member
  rw [Reading.bind_apply, Option.bind_eq_some_iff] at returned
  obtain ⟨⟨value, middle⟩, returned, returned'⟩ := returned
  exact second value _ _ _ returned' address (first _ _ _ returned address member)

@[grind ←] theorem keeps_foldlM {σ : Type u} {step : σ → β → Reading A σ}
    (keeps : ∀ state item, Keeps (step state item))
    (items : List β) (state : σ) : Keeps (items.foldlM step state) := by
  induction items generalizing state with
  | nil => exact keeps_pure state
  | cons item items ih =>
    exact (keeps state item).bind fun next => ih next

theorem mem_of_read {memory : A → α} {address : A} {seen after : List A} (keeps : ∀ value, Keeps (f value))
    (returned : (read memory address >>= f) seen = some (result, after)) : address ∈ after :=
  keeps _ _ _ _ returned address mem_cons_self

/-- A computation that goes on with a read outside of the region does not return with reads in the region only. -/
theorem not_returns_of_reaches {memory : A → α} {address : A} {whole : Reading A β} (keeps : ∀ value, Keeps (f value))
    (reaches : Reaches whole (read memory address >>= f) region) (outside : ¬region address) :
    ¬Returns whole region result := by
  intro returns
  obtain ⟨before, same, -⟩ := reaches []
  obtain ⟨reads, returned, inside⟩ := returns []
  rw [same] at returned
  have member := mem_of_read keeps returned
  rw [append_nil] at member
  exact outside (inside address member)

end Reading

end MicroOs
