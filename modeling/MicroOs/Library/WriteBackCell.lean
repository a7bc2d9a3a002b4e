import Mathlib.Data.Option.Basic

/-! # A cell behind a write-back cache

A cell has a value in the backing store and possibly a copy in the cache, which is marked when it may differ. The value
that a user sees is the copy, if there is one. Loading and evicting the copy do not change what is seen, as long as an
unmarked copy agrees with the backing store.
-/

namespace MicroOs

/-- A value in the backing store and its copy in the cache, with the mark of the copy. -/
structure Cell (ν : Type*) where
  cached : Option (ν × Bool)
  backing : ν

namespace Cell

variable {ν : Type*} {c : Cell ν} {value : ν}

def view (c : Cell ν) : ν :=
  match c.cached with
  | some (value, _) => value
  | none => c.backing

/-- The cell stands for `value`, and an unmarked copy agrees with the backing store. -/
structure Holds (c : Cell ν) (value : ν) : Prop where
  view_eq : c.view = value
  clean : ∀ copy, c.cached = some (copy, false) → c.backing = copy

def load (c : Cell ν) : Cell ν := { c with cached := some (c.backing, false) }

def evict (c : Cell ν) : Cell ν :=
  match c.cached with
  | some (copy, true) => { cached := none, backing := copy }
  | some (_, false) => { c with cached := none }
  | none => c

def soil (c : Cell ν) : Cell ν := { c with cached := c.cached.map fun copy => (copy.1, true) }

def write (c : Cell ν) (value : ν) : Cell ν := { c with cached := some (value, true) }

section

variable (holds : c.Holds value)
include holds

theorem Holds.backing_eq (absent : c.cached = none) : c.backing = value := by
  have seen := holds.view_eq
  rwa [view, absent] at seen

theorem Holds.load (absent : c.cached = none) : c.load.Holds value where
  view_eq := holds.backing_eq absent
  clean copy cached := by
    obtain ⟨rfl, -⟩ := Prod.mk.inj (Option.some.inj cached)
    rfl

theorem Holds.evict : c.evict.Holds value := by
  have seen := holds.view_eq
  have clean := holds.clean
  obtain ⟨cached, backing⟩ := c
  rcases cached with _ | ⟨copy, _ | _⟩
  · exact holds
  · exact ⟨(clean copy rfl).trans seen, fun _ none => nomatch none⟩
  · exact ⟨seen, fun _ none => nomatch none⟩

theorem Holds.soil : c.soil.Holds value := by
  have seen := holds.view_eq
  obtain ⟨cached, backing⟩ := c
  rcases cached with _ | ⟨copy, dirty⟩
  · exact ⟨seen, fun _ none => nomatch none⟩
  · exact ⟨seen, fun _ marked => nomatch marked⟩

end

theorem holds_write (c : Cell ν) (value : ν) : (c.write value).Holds value where
  view_eq := rfl
  clean _ marked := nomatch marked

/-- What happens to a cell while it is not written: its copy is made, dropped and marked. -/
inductive Maintained (c : Cell ν) : Cell ν → Prop
  | refl : Maintained c c
  | load {c' : Cell ν} (before : Maintained c c') (absent : c'.cached = none) : Maintained c c'.load
  | evict {c' : Cell ν} (before : Maintained c c') : Maintained c c'.evict
  | soil {c' : Cell ν} (before : Maintained c c') : Maintained c c'.soil

theorem Maintained.trans {c₁ c₂ : Cell ν} (before : c.Maintained c₁) (after : c₁.Maintained c₂) : c.Maintained c₂ := by
  induction after with
  | refl => exact before
  | load _ absent ih => exact .load ih absent
  | evict _ ih => exact .evict ih
  | soil _ ih => exact .soil ih

theorem Holds.maintained {c' : Cell ν} (holds : c.Holds value) (maintained : c.Maintained c') : c'.Holds value := by
  induction maintained with
  | refl => exact holds
  | load _ absent ih => exact ih.load absent
  | evict _ ih => exact ih.evict
  | soil _ ih => exact ih.soil

end Cell

end MicroOs
