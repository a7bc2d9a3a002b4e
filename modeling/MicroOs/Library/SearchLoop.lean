import Mathlib.Algebra.Order.Ring.Nat

/-! # Counted loops that may stop

A loop counts up to a bound. Its body may end the loop with a result, and it may fail to return. `Describes` says what
is to be known of one round: which rounds are good, and what a good round says about its number. `loop_sound` and
`loop_complete` say the same of a whole loop.
-/

namespace MicroOs.SearchLoop

variable {left i : ℕ}

inductive Verdict (ρ : Type*)
  | next
  | stop (result : ρ)

variable {σ ρ : Type*}

/-- The loop from number `i` on with the rounds left. There is no result if the body does not return. -/
def loop (body : ℕ → σ → Option (Verdict ρ × σ)) : ℕ → ℕ → σ → Option (Option ρ × σ)
  | 0, _, s => some (none, s)
  | left + 1, i, s =>
    match body i s with
    | none => none
    | some (.next, s) => loop body left (i + 1) s
    | some (.stop result, s) => some (some result, s)

/-- The rounds from `first` on, by their verdicts: all of them, or those up to the one that stops. -/
def Outcome (verdict : ℕ → Verdict ρ → Prop) (first last : ℕ) : Option ρ → Prop
  | none => ∀ i, first ≤ i → i < last → verdict i .next
  | some result => ∃ i, first ≤ i ∧ i < last ∧ (∀ j, first ≤ j → j < i → verdict j .next) ∧ verdict i (.stop result)

/-- What is known of a state after a round. -/
def After (inv : ℕ → σ → Prop) (post : ℕ → ρ → σ → Prop) (i : ℕ) (s : σ) : Verdict ρ → Prop
  | .next => inv (i + 1) s
  | .stop result => post i result s

/-- One round: it is good exactly with the verdicts that hold of its number. -/
structure Describes (body : ℕ → σ → Option (Verdict ρ × σ)) (inv : ℕ → σ → Prop) (post : ℕ → ρ → σ → Prop)
    (good : σ → Prop) (verdict : ℕ → Verdict ρ → Prop) : Prop where
  back : ∀ {i s v s'}, body i s = some (v, s') → good s' → good s
  sound : ∀ {i s v s'}, inv i s → body i s = some (v, s') → good s' → verdict i v ∧ After inv post i s' v
  complete : ∀ {i s v}, inv i s → good s → verdict i v → ∃ s', body i s = some (v, s') ∧ good s'

variable {r : Option ρ}

namespace Outcome

variable {verdict : ℕ → Verdict ρ → Prop} {first last : ℕ}

theorem cons (next : verdict first .next) (rest : Outcome verdict (first + 1) last r) :
    Outcome verdict first last r := by
  have extend (i : ℕ) (later : ∀ j, first + 1 ≤ j → j < i → verdict j .next) (j : ℕ) (lower : first ≤ j)
      (upper : j < i) : verdict j .next := by
    rcases lower.eq_or_lt with rfl | lower
    · exact next
    · exact later j lower upper
  cases r with
  | none => exact extend last rest
  | some result =>
    obtain ⟨i, lower, upper, before, stop⟩ := rest
    exact ⟨i, by omega, upper, extend i before, stop⟩

theorem imp {verdict' : ℕ → Verdict ρ → Prop} (implies : ∀ {i v}, verdict i v → verdict' i v)
    (outcome : Outcome verdict first last r) : Outcome verdict' first last r := by
  cases r with
  | none => exact fun i lower upper => implies (outcome i lower upper)
  | some result =>
    obtain ⟨i, lower, upper, before, stop⟩ := outcome
    exact ⟨i, lower, upper, fun j lower upper => implies (before j lower upper), implies stop⟩

end Outcome

variable {s s' : σ}

section

variable {body : ℕ → σ → Option (Verdict ρ × σ)} {inv : ℕ → σ → Prop} {post : ℕ → ρ → σ → Prop} {good : σ → Prop}
  {verdict : ℕ → Verdict ρ → Prop}

theorem loop_next (round : body i s = some (.next, s')) : loop body (left + 1) i s = loop body left (i + 1) s' := by
  rw [loop, round]

theorem loop_stop {result : ρ} (round : body i s = some (.stop result, s')) :
    loop body (left + 1) i s = some (some result, s') := by
  rw [loop, round]

/-- The first round of a loop that ends, and what is left. -/
theorem loop_cases (ended : loop body (left + 1) i s = some (r, s')) :
    (∃ s₁, body i s = some (.next, s₁) ∧ loop body left (i + 1) s₁ = some (r, s')) ∨
      ∃ result, body i s = some (.stop result, s') ∧ r = some result := by
  rcases round : body i s with _ | ⟨_ | result, s₁⟩
  · rw [loop, round] at ended
    cases ended
  · rw [loop_next round] at ended
    exact .inl ⟨s₁, rfl, ended⟩
  · rw [loop_stop round] at ended
    cases ended
    exact .inr ⟨result, rfl, rfl⟩

theorem exists_stop {result : ρ} (ended : loop body left i s = some (some result, s')) :
    ∃ j s₁, body j s₁ = some (.stop result, s') := by
  induction left generalizing i s with
  | zero => cases ended
  | succ left ih =>
    rcases loop_cases ended with ⟨s₁, first, rest⟩ | ⟨found, first, same⟩
    · exact ih rest
    · cases same
      exact ⟨i, s, first⟩

/-- A loop ends if every round returns, goes on and leads from one state to the next. -/
theorem loop_run (inv : ℕ → σ → Prop)
    (next : ∀ j s, i ≤ j → j < i + left → inv j s → ∃ s', body j s = some (.next, s') ∧ inv (j + 1) s')
    (start : inv i s) : ∃ s', loop body left i s = some (none, s') ∧ inv (i + left) s' := by
  induction left generalizing i s with
  | zero => exact ⟨s, rfl, start⟩
  | succ left ih =>
    obtain ⟨s₁, ran, after⟩ := next i s le_rfl (by omega) start
    rw [loop_next ran, Nat.add_comm left 1, ← Nat.add_assoc]
    exact ih (fun j s lower upper => next j s (by omega) (by omega)) after

/-- What every round keeps is kept by the loop. -/
theorem loop_preserves {property : σ → Prop} (kept : ∀ {i s v s'}, property s → body i s = some (v, s') → property s')
    (start : property s) (ended : loop body left i s = some (r, s')) : property s' := by
  induction left generalizing i s with
  | zero =>
    cases ended
    exact start
  | succ left ih =>
    rcases loop_cases ended with ⟨s₁, first, rest⟩ | ⟨result, first, -⟩
    · exact ih (kept start first) rest
    · exact kept start first

section

variable (round : Describes body inv post good verdict)
include round

theorem loop_back (ended : loop body left i s = some (r, s')) (final : good s') : good s := by
  induction left generalizing i s with
  | zero =>
    cases ended
    exact final
  | succ left ih =>
    rcases loop_cases ended with ⟨s₁, first, rest⟩ | ⟨result, first, -⟩
    · exact round.back first (ih rest)
    · exact round.back first final

/-- A loop that ends in a good state has gone as the verdicts say. -/
theorem loop_sound (start : inv i s) (ended : loop body left i s = some (r, s')) (final : good s') :
    Outcome (fun j v => verdict j v ∧ ∀ result, v = .stop result → post j result s') i (i + left) r ∧
      (r = none → inv (i + left) s') := by
  induction left generalizing i s with
  | zero =>
    cases ended
    exact ⟨fun j lower upper => by omega, fun _ => start⟩
  | succ left ih =>
    rcases loop_cases ended with ⟨s₁, first, rest⟩ | ⟨result, first, rfl⟩
    · obtain ⟨next, after⟩ := round.sound start first (loop_back round rest final)
      have later := ih after rest
      rw [Nat.add_right_comm i 1 left] at later
      exact ⟨later.1.cons ⟨next, nofun⟩, later.2⟩
    · obtain ⟨stop, after⟩ := round.sound start first final
      refine ⟨⟨i, le_rfl, by omega, fun j lower upper => by omega, stop, ?_⟩, nofun⟩
      rintro _ ⟨⟩
      exact after

/-- A loop in which all rounds go on ends in a good state. -/
theorem loop_all (start : inv i s) (first : good s)
    (all : ∀ j, i ≤ j → j < i + left → verdict j .next) : ∃ s', loop body left i s = some (none, s') ∧ good s' := by
  have run : ∃ s', loop body left i s = some (none, s') ∧ inv (i + left) s' ∧ good s' := by
    apply loop_run (fun j s => inv j s ∧ good s) _ ⟨start, first⟩
    rintro j s lower upper ⟨before, good₀⟩
    obtain ⟨s₁, ran, good₁⟩ := round.complete before good₀ (all j lower upper)
    exact ⟨s₁, ran, (round.sound before ran good₁).2, good₁⟩
  obtain ⟨s', ended, -, final⟩ := run
  exact ⟨s', ended, final⟩

/-- A loop ends in a good state with the first round that stops. -/
theorem loop_until {j : ℕ} {result : ρ} (start : inv i s)
    (first : good s) (lower : i ≤ j) (upper : j < i + left) (before : ∀ m, i ≤ m → m < j → verdict m .next)
    (stop : verdict j (.stop result)) :
    ∃ s', loop body left i s = some (some result, s') ∧ good s' ∧ post j result s' := by
  induction left generalizing i s with
  | zero => omega
  | succ left ih =>
    rcases lower.eq_or_lt with rfl | lower
    · obtain ⟨s₁, ran, good₁⟩ := round.complete start first stop
      exact ⟨s₁, loop_stop ran, good₁, (round.sound start ran good₁).2⟩
    · obtain ⟨s₁, ran, good₁⟩ := round.complete start first (before i le_rfl lower)
      rw [loop_next ran]
      exact ih (round.sound start ran good₁).2 good₁ lower (by omega) fun m lower upper => before m (by omega) upper

/-- A loop goes as the verdicts say, and ends in a good state. -/
theorem loop_complete (start : inv i s) (first : good s) (outcome : Outcome verdict i (i + left) r) :
    ∃ s', loop body left i s = some (r, s') ∧ good s' := by
  cases r with
  | none => exact loop_all round start first outcome
  | some result =>
    obtain ⟨j, lower, upper, before, stop⟩ := outcome
    obtain ⟨s', ended, final, -⟩ := loop_until round start first lower upper before stop
    exact ⟨s', ended, final⟩

end

end

end MicroOs.SearchLoop
