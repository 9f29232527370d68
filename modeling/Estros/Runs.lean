import Mathlib.Logic.Basic

/-!
Runs of a given length of anything that takes steps: how they compose, what they preserve, how
one machine follows another, and loops that are gone through a number of times. Nothing here
names a particular program.
-/

namespace Estros

variable {σ τ : Type} {step : σ → σ → Prop} {other : τ → τ → Prop}

inductive Steps (step : σ → σ → Prop) : Nat → σ → σ → Prop where
  | refl (state : σ) : Steps step 0 state state
  | next {count : Nat} {first middle last : σ} (one : step first middle)
      (rest : Steps step count middle last) : Steps step (count + 1) first last

theorem Steps.one {first last : σ} (one : step first last) : Steps step 1 first last :=
  .next one (.refl last)

theorem Steps.trans {left right : Nat} {first middle last : σ} (begins : Steps step left first middle)
    (ends : Steps step right middle last) : Steps step (left + right) first last := by
  induction begins with
  | refl state =>
      rw [Nat.zero_add]
      exact ends
  | @next count first second middle one _ ih =>
      rw [Nat.add_right_comm]
      exact .next one (ih ends)

/-- A machine that follows each step of another one follows its runs. -/
theorem Steps.simulate {count : Nat} {first last : σ} (run : Steps step count first last)
    (rel : σ → τ → Prop)
    (follows : ∀ {a a' b}, rel a b → step a a' → ∃ b', other b b' ∧ rel a' b') {start : τ}
    (related : rel first start) : ∃ reached, Steps other count start reached ∧ rel last reached := by
  induction run generalizing start with
  | refl => exact ⟨start, .refl start, related⟩
  | next one _ ih =>
      obtain ⟨second, also, still⟩ := follows related one
      obtain ⟨reached, rest, behind⟩ := ih still
      exact ⟨reached, .next also rest, behind⟩

/-- A body that takes `cost` steps and counts down is gone through as often as the count says. -/
theorem Steps.rounds {cost : Nat} (inv : Nat → σ → Prop)
    (round : ∀ {left state}, inv (left + 1) state →
      ∃ after, Steps step cost state after ∧ inv left after) (rounds : Nat) {start : σ}
    (holds : inv rounds start) : ∃ after, Steps step (rounds * cost) start after ∧ inv 0 after := by
  induction rounds generalizing start with
  | zero =>
      rw [Nat.zero_mul]
      exact ⟨start, .refl start, holds⟩
  | succ left ih =>
      obtain ⟨middle, body, counted⟩ := round holds
      obtain ⟨after, rest, done⟩ := ih counted
      refine ⟨after, ?_, done⟩
      rw [Nat.succ_mul, Nat.add_comm]
      exact body.trans rest

end Estros
