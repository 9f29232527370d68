import Mathlib.Logic.Basic

/-!
Loops with a condition: `while (cond(s)) s = body(s)`, the states that such a loop reaches,
and when it ends. Nothing here names a particular program.
-/

namespace Estros

variable {σ : Type} {cond : σ → Bool} {body : σ → σ} {start state : σ}

def whileLoop (cond : σ → Bool) (body : σ → σ) : Nat → σ → σ
  | 0, state => state
  | fuel + 1, state => if cond state then whileLoop cond body fuel (body state) else state

/-- The loop ends: with enough rounds its condition fails. -/
def Finishes (cond : σ → Bool) (body : σ → σ) (start : σ) : Prop :=
  ∃ fuel, cond (whileLoop cond body fuel start) = false

/-- The states in which the loop evaluates its condition. -/
inductive Reaches (cond : σ → Bool) (body : σ → σ) (start : σ) : σ → Prop where
  | start : Reaches cond body start start
  | next {state : σ} (reached : Reaches cond body start state) (continues : cond state = true) :
      Reaches cond body start (body state)

theorem whileLoop_true (continues : cond state = true) (fuel : Nat) :
    whileLoop cond body (fuel + 1) state = whileLoop cond body fuel (body state) := by
  rw [whileLoop, if_pos continues]

theorem whileLoop_false (stops : cond state = false) (fuel : Nat) :
    whileLoop cond body fuel state = state := by
  cases fuel with
  | zero => rfl
  | succ fuel => simp [whileLoop, stops]

theorem whileLoop_more {fuel : Nat} (stopped : cond (whileLoop cond body fuel state) = false)
    (more : Nat) : whileLoop cond body (fuel + more) state = whileLoop cond body fuel state := by
  induction fuel generalizing state with
  | zero => exact whileLoop_false stopped (0 + more)
  | succ fuel ih =>
      cases continues : cond state with
      | false => rw [whileLoop_false continues, whileLoop_false continues]
      | true =>
          rw [whileLoop_true continues] at stopped
          rw [Nat.add_right_comm, whileLoop_true continues, whileLoop_true continues]
          exact ih stopped

theorem whileLoop_invariant (inv : σ → Prop)
    (kept : ∀ state, inv state → cond state = true → inv (body state)) (fuel : Nat)
    (holds : inv state) : inv (whileLoop cond body fuel state) := by
  induction fuel generalizing state with
  | zero => exact holds
  | succ fuel ih =>
      cases continues : cond state with
      | false =>
          rw [whileLoop_false continues]
          exact holds
      | true =>
          rw [whileLoop_true continues]
          exact ih (kept state holds continues)

/-- A measure that every round decreases bounds the rounds. -/
theorem whileLoop_stops (measure : σ → Nat)
    (shrinks : ∀ state, cond state = true → measure (body state) < measure state) {fuel : Nat}
    (enough : measure state ≤ fuel) : cond (whileLoop cond body fuel state) = false := by
  induction fuel generalizing state with
  | zero =>
      cases continues : cond state with
      | false => exact continues
      | true =>
          have less := shrinks state continues
          exact absurd (Nat.lt_of_lt_of_le less enough) (Nat.not_lt_zero _)
  | succ fuel ih =>
      cases continues : cond state with
      | false =>
          rw [whileLoop_false continues]
          exact continues
      | true =>
          rw [whileLoop_true continues]
          exact ih (Nat.le_of_lt_succ (Nat.lt_of_lt_of_le (shrinks state continues) enough))

theorem Reaches.invariant (reached : Reaches cond body start state) (inv : σ → Prop)
    (kept : ∀ state, inv state → cond state = true → inv (body state)) (holds : inv start) :
    inv state := by
  induction reached with
  | start => exact holds
  | next _ continues ih => exact kept _ ih continues

theorem Reaches.whileLoop (reached : Reaches cond body start state) (fuel : Nat) :
    Reaches cond body start (whileLoop cond body fuel state) :=
  whileLoop_invariant (Reaches cond body start) (fun _ reached continues => reached.next continues)
    fuel reached

theorem Reaches.cases_first (reached : Reaches cond body start state) :
    state = start ∨ cond start = true ∧ Reaches cond body (body start) state := by
  induction reached with
  | start => exact Or.inl rfl
  | next reached continues ih =>
      rcases ih with rfl | ⟨first, later⟩
      · exact Or.inr ⟨continues, .start⟩
      · exact Or.inr ⟨first, later.next continues⟩

theorem Reaches.linear {other : σ} (one : Reaches cond body start state)
    (two : Reaches cond body start other) :
    Reaches cond body state other ∨ Reaches cond body other state := by
  induction two with
  | start => exact Or.inr one
  | next reached continues ih =>
      rcases ih with ahead | behind
      · exact Or.inl (ahead.next continues)
      · rcases behind.cases_first with rfl | ⟨_, later⟩
        · exact Or.inl (Reaches.start.next continues)
        · exact Or.inr later

/-- As long as the goal is not reached, a measure decreases: the goal is reached. -/
theorem Reaches.goal (reached : Reaches cond body start state) (goal : σ → Prop) (measure : σ → Nat)
    (shrinks : ∀ now, Reaches cond body start now → ¬ goal now →
      cond now = true ∧ measure (body now) < measure now) :
    ∃ now, Reaches cond body start now ∧ goal now := by
  induction size : measure state using Nat.strongRecOn generalizing state with
  | ind count ih =>
      by_cases done : goal state
      · exact ⟨state, reached, done⟩
      · obtain ⟨continues, less⟩ := shrinks state reached done
        exact ih _ (size ▸ less) (reached.next continues) rfl

theorem Reaches.finishes (reached : Reaches cond body start state)
    (finishes : Finishes cond body start) : Finishes cond body state := by
  induction reached with
  | start => exact finishes
  | @next state _ continues ih =>
      obtain ⟨fuel, stopped⟩ := ih
      cases fuel with
      | zero => exact absurd (continues.symm.trans stopped) (by decide)
      | succ fuel =>
          rw [whileLoop_true continues] at stopped
          exact ⟨fuel, stopped⟩

theorem Reaches.finishes_back (reached : Reaches cond body start state)
    (finishes : Finishes cond body state) : Finishes cond body start := by
  induction reached with
  | start => exact finishes
  | next _ continues ih =>
      obtain ⟨fuel, stopped⟩ := finishes
      refine ih ⟨fuel + 1, ?_⟩
      rw [whileLoop_true continues]
      exact stopped

theorem finishes_of_shrinks (measure : σ → Nat)
    (shrinks : ∀ now, Reaches cond body start now → cond now = true →
      measure (body now) < measure now) : Finishes cond body start := by
  have first : Reaches cond body start start := .start
  obtain ⟨last, reached, stopped⟩ := first.goal (fun now => cond now = false) measure
    fun now reached continues => by
      have holds := eq_true_of_ne_false continues
      exact ⟨holds, shrinks now reached holds⟩
  exact reached.finishes_back ⟨0, stopped⟩

end Estros
