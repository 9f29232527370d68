import Mathlib.Logic.Basic

/-!
Machines that may halt, over a state that only moves along a fixed relation.
A `Frame` says what every step keeps; a `Machine` carries the proof that it keeps
it, so that a program assembled with `do` needs no separate monotonicity proof.
Nothing here names a particular program.
-/

namespace Estros

variable {σ ε α β : Type}

/-- The relation between the state before and the state after any number of steps. -/
structure Frame (σ : Type) where
  rel : σ → σ → Prop
  refl : ∀ state, rel state state
  trans : ∀ {first middle last}, rel first middle → rel middle last → rel first last

/-- A halted run keeps the state in which it stopped. -/
inductive Outcome (ε σ α : Type) where
  | ok (value : α) (state : σ)
  | halt (why : ε) (state : σ)

def Outcome.state : Outcome ε σ α → σ
  | .ok _ state => state
  | .halt _ state => state

@[simp] theorem Outcome.state_ok (value : α) (state : σ) :
    (Outcome.ok value state : Outcome ε σ α).state = state := rfl

@[simp] theorem Outcome.state_halt (why : ε) (state : σ) :
    (Outcome.halt why state : Outcome ε σ α).state = state := rfl

def Outcome.returns : Outcome ε σ α → Bool
  | .ok _ _ => true
  | .halt _ _ => false

theorem Outcome.eq_ok_of_returns {outcome : Outcome ε σ α} (returned : outcome.returns = true) :
    ∃ value, outcome = .ok value outcome.state := by
  cases outcome with
  | ok value state => exact ⟨value, rfl⟩
  | halt why state => cases returned

/-- Why the run halted, if it did. -/
def Outcome.reason : Outcome ε σ α → Option ε
  | .ok _ _ => none
  | .halt why _ => some why

theorem Outcome.eq_halt_of_reason {outcome : Outcome ε σ α} {why : ε}
    (halted : outcome.reason = some why) : ∃ state, outcome = .halt why state := by
  cases outcome with
  | ok value state => cases halted
  | halt other state =>
      cases halted
      exact ⟨state, rfl⟩

structure Machine (frame : Frame σ) (ε α : Type) where
  run : σ → Outcome ε σ α
  keeps : ∀ state, frame.rel state (run state).state

namespace Machine

variable {frame : Frame σ}

protected def pure (value : α) : Machine frame ε α where
  run state := .ok value state
  keeps state := frame.refl state

protected def bind (first : Machine frame ε α) (next : α → Machine frame ε β) :
    Machine frame ε β where
  run state :=
    match first.run state with
    | .ok value middle => (next value).run middle
    | .halt why middle => .halt why middle
  keeps state := by
    have kept := first.keeps state
    cases reached : first.run state with
    | ok value middle =>
        rw [reached] at kept
        exact frame.trans kept ((next value).keeps middle)
    | halt why middle =>
        rw [reached] at kept
        exact kept

instance : Monad (Machine frame ε) where
  pure := Machine.pure
  bind := Machine.bind

def get : Machine frame ε σ where
  run state := .ok state state
  keeps state := frame.refl state

def modify (update : σ → σ) (allowed : ∀ state, frame.rel state (update state)) :
    Machine frame ε Unit where
  run state := .ok () (update state)
  keeps := allowed

def halt (why : ε) : Machine frame ε α where
  run state := .halt why state
  keeps state := frame.refl state

def check (condition : Bool) (why : ε) : Machine frame ε Unit :=
  if condition then pure () else halt why

@[simp] theorem run_pure (value : α) (state : σ) :
    (pure value : Machine frame ε α).run state = .ok value state := rfl

@[simp] theorem run_get (state : σ) :
    (get : Machine frame ε σ).run state = .ok state state := rfl

@[simp] theorem run_modify (update : σ → σ) (allowed : ∀ state, frame.rel state (update state))
    (state : σ) :
    (modify update allowed : Machine frame ε Unit).run state = .ok () (update state) := rfl

@[simp] theorem run_halt (why : ε) (state : σ) :
    (halt why : Machine frame ε α).run state = .halt why state := rfl

theorem run_bind (first : Machine frame ε α) (next : α → Machine frame ε β) (state : σ) :
    (first >>= next).run state =
      match first.run state with
      | .ok value middle => (next value).run middle
      | .halt why middle => .halt why middle := rfl

theorem run_bind_ok {first : Machine frame ε α} {next : α → Machine frame ε β}
    {state middle : σ} {value : α} (reached : first.run state = .ok value middle) :
    (first >>= next).run state = (next value).run middle := by
  rw [run_bind, reached]

theorem run_bind_halt {first : Machine frame ε α} {next : α → Machine frame ε β}
    {state middle : σ} {why : ε} (reached : first.run state = .halt why middle) :
    (first >>= next).run state = .halt why middle := by
  rw [run_bind, reached]

theorem bind_keeps (first : Machine frame ε α) (next : α → Machine frame ε β) (state : σ) :
    frame.rel (first.run state).state ((first >>= next).run state).state := by
  cases reached : first.run state with
  | ok value middle =>
      rw [run_bind_ok reached]
      exact (next value).keeps middle
  | halt why middle =>
      rw [run_bind_halt reached]
      exact frame.refl middle

/-- A machine for a finer frame is one for every coarser frame. -/
def widen {coarse : Frame σ} (allowed : ∀ {before after}, frame.rel before after → coarse.rel before after)
    (machine : Machine frame ε α) : Machine coarse ε α where
  run := machine.run
  keeps state := allowed (machine.keeps state)

@[simp] theorem run_widen {coarse : Frame σ}
    (allowed : ∀ {before after}, frame.rel before after → coarse.rel before after)
    (machine : Machine frame ε α) (state : σ) :
    (widen allowed machine).run state = machine.run state := rfl

theorem run_check_true {condition : Bool} (holds : condition = true) (why : ε) (state : σ) :
    (check condition why : Machine frame ε Unit).run state = .ok () state := by
  simp [check, holds]

theorem run_check_false {condition : Bool} (fails : condition = false) (why : ε) (state : σ) :
    (check condition why : Machine frame ε Unit).run state = .halt why state := by
  simp [check, fails]

end Machine

end Estros
