import Estros.Machine

/-!
Rules of pre- and postconditions for machines that may halt. `Ensures machine post stop`
holds in a state from which the machine ends in a value and a state that satisfy `post`,
or halts in a way that `stop` allows. Nothing here names a particular program.
-/

namespace Estros

open Machine

variable {σ ε α β : Type} {frame : Frame σ}

def Outcome.Satisfies (post : α → σ → Prop) (stop : ε → σ → Prop) : Outcome ε σ α → Prop
  | .ok value state => post value state
  | .halt why state => stop why state

structure Ensures (machine : Machine frame ε α) (post : α → σ → Prop) (stop : ε → σ → Prop)
    (state : σ) : Prop where
  satisfied : (machine.run state).Satisfies post stop

namespace Ensures

variable {post : β → σ → Prop} {middle : α → σ → Prop} {stop : ε → σ → Prop} {state : σ}

theorem ok {machine : Machine frame ε α} {value : α} {after : σ}
    (ensured : Ensures machine middle stop state) (ran : machine.run state = .ok value after) :
    middle value after := by
  have satisfied := ensured.satisfied
  rwa [ran] at satisfied

theorem halted {machine : Machine frame ε α} {why : ε} {after : σ}
    (ensured : Ensures machine middle stop state) (ran : machine.run state = .halt why after) :
    stop why after := by
  have satisfied := ensured.satisfied
  rwa [ran] at satisfied

theorem of_ok {machine : Machine frame ε α} {value : α} {after : σ}
    (ran : machine.run state = .ok value after) (holds : middle value after) :
    Ensures machine middle stop state := by
  constructor
  rw [ran]
  exact holds

theorem of_halt {machine : Machine frame ε α} {why : ε} {after : σ}
    (ran : machine.run state = .halt why after) (allowed : stop why after) :
    Ensures machine middle stop state := by
  constructor
  rw [ran]
  exact allowed

/-- Whatever the frame keeps may be assumed of the state reached. -/
theorem mono {machine : Machine frame ε α} {weaker : α → σ → Prop} {laxer : ε → σ → Prop}
    (ensured : Ensures machine middle stop state)
    (ok : ∀ value after, frame.rel state after → middle value after → weaker value after)
    (halt : ∀ why after, stop why after → laxer why after) :
    Ensures machine weaker laxer state := by
  have kept := machine.keeps state
  cases outcome : machine.run state with
  | ok value after =>
      rw [outcome] at kept
      exact .of_ok outcome (ok value after kept (ensured.ok outcome))
  | halt why after => exact .of_halt outcome (halt why after (ensured.halted outcome))

theorem post_mono {machine : Machine frame ε α} {weaker : α → σ → Prop}
    (ensured : Ensures machine middle stop state)
    (ok : ∀ value after, frame.rel state after → middle value after → weaker value after) :
    Ensures machine weaker stop state :=
  ensured.mono ok fun _ _ allowed => allowed

theorem and {machine : Machine frame ε α} {other : α → σ → Prop} {otherStop : ε → σ → Prop}
    (ensured : Ensures machine middle stop state) (also : Ensures machine other otherStop state) :
    Ensures machine (fun value after => middle value after ∧ other value after)
      (fun why after => stop why after ∧ otherStop why after) state := by
  cases outcome : machine.run state with
  | ok value after => exact .of_ok outcome ⟨ensured.ok outcome, also.ok outcome⟩
  | halt why after => exact .of_halt outcome ⟨ensured.halted outcome, also.halted outcome⟩

theorem bind_run {first : Machine frame ε α} {next : α → Machine frame ε β} {value : α}
    {reached : σ} (ran : first.run state = .ok value reached)
    (after : Ensures (next value) post stop reached) : Ensures (first >>= next) post stop state := by
  constructor
  rw [run_bind_ok ran]
  exact after.satisfied

theorem bind {first : Machine frame ε α} {next : α → Machine frame ε β}
    (ensured : Ensures first middle stop state)
    (after : ∀ value reached, frame.rel state reached → middle value reached →
      Ensures (next value) post stop reached) :
    Ensures (first >>= next) post stop state := by
  have kept := first.keeps state
  cases outcome : first.run state with
  | ok value reached =>
      rw [outcome] at kept
      exact .bind_run outcome (after value reached kept (ensured.ok outcome))
  | halt why reached => exact .of_halt (run_bind_halt outcome) (ensured.halted outcome)

theorem widen {coarse : Frame σ}
    {allowed : ∀ {before after}, frame.rel before after → coarse.rel before after}
    {machine : Machine frame ε α} (ensured : Ensures machine middle stop state) :
    Ensures (Machine.widen allowed machine) middle stop state := ⟨ensured.satisfied⟩

theorem pure {value : β} (holds : post value state) :
    Ensures (Pure.pure value : Machine frame ε β) post stop state := .of_ok rfl holds

theorem halt {why : ε} (allowed : stop why state) :
    Ensures (Machine.halt why : Machine frame ε β) post stop state := .of_halt rfl allowed

theorem get {next : σ → Machine frame ε β} (after : Ensures (next state) post stop state) :
    Ensures (Machine.get >>= next) post stop state := .bind_run rfl after

theorem modify {update : σ → σ} {allowed : ∀ state, frame.rel state (update state)}
    {written : Unit → σ → Prop} (holds : written () (update state)) :
    Ensures (Machine.modify update allowed : Machine frame ε Unit) written stop state :=
  .of_ok rfl holds

theorem check {condition : Bool} {why : ε} {next : Unit → Machine frame ε β}
    (passes : condition = true → Ensures (next ()) post stop state)
    (fails : condition = false → stop why state) :
    Ensures (Machine.check condition why >>= next) post stop state := by
  cases condition with
  | true => exact .bind_run (run_check_true rfl why state) (passes rfl)
  | false => exact .of_halt (run_bind_halt (run_check_false rfl why state)) (fails rfl)

theorem ite {condition : Prop} [Decidable condition] {yes no : Machine frame ε β}
    (holds : condition → Ensures yes post stop state)
    (fails : ¬ condition → Ensures no post stop state) :
    Ensures (if condition then yes else no) post stop state := by
  by_cases decided : condition
  · rw [if_pos decided]
    exact holds decided
  · rw [if_neg decided]
    exact fails decided

theorem forM {invariant : σ → Prop} {items : List α} {round : α → Machine frame ε Unit}
    (start : invariant state)
    (step : ∀ item ∈ items, ∀ reached, invariant reached →
      Ensures (round item) (fun _ after => invariant after) stop reached) :
    Ensures (items.forM round) (fun _ after => invariant after) stop state := by
  induction items generalizing state with
  | nil => exact .pure start
  | cons item rest ih =>
      change Ensures (round item >>= fun _ => rest.forM round) _ stop state
      refine (step item List.mem_cons_self state start).bind fun _ reached _ kept => ?_
      exact ih kept fun later member => step later (List.mem_cons_of_mem item member)

end Ensures

end Estros
