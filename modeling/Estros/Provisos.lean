import Estros.Contracts

/-!
Contracts under a proviso: a condition on states that a run can lose and never regains, such
as that a counter has not overflowed. What the contract promises is due only where the
proviso still holds at the end, and so it may be assumed at every step on the way there.
Nothing here names a particular program.
-/

namespace Estros

open Machine

variable {σ ε α β : Type} {frame : Frame σ}

structure Proviso (frame : Frame σ) where
  holds : σ → Prop
  back : ∀ {before after}, frame.rel before after → holds after → holds before

structure EnsuresWhile (proviso : Proviso frame) (machine : Machine frame ε α)
    (post : α → σ → Prop) (stop : ε → σ → Prop) (state : σ) : Prop where
  ensures : Ensures machine (fun value after => proviso.holds after → post value after)
    (fun why after => proviso.holds after → stop why after) state

theorem Ensures.during {proviso : Proviso frame} {machine : Machine frame ε α}
    {post : α → σ → Prop} {stop : ε → σ → Prop} {state : σ}
    (ensured : Ensures machine post stop state) : EnsuresWhile proviso machine post stop state :=
  ⟨ensured.mono (fun _ _ _ held _ => held) fun _ _ stopped _ => stopped⟩

namespace EnsuresWhile

variable {proviso : Proviso frame} {post : β → σ → Prop} {middle : α → σ → Prop}
  {stop : ε → σ → Prop} {state : σ}

/-- Where the proviso is lost already, nothing is due. -/
theorem assume {machine : Machine frame ε α}
    (ensured : proviso.holds state → EnsuresWhile proviso machine middle stop state) :
    EnsuresWhile proviso machine middle stop state := by
  by_cases kept : proviso.holds state
  · exact ensured kept
  · have step := machine.keeps state
    constructor
    cases outcome : machine.run state with
    | ok value after =>
        rw [outcome] at step
        exact .of_ok outcome fun holds => absurd (proviso.back step holds) kept
    | halt why after =>
        rw [outcome] at step
        exact .of_halt outcome fun holds => absurd (proviso.back step holds) kept

theorem mono {machine : Machine frame ε α} {weaker : α → σ → Prop} {laxer : ε → σ → Prop}
    (ensured : EnsuresWhile proviso machine middle stop state)
    (ok : ∀ value after, frame.rel state after → middle value after → weaker value after)
    (halt : ∀ why after, stop why after → laxer why after) :
    EnsuresWhile proviso machine weaker laxer state :=
  ⟨ensured.ensures.mono (fun value after step held holds => ok value after step (held holds))
    fun why after stopped holds => halt why after (stopped holds)⟩

theorem bind {first : Machine frame ε α} {next : α → Machine frame ε β}
    (ensured : EnsuresWhile proviso first middle stop state)
    (after : ∀ value reached, frame.rel state reached → middle value reached →
      EnsuresWhile proviso (next value) post stop reached) :
    EnsuresWhile proviso (first >>= next) post stop state :=
  ⟨ensured.ensures.bind fun value reached step held =>
    (assume fun holds => after value reached step (held holds)).ensures⟩

theorem bind_run {first : Machine frame ε α} {next : α → Machine frame ε β} {value : α}
    {reached : σ} (ran : first.run state = .ok value reached)
    (after : EnsuresWhile proviso (next value) post stop reached) :
    EnsuresWhile proviso (first >>= next) post stop state :=
  ⟨.bind_run ran after.ensures⟩

theorem pure {value : β} (holds : post value state) :
    EnsuresWhile proviso (Pure.pure value : Machine frame ε β) post stop state :=
  ⟨.pure fun _ => holds⟩

theorem halt {why : ε} (allowed : stop why state) :
    EnsuresWhile proviso (Machine.halt why : Machine frame ε β) post stop state :=
  ⟨.halt fun _ => allowed⟩

theorem of_halt {machine : Machine frame ε α} {why : ε} {after : σ}
    (ran : machine.run state = .halt why after) (allowed : stop why after) :
    EnsuresWhile proviso machine middle stop state :=
  ⟨.of_halt ran fun _ => allowed⟩

theorem get {next : σ → Machine frame ε β}
    (after : EnsuresWhile proviso (next state) post stop state) :
    EnsuresWhile proviso (Machine.get >>= next) post stop state := .bind_run rfl after

theorem ite {condition : Prop} [Decidable condition] {yes no : Machine frame ε β}
    (holds : condition → EnsuresWhile proviso yes post stop state)
    (fails : ¬ condition → EnsuresWhile proviso no post stop state) :
    EnsuresWhile proviso (if condition then yes else no) post stop state :=
  ⟨.ite (fun decided => (holds decided).ensures) fun decided => (fails decided).ensures⟩

theorem satisfied {machine : Machine frame ε α}
    (ensured : EnsuresWhile proviso machine middle stop state)
    (holds : proviso.holds (machine.run state).state) :
    (machine.run state).Satisfies middle stop := by
  have both := ensured.ensures.satisfied
  cases outcome : machine.run state with
  | ok value after =>
      rw [outcome] at both holds
      exact both holds
  | halt why after =>
      rw [outcome] at both holds
      exact both holds

end EnsuresWhile

end Estros
