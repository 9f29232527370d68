import Estros.Contracts

/-!
Machines that take fuel, as recursion on a number. `Settles family cut state` holds where
the recursion is finite: from some amount of fuel on, the run has one outcome, and the
fuel did not cut it off. Nothing here names a particular program.
-/

namespace Estros

open Machine

variable {σ ε α β : Type} {frame : Frame σ}

/-- `cut` is the reason that marks a run that ran out of fuel. -/
def Settles (family : Nat → Machine frame ε α) (cut : ε) (state : σ) : Prop :=
  ∃ bound outcome, outcome.reason ≠ some cut ∧
    ∀ fuel, bound ≤ fuel → (family fuel).run state = outcome

namespace Settles

variable {cut : ε} {state : σ} {family : Nat → Machine frame ε α}

theorem of_run {machine : Machine frame ε α} {outcome : Outcome ε σ α}
    (ran : machine.run state = outcome) (whole : outcome.reason ≠ some cut) :
    Settles (fun _ => machine) cut state :=
  ⟨0, outcome, whole, fun _ _ => ran⟩

theorem pure (value : α) :
    Settles (fun _ => (Pure.pure value : Machine frame ε α)) cut state :=
  .of_run rfl fun reason => nomatch reason

theorem halt {why : ε} (other : why ≠ cut) :
    Settles (fun _ => (Machine.halt why : Machine frame ε α)) cut state :=
  .of_run rfl fun reason => other (Option.some.inj reason)

theorem succ (settled : Settles (fun fuel => family (fuel + 1)) cut state) :
    Settles family cut state := by
  obtain ⟨bound, outcome, whole, runs⟩ := settled
  refine ⟨bound + 1, outcome, whole, fun fuel enough => ?_⟩
  obtain ⟨rest, rfl⟩ : ∃ rest, fuel = rest + 1 := ⟨fuel - 1, by omega⟩
  exact runs rest (Nat.le_of_succ_le_succ enough)

theorem bind {next : Nat → α → Machine frame ε β} (first : Settles family cut state)
    (after : ∀ fuel value reached, (family fuel).run state = .ok value reached →
      frame.rel state reached → Settles (fun fuel => next fuel value) cut reached) :
    Settles (fun fuel => family fuel >>= next fuel) cut state := by
  obtain ⟨bound, outcome, whole, runs⟩ := first
  cases outcome with
  | halt why reached =>
      refine ⟨bound, .halt why reached, whole, fun fuel enough => ?_⟩
      exact run_bind_halt (runs fuel enough)
  | ok value reached =>
      have kept := (family bound).keeps state
      have ran := runs bound (Nat.le_refl _)
      rw [ran] at kept
      obtain ⟨later, last, ended, rest⟩ := after bound value reached ran kept
      refine ⟨max bound later, last, ended, fun fuel enough => ?_⟩
      rw [run_bind_ok (runs fuel (by omega))]
      exact rest fuel (by omega)

theorem bind_run {first : Machine frame ε α} {next : Nat → α → Machine frame ε β} {value : α}
    {reached : σ} (ran : first.run state = .ok value reached)
    (after : Settles (fun fuel => next fuel value) cut reached) :
    Settles (fun fuel => first >>= next fuel) cut state := by
  obtain ⟨bound, outcome, whole, runs⟩ := after
  refine ⟨bound, outcome, whole, fun fuel enough => ?_⟩
  rw [run_bind_ok ran]
  exact runs fuel enough

theorem get {next : Nat → σ → Machine frame ε β}
    (after : Settles (fun fuel => next fuel state) cut state) :
    Settles (fun fuel => Machine.get >>= next fuel) cut state :=
  .bind_run rfl after

theorem modify {update : σ → σ} {allowed : ∀ state, frame.rel state (update state)} :
    Settles (fun _ => (Machine.modify update allowed : Machine frame ε Unit)) cut state :=
  .of_run rfl fun reason => nomatch reason

theorem check {condition : Bool} {why : ε} {next : Nat → Unit → Machine frame ε β}
    (other : why ≠ cut) (passes : Settles (fun fuel => next fuel ()) cut state) :
    Settles (fun fuel => Machine.check condition why >>= next fuel) cut state := by
  cases condition with
  | true => exact .bind_run (run_check_true rfl why state) passes
  | false =>
      exact ⟨0, .halt why state, fun reason => other (Option.some.inj reason),
        fun _ _ => run_bind_halt (run_check_false rfl why state)⟩

theorem ite {condition : Prop} [Decidable condition] {no : Nat → Machine frame ε α}
    (holds : condition → Settles family cut state)
    (fails : ¬ condition → Settles no cut state) :
    Settles (fun fuel => if condition then family fuel else no fuel) cut state := by
  by_cases decided : condition
  · simpa only [if_pos decided] using holds decided
  · simpa only [if_neg decided] using fails decided

end Settles

/-- Where the first machine is not cut off, the second runs as it does. -/
def Outruns (cut : ε) (first second : Machine frame ε α) : Prop :=
  ∀ state, (first.run state).reason ≠ some cut → second.run state = first.run state

namespace Outruns

variable {cut : ε}

theorem refl (machine : Machine frame ε α) : Outruns cut machine machine := fun _ _ => rfl

theorem cut_off (machine : Machine frame ε α) :
    Outruns cut (Machine.halt cut : Machine frame ε α) machine :=
  fun _ whole => absurd rfl whole

theorem bind {first second : Machine frame ε α} {next later : α → Machine frame ε β}
    (head : Outruns cut first second) (tail : ∀ value, Outruns cut (next value) (later value)) :
    Outruns cut (first >>= next) (second >>= later) := by
  intro state whole
  cases outcome : first.run state with
  | ok value reached =>
      have same : second.run state = .ok value reached := by
        rw [← outcome]
        exact head state (by rw [outcome]; exact nofun)
      rw [run_bind_ok outcome] at whole ⊢
      rw [run_bind_ok same]
      exact tail value reached whole
  | halt why reached =>
      rw [run_bind_halt outcome] at whole
      have same : second.run state = .halt why reached := by
        rw [← outcome]
        exact head state (by rw [outcome]; exact whole)
      rw [run_bind_halt outcome, run_bind_halt same]

theorem forM {items : List α} {round later : α → Machine frame ε Unit}
    (each : ∀ item, Outruns cut (round item) (later item)) :
    Outruns cut (items.forM round) (items.forM later) := by
  induction items with
  | nil => exact .refl _
  | cons item rest ih =>
      change Outruns cut (round item >>= fun _ => rest.forM round)
        (later item >>= fun _ => rest.forM later)
      exact (each item).bind fun _ => ih

theorem more {family : Nat → Machine frame ε α} {state : σ} {bound fuel : Nat}
    (grows : ∀ fuel, Outruns cut (family fuel) (family (fuel + 1)))
    (whole : ((family bound).run state).reason ≠ some cut) (enough : bound ≤ fuel) :
    (family fuel).run state = (family bound).run state := by
  induction enough with
  | refl => rfl
  | @step fuel _ ih => rw [grows fuel state (ih ▸ whole), ih]

end Outruns

end Estros
