import Estros.Contracts

/-!
Amortised bounds on what a run uses up. An account bounds a level that states have (a
high-water mark, say) by what is still due in them. `Spends account machine need gives state`
holds in a state from which the machine, given `need` credits, stays within the budget and
gives credits back that depend on its value. Other credits are left alone, whatever they are.
Nothing here names a particular program.
-/

namespace Estros

open Machine

variable {σ ε α β : Type} {frame : Frame σ}

structure Account (σ : Type) where
  level : σ → Nat
  due : σ → Nat

/-- The budget covers the level, and what is due with `credit` on top of it. -/
structure Account.Covers (account : Account σ) (budget credit : Nat) (state : σ) : Prop where
  level : account.level state ≤ budget
  due : account.due state + credit ≤ budget

theorem Account.Covers.less {account : Account σ} {budget credit fewer : Nat} {state : σ}
    (covers : account.Covers budget credit state) (less : fewer ≤ credit) :
    account.Covers budget fewer state :=
  ⟨covers.level, Nat.le_trans (Nat.add_le_add_left less _) covers.due⟩

structure Spends (account : Account σ) (machine : Machine frame ε α) (need : Nat)
    (gives : α → Nat) (state : σ) : Prop where
  paid : ∀ budget other, account.Covers budget (need + other) state →
    Ensures machine (fun value after => account.Covers budget (gives value + other) after)
      (fun _ after => account.level after ≤ budget) state

namespace Spends

variable {account : Account σ} {need : Nat} {gives : β → Nat} {middle : α → Nat} {state : σ}

theorem within {machine : Machine frame ε α} {budget : Nat}
    (spends : Spends account machine need middle state) (covers : account.Covers budget need state) :
    account.level (machine.run state).state ≤ budget := by
  have kept := (spends.paid budget 0 covers).satisfied
  cases outcome : machine.run state with
  | ok value after =>
      rw [outcome] at kept
      exact kept.level
  | halt why after =>
      rw [outcome] at kept
      exact kept

theorem bounded {machine : Machine frame ε α} (spends : Spends account machine need middle state)
    (low : account.level state ≤ account.due state + need) :
    account.level (machine.run state).state ≤ account.due state + need :=
  spends.within ⟨low, Nat.le_refl _⟩

/-- More credits than needed; what is not spent comes back. -/
theorem mono {machine : Machine frame ε α} {more : Nat} {fewer : α → Nat} (spare : Nat)
    (spends : Spends account machine need middle state) (needs : need + spare ≤ more)
    (leaves : ∀ value, fewer value ≤ middle value + spare) :
    Spends account machine more fewer state := by
  refine ⟨fun budget other covers => ?_⟩
  have covered : account.Covers budget (need + (spare + other)) state := covers.less (by omega)
  refine (spends.paid budget (spare + other) covered).post_mono fun value after _ left => ?_
  have enough := leaves value
  exact left.less (by omega)

theorem bind {first : Machine frame ε α} {next : α → Machine frame ε β}
    (spends : Spends account first need middle state)
    (after : ∀ value reached, Spends account (next value) (middle value) gives reached) :
    Spends account (first >>= next) need gives state :=
  ⟨fun budget other covers => (spends.paid budget other covers).bind
    fun value reached _ left => (after value reached).paid budget other left⟩

/-- What another contract says of the first step may be assumed where the second one starts. -/
theorem bind_ensured {first : Machine frame ε α} {next : α → Machine frame ε β}
    {known : α → σ → Prop} {stop : ε → σ → Prop} (ensured : Ensures first known stop state)
    (spends : Spends account first need middle state)
    (after : ∀ value reached, known value reached →
      Spends account (next value) (middle value) gives reached) :
    Spends account (first >>= next) need gives state := by
  refine ⟨fun budget other covers => ?_⟩
  have both := (spends.paid budget other covers).and ensured
  refine Ensures.bind (both.mono (fun _ _ _ held => held) fun _ _ stopped => stopped.1) ?_
  exact fun value reached _ held => (after value reached held.2).paid budget other held.1

theorem bind_run {first : Machine frame ε α} {next : α → Machine frame ε β} {value : α}
    {reached : σ} {left : Nat} (ran : first.run state = .ok value reached)
    (step : ∀ budget other, account.Covers budget (need + other) state →
      account.Covers budget (left + other) reached)
    (after : Spends account (next value) left gives reached) :
    Spends account (first >>= next) need gives state :=
  ⟨fun budget other covers => .bind_run ran (after.paid budget other (step budget other covers))⟩

theorem pure {value : β} (enough : gives value ≤ need) :
    Spends account (Pure.pure value : Machine frame ε β) need gives state :=
  ⟨fun _ other covers => .pure (covers.less (Nat.add_le_add_right enough other))⟩

theorem halt {why : ε} : Spends account (Machine.halt why : Machine frame ε β) need gives state :=
  ⟨fun _ _ covers => .halt covers.level⟩

theorem halt_bind {why : ε} {next : α → Machine frame ε β} :
    Spends account ((Machine.halt why : Machine frame ε α) >>= next) need gives state :=
  ⟨fun _ _ covers => .of_halt (run_bind_halt rfl) covers.level⟩

theorem get {next : σ → Machine frame ε β} (after : Spends account (next state) need gives state) :
    Spends account (Machine.get >>= next) need gives state :=
  .bind_run rfl (fun _ _ covers => covers) after

theorem modify {update : σ → σ} {allowed : ∀ state, frame.rel state (update state)}
    {back : Unit → Nat} (level : account.level (update state) ≤ account.level state)
    (due : account.due (update state) ≤ account.due state) (enough : back () ≤ need) :
    Spends account (Machine.modify update allowed : Machine frame ε Unit) need back state :=
  ⟨fun _ _ covers => .modify ⟨Nat.le_trans level covers.level,
    Nat.le_trans (Nat.add_le_add due (Nat.add_le_add_right enough _)) covers.due⟩⟩

theorem check {condition : Bool} {why : ε} {next : Unit → Machine frame ε β}
    (after : condition = true → Spends account (next ()) need gives state) :
    Spends account (Machine.check condition why >>= next) need gives state :=
  ⟨fun budget other covers => .check (fun passes => (after passes).paid budget other covers)
    fun _ => covers.level⟩

theorem ite {condition : Prop} [Decidable condition] {yes no : Machine frame ε β}
    (holds : condition → Spends account yes need gives state)
    (fails : ¬ condition → Spends account no need gives state) :
    Spends account (if condition then yes else no) need gives state :=
  ⟨fun budget other covers => .ite (fun decided => (holds decided).paid budget other covers)
    fun decided => (fails decided).paid budget other covers⟩

def Answer (yes no : Nat) : Bool → Nat
  | true => yes
  | false => no

theorem spare {machine : Machine frame ε Bool} {more yes no fewerYes fewerNo : Nat} (spare : Nat)
    (spends : Spends account machine need (Answer yes no) state) (needs : need + spare ≤ more)
    (leavesYes : fewerYes ≤ yes + spare) (leavesNo : fewerNo ≤ no + spare) :
    Spends account machine more (Answer fewerYes fewerNo) state :=
  spends.mono spare needs fun
    | true => leavesYes
    | false => leavesNo

theorem bind_answer {first : Machine frame ε Bool} {accept decline : Machine frame ε β}
    {yes no : Nat} (spends : Spends account first need (Answer yes no) state)
    (accepted : ∀ reached, Spends account accept yes gives reached)
    (declined : ∀ reached, Spends account decline no gives reached) :
    Spends account (first >>= fun answer => if answer then accept else decline) need gives state :=
  spends.bind fun
    | true => accepted
    | false => declined

end Spends

end Estros
