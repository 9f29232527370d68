import Estros.ArraySweep

/-!
Computations that may fail, but never for one given reason. Nothing here names a particular
program.
-/

namespace Estros

variable {ε α β σ : Type}

def Avoids (why : ε) (result : Except ε α) : Prop := result ≠ .error why

namespace Avoids

variable {why other : ε}

theorem ok (value : α) : Avoids why (.ok value) := nofun

theorem pure (value : α) : Avoids why (Pure.pure value : Except ε α) := nofun

theorem error (different : other ≠ why) : Avoids why (.error other : Except ε α) :=
  fun same => different (Except.error.inj same)

theorem bind {first : Except ε α} {next : α → Except ε β} (head : Avoids why first)
    (tail : ∀ value, Avoids why (next value)) : Avoids why (first >>= next) := by
  cases first with
  | error reason => exact fun same => head (congrArg Except.error (Except.error.inj same))
  | ok value => exact tail value

theorem ite {condition : Prop} [Decidable condition] {yes no : Except ε α}
    (holds : condition → Avoids why yes) (fails : ¬ condition → Avoids why no) :
    Avoids why (if condition then yes else no) := by
  by_cases decided : condition
  · rw [if_pos decided]
    exact holds decided
  · rw [if_neg decided]
    exact fails decided

theorem countedLoop {body : Nat → σ → Except ε σ} (each : ∀ i state, Avoids why (body i state))
    (count start : Nat) (state : σ) : Avoids why (countedLoop body count start state) := by
  induction count generalizing start state with
  | zero => exact .pure state
  | succ count ih => exact (each start state).bind fun next => ih (start + 1) next

end Avoids

end Estros
