import Mathlib.Data.List.Perm.Basic

/-!
Runs compared with each other: two runs that stay related step by step, and one run whose
steps are taken in another order. Nothing here names a particular program.
-/

namespace Estros

section Related

variable {ε α β γ δ : Type}

inductive Matched (rel : α → β → Prop) : Except ε α → Except ε β → Prop where
  | ok {left : α} {right : β} (related : rel left right) : Matched rel (.ok left) (.ok right)
  | error (why : ε) : Matched rel (.error why) (.error why)

theorem Matched.bind {rel : α → β → Prop} {next : γ → δ → Prop} {left : Except ε α}
    {right : Except ε β} {leftStep : α → Except ε γ} {rightStep : β → Except ε δ}
    (matched : Matched rel left right)
    (steps : ∀ a b, rel a b → Matched next (leftStep a) (rightStep b)) :
    Matched next (left >>= leftStep) (right >>= rightStep) := by
  cases matched with
  | ok related => exact steps _ _ related
  | error why => exact .error why

theorem Matched.mono {rel weaker : α → β → Prop} {left : Except ε α} {right : Except ε β}
    (matched : Matched rel left right) (implies : ∀ a b, rel a b → weaker a b) :
    Matched weaker left right := by
  cases matched with
  | ok related => exact .ok (implies _ _ related)
  | error why => exact .error why

theorem Matched.results {rel : α → β → Prop} {left : Except ε α} {right : Except ε β} {a : α}
    {b : β} (matched : Matched rel left right) (one : left = .ok a) (other : right = .ok b) :
    rel a b := by
  subst one other
  cases matched with
  | ok related => exact related

end Related

section Orders

variable {ε σ β : Type}

/-- What makes the order of the steps for the `good` elements irrelevant: they keep an
invariant, and steps for elements that are `apart` commute. -/
structure Commuting (body : σ → β → Except ε σ) (inv : σ → Prop) (good : β → Prop)
    (apart : β → β → Prop) : Prop where
  symm : ∀ x y, apart x y → apart y x
  kept : ∀ state x after, inv state → good x → body state x = .ok after → inv after
  comm : ∀ state x y, inv state → good x → good y → apart x y →
    (body state x >>= fun next => body next y) = body state y >>= fun next => body next x

theorem Commuting.foldlM_perm {body : σ → β → Except ε σ} {inv : σ → Prop} {good : β → Prop}
    {apart : β → β → Prop} (commuting : Commuting body inv good apart) {left right : List β}
    (perm : left.Perm right) (allGood : ∀ x ∈ left, good x) (pairwise : left.Pairwise apart)
    {state : σ} (start : inv state) : left.foldlM body state = right.foldlM body state := by
  induction perm generalizing state with
  | nil => rfl
  | cons x _ ih =>
      have behind := fun y member => allGood y (List.mem_cons_of_mem x member)
      rw [List.foldlM_cons, List.foldlM_cons]
      cases first : body state x with
      | error why => rfl
      | ok next =>
          have moved := commuting.kept state x next start (allGood x List.mem_cons_self) first
          exact ih behind (List.pairwise_cons.mp pairwise).2 moved
  | swap x y rest =>
      have swapped := commuting.comm state y x start (allGood y List.mem_cons_self)
        (allGood x (List.mem_cons_of_mem y List.mem_cons_self))
        ((List.pairwise_cons.mp pairwise).1 x List.mem_cons_self)
      simp only [List.foldlM_cons, ← bind_assoc, swapped]
  | trans first _ ihFirst ihSecond =>
      have symmetric : ∀ {x y}, apart x y → apart y x := fun {x y} => commuting.symm x y
      rw [ihFirst allGood pairwise start,
        ihSecond (fun x member => allGood x (first.mem_iff.mpr member))
          ((first.pairwise_iff symmetric).mp pairwise) start]

end Orders

end Estros
