import Mathlib.Data.List.Basic

/-!
Counted loops that sweep an array from left to right. Where the body at an index rewrites
only the element there and the elements behind it, the loop is a recursion over the list of
elements. Nothing here names a particular program.
-/

namespace Estros

variable {m : Type → Type} [Monad m] {α σ : Type}

def countedLoop (body : Nat → σ → m σ) : Nat → Nat → σ → m σ
  | 0, _, state => pure state
  | count + 1, start, state => do
      let next ← body start state
      countedLoop body count (start + 1) next

structure Rewrite (α : Type) where
  run : List α → List α
  length : ∀ elements, (run elements).length = elements.length

def Rewrite.id : Rewrite α := ⟨fun elements => elements, fun _ => rfl⟩

def Rewrite.map (update : α → α) : Rewrite α := ⟨List.map update, fun _ => List.length_map _⟩

@[simp] theorem Rewrite.id_run (elements : List α) : (Rewrite.id : Rewrite α).run elements = elements :=
  rfl

@[simp] theorem Rewrite.map_run (update : α → α) (elements : List α) :
    (Rewrite.map update).run elements = elements.map update := rfl

/-- From left to right, `step` says what becomes of an element and of those behind it. -/
def sweep (step : α → α × Rewrite α) : Nat → List α → List α
  | 0, todo => todo
  | _ + 1, [] => []
  | count + 1, head :: tail => (step head).1 :: sweep step count ((step head).2.run tail)

theorem sweep_length (step : α → α × Rewrite α) (count : Nat) (todo : List α) :
    (sweep step count todo).length = todo.length := by
  induction count generalizing todo with
  | zero => rfl
  | succ count ih =>
      cases todo with
      | nil => rfl
      | cons head tail => rw [sweep, List.length_cons, ih, (step head).2.length, List.length_cons]

def Rewrite.sweep (step : α → α × Rewrite α) : Rewrite α :=
  ⟨fun todo => Estros.sweep step todo.length todo, fun todo => sweep_length step todo.length todo⟩

@[simp] theorem sweep_nil (step : α → α × Rewrite α) : (Rewrite.sweep step).run [] = [] := rfl

theorem sweep_cons (step : α → α × Rewrite α) (head : α) (tail : List α) :
    (Rewrite.sweep step).run (head :: tail) =
      (step head).1 :: (Rewrite.sweep step).run ((step head).2.run tail) := by
  change sweep step (tail.length + 1) (head :: tail) = _
  rw [sweep, ← (step head).2.length tail]
  rfl

theorem sweep_induction {motive : List α → Prop} (nil : motive [])
    (cons : ∀ head tail, (∀ rewrite : Rewrite α, motive (rewrite.run tail)) → motive (head :: tail))
    (todo : List α) : motive todo := by
  induction size : todo.length generalizing todo with
  | zero => exact List.length_eq_zero_iff.mp size ▸ nil
  | succ count ih =>
      cases todo with
      | nil => exact nil
      | cons head tail =>
          apply cons
          intro rewrite
          exact ih (rewrite.run tail) ((rewrite.length tail).trans (Nat.succ.inj size))

def Rewrite.Local (rewrite : Rewrite α) : Prop :=
  ∀ front back, ∃ rest, rewrite.run (front ++ back) = rewrite.run front ++ rest

theorem Rewrite.id_local : (Rewrite.id : Rewrite α).Local := fun _ back => ⟨back, rfl⟩

theorem Rewrite.map_local (update : α → α) : (Rewrite.map update).Local := fun _ back =>
  ⟨back.map update, List.map_append⟩

theorem Rewrite.sweep_local {step : α → α × Rewrite α} (steps : ∀ head, (step head).2.Local) :
    (Rewrite.sweep step).Local := by
  intro front
  induction front using sweep_induction with
  | nil => exact fun back => ⟨(Rewrite.sweep step).run back, rfl⟩
  | cons head tail ih =>
      intro back
      obtain ⟨moved, split⟩ := steps head tail back
      obtain ⟨rest, swept⟩ := ih (step head).2 moved
      refine ⟨rest, ?_⟩
      rw [List.cons_append, sweep_cons, split, swept, sweep_cons, List.cons_append]

def sweepM (step : α → m (α × Rewrite α)) : Nat → List α → m (List α)
  | 0, todo => pure todo
  | _ + 1, [] => pure []
  | count + 1, head :: tail => do
      let (replaced, rewrite) ← step head
      let rest ← sweepM step count (rewrite.run tail)
      pure (replaced :: rest)

/-- The loop body makes the sweep's step on an array of `size` elements held in a state, the
first of which has the index `base`. -/
def BodySteps (base size : Nat) (step : α → m (α × Rewrite α)) (embed : List α → σ)
    (body : Nat → σ → m σ) : Prop :=
  ∀ done head tail, done.length + (tail.length + 1) = size →
    body (base + done.length) (embed (done ++ head :: tail)) =
      step head >>= fun next => pure (embed (done ++ next.1 :: next.2.run tail))

theorem countedLoop_sweepM [LawfulMonad m] {base size : Nat} {step : α → m (α × Rewrite α)}
    {embed : List α → σ} {body : Nat → σ → m σ} (steps : BodySteps base size step embed body)
    (done todo : List α) (whole : done.length + todo.length = size) :
    countedLoop body todo.length (base + done.length) (embed (done ++ todo)) =
      sweepM step todo.length todo >>= fun rest => pure (embed (done ++ rest)) := by
  induction count : todo.length generalizing done todo with
  | zero =>
      have empty := List.length_eq_zero_iff.mp count
      subst empty
      simp [countedLoop, sweepM]
  | succ left ih =>
      cases todo with
      | nil => exact absurd count (Nat.succ_ne_zero _).symm
      | cons head tail =>
          rw [countedLoop, steps done head tail whole, sweepM]
          simp only [bind_assoc, pure_bind]
          apply bind_congr
          rintro ⟨replaced, rewrite⟩
          have rewritten := rewrite.length tail
          have moved : (done ++ [replaced]).length + (rewrite.run tail).length = size := by
            rw [← whole, rewritten]
            simp only [List.length_append, List.length_cons, List.length_nil]
            omega
          have next := ih (done ++ [replaced]) (rewrite.run tail) moved
            (rewritten.trans (Nat.succ.inj count))
          simp only [List.length_append, List.length_cons, List.length_nil, Nat.zero_add,
            List.append_assoc, List.cons_append, List.nil_append] at next
          rw [← next, Nat.add_assoc]

theorem sweepM_eq_sweep [LawfulMonad m] {step : α → m (α × Rewrite α)} (plain : α → α × Rewrite α)
    (good : α → Prop) (agree : ∀ head, good head → step head = pure (plain head))
    (kept : ∀ head rest, good head → (∀ element ∈ rest, good element) →
      ∀ element ∈ (plain head).2.run rest, good element)
    (todo : List α) (allGood : ∀ element ∈ todo, good element) :
    sweepM step todo.length todo = pure ((Rewrite.sweep plain).run todo) := by
  induction todo using sweep_induction with
  | nil => rfl
  | cons head tail ih =>
      have first := allGood head List.mem_cons_self
      have rest := kept head tail first fun element member =>
        allGood element (List.mem_cons_of_mem head member)
      have swept := ih (plain head).2 rest
      rw [(plain head).2.length] at swept
      rw [List.length_cons, sweepM, agree head first, pure_bind]
      simp only [swept, pure_bind, sweep_cons]

theorem sweepM_ok {ε : Type} {step : α → Except ε (α × Rewrite α)} {plain : α → α × Rewrite α}
    (agree : ∀ head next, step head = .ok next → next = plain head) (todo : List α) :
    ∀ done, sweepM step todo.length todo = .ok done → done = (Rewrite.sweep plain).run todo := by
  induction todo using sweep_induction with
  | nil => exact fun done ran => (Except.ok.inj ran).symm
  | cons head tail ih =>
      intro done ran
      rw [List.length_cons, sweepM] at ran
      cases first : step head with
      | error why =>
          rw [first] at ran
          cases ran
      | ok next =>
          cases agree head next first
          have behind := ih (plain head).2
          rw [(plain head).2.length] at behind
          rw [first] at ran
          change (sweepM step tail.length ((plain head).2.run tail) >>= fun rest =>
            pure ((plain head).1 :: rest)) = _ at ran
          cases swept : sweepM step tail.length ((plain head).2.run tail) with
          | error why =>
              rw [swept] at ran
              cases ran
          | ok rest =>
              rw [swept] at ran
              rw [sweep_cons, ← behind rest swept]
              exact (Except.ok.inj ran).symm

theorem sweepM_error {ε : Type} {step : α → Except ε (α × Rewrite α)} {why : ε} (count : Nat)
    (todo : List α) (stopped : sweepM step count todo = .error why) :
    ∃ head, step head = .error why := by
  induction count generalizing todo with
  | zero => cases stopped
  | succ count ih =>
      cases todo with
      | nil => cases stopped
      | cons head tail =>
          rw [sweepM] at stopped
          cases first : step head with
          | error early =>
              rw [first] at stopped
              cases Except.error.inj stopped
              exact ⟨head, first⟩
          | ok next =>
              rw [first] at stopped
              change (sweepM step count (next.2.run tail) >>= fun rest => pure (next.1 :: rest)) = _
                at stopped
              cases swept : sweepM step count (next.2.run tail) with
              | error early =>
                  rw [swept] at stopped
                  cases Except.error.inj stopped
                  exact ih _ swept
              | ok rest =>
                  rw [swept] at stopped
                  cases stopped

theorem countedLoop_sweep {base size : Nat} {step : α → α × Rewrite α} {embed : List α → σ}
    {body : Nat → σ → Id σ}
    (steps : ∀ done head tail, done.length + (tail.length + 1) = size →
      body (base + done.length) (embed (done ++ head :: tail)) =
        embed (done ++ (step head).1 :: (step head).2.run tail))
    (done todo : List α) (whole : done.length + todo.length = size) :
    countedLoop body todo.length (base + done.length) (embed (done ++ todo)) =
      embed (done ++ (Rewrite.sweep step).run todo) := by
  have swept : sweepM (m := Id) step todo.length todo = (Rewrite.sweep step).run todo :=
    sweepM_eq_sweep step (fun _ => True) (fun _ _ => rfl) (fun _ _ _ _ _ _ => trivial) todo
      (fun _ _ => trivial)
  calc countedLoop body todo.length (base + done.length) (embed (done ++ todo))
      = (sweepM (m := Id) step todo.length todo >>= fun rest => pure (embed (done ++ rest)) : Id σ) :=
        countedLoop_sweepM steps done todo whole
    _ = embed (done ++ (Rewrite.sweep step).run todo) := by
        rw [swept]
        rfl

theorem sweep_map (update : α → α) (todo : List α) :
    (Rewrite.sweep fun head => (update head, Rewrite.id)).run todo = todo.map update := by
  induction todo with
  | nil => rfl
  | cons head tail ih => rw [sweep_cons, List.map_cons, ← ih]; rfl

end Estros
