import Estros.ArraySweep
import Estros.CompilerState

/-!
The optimiser of ssa.c. The loops work on the token array of the whole program, through
the view of one function; `dropIdentities` and `mergeReused` are the same passes on the
list of that function's tokens.
-/

namespace Estros

def CcSsaFunction.at (func : CcSsaFunction) (i : Nat) : Nat := func.tokens.pos.toNat + i

def CcState.setSsaToken (state : CcState) (index : Nat) (tok : CcSsaToken) : CcState :=
  { state with ssaTokens := state.ssaTokens.set index tok }

/-- The inner loop of `cc_ssa_replace_with`: raw data has no operands. -/
def ccSsaReplaceArgs (source target : CcSsaArgument) (tok : CcSsaToken) : CcSsaToken :=
  match tok.type with
  | .rawData => tok
  | _ =>
      { tok with
        args := tok.args.map fun arg =>
          if arg.id = source.id then { arg with id := target.id } else arg }

theorem replaceArgs_type (source target : CcSsaArgument) (tok : CcSsaToken) :
    (ccSsaReplaceArgs source target tok).type = tok.type := by
  unfold ccSsaReplaceArgs
  split <;> rfl

theorem replaceArgs_result (source target : CcSsaArgument) (tok : CcSsaToken) :
    (ccSsaReplaceArgs source target tok).result = tok.result := by
  unfold ccSsaReplaceArgs
  split <;> rfl

theorem replaceArgs_raw (source target : CcSsaArgument) {tok : CcSsaToken}
    (raw : tok.type = .rawData) : ccSsaReplaceArgs source target tok = tok := by
  simp [ccSsaReplaceArgs, raw]

theorem replaceArgs_arg (source target : CcSsaArgument) {tok : CcSsaToken}
    (operands : tok.type ≠ .rawData) (k : Fin ccSsaMaxArgs) :
    (ccSsaReplaceArgs source target tok).arg k =
      if (tok.arg k).id = source.id then { tok.arg k with id := target.id } else tok.arg k := by
  unfold ccSsaReplaceArgs
  split
  · contradiction
  · exact Vector.getElem_map _ k.isLt

def ccSsaReplaceAt (func : CcSsaFunction) (source target : CcSsaArgument) (j : Nat)
    (state : CcState) : CcState :=
  state.setSsaToken (func.at j) (ccSsaReplaceArgs source target (state.ssaToken (func.at j)))

def ccSsaReplaceWith (state : CcState) (func : CcSsaFunction) (offset : Nat)
    (source target : CcSsaArgument) : CcState :=
  (countedLoop (ccSsaReplaceAt func source target) (func.tokens.len.toNat - offset) offset state :
    Id CcState)

def CcSsaToken.erase (tok : CcSsaToken) : CcSsaToken := { tok with type := .none }

/-- The token at `index` goes, and `target` replaces its result behind it. -/
def ccSsaEraseAt (state : CcState) (func : CcSsaFunction) (index : Nat)
    (source target : CcSsaArgument) : CcState :=
  let replaced := ccSsaReplaceWith state func (index + 1) source target
  replaced.setSsaToken (func.at index) (replaced.ssaToken (func.at index)).erase

def ccSsaOptimiseIdentityAt (func : CcSsaFunction) (i : Nat) (state : CcState) :
    Except Halt CcState :=
  let itok := state.ssaToken (func.at i)
  if itok.type = .identity then
    if itok.result.id ≠ 0 ∧ (itok.arg 0).id ≠ 0 then
      pure (ccSsaEraseAt state func i itok.result (itok.arg 0))
    else
      throw (.assertion .ccSsaOptimiseIdentity)
  else
    pure state

def ccSsaOptimiseIdentity (state : CcState) (func : CcSsaFunction) : Except Halt CcState :=
  countedLoop (ccSsaOptimiseIdentityAt func) func.tokens.len.toNat 0 state

/-- The comparison of `cc_ssa_optimise_reused`: `sizeof(*itok->data.args)` is the size of
one argument, so `memcmp` looks at the first operand only. -/
def ccSsaReused (itok jtok : CcSsaToken) : Bool :=
  jtok.type = itok.type && itok.arg 0 = jtok.arg 0

def ccSsaOptimiseReusedAt (func : CcSsaFunction) (i j : Nat) (state : CcState) : CcState :=
  let itok := state.ssaToken (func.at i)
  let jtok := state.ssaToken (func.at j)
  if ccSsaReused itok jtok then ccSsaEraseAt state func j jtok.result itok.result else state

def ccSsaOptimiseReusedFrom (func : CcSsaFunction) (i : Nat) (state : CcState) : CcState :=
  if (state.ssaToken (func.at i)).type ≠ .rawData then
    (countedLoop (ccSsaOptimiseReusedAt func i) (func.tokens.len.toNat - (i + 1)) (i + 1) state :
      Id CcState)
  else
    state

def ccSsaOptimiseReused (state : CcState) (func : CcSsaFunction) : CcState :=
  (countedLoop (ccSsaOptimiseReusedFrom func) func.tokens.len.toNat 0 state : Id CcState)

def ccSsaOptimiseFunc (state : CcState) (func : CcSsaFunction) : Except Halt CcState := do
  let state ← ccSsaOptimiseIdentity state func
  pure (ccSsaOptimiseReused state func)

def ccSsaOptimise (state : CcState) : Except Halt CcState :=
  countedLoop (fun i s => ccSsaOptimiseFunc s (s.ssaFuncs.getD i default)) state.ssaFuncs.length 0
    state

/-- An identity token goes, and its operand takes the place of its result from there on. -/
def identityStep (tok : CcSsaToken) : CcSsaToken × Rewrite CcSsaToken :=
  if tok.type = .identity then
    (tok.erase, .map (ccSsaReplaceArgs tok.result (tok.arg 0)))
  else
    (tok, .id)

def dropIdentities : Rewrite CcSsaToken := .sweep identityStep

def identityStepM (tok : CcSsaToken) : Except Halt (CcSsaToken × Rewrite CcSsaToken) :=
  if tok.type = .identity then
    if tok.result.id ≠ 0 ∧ (tok.arg 0).id ≠ 0 then
      pure (identityStep tok)
    else
      throw (.assertion .ccSsaOptimiseIdentity)
  else
    pure (identityStep tok)

/-- A token that counts as equal to `itok` goes, and `itok`'s result takes its place. -/
def mergeStep (itok jtok : CcSsaToken) : CcSsaToken × Rewrite CcSsaToken :=
  if ccSsaReused itok jtok then
    (jtok.erase, .map (ccSsaReplaceArgs jtok.result itok.result))
  else
    (jtok, .id)

def mergeInto (itok : CcSsaToken) : Rewrite CcSsaToken := .sweep (mergeStep itok)

def reusedStep (itok : CcSsaToken) : CcSsaToken × Rewrite CcSsaToken :=
  (itok, if itok.type ≠ .rawData then mergeInto itok else .id)

def mergeReused : Rewrite CcSsaToken := .sweep reusedStep

/-- The tokens that a function's view covers. -/
def CcState.funcTokens (state : CcState) (func : CcSsaFunction) : List CcSsaToken :=
  (state.ssaTokens.drop func.tokens.pos.toNat).take func.tokens.len.toNat

def CcState.withFuncTokens (state : CcState) (func : CcSsaFunction) (toks : List CcSsaToken) :
    CcState :=
  { state with
    ssaTokens := state.ssaTokens.take func.tokens.pos.toNat ++
      (toks ++ state.ssaTokens.drop (func.tokens.pos.toNat + func.tokens.len.toNat)) }

/-- The view lies within the tokens pushed so far. -/
def CcState.ViewInside (state : CcState) (func : CcSsaFunction) : Prop :=
  func.tokens.pos.toNat + func.tokens.len.toNat ≤ state.ssaTokens.length

instance (state : CcState) (func : CcSsaFunction) : Decidable (state.ViewInside func) :=
  Nat.decLe _ _

section Views

variable {state : CcState} {func : CcSsaFunction}

theorem funcTokens_length (inside : state.ViewInside func) :
    (state.funcTokens func).length = func.tokens.len.toNat := by
  have bound : func.tokens.pos.toNat + func.tokens.len.toNat ≤ state.ssaTokens.length := inside
  simp only [CcState.funcTokens, List.length_take, List.length_drop]
  omega

theorem withFuncTokens_self (state : CcState) (func : CcSsaFunction) :
    state.withFuncTokens func (state.funcTokens func) = state := by
  have split : state.ssaTokens.drop (func.tokens.pos.toNat + func.tokens.len.toNat) =
      (state.ssaTokens.drop func.tokens.pos.toNat).drop func.tokens.len.toNat := by
    rw [List.drop_drop]
  simp only [CcState.withFuncTokens, CcState.funcTokens, split, List.take_append_drop]

theorem funcTokens_withFuncTokens (inside : state.ViewInside func) {toks : List CcSsaToken}
    (size : toks.length = func.tokens.len.toNat) :
    (state.withFuncTokens func toks).funcTokens func = toks := by
  have bound : func.tokens.pos.toNat + func.tokens.len.toNat ≤ state.ssaTokens.length := inside
  have front : (state.ssaTokens.take func.tokens.pos.toNat).length = func.tokens.pos.toNat := by
    rw [List.length_take]
    omega
  simp only [CcState.withFuncTokens, CcState.funcTokens]
  rw [List.drop_left' front, List.take_left' size]

theorem withFuncTokens_length (inside : state.ViewInside func) {toks : List CcSsaToken}
    (size : toks.length = func.tokens.len.toNat) :
    (state.withFuncTokens func toks).ssaTokens.length = state.ssaTokens.length := by
  have bound : func.tokens.pos.toNat + func.tokens.len.toNat ≤ state.ssaTokens.length := inside
  simp only [CcState.withFuncTokens, List.length_append, List.length_take, List.length_drop]
  omega

theorem viewInside_withFuncTokens (inside : state.ViewInside func) {toks : List CcSsaToken}
    (size : toks.length = func.tokens.len.toNat) : (state.withFuncTokens func toks).ViewInside func := by
  rw [CcState.ViewInside, withFuncTokens_length inside size]
  exact inside

theorem withFuncTokens_twice (inside : state.ViewInside func) {toks later : List CcSsaToken}
    (size : toks.length = func.tokens.len.toNat) :
    (state.withFuncTokens func toks).withFuncTokens func later = state.withFuncTokens func later := by
  have bound : func.tokens.pos.toNat + func.tokens.len.toNat ≤ state.ssaTokens.length := inside
  have front : (state.ssaTokens.take func.tokens.pos.toNat).length = func.tokens.pos.toNat := by
    rw [List.length_take]
    omega
  simp only [CcState.withFuncTokens]
  rw [List.take_left' front, ← List.drop_drop, List.drop_left' front, List.drop_left' size]

theorem ssaToken_at (inside : state.ViewInside func) (done tail : List CcSsaToken)
    (tok : CcSsaToken) :
    (state.withFuncTokens func (done ++ tok :: tail)).ssaToken (func.at done.length) = tok := by
  have bound : func.tokens.pos.toNat + func.tokens.len.toNat ≤ state.ssaTokens.length := inside
  have front : (state.ssaTokens.take func.tokens.pos.toNat).length = func.tokens.pos.toNat := by
    rw [List.length_take]
    omega
  simp only [CcState.ssaToken, CcState.withFuncTokens, CcSsaFunction.at, List.getD_eq_getElem?_getD]
  rw [List.getElem?_append_right (by omega), front, Nat.add_sub_cancel_left]
  simp

theorem setSsaToken_at (inside : state.ViewInside func) (done tail : List CcSsaToken)
    (tok new : CcSsaToken) :
    (state.withFuncTokens func (done ++ tok :: tail)).setSsaToken (func.at done.length) new =
      state.withFuncTokens func (done ++ new :: tail) := by
  have bound : func.tokens.pos.toNat + func.tokens.len.toNat ≤ state.ssaTokens.length := inside
  have front : (state.ssaTokens.take func.tokens.pos.toNat).length = func.tokens.pos.toNat := by
    rw [List.length_take]
    omega
  simp only [CcState.setSsaToken, CcState.withFuncTokens, CcSsaFunction.at]
  rw [List.set_append_right _ _ (by omega), front, Nat.add_sub_cancel_left]
  simp

/-! ### The loops are the passes -/

theorem replaceWith_view (inside : state.ViewInside func) (done todo : List CcSsaToken)
    (source target : CcSsaArgument)
    (whole : done.length + todo.length = func.tokens.len.toNat) :
    ccSsaReplaceWith (state.withFuncTokens func (done ++ todo)) func done.length source target =
      state.withFuncTokens func (done ++ todo.map (ccSsaReplaceArgs source target)) := by
  have count : func.tokens.len.toNat - done.length = todo.length := by omega
  rw [ccSsaReplaceWith, count, ← sweep_map, ← Nat.zero_add done.length]
  refine countedLoop_sweep (fun front head tail _ => ?_) done todo whole
  rw [Nat.zero_add, ccSsaReplaceAt, ssaToken_at inside, setSsaToken_at inside]
  rfl

theorem eraseAt_view (inside : state.ViewInside func) (done tail : List CcSsaToken)
    (head : CcSsaToken) (source target : CcSsaArgument)
    (whole : done.length + (tail.length + 1) = func.tokens.len.toNat) :
    ccSsaEraseAt (state.withFuncTokens func (done ++ head :: tail)) func done.length source target =
      state.withFuncTokens func
        (done ++ head.erase :: tail.map (ccSsaReplaceArgs source target)) := by
  have moved : (done ++ [head]).length + tail.length = func.tokens.len.toNat := by
    rw [← whole, List.length_append, List.length_singleton]
    omega
  have replaced := replaceWith_view inside (done ++ [head]) tail source target moved
  simp only [List.length_append, List.length_singleton, List.append_assoc, List.cons_append,
    List.nil_append] at replaced
  rw [ccSsaEraseAt, replaced, ssaToken_at inside, setSsaToken_at inside]

def CcSsaToken.Asserted (tok : CcSsaToken) : Prop :=
  tok.type = .identity → tok.result.id ≠ 0 ∧ (tok.arg 0).id ≠ 0

theorem Asserted.replaced {tok : CcSsaToken} (held : tok.Asserted) {source target : CcSsaArgument}
    (positive : target.id ≠ 0) : (ccSsaReplaceArgs source target tok).Asserted := by
  intro identity
  rw [replaceArgs_type] at identity
  have operands : tok.type ≠ .rawData := by simp [identity]
  rw [replaceArgs_result]
  refine ⟨(held identity).1, ?_⟩
  have first := replaceArgs_arg source target operands 0
  rw [first]
  split
  · exact positive
  · exact (held identity).2

theorem identity_view (inside : state.ViewInside func) :
    ccSsaOptimiseIdentity state func =
      sweepM identityStepM (state.funcTokens func).length (state.funcTokens func) >>=
        fun toks => pure (state.withFuncTokens func toks) := by
  have size := funcTokens_length inside
  have steps : BodySteps 0 func.tokens.len.toNat identityStepM (state.withFuncTokens func)
      (ccSsaOptimiseIdentityAt func) := by
    intro done head tail whole
    rw [Nat.zero_add]
    simp only [ccSsaOptimiseIdentityAt, ssaToken_at inside]
    by_cases identity : head.type = .identity
    · by_cases named : head.result.id ≠ 0 ∧ (head.arg 0).id ≠ 0
      · simp only [identityStepM, identityStep, identity, if_true, if_pos named, pure_bind,
          Rewrite.map_run]
        rw [eraseAt_view inside done tail head _ _ whole]
      · simp only [identityStepM, identity, if_true, if_neg named]
        rfl
    · simp [identityStepM, identityStep, identity]
  have looped := countedLoop_sweepM steps [] (state.funcTokens func) (by rw [size]; simp)
  rw [size] at looped ⊢
  simp only [List.length_nil, Nat.zero_add, List.nil_append, withFuncTokens_self] at looped
  exact looped

theorem identity_run (inside : state.ViewInside func)
    (asserted : ∀ tok ∈ state.funcTokens func, tok.Asserted) :
    ccSsaOptimiseIdentity state func =
      .ok (state.withFuncTokens func (dropIdentities.run (state.funcTokens func))) := by
  have plain : sweepM identityStepM (state.funcTokens func).length (state.funcTokens func) =
      pure (dropIdentities.run (state.funcTokens func)) := by
    refine sweepM_eq_sweep identityStep CcSsaToken.Asserted ?_ ?_ _ asserted
    · intro tok held
      by_cases identity : tok.type = .identity
      · simp only [identityStepM, identity, if_true, held identity, ne_eq, not_false_eq_true,
          and_self]
      · simp only [identityStepM, identity, if_false]
    · intro tok rest held all other member
      by_cases identity : tok.type = .identity
      · simp only [identityStep, identity, if_true, Rewrite.map_run, List.mem_map] at member
        obtain ⟨old, before, rfl⟩ := member
        exact Asserted.replaced (all old before) (held identity).2
      · simp only [identityStep, identity, if_false, Rewrite.id_run] at member
        exact all other member
  rw [identity_view inside, plain, pure_bind]
  rfl

theorem reusedAt_view (inside : state.ViewInside func) (done tail : List CcSsaToken)
    (itok : CcSsaToken) (whole : done.length + (tail.length + 1) = func.tokens.len.toNat) :
    countedLoop (m := Id) (ccSsaOptimiseReusedAt func done.length) tail.length (done.length + 1)
        (state.withFuncTokens func (done ++ itok :: tail)) =
      state.withFuncTokens func (done ++ itok :: (mergeInto itok).run tail) := by
  let embed (toks : List CcSsaToken) : CcState := state.withFuncTokens func (done ++ itok :: toks)
  have steps : ∀ middle jtok rest, middle.length + (rest.length + 1) = tail.length →
      ccSsaOptimiseReusedAt func done.length (done.length + 1 + middle.length)
          (embed (middle ++ jtok :: rest)) =
        embed (middle ++ (mergeStep itok jtok).1 :: (mergeStep itok jtok).2.run rest) := by
    intro middle jtok rest size
    have index : done.length + 1 + middle.length = (done ++ itok :: middle).length := by
      simp only [List.length_append, List.length_cons]
      omega
    have behind : (done ++ itok :: middle).length + (rest.length + 1) = func.tokens.len.toNat := by
      omega
    have view : embed (middle ++ jtok :: rest) =
        state.withFuncTokens func ((done ++ itok :: middle) ++ jtok :: rest) := by
      simp [embed]
    have first : (embed (middle ++ jtok :: rest)).ssaToken (func.at done.length) = itok :=
      ssaToken_at inside done (middle ++ jtok :: rest) itok
    have second : (embed (middle ++ jtok :: rest)).ssaToken
        (func.at (done ++ itok :: middle).length) = jtok := by
      rw [view]
      exact ssaToken_at inside _ rest jtok
    rw [index]
    simp only [ccSsaOptimiseReusedAt, first, second, mergeStep]
    by_cases same : ccSsaReused itok jtok = true
    · simp only [same, if_true, Rewrite.map_run]
      rw [view, eraseAt_view inside _ rest jtok _ _ behind]
      simp [embed]
    · simp only [same, if_false, Rewrite.id_run, Bool.false_eq_true]
  exact countedLoop_sweep steps [] tail (Nat.zero_add _)

theorem reused_run (inside : state.ViewInside func) :
    ccSsaOptimiseReused state func =
      state.withFuncTokens func (mergeReused.run (state.funcTokens func)) := by
  have size := funcTokens_length inside
  have steps : ∀ done head tail, done.length + (tail.length + 1) = func.tokens.len.toNat →
      ccSsaOptimiseReusedFrom func (0 + done.length)
          (state.withFuncTokens func (done ++ head :: tail)) =
        state.withFuncTokens func (done ++ (reusedStep head).1 :: (reusedStep head).2.run tail) := by
    intro done head tail whole
    have count : func.tokens.len.toNat - (done.length + 1) = tail.length := by omega
    rw [Nat.zero_add, ccSsaOptimiseReusedFrom, ssaToken_at inside, count,
      reusedAt_view inside done tail head whole]
    by_cases operands : head.type ≠ .rawData
    · simp only [reusedStep, if_pos operands]
    · simp only [reusedStep, if_neg operands, Rewrite.id_run]
  have looped := countedLoop_sweep steps [] (state.funcTokens func) (by rw [size]; exact Nat.zero_add _)
  simp only [List.length_nil, Nat.add_zero, List.nil_append, withFuncTokens_self, size] at looped
  exact looped

/-- Both passes, on a view whose identity tokens satisfy the assertion. -/
theorem optimiseFunc_run (inside : state.ViewInside func)
    (asserted : ∀ tok ∈ state.funcTokens func, tok.Asserted) :
    ccSsaOptimiseFunc state func =
      .ok (state.withFuncTokens func
        (mergeReused.run (dropIdentities.run (state.funcTokens func)))) := by
  have sized : (dropIdentities.run (state.funcTokens func)).length = func.tokens.len.toNat := by
    rw [dropIdentities.length, funcTokens_length inside]
  have still := viewInside_withFuncTokens inside sized
  rw [ccSsaOptimiseFunc, identity_run inside asserted]
  change Except.ok (ccSsaOptimiseReused _ func) = _
  rw [reused_run still, funcTokens_withFuncTokens inside sized, withFuncTokens_twice inside sized]

end Views

end Estros
