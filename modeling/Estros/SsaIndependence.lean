import Estros.SsaFixpoint
import Estros.SsaViews
import Estros.TwoRuns

/-!
The functions of a program share one token array. Optimising one of them reads and writes
its own view only, so what becomes of its tokens depends on nothing else, and the order in
which the functions are optimised does not matter.
-/

namespace Estros

def CcSsaFunction.Apart (func other : CcSsaFunction) : Prop :=
  ∀ index, ¬ (func.segment.Holds index ∧ other.segment.Holds index)

theorem CcSsaFunction.Apart.symm {func other : CcSsaFunction} (apart : func.Apart other) :
    other.Apart func := fun index both => apart index both.symm

/-- The views lie within the tokens, and no token lies in two of them. -/
structure CcState.WellViewed (state : CcState) : Prop where
  inside : ∀ func ∈ state.ssaFuncs, state.ViewInside func
  apart : state.ssaFuncs.Pairwise CcSsaFunction.Apart

/-- The step from one state to another writes tokens at the given indices at most. -/
structure TouchesOnly (touched : Nat → Prop) (before after : CcState) : Prop where
  funcs : after.ssaFuncs = before.ssaFuncs
  data : after.data = before.data
  size : after.ssaTokens.length = before.ssaTokens.length
  outside : ∀ index, ¬ touched index → after.ssaTokens[index]? = before.ssaTokens[index]?

theorem TouchesOnly.refl (touched : Nat → Prop) (state : CcState) :
    TouchesOnly touched state state := ⟨rfl, rfl, rfl, fun _ _ => rfl⟩

theorem TouchesOnly.trans {touched : Nat → Prop} {first middle last : CcState}
    (one : TouchesOnly touched first middle) (two : TouchesOnly touched middle last) :
    TouchesOnly touched first last :=
  ⟨two.funcs.trans one.funcs, two.data.trans one.data, two.size.trans one.size,
    fun index out => (two.outside index out).trans (one.outside index out)⟩

theorem TouchesOnly.mono {touched more : Nat → Prop} {before after : CcState}
    (step : TouchesOnly touched before after) (covers : ∀ index, touched index → more index) :
    TouchesOnly more before after :=
  ⟨step.funcs, step.data, step.size, fun index out => step.outside index fun old => out (covers _ old)⟩

section Views

variable {state : CcState} {func other : CcSsaFunction}

theorem funcTokens_getElem? (state : CcState) (func : CcSsaFunction) (k : Nat) :
    (state.funcTokens func)[k]? =
      if k < func.tokens.len.toNat then state.ssaTokens[func.tokens.pos.toNat + k]? else none := by
  rw [CcState.funcTokens, List.getElem?_take]
  split
  · rw [List.getElem?_drop]
  · rfl

theorem withFuncTokens_getElem? (inside : state.ViewInside func) {toks : List CcSsaToken}
    (size : toks.length = func.tokens.len.toNat) (index : Nat) :
    (state.withFuncTokens func toks).ssaTokens[index]? =
      if func.segment.Holds index then toks[index - func.tokens.pos.toNat]?
      else state.ssaTokens[index]? := by
  have bound : func.tokens.pos.toNat + func.tokens.len.toNat ≤ state.ssaTokens.length := inside
  have front : (state.ssaTokens.take func.tokens.pos.toNat).length = func.tokens.pos.toNat := by
    rw [List.length_take]
    omega
  change (_ ++ (_ ++ _) : List CcSsaToken)[index]? = _
  by_cases before : index < func.tokens.pos.toNat
  · rw [if_neg fun held => absurd held.1 (Nat.not_le.mpr before), List.getElem?_append_left (by omega),
      List.getElem?_take, if_pos before]
  · rw [List.getElem?_append_right (by omega), front]
    by_cases here : index - func.tokens.pos.toNat < toks.length
    · rw [List.getElem?_append_left here, if_pos]
      exact ⟨Nat.not_lt.mp before, by simp only [CcSsaFunction.segment]; omega⟩
    · rw [List.getElem?_append_right (by omega), List.getElem?_drop, if_neg]
      · congr 1
        omega
      · rintro ⟨_, high⟩
        simp only [CcSsaFunction.segment] at high
        omega

theorem withFuncTokens_touches (inside : state.ViewInside func) {toks : List CcSsaToken}
    (size : toks.length = func.tokens.len.toNat) :
    TouchesOnly func.segment.Holds state (state.withFuncTokens func toks) :=
  ⟨rfl, rfl, withFuncTokens_length inside size, fun index out => by
    rw [withFuncTokens_getElem? inside size, if_neg out]⟩

theorem TouchesOnly.funcTokens {touched : Nat → Prop} {before after : CcState}
    (step : TouchesOnly touched before after)
    (apart : ∀ index, ¬ (touched index ∧ func.segment.Holds index)) :
    after.funcTokens func = before.funcTokens func := by
  apply List.ext_getElem?
  intro k
  rw [funcTokens_getElem?, funcTokens_getElem?]
  split
  · rename_i below
    refine step.outside _ fun old => apart _ ⟨old, Nat.le_add_right _ _, ?_⟩
    exact Nat.add_lt_add_left below _
  · rfl

theorem TouchesOnly.viewInside {touched : Nat → Prop} {before after : CcState}
    (step : TouchesOnly touched before after) (inside : before.ViewInside func) :
    after.ViewInside func := by
  rw [CcState.ViewInside, step.size]
  exact inside

theorem withFuncTokens_comm (apart : func.Apart other) (inside : state.ViewInside func)
    (insideOther : state.ViewInside other) {toks others : List CcSsaToken}
    (size : toks.length = func.tokens.len.toNat)
    (sizeOther : others.length = other.tokens.len.toNat) :
    (state.withFuncTokens func toks).withFuncTokens other others =
      (state.withFuncTokens other others).withFuncTokens func toks := by
  have still := (withFuncTokens_touches inside size).viewInside insideOther
  have stillOther := (withFuncTokens_touches insideOther sizeOther).viewInside inside
  have same : ((state.withFuncTokens func toks).withFuncTokens other others).ssaTokens =
      ((state.withFuncTokens other others).withFuncTokens func toks).ssaTokens := by
    apply List.ext_getElem?
    intro index
    rw [withFuncTokens_getElem? still sizeOther, withFuncTokens_getElem? stillOther size,
      withFuncTokens_getElem? inside size, withFuncTokens_getElem? insideOther sizeOther]
    by_cases own : func.segment.Holds index
    · rw [if_pos own, if_pos own, if_neg fun held => apart index ⟨own, held⟩]
    · rw [if_neg own, if_neg own]
  exact congrArg (fun tokens => { state with ssaTokens := tokens }) same

end Views

def optimiseTokens (toks : List CcSsaToken) : Except Halt (List CcSsaToken) := do
  let toks ← sweepM identityStepM toks.length toks
  pure (mergeReused.run toks)

theorem identitySweep_ok {toks done : List CcSsaToken}
    (ran : sweepM identityStepM toks.length toks = .ok done) : done = dropIdentities.run toks := by
  refine sweepM_ok (fun tok next step => ?_) toks done ran
  unfold identityStepM at step
  split at step
  · split at step
    · exact (Except.ok.inj step).symm
    · cases step
  · exact (Except.ok.inj step).symm

theorem optimiseTokens_ok {toks done : List CcSsaToken} (ran : optimiseTokens toks = .ok done) :
    done = mergeReused.run (dropIdentities.run toks) := by
  obtain ⟨swept, identities, last⟩ := bind_eq_ok ran
  rw [← identitySweep_ok identities]
  exact (Except.ok.inj last).symm

theorem optimiseTokens_length {toks done : List CcSsaToken} (ran : optimiseTokens toks = .ok done) :
    done.length = toks.length := by
  rw [optimiseTokens_ok ran, mergeReused.length, dropIdentities.length]

theorem dropIdentities_types {toks : List CcSsaToken} :
    ∀ tok ∈ dropIdentities.run toks, tok.type = .none ∨ ∃ old ∈ toks, old.type = tok.type := by
  induction toks using sweep_induction with
  | nil => exact fun _ member => absurd member List.not_mem_nil
  | cons head rest ih =>
      intro tok member
      by_cases identity : head.type = .identity
      · rw [dropIdentities_copy identity] at member
        rcases List.mem_cons.mp member with rfl | later
        · exact Or.inl rfl
        · refine (ih (.map _) tok later).imp_right ?_
          rintro ⟨moved, there, type⟩
          obtain ⟨old, before, rfl⟩ := List.mem_map.mp there
          rw [replaceArgs_type] at type
          exact ⟨old, List.mem_cons_of_mem _ before, type⟩
      · rw [dropIdentities_other identity] at member
        rcases List.mem_cons.mp member with rfl | later
        · exact Or.inr ⟨tok, List.mem_cons_self, rfl⟩
        · refine (ih .id tok later).imp_right ?_
          rintro ⟨old, before, type⟩
          exact ⟨old, List.mem_cons_of_mem _ before, type⟩

theorem optimiseTokens_plain {toks done : List CcSsaToken}
    (plain : ∀ tok ∈ toks, tok.type ≠ .rawData) (ran : optimiseTokens toks = .ok done) :
    ∀ tok ∈ done, tok.type ≠ .rawData := by
  -- The passes make no raw data.
  intro tok member raw
  rw [optimiseTokens_ok ran] at member
  obtain ⟨middle, there, kind, _⟩ := mergeReused_traced _ tok member
  rcases kind with same | none
  · rcases dropIdentities_types middle there with none | ⟨old, before, type⟩
    · rw [same, none] at raw
      cases raw
    · exact plain old before (type.trans (same.symm.trans raw))
  · rw [none] at raw
    cases raw

theorem optimiseTokens_error {toks : List CcSsaToken} {why : Halt}
    (failed : optimiseTokens toks = .error why) : why = .assertion .ccSsaOptimiseIdentity := by
  -- There is one way to fail.
  rw [optimiseTokens] at failed
  cases swept : sweepM identityStepM toks.length toks with
  | ok done =>
      rw [swept] at failed
      cases failed
  | error early =>
      rw [swept] at failed
      cases Except.error.inj failed
      obtain ⟨tok, stopped⟩ := sweepM_error _ _ swept
      unfold identityStepM at stopped
      split at stopped
      · split at stopped
        · cases stopped
        · exact (Except.error.inj stopped).symm
      · cases stopped

section Functions

variable {state after : CcState} {func other : CcSsaFunction}

/-- Optimising a function is optimising its own tokens. -/
theorem optimiseFunc_view (inside : state.ViewInside func) :
    ccSsaOptimiseFunc state func =
      optimiseTokens (state.funcTokens func) >>= fun toks => pure (state.withFuncTokens func toks) := by
  rw [ccSsaOptimiseFunc, identity_view inside, optimiseTokens]
  cases swept : sweepM identityStepM (state.funcTokens func).length (state.funcTokens func) with
  | error why => rfl
  | ok toks =>
      have size : toks.length = func.tokens.len.toNat := by
        rw [identitySweep_ok swept, dropIdentities.length, funcTokens_length inside]
      change Except.ok (ccSsaOptimiseReused (state.withFuncTokens func toks) func) = _
      rw [reused_run (viewInside_withFuncTokens inside size), funcTokens_withFuncTokens inside size,
        withFuncTokens_twice inside size]
      rfl

theorem optimiseFunc_ok (inside : state.ViewInside func)
    (done : ccSsaOptimiseFunc state func = .ok after) :
    TouchesOnly func.segment.Holds state after ∧
      optimiseTokens (state.funcTokens func) = .ok (after.funcTokens func) := by
  rw [optimiseFunc_view inside] at done
  obtain ⟨toks, ran, last⟩ := bind_eq_ok done
  have size : toks.length = func.tokens.len.toNat := by
    rw [optimiseTokens_length ran, funcTokens_length inside]
  cases Except.ok.inj last
  rw [funcTokens_withFuncTokens inside size]
  exact ⟨withFuncTokens_touches inside size, ran⟩

theorem optimiseFunc_comm (apart : func.Apart other) (inside : state.ViewInside func)
    (insideOther : state.ViewInside other) :
    (ccSsaOptimiseFunc state func >>= fun next => ccSsaOptimiseFunc next other) =
      ccSsaOptimiseFunc state other >>= fun next => ccSsaOptimiseFunc next func := by
  -- After one of them, the other function finds the tokens it had before.
  have second {first last : CcSsaFunction} (apart : first.Apart last)
      (inFirst : state.ViewInside first) (inLast : state.ViewInside last) {toks : List CcSsaToken}
      (size : toks.length = first.tokens.len.toNat) :
      ccSsaOptimiseFunc (state.withFuncTokens first toks) last =
        optimiseTokens (state.funcTokens last) >>= fun lasts =>
          pure ((state.withFuncTokens first toks).withFuncTokens last lasts) := by
    have touches := withFuncTokens_touches inFirst size
    rw [optimiseFunc_view (touches.viewInside inLast), touches.funcTokens apart]
  have sizes {first : CcSsaFunction} (inFirst : state.ViewInside first) {toks : List CcSsaToken}
      (ran : optimiseTokens (state.funcTokens first) = .ok toks) :
      toks.length = first.tokens.len.toNat := by
    rw [optimiseTokens_length ran, funcTokens_length inFirst]
  rw [optimiseFunc_view inside, optimiseFunc_view insideOther]
  cases own : optimiseTokens (state.funcTokens func) with
  | error why =>
      cases others : optimiseTokens (state.funcTokens other) with
      | error whyOther =>
          rw [optimiseTokens_error own, optimiseTokens_error others]
          rfl
      | ok lasts =>
          change _ = ccSsaOptimiseFunc (state.withFuncTokens other lasts) func
          rw [second apart.symm insideOther inside (sizes insideOther others), own]
          rfl
  | ok toks =>
      change ccSsaOptimiseFunc (state.withFuncTokens func toks) other = _
      rw [second apart inside insideOther (sizes inside own)]
      cases others : optimiseTokens (state.funcTokens other) with
      | error whyOther => rfl
      | ok lasts =>
          change _ = ccSsaOptimiseFunc (state.withFuncTokens other lasts) func
          rw [second apart.symm insideOther inside (sizes insideOther others), own]
          exact congrArg Except.ok (withFuncTokens_comm apart inside insideOther (sizes inside own)
            (sizes insideOther others))

/-- In which order functions are optimised does not matter. -/
theorem optimiseFunc_commuting (size : Nat) :
    Commuting ccSsaOptimiseFunc (fun state => state.ssaTokens.length = size)
      (fun func => func.tokens.pos.toNat + func.tokens.len.toNat ≤ size) CcSsaFunction.Apart := by
  constructor
  · exact fun _ _ apart => apart.symm
  · rintro state func after rfl inside done
    exact (optimiseFunc_ok inside done).1.size
  · rintro state func other rfl inside insideOther apart
    exact optimiseFunc_comm apart inside insideOther

theorem optimiseFuncs_touches {funcs : List CcSsaFunction}
    (inside : ∀ func ∈ funcs, state.ViewInside func)
    (done : funcs.foldlM ccSsaOptimiseFunc state = .ok after) :
    TouchesOnly (fun index => ∃ func ∈ funcs, func.segment.Holds index) state after := by
  induction funcs generalizing state with
  | nil =>
      cases Except.ok.inj done
      exact .refl _ _
  | cons func rest ih =>
      rw [List.foldlM_cons] at done
      obtain ⟨middle, first, later⟩ := bind_eq_ok done
      have step := (optimiseFunc_ok (inside func List.mem_cons_self) first).1
      have still := fun other member =>
        step.viewInside (inside other (List.mem_cons_of_mem func member))
      refine (step.mono fun index held => ⟨func, List.mem_cons_self, held⟩).trans
        ((ih still later).mono ?_)
      rintro index ⟨other, member, held⟩
      exact ⟨other, List.mem_cons_of_mem func member, held⟩

theorem optimiseLoop_funcs {funcs : List CcSsaFunction} (todo : List CcSsaFunction) :
    ∀ (done : List CcSsaFunction) (state : CcState), state.ssaFuncs = funcs → funcs = done ++ todo →
      (∀ func ∈ todo, state.ViewInside func) →
      countedLoop (fun i s => ccSsaOptimiseFunc s (s.ssaFuncs.getD i default)) todo.length
        done.length state = todo.foldlM ccSsaOptimiseFunc state := by
  induction todo with
  | nil => exact fun _ _ _ _ _ => rfl
  | cons func rest ih =>
      intro done state same split inside
      have here : state.ssaFuncs.getD done.length default = func := by
        rw [same, split]
        simp
      rw [List.length_cons, countedLoop, List.foldlM_cons, here]
      cases first : ccSsaOptimiseFunc state func with
      | error why => rfl
      | ok next =>
          have step := (optimiseFunc_ok (inside func List.mem_cons_self) first).1
          have later := ih (done ++ [func]) next (step.funcs.trans same) (by simp [split])
            fun other member => step.viewInside (inside other (List.mem_cons_of_mem func member))
          rw [List.length_append, List.length_singleton] at later
          exact later

theorem optimise_funcs (views : state.WellViewed) :
    ccSsaOptimise state = state.ssaFuncs.foldlM ccSsaOptimiseFunc state :=
  optimiseLoop_funcs state.ssaFuncs [] state rfl rfl views.inside

theorem optimise_own (views : state.WellViewed) (member : func ∈ state.ssaFuncs)
    (done : ccSsaOptimise state = .ok after) :
    optimiseTokens (state.funcTokens func) = .ok (after.funcTokens func) := by
  rw [optimise_funcs views] at done
  obtain ⟨front, back, split⟩ := List.append_of_mem member
  have inside := views.inside
  have apart := views.apart
  rw [split] at done inside apart
  rw [List.foldlM_append] at done
  obtain ⟨reached, before, rest⟩ := bind_eq_ok done
  rw [List.foldlM_cons] at rest
  obtain ⟨next, own, behind⟩ := bind_eq_ok rest
  obtain ⟨_, rest, apartBefore⟩ := List.pairwise_append.mp apart
  have apartBehind := (List.pairwise_cons.mp rest).1
  have first := optimiseFuncs_touches (fun other there => inside other (by simp [there])) before
  have reads := first.viewInside (inside func (by simp))
  obtain ⟨step, ran⟩ := optimiseFunc_ok reads own
  have last := optimiseFuncs_touches (fun other there => step.viewInside
    (first.viewInside (inside other (by simp [there])))) behind
  rw [first.funcTokens] at ran
  · rw [last.funcTokens]
    · exact ran
    · rintro index ⟨⟨other, there, held⟩, own⟩
      exact apartBehind other there index ⟨own, held⟩
  · rintro index ⟨⟨other, there, held⟩, own⟩
    exact apartBefore other there func (by simp) index ⟨held, own⟩

theorem optimise_touches (views : state.WellViewed) (done : ccSsaOptimise state = .ok after) :
    after.ssaFuncs = state.ssaFuncs ∧ after.data = state.data ∧ after.WellViewed := by
  rw [optimise_funcs views] at done
  have touches := optimiseFuncs_touches views.inside done
  refine ⟨touches.funcs, touches.data, ?_, ?_⟩
  · rw [touches.funcs]
    exact fun func member => touches.viewInside (views.inside func member)
  · rw [touches.funcs]
    exact views.apart

end Functions

end Estros
