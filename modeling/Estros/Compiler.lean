import Estros.SsaReady

/-!
The back end on whole units: the optimiser, the code generator, the assembler and the simulator,
one after the other.
-/

namespace Estros

section Optimiser

variable {state : CcState}

theorem optimiseLoop_runs (funcs : List CcSsaFunction)
    (inside : ∀ func ∈ funcs, state.ViewInside func) (apart : funcs.Pairwise CcSsaFunction.Apart)
    (asserted : ∀ func ∈ funcs, ∀ tok ∈ state.funcTokens func, tok.Asserted) :
    ∃ after, funcs.foldlM ccSsaOptimiseFunc state = .ok after := by
  induction funcs generalizing state with
  | nil => exact ⟨state, rfl⟩
  | cons func rest ih =>
      obtain ⟨apartBehind, apartRest⟩ := List.pairwise_cons.mp apart
      have ran := optimiseFunc_run (inside func List.mem_cons_self)
        (asserted func List.mem_cons_self)
      have touches := (optimiseFunc_ok (inside func List.mem_cons_self) ran).1
      have insideBehind := fun other member =>
        touches.viewInside (inside other (List.mem_cons_of_mem func member))
      obtain ⟨after, done⟩ := ih insideBehind apartRest fun other member tok there => by
        rw [touches.funcTokens (apartBehind other member)] at there
        exact asserted other (List.mem_cons_of_mem func member) tok there
      exact ⟨after, by rw [List.foldlM_cons, ran]; exact done⟩

structure Optimises (before after : CcState) : Prop where
  done : ccSsaOptimise before = .ok after
  funcs : after.ssaFuncs = before.ssaFuncs
  data : after.data = before.data
  inside : ∀ func ∈ before.ssaFuncs, after.ViewInside func
  tokens : ∀ func ∈ before.ssaFuncs, after.funcTokens func = optimised (before.funcTokens func)

theorem optimise_unit (views : state.WellViewed)
    (returns : ∀ func ∈ state.ssaFuncs, ReturnsExpression (state.funcTokens func)) :
    ∃ after, Optimises state after := by
  obtain ⟨after, ran⟩ := optimiseLoop_runs state.ssaFuncs views.inside views.apart
    fun func member => (returns func member).copies.asserted (returns func member).form
  have done := (optimise_funcs views).trans ran
  obtain ⟨funcs, data, still⟩ := optimise_touches views done
  refine ⟨after, done, funcs, data, fun func member => still.inside func (funcs ▸ member), ?_⟩
  exact fun func member => optimiseTokens_ok (optimise_own views member done)

end Optimiser

theorem ReturnsExpression.optimised_meaning {toks : List CcSsaToken}
    (returns : ReturnsExpression toks) (decides : FirstOperandDecides (dropIdentities.run toks))
    (meaning : SsaMeaning) (params : Fin 4 → Word) :
    ssaCall meaning (optimised toks) (List.ofFn params) = ssaCall meaning toks (List.ofFn params) := by
  have arity : (List.ofFn params).length = 4 := List.length_ofFn
  have form : SsaForm (List.ofFn params).length (dropIdentities.run toks) := by
    rw [arity]
    exact dropIdentities_form returns.form returns.copies
  have copies : ssaCall meaning (dropIdentities.run toks) (List.ofFn params) =
      ssaCall meaning toks (List.ofFn params) :=
    dropIdentities_meaning meaning returns.form returns.copies _
  exact (mergeReused_meaning meaning form decides).trans copies

/-- A function that the back end translates. -/
structure Translatable (state : CcState) (func : CcSsaFunction) : Prop where
  returns : ReturnsExpression (state.funcTokens func)
  decides : FirstOperandDecides (dropIdentities.run (state.funcTokens func))
  few : (operations (optimised (state.funcTokens func))).length ≤ 7
  label : IsLabel (state.functionName func)

def CcState.optimisedSize (state : CcState) (func : CcSsaFunction) : Nat :=
  (operations (optimised (state.funcTokens func))).length + 1

theorem Translatable.compilable {before after : CcState} (optimises : Optimises before after)
    {func : CcSsaFunction} (member : func ∈ before.ssaFuncs) (translatable : Translatable before func) :
    Compilable after func := by
  have tokens := optimises.tokens func member
  refine ⟨optimises.inside func member, ?_, ?_⟩
  · rw [tokens]
    exact translatable.returns.returning translatable.few
  · have name : ccStrviewGet after func.name = ccStrviewGet before func.name := by
      rw [ccStrviewGet, optimises.data, ccStrviewGet]
    rw [name]
    exact translatable.label

theorem UnitRuns.congr {fpu : FloatUnit} {fuel : Nat} {state : CcState} {text file : List UInt8}
    {call other : CcSsaFunction → (Fin 4 → Word) → SsaOutcome}
    (runs : UnitRuns fpu fuel state text file call)
    (same : ∀ func ∈ state.ssaFuncs, ∀ params, call func params = other func params) :
    UnitRuns fpu fuel state text file other := by
  intro i func here
  obtain ⟨label, found, name, each⟩ := runs i func here
  have equal : call func = other func := funext (same func (List.mem_of_getElem? here))
  exact ⟨label, found, name, equal ▸ each⟩

theorem unit_compiles (fpu : FloatUnit) (fuel : Nat) {state : CcState} (views : state.WellViewed)
    (translatable : ∀ func ∈ state.ssaFuncs, Translatable state func)
    (labels : state.ssaFuncs.length * asmLabelSize ≤ listMaxSize)
    (fits : 4 * (state.ssaFuncs.map state.optimisedSize).sum ≤ simRomSize) :
    ∃ after lines text file, Optimises state after ∧ ccAsmLowerSsa after = .ok lines ∧
      ccAsmFinish lines = some text ∧ asmMain text = .ok file ∧
      ∀ meaning, UnitRuns fpu fuel after text file
        fun func params => ssaCall meaning (state.funcTokens func) (List.ofFn params) := by
  obtain ⟨after, optimises⟩ := optimise_unit views fun func member =>
    (translatable func member).returns
  have compilable : ∀ func ∈ after.ssaFuncs, Compilable after func := fun func member =>
    have before := optimises.funcs ▸ member
    (translatable func before).compilable optimises before
  have sizes : after.ssaFuncs.map after.functionSize = state.ssaFuncs.map state.optimisedSize := by
    rw [optimises.funcs]
    refine List.map_congr_left fun func member => ?_
    rw [CcState.functionSize, optimises.tokens func member, CcState.optimisedSize]
  obtain ⟨lines, text, file, lowered, finished, main, runs⟩ := unit_runs fpu fuel compilable
    (optimises.funcs ▸ labels) (sizes ▸ fits)
  refine ⟨after, lines, text, file, optimises, lowered, finished, main, fun meaning => ?_⟩
  refine (runs meaning).congr fun func member params => ?_
  have before : func ∈ state.ssaFuncs := optimises.funcs ▸ member
  have one := translatable func before
  rw [optimises.tokens func before]
  exact one.returns.optimised_meaning one.decides meaning params

/-- Functions in SSA form that return an expression over at most four parameters, with at most
seven operations left and no two of them taken for one wrongly: compiled, assembled and called
with the arguments in `$a0` to `$a3`, they return what they did before all that. -/
theorem optimised_unit_runs (fpu : FloatUnit) (fuel : Nat) {state : CcState}
    (views : state.WellViewed) (translatable : ∀ func ∈ state.ssaFuncs, Translatable state func)
    (labels : state.ssaFuncs.length * asmLabelSize ≤ listMaxSize)
    (fits : 4 * (state.ssaFuncs.map state.optimisedSize).sum ≤ simRomSize) :
    ∃ after lines text file, ccSsaOptimise state = .ok after ∧ ccAsmLowerSsa after = .ok lines ∧
      ccAsmFinish lines = some text ∧ asmMain text = .ok file ∧
      ∀ meaning, UnitRuns fpu fuel after text file
        fun func params => ssaCall meaning (state.funcTokens func) (List.ofFn params) := by
  obtain ⟨after, lines, text, file, optimises, compiled⟩ :=
    unit_compiles fpu fuel views translatable labels fits
  exact ⟨after, lines, text, file, optimises.done, compiled⟩

theorem isLabel_of_all {name : List UInt8}
    (words : name.all (fun byte => decide (IsWord byte)) = true) (named : name ≠ [])
    (fits : name.length < labelNameSize) : IsLabel name :=
  ⟨fun byte member => of_decide_eq_true (List.all_eq_true.mp words byte member), named, fits⟩

def sumOfCopies : List CcSsaToken :=
  [parameterToken ⟨32, ccSsaWidth32⟩ 0, parameterToken ⟨33, ccSsaWidth32⟩ 1,
    binopToken .add ⟨34, ccSsaWidth32⟩ ⟨32, ccSsaWidth32⟩ ⟨33, ccSsaWidth32⟩,
    returnToken ⟨35, ccSsaWidth32⟩ ⟨34, ccSsaWidth32⟩]

theorem optimised_sum_runs :
    ∃ after lines text file, ccSsaOptimise (singleState sumOfCopies) = .ok after ∧
      ccAsmLowerSsa after = .ok lines ∧ ccAsmFinish lines = some text ∧ asmMain text = .ok file ∧
      ∀ meaning, UnitRuns noFloats 0 after text file fun func params =>
        ssaCall meaning ((singleState sumOfCopies).funcTokens func) (List.ofFn params) := by
  have tokens : (singleState sumOfCopies).funcTokens (singleFunc sumOfCopies) = sumOfCopies := rfl
  have returns : ReturnsExpression sumOfCopies := by
    refine ⟨by decide, by decide, by decide, ?_, sumOfCopies.take 3, sumOfCopies.getLast (by decide),
      rfl, rfl, by decide⟩
    unfold CcSsaToken.Operated
    decide
  have decides : FirstOperandDecides (dropIdentities.run sumOfCopies) := by
    -- the addition and the return are the only tokens of their types
    have alone : ∀ left ∈ dropIdentities.run sumOfCopies, ∀ right ∈ dropIdentities.run sumOfCopies,
        left.type ≠ .none → right.type = left.type → left = right := by decide +kernel
    intro left leftIn right rightIn live _ type _ _ k
    rw [alone left leftIn right rightIn live type]
    exact .refl _
  have name : (singleState sumOfCopies).functionName (singleFunc sumOfCopies) = [102] := by decide
  have label : IsLabel [102] := isLabel_of_all (by decide) (by decide) (by decide)
  have one : Translatable (singleState sumOfCopies) (singleFunc sumOfCopies) :=
    ⟨tokens ▸ returns, tokens ▸ decides, by decide +kernel, name ▸ label⟩
  exact optimised_unit_runs noFloats 0 ⟨by decide, List.pairwise_singleton _ _⟩
    (fun func member => List.mem_singleton.mp member ▸ one) (by decide) (by decide +kernel)

end Estros
