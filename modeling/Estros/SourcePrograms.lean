import Mathlib.Algebra.BigOperators.Ring.List
import Estros.Compiler
import Estros.ExpressionLowering
import Estros.ExpressionStarts

/-!
From the tree of a translation unit to the simulator: functions that return an arithmetic
expression over their parameters are lowered, optimised, compiled and assembled, and what the
simulator then computes is the value of the expression.
-/

namespace Estros

def SsaOutcome.ofValue : Option Word → SsaOutcome
  | some value => .returned (some value)
  | none => .undefined

theorem operations_append (front back : List CcSsaToken) :
    operations (front ++ back) = operations front ++ operations back := List.filter_append _ _

theorem survives_operations {now toks : List CcSsaToken} (survive : List.Forall₂ Survives now toks) :
    (operations now).length ≤ (operations toks).length := by
  induction survive with
  | nil => exact Nat.le_refl _
  | @cons new old now toks head _ ih =>
      rcases head.2 with none | same
      · rw [operations_plain (Or.inl none)]
        exact ih.trans (((List.sublist_cons_self old toks).filter _).length_le)
      · rw [operations, operations, List.filter_cons, List.filter_cons, same]
        split
        · exact Nat.succ_le_succ ih
        · exact ih

section Bodies

variable {index : CcStrview → Option Nat}

theorem binop_insn {op : CcAstBinop} (operator : op.isArithmetic = true) :
    (ccAsmInsn (ccSsaTypeFromAstBinopType op)).isSome = true := by
  cases op <;> first | rfl | cases operator

theorem Tree.Arithmetic.lowered_operations {tree : Tree} (arithmetic : tree.Arithmetic index)
    {id : BitVec 12} {low : Lowered} (lowered : tree.lower (lookupBy index) id = .ok low) :
    (∀ tok ∈ low.toks, tok.type = .identity ∨ (ccAsmInsn tok.type).isSome = true) ∧
      (operations low.toks).length = (tree.operators index).length := by
  induction arithmetic generalizing id low with
  | parameter found =>
      obtain ⟨i, _, rfl⟩ := lower_refVar_ok lowered
      exact ⟨fun tok member => Or.inl (List.mem_singleton.mp member ▸ rfl), rfl⟩
  | @binop op lhs rhs operator _ _ left right =>
      obtain ⟨lowLeft, lowRight, leftDone, rightDone, _, rfl⟩ := lower_binop_ok lowered
      obtain ⟨leftKinds, leftCount⟩ := left leftDone
      obtain ⟨rightKinds, rightCount⟩ := right rightDone
      have insn : (ccAsmInsn (binopToken op ⟨id, ccSsaWidth32⟩ lowLeft.arg lowRight.arg).type).isSome
          = true := binop_insn operator
      constructor
      · intro tok member
        simp only [List.mem_append, List.mem_singleton] at member
        rcases member with (before | between) | rfl
        · exact leftKinds tok before
        · exact rightKinds tok between
        · exact Or.inr insn
      · have root : operations [binopToken op ⟨id, ccSsaWidth32⟩ lowLeft.arg lowRight.arg] =
            [binopToken op ⟨id, ccSsaWidth32⟩ lowLeft.arg lowRight.arg] :=
          operations_insn insn []
        rw [operations_append, operations_append, root, Tree.operators]
        simp only [List.length_append, List.length_cons, List.length_nil, leftCount, rightCount]

theorem Tree.Arithmetic.size_eq {tree : Tree} (arithmetic : tree.Arithmetic index) :
    tree.size = 2 * (tree.operators index).length + 1 := by
  induction arithmetic with
  | parameter _ => rfl
  | binop _ _ _ left right =>
      rw [Tree.size, Tree.operators, left, right, List.length_cons, List.length_append]
      omega

theorem assigns_paramEnv {values : List Word} (few : values.length ≤ 30) :
    Assigns values (paramEnv values) := by
  intro i inside
  have param : (ccSsaIdParam i).toNat = i + 2 := paramId_toNat (by omega)
  rw [paramEnv, param, if_pos (by omega), Nat.add_sub_cancel]

theorem Tree.Arithmetic.returnsExpression {value : Tree} (arithmetic : value.Arithmetic index)
    {inner : Lowered}
    (lowered : value.lower (lookupBy index) (ccSsaFirstTemporal + 1) = .ok inner)
    (source : LoweredFrom 4 (ccSsaFirstTemporal + 1) value.size inner) :
    ReturnsExpression
      (inner.toks ++ [returnToken ⟨ccSsaFirstTemporal, ccSsaWidth32⟩ inner.arg]) := by
  have first : (ccSsaFirstTemporal + 1).toNat = 33 := rfl
  have kinds := (arithmetic.lowered_operations lowered).1
  have range : ∀ tok ∈ inner.toks, 33 ≤ tok.result.id.toNat := fun tok member =>
    (source.drawn tok member).1
  constructor
  · have named : ccSsaFirstTemporal ≠ 0 := by decide
    refine scoped_append.mpr ⟨source.form _ (fun _ member => member) ?_, named, ?_, ?_, trivial⟩
    · intro other member drawn
      have low : 33 ≤ other.toNat := drawn.1
      have high := member.2
      omega
    · intro known
      rcases mem_knownAfter.mp known with param | ⟨tok, member, same⟩
      · exact absurd param.2 (show ¬ (32 : Nat) < 6 by decide)
      · have high := range tok member
        rw [same] at high
        exact absurd high (show ¬ (33 : Nat) ≤ 32 by decide)
    · intro id used
      rcases uses_args rfl used with rfl | rfl | null
      · obtain ⟨tok, member, same⟩ := source.root
        rw [source.arg]
        exact Or.inr (mem_knownAfter.mpr (Or.inr ⟨tok, member, same⟩))
      · exact Or.inl rfl
      · exact Or.inl null
  · intro tok member
    rcases List.mem_append.mp member with before | last
    · exact le_trans (show (32 : Nat) ≤ 33 by decide) (range tok before)
    · rw [List.mem_singleton.mp last]
      exact Nat.le_refl 32
  · intro tok member
    rcases List.mem_append.mp member with before | last
    · exact (kinds tok before).imp_right Or.inr
    · exact Or.inr (Or.inl (List.mem_singleton.mp last ▸ rfl))
  · intro tok member
    rcases List.mem_append.mp member with before | last
    · exact source.operated tok before
    · rw [List.mem_singleton.mp last]
      refine ⟨nofun, fun k needed => ?_⟩
      have zero : k = 0 := Fin.ext (Nat.lt_one_iff.mp needed)
      rw [zero]
      exact source.arg_named (by rw [first]; decide)
  · refine ⟨inner.toks, _, rfl, rfl, fun tok member type => ?_⟩
    rcases kinds tok member with copy | insn
    · exact nomatch copy.symm.trans type
    · rw [type] at insn
      cases insn

theorem Tree.Arithmetic.body_started (finds : Finds index 4) {value : Tree}
    (arithmetic : value.Arithmetic index) (room : value.size ≤ 4063) {inner : Lowered}
    (lowered : value.lower (lookupBy index) (ccSsaFirstTemporal + 1) = .ok inner)
    (source : LoweredFrom 4 (ccSsaFirstTemporal + 1) value.size inner) :
    ∃ starts : BitVec 12 → ExpressionStart,
      (∀ id ∈ paramIds 4, starts id = ⟨some (id.toNat - 2), []⟩) ∧
        AllStart starts (value.operators index)
          (inner.toks ++ [returnToken ⟨ccSsaFirstTemporal, ccSsaWidth32⟩ inner.arg]) := by
  have first : (ccSsaFirstTemporal + 1).toNat = 33 := rfl
  let base : BitVec 12 → ExpressionStart := fun id => ⟨some (id.toNat - 2), []⟩
  have given : ∀ i < 4, base (ccSsaIdParam i) = ⟨some i, []⟩ := fun i inside => by
    simp only [base]
    rw [paramId_toNat (by omega), Nat.add_sub_cancel]
  obtain ⟨starts, kept, root, all⟩ := arithmetic.started finds (by decide)
    (by rw [first]; decide) (by rw [first]; omega) lowered given
  let whole := Function.update starts ccSsaFirstTemporal ((value.start index).below .assign)
  have ids : ∀ id : BitVec 12, id.toNat ≠ 32 → whole id = starts id := fun id apart =>
    Function.update_of_ne (fun same => apart (congrArg BitVec.toNat same)) _ _
  refine ⟨whole, fun id member => ?_, fun tok member => ?_⟩
  · have high := member.2
    rw [ids id (by omega), kept]
    rintro ⟨low, _⟩
    rw [first] at low
    omega
  · rcases List.mem_append.mp member with before | last
    · obtain ⟨started, trimmed, named⟩ := all tok before
      have drawn := (source.drawn tok before).1
      rw [first] at drawn
      refine ⟨started.moved rfl rfl (ids _ (by omega)) (fun k => ids _ ?_) (List.Subset.refl _),
        trimmed, named⟩
      rcases source.operand_range (by decide) (by rw [first]; decide) before k with low | high
      · omega
      · have low := high.1
        rw [first] at low
        omega
    · rw [List.mem_singleton.mp last]
      refine ⟨.operator .assign rfl ?_ ?_ (Or.inl rfl), return_trimmed _ _, ?_⟩
      · have own : whole ccSsaFirstTemporal = (value.start index).below .assign :=
          Function.update_self _ _ _
        have below : whole (ccSsaFirstTemporal + 1) = value.start index :=
          (ids _ (by rw [first]; decide)).trans root
        change whole ccSsaFirstTemporal = (whole inner.arg.id).below .assign
        rw [source.arg, own, below]
      · exact congrArg CcSsaArgument.width source.arg
      · exact show ccSsaFirstTemporal ≠ 0 by decide

theorem Tree.Arithmetic.body_decides (finds : Finds index 4) {value : Tree}
    (arithmetic : value.Arithmetic index) (room : value.size ≤ 4063) {inner : Lowered}
    (lowered : value.lower (lookupBy index) (ccSsaFirstTemporal + 1) = .ok inner)
    (source : LoweredFrom 4 (ccSsaFirstTemporal + 1) value.size inner)
    (decides : StartDecides (value.operators index)) :
    FirstOperandDecides (dropIdentities.run
      (inner.toks ++ [returnToken ⟨ccSsaFirstTemporal, ccSsaWidth32⟩ inner.arg])) := by
  obtain ⟨starts, params, all⟩ := arithmetic.body_started finds room lowered source
  have returns := arithmetic.returnsExpression lowered source
  have started : Started starts (value.operators index) (dropIdentities.run
      (inner.toks ++ [returnToken ⟨ccSsaFirstTemporal, ccSsaWidth32⟩ inner.arg])) :=
    ⟨dropIdentities_start all, params, dropIdentities_form returns.form returns.copies,
      dropIdentities_deadUnused returns.form returns.copies returns.live,
      dropIdentities_named fun tok member _ => returns.operated tok member,
      dropIdentities_none_left _⟩
  exact started.decides decides

theorem Tree.Arithmetic.body_meaning (finds : Finds index 4) {value : Tree}
    (arithmetic : value.Arithmetic index) (room : value.size ≤ 4063) {inner : Lowered}
    (lowered : value.lower (lookupBy index) (ccSsaFirstTemporal + 1) = .ok inner)
    (source : LoweredFrom 4 (ccSsaFirstTemporal + 1) value.size inner) (meaning : SsaMeaning)
    (params : Fin 4 → Word) :
    ssaCall meaning (inner.toks ++ [returnToken ⟨ccSsaFirstTemporal, ccSsaWidth32⟩ inner.arg])
      (List.ofFn params) = .ofValue (value.value index (List.ofFn params)) := by
  have first : (ccSsaFirstTemporal + 1).toNat = 33 := rfl
  have arity : (List.ofFn params).length = 4 := List.length_ofFn
  have few : (List.ofFn params).length ≤ 30 := by omega
  have computes := arithmetic.computed meaning (arity.symm ▸ finds) few (by rw [first]; decide)
    (by rw [first]; omega) lowered (assigns_paramEnv few)
  rw [ssaCall, ssaRun_append]
  cases result : value.value index (List.ofFn params) with
  | none =>
      rw [result] at computes
      have stopped : ssaSteps meaning inner.toks (paramEnv (List.ofFn params)) =
        .error .undefined := computes
      rw [stopped]
      rfl
  | some word =>
      rw [result] at computes
      obtain ⟨after, steps, holds, _⟩ := computes
      have read : ((returnToken ⟨ccSsaFirstTemporal, ccSsaWidth32⟩ inner.arg).arg 0).id =
        ccSsaFirstTemporal + 1 := congrArg CcSsaArgument.id source.arg
      rw [steps]
      simp only [run_return meaning
        (show (returnToken ⟨ccSsaFirstTemporal, ccSsaWidth32⟩ inner.arg).type = .ret from rfl),
        read, holds]
      rfl

end Bodies

structure SourceParameter where
  name : CcStrview
  init : Tree
  typeDef : Tree
  flags : BitVec 32

structure SourceFunction where
  name : CcStrview
  returnType : Tree
  params : List SourceParameter
  value : Tree
  flags : BitVec 32

def SourceParameter.tree (param : SourceParameter) : Tree :=
  .newVar param.name param.init param.typeDef param.flags

def SourceFunction.tree (func : SourceFunction) : Tree :=
  .newVar func.name (.ret func.value)
    (.newType func.returnType (func.params.map SourceParameter.tree) ccAstTypeFlagsFunction)
    func.flags

def CcState.text (state : CcState) (name : CcStrview) : List UInt8 := cString (ccStrviewGet state name)

/-- Which parameter a name is. -/
def SourceFunction.index (state : CcState) (func : SourceFunction) : CcStrview → Option Nat :=
  parameterNamed state (func.params.map fun param => state.text param.name)

def SourceFunction.operators (state : CcState) (func : SourceFunction) : List OperatorStarts :=
  func.value.operators (func.index state)

/-- At most four parameters and seven operators, of which those that start alike end alike. -/
structure SourceFunction.Supported (state : CcState) (func : SourceFunction) : Prop where
  params : func.params.length ≤ 4
  value : func.value.Arithmetic (func.index state)
  few : (func.operators state).length ≤ 7
  decides : StartDecides (func.operators state)
  label : IsLabel (state.text func.name)

def SourceFunction.outcome (state : CcState) (func : SourceFunction) (params : Fin 4 → Word) :
    SsaOutcome :=
  .ofValue (func.value.value (func.index state) (List.ofFn params))

def SourceFunction.tokens (state : CcState) (func : SourceFunction) : List CcSsaToken :=
  match (Tree.ret func.value).lower (lookupBy (func.index state)) ccSsaFirstTemporal with
  | .ok low => low.toks
  | .error _ => []

section Functions

variable {state : CcState} {func : SourceFunction}

theorem SourceFunction.Supported.finds (supported : func.Supported state) :
    Finds (func.index state) 4 := by
  intro view i found
  have inside := parameterNamed_lt found
  rw [List.length_map] at inside
  exact lt_of_lt_of_le inside supported.params

theorem SourceFunction.Supported.room (supported : func.Supported state) :
    func.value.size ≤ 15 := by
  have few := supported.few
  rw [supported.value.size_eq]
  rw [SourceFunction.operators] at few
  omega

structure LoweredFunction (state : CcState) (func : SourceFunction) : Prop where
  lowered : ∃ low, (Tree.ret func.value).lower (lookupBy (func.index state)) ccSsaFirstTemporal =
    .ok low ∧ low.toks = func.tokens state
  size : (func.tokens state).length = 2 * (func.operators state).length + 2
  returns : ReturnsExpression (func.tokens state)
  decides : FirstOperandDecides (dropIdentities.run (func.tokens state))
  operations : (operations (optimised (func.tokens state))).length ≤ (func.operators state).length
  meaning : ∀ meaning params, ssaCall meaning (func.tokens state) (List.ofFn params) =
    func.outcome state params

theorem SourceFunction.Supported.lowered (supported : func.Supported state) :
    LoweredFunction state func := by
  have finds := supported.finds
  have small := supported.room
  have room : func.value.size ≤ 4063 := by omega
  have first : (ccSsaFirstTemporal + 1).toNat = 33 := rfl
  obtain ⟨inner, done, source⟩ := supported.value.lowered finds (by decide) (ccSsaFirstTemporal + 1)
    (by rw [first]; decide) (by rw [first]; omega)
  have lowered : (Tree.ret func.value).lower (lookupBy (func.index state)) ccSsaFirstTemporal =
      .ok ⟨⟨ccSsaFirstTemporal, ccSsaWidth32⟩, inner.next,
        inner.toks ++ [returnToken ⟨ccSsaFirstTemporal, ccSsaWidth32⟩ inner.arg]⟩ := by
    rw [Tree.lower, done]
    rfl
  have tokens : func.tokens state =
      inner.toks ++ [returnToken ⟨ccSsaFirstTemporal, ccSsaWidth32⟩ inner.arg] := by
    rw [SourceFunction.tokens, lowered]
  refine ⟨⟨_, lowered, tokens.symm⟩, ?_, ?_, ?_, ?_, fun meaning params => ?_⟩
  · rw [tokens, List.length_append, source.count, supported.value.size_eq]
    rfl
  · exact tokens ▸ supported.value.returnsExpression done source
  · exact tokens ▸ supported.value.body_decides finds room done source supported.decides
  · have before := (supported.value.lowered_operations done).2
    have fewer := survives_operations (optimised_survive (func.tokens state))
    have ret : operations [returnToken ⟨ccSsaFirstTemporal, ccSsaWidth32⟩ inner.arg] = [] := rfl
    rw [tokens, operations_append, ret, List.append_nil, before] at fewer
    exact tokens ▸ fewer
  · rw [tokens, SourceFunction.outcome]
    exact supported.value.body_meaning finds room done source meaning params

end Functions

/-! ### Units -/

section Units

variable {ast : CcState} {inside : Nat → Prop}

def Becomes (ast after : CcState) (func : SourceFunction) (stored : CcSsaFunction) : Prop :=
  stored.name = func.name ∧ after.funcTokens stored = func.tokens ast

end Units

/-- The assembled text has every function of the source under its name, and it computes the
value of its expression. -/
def SourceRuns (fpu : FloatUnit) (fuel : Nat) (ast : CcState) (text file : List UInt8)
    (funcs : List SourceFunction) : Prop :=
  ∀ (i : Nat) (func : SourceFunction), funcs[i]? = some func → ∃ label : AsmLabel,
    (AsmProgram.ofText text).labels[i]? = some label ∧ label.name = ast.text func.name ∧
      RunsFunction fpu fuel file (simRomBase + label.pc) (optimised (func.tokens ast))
        (func.outcome ast)

theorem Becomes.translatable {ast lowered : CcState} (data : lowered.data = ast.data)
    {func : SourceFunction} {stored : CcSsaFunction} (becomes : Becomes ast lowered func stored)
    (supported : func.Supported ast) : Translatable lowered stored := by
  have one := supported.lowered
  obtain ⟨name, tokens⟩ := becomes
  refine ⟨tokens ▸ one.returns, tokens ▸ one.decides, ?_, ?_⟩
  · rw [tokens]
    exact one.operations.trans supported.few
  · have text : lowered.functionName stored = ast.text func.name := by
      rw [CcState.functionName, name, ccStrviewGet, data]
      rfl
    exact text ▸ supported.label

end Estros
