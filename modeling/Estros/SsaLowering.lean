import Mathlib.Data.List.Basic
import Estros.AstTree

/-!
The lowering of ssa.c from AST nodes to SSA tokens, and the same lowering on the trees that
the nodes denote. An id is drawn for every node before its children are lowered.
-/

namespace Estros

/-- `cc_ssa_emitter_t`: `func` is the index of the function, `arg` the next id. -/
structure CcSsaEmitter where
  state : CcState
  func : Nat
  arg : BitVec 12
  tdef : CcAstNodeRef

abbrev EmitM := StateT CcSsaEmitter (Except Halt)

/-- `tokens.len` grown by one for each of `count` tokens; it has eight bits. -/
def CcSsaFunction.grow (count : Nat) (func : CcSsaFunction) : CcSsaFunction :=
  { func with tokens := { func.tokens with len := func.tokens.len + BitVec.ofNat 8 count } }

def CcState.pushSsaTokens (state : CcState) (func : Nat) (toks : List CcSsaToken) : CcState :=
  { state with
    ssaTokens := state.ssaTokens ++ toks
    ssaFuncs := state.ssaFuncs.modify func (CcSsaFunction.grow toks.length) }

def ccSsaPushToken (tok : CcSsaToken) : EmitM Unit :=
  modify fun emit => { emit with state := emit.state.pushSsaTokens emit.func [tok] }

/-- The loop of `cc_ssa_get_func_parameter_index` over the parameters left. -/
def ccSsaParameterFrom (state : CcState) (s1 : List UInt8) : List CcAstNodeRef → Nat →
    Except Halt Nat
  | [], _ => .error .abort
  | child :: rest, i =>
      match state.node child with
      | .newVar name _ _ _ =>
          if s1 = cString (ccStrviewGet state name) then .ok i
          else ccSsaParameterFrom state s1 rest (i + 1)
      | _ => .error (.assertion .ccSsaGetFuncParameterIndex)

def ccSsaParameterIndex (state : CcState) (tdef : CcAstNodeRef) (name : CcStrview) :
    Except Halt Nat :=
  match state.node tdef with
  | .newType _ childs _ =>
      ccSsaParameterFrom state (cString (ccStrviewGet state name)) (state.childs childs) 0
  | _ => .error (.assertion .ccSsaGetFuncParameterIndex)

def ccSsaGetFuncParameterIndex (name : CcStrview) : EmitM Nat := do
  let emit ← get
  liftM (ccSsaParameterIndex emit.state emit.tdef name)

def ccSsaTypeFromAstBinopType : CcAstBinop → CcSsaTokenType
  | .add => .add
  | .sub => .sub
  | .mul => .mul
  | .div => .div
  | .rem => .rem
  | .bitAnd => .and
  | .bitXor => .xor
  | .bitOr => .or
  | .lshift => .lshift
  | .rshift => .rshift
  | _ => .identity

/-- The cases of the inner switch of `cc_ssa_from_ast_within_func`; the others abort. -/
def CcAstBinop.isArithmetic : CcAstBinop → Bool
  | .add | .sub | .mul | .div | .rem | .bitXor | .bitAnd | .bitOr | .lshift | .rshift => true
  | _ => false

def ccSsaNull : CcSsaArgument := ⟨ccSsaIdNull, 0⟩

/-- `args[0]` and `args[1]` given, the others zero. -/
def ccSsaArgs (first second : CcSsaArgument) : Vector CcSsaArgument ccSsaMaxArgs :=
  #v[first, second, ccSsaNull, ccSsaNull, ccSsaNull, ccSsaNull, ccSsaNull, ccSsaNull]

def ccSsaDrawResult : EmitM CcSsaArgument := do
  let emit ← get
  set { emit with arg := emit.arg + 1 }
  pure ⟨emit.arg, ccSsaWidth32⟩

/-- The token of a parameter read; the id of the parameter is stored with width 0. -/
def parameterToken (res : CcSsaArgument) (paramNo : Nat) : CcSsaToken :=
  { result := res, args := ccSsaArgs ⟨ccSsaIdParam paramNo, 0⟩ ccSsaNull, type := .identity }

def returnToken (res value : CcSsaArgument) : CcSsaToken :=
  { result := res, args := ccSsaArgs value ccSsaNull, type := .ret }

def binopToken (op : CcAstBinop) (res lhs rhs : CcSsaArgument) : CcSsaToken :=
  { result := res, args := ccSsaArgs lhs rhs, type := ccSsaTypeFromAstBinopType op }

/-- The loops over `childs`; the results are dropped. -/
def ccSsaFromAstChilds (lower : CcAstNodeRef → EmitM CcSsaArgument) :
    List CcAstNodeRef → EmitM Unit
  | [] => pure ()
  | child :: rest => do
      let _ ← lower child
      ccSsaFromAstChilds lower rest

/-- The switch of `cc_ssa_from_ast_within_func` on the node, `lower` being the recursive call. -/
def ccSsaFromAstNode (lower : CcAstNodeRef → EmitM CcSsaArgument) (state : CcState)
    (res : CcSsaArgument) : CcAstNode → EmitM CcSsaArgument
  | .refVar name => do
      let paramNo ← ccSsaGetFuncParameterIndex name
      ccSsaPushToken (parameterToken res paramNo)
      pure res
  | .block childs => do
      ccSsaFromAstChilds lower (state.childs childs)
      pure ccSsaNull
  | .newType returnType childs _ => do
      let _ ← lower returnType
      ccSsaFromAstChilds lower (state.childs childs)
      pure ccSsaNull
  | .newVar _ init typeDef _ => do
      let _ ← lower typeDef
      let _ ← lower init
      pure ccSsaNull
  | .ifExpr cond thenRef elseRef => do
      let _ ← lower cond
      let _ ← lower thenRef
      let _ ← lower elseRef
      pure ccSsaNull
  | .ret retval => do
      let value ← lower retval
      ccSsaPushToken (returnToken res value)
      pure res
  -- The id of the result was drawn before the operands draw theirs.
  | .binop op lhsRef rhsRef => do
      let lhs ← lower lhsRef
      let rhs ← lower rhsRef
      if op.isArithmetic then
        ccSsaPushToken (binopToken op res lhs rhs)
        pure res
      else
        throw .abort
  -- Literals, casts and unary operators fall through the switch.
  | _ => pure ccSsaNull

def ccSsaFromAstWithinFunc : Nat → CcAstNodeRef → EmitM CcSsaArgument
  | 0, _ => throw .outOfFuel
  | fuel + 1, n => do
      let res ← ccSsaDrawResult
      let emit ← get
      ccSsaFromAstNode (ccSsaFromAstWithinFunc fuel) emit.state res (emit.state.node n)

def CcState.addFunction (state : CcState) (name : CcStrview) : CcState :=
  { state with
    ssaFuncs := state.ssaFuncs ++ [⟨name, ⟨BitVec.ofNat 24 state.ssaTokens.length, 0⟩⟩] }

def ccSsaFromAstVar (fuel : Nat) (state : CcState) (n : CcAstNodeRef) : Except Halt CcState :=
  match state.node n with
  | .newVar name init typeDef _ =>
      match state.node typeDef with
      | .newType _ _ flags =>
          if flags = ccAstTypeFlagsFunction then do
            let (_, emit) ← (ccSsaFromAstWithinFunc fuel init).run
              ⟨state.addFunction name, state.ssaFuncs.length, ccSsaFirstTemporal, typeDef⟩
            pure emit.state
          else
            .error .abort
      | _ => .error (.assertion .ccSsaFromAstVar)
  | _ => .error (.assertion .ccSsaFromAstVar)

def ccSsaFromAst (fuel : Nat) (state : CcState) (n : CcAstNodeRef) : Except Halt CcState :=
  match state.node n with
  | .block childs => (state.childs childs).foldlM (ccSsaFromAstVar fuel) state
  | .newVar _ _ _ _ => ccSsaFromAstVar fuel state n
  | _ => .error .abort

/-! ### The lowering of trees -/

/-- What lowering a tree yields: the argument that stands for it, the next free id, and the
tokens it pushes. -/
structure Lowered where
  arg : CcSsaArgument
  next : BitVec 12
  toks : List CcSsaToken

mutual

/-- The lowering of a tree, `id` being the next free id. -/
def Tree.lower (lookup : CcStrview → Except Halt Nat) : Tree → BitVec 12 → Except Halt Lowered
  | .leaf (.refVar name), id => do
      let paramNo ← lookup name
      pure ⟨⟨id, ccSsaWidth32⟩, id + 1, [parameterToken ⟨id, ccSsaWidth32⟩ paramNo]⟩
  | .leaf _, id => pure ⟨ccSsaNull, id + 1, []⟩
  | .block children, id => do
      let all ← Tree.lowerAll lookup children (id + 1)
      pure ⟨ccSsaNull, all.next, all.toks⟩
  | .newVar _ init typeDef _, id => do
      let first ← typeDef.lower lookup (id + 1)
      let second ← init.lower lookup first.next
      pure ⟨ccSsaNull, second.next, first.toks ++ second.toks⟩
  | .newType returnType children _, id => do
      let first ← returnType.lower lookup (id + 1)
      let rest ← Tree.lowerAll lookup children first.next
      pure ⟨ccSsaNull, rest.next, first.toks ++ rest.toks⟩
  | .ifExpr cond thenTree elseTree, id => do
      let first ← cond.lower lookup (id + 1)
      let second ← thenTree.lower lookup first.next
      let third ← elseTree.lower lookup second.next
      pure ⟨ccSsaNull, third.next, first.toks ++ second.toks ++ third.toks⟩
  | .ret value, id => do
      let low ← value.lower lookup (id + 1)
      pure ⟨⟨id, ccSsaWidth32⟩, low.next, low.toks ++ [returnToken ⟨id, ccSsaWidth32⟩ low.arg]⟩
  | .binop op lhs rhs, id => do
      let left ← lhs.lower lookup (id + 1)
      let right ← rhs.lower lookup left.next
      if op.isArithmetic then
        pure ⟨⟨id, ccSsaWidth32⟩, right.next,
          left.toks ++ right.toks ++ [binopToken op ⟨id, ccSsaWidth32⟩ left.arg right.arg]⟩
      else
        .error .abort

def Tree.lowerAll (lookup : CcStrview → Except Halt Nat) : List Tree → BitVec 12 →
    Except Halt Lowered
  | [], id => pure ⟨ccSsaNull, id, []⟩
  | tree :: trees, id => do
      let first ← tree.lower lookup id
      let rest ← Tree.lowerAll lookup trees first.next
      pure ⟨ccSsaNull, rest.next, first.toks ++ rest.toks⟩

end

mutual

def Tree.size : Tree → Nat
  | .leaf _ => 1
  | .block children => Tree.sizeAll children + 1
  | .newVar _ init typeDef _ => typeDef.size + init.size + 1
  | .newType returnType children _ => returnType.size + Tree.sizeAll children + 1
  | .ifExpr cond thenTree elseTree => cond.size + thenTree.size + elseTree.size + 1
  | .ret value => value.size + 1
  | .binop _ lhs rhs => lhs.size + rhs.size + 1

def Tree.sizeAll : List Tree → Nat
  | [] => 0
  | tree :: trees => tree.size + Tree.sizeAll trees

end

theorem bind_eq_ok {ε α β : Type} {first : Except ε α} {next : α → Except ε β} {result : β}
    (done : (first >>= next) = .ok result) : ∃ value, first = .ok value ∧ next value = .ok result := by
  cases first with
  | error why => exact absurd done (by simp [bind, Except.bind])
  | ok value => exact ⟨value, rfl, done⟩

theorem lower_binop_ok {lookup : CcStrview → Except Halt Nat} {op : CcAstBinop} {lhs rhs : Tree}
    {id : BitVec 12} {low : Lowered} (lowered : (Tree.binop op lhs rhs).lower lookup id = .ok low) :
    ∃ left right, lhs.lower lookup (id + 1) = .ok left ∧ rhs.lower lookup left.next = .ok right ∧
      op.isArithmetic = true ∧ low = ⟨⟨id, ccSsaWidth32⟩, right.next,
        left.toks ++ right.toks ++ [binopToken op ⟨id, ccSsaWidth32⟩ left.arg right.arg]⟩ := by
  rw [Tree.lower] at lowered
  obtain ⟨left, leftDone, rest⟩ := bind_eq_ok lowered
  obtain ⟨right, rightDone, last⟩ := bind_eq_ok rest
  by_cases operator : op.isArithmetic = true
  · rw [if_pos operator] at last
    exact ⟨left, right, leftDone, rightDone, operator, (Except.ok.inj last).symm⟩
  · rw [if_neg operator] at last
    exact absurd last (by simp)

theorem lower_ret_ok {lookup : CcStrview → Except Halt Nat} {value : Tree} {id : BitVec 12}
    {low : Lowered} (lowered : (Tree.ret value).lower lookup id = .ok low) :
    ∃ inner, value.lower lookup (id + 1) = .ok inner ∧ low = ⟨⟨id, ccSsaWidth32⟩, inner.next,
      inner.toks ++ [returnToken ⟨id, ccSsaWidth32⟩ inner.arg]⟩ := by
  rw [Tree.lower] at lowered
  obtain ⟨inner, done, last⟩ := bind_eq_ok lowered
  exact ⟨inner, done, (Except.ok.inj last).symm⟩

theorem lower_refVar_ok {lookup : CcStrview → Except Halt Nat} {name : CcStrview} {id : BitVec 12}
    {low : Lowered} (lowered : (Tree.leaf (.refVar name)).lower lookup id = .ok low) :
    ∃ i, lookup name = .ok i ∧
      low = ⟨⟨id, ccSsaWidth32⟩, id + 1, [parameterToken ⟨id, ccSsaWidth32⟩ i]⟩ := by
  rw [Tree.lower] at lowered
  obtain ⟨i, found, last⟩ := bind_eq_ok lowered
  exact ⟨i, found, (Except.ok.inj last).symm⟩

structure SameAst (before after : CcState) : Prop where
  nodes : after.nodes = before.nodes
  arrays : after.childArrays = before.childArrays
  data : after.data = before.data

theorem SameAst.node {before after : CcState} (same : SameAst before after) (ref : CcAstNodeRef) :
    after.node ref = before.node ref := by
  rw [CcState.node, CcState.node, same.nodes]

theorem SameAst.childs {before after : CcState} (same : SameAst before after)
    {childs : ChildArray} {refs : List CcAstNodeRef} (allocated : before.array childs = some refs) :
    after.childs childs = refs := by
  cases childs with
  | none => exact Option.some.inj allocated
  | some index =>
      rw [CcState.childs, same.arrays, List.getD_eq_getElem?_getD]
      rw [CcState.array] at allocated
      rw [allocated, Option.getD_some]

theorem SameAst.strviewGet {before after : CcState} (same : SameAst before after)
    (view : CcStrview) : ccStrviewGet after view = ccStrviewGet before view := by
  rw [ccStrviewGet, ccStrviewGet, same.data]

theorem SameAst.parameterFrom {before after : CcState} (same : SameAst before after)
    (s1 : List UInt8) (children : List CcAstNodeRef) (i : Nat) :
    ccSsaParameterFrom after s1 children i = ccSsaParameterFrom before s1 children i := by
  induction children generalizing i with
  | nil => rfl
  | cons child rest ih =>
      rw [ccSsaParameterFrom, ccSsaParameterFrom, same.node child]
      cases before.node child <;> simp only [same.strviewGet, ih]

theorem SameAst.parameterIndex {before after : CcState} (same : SameAst before after)
    (tdef : CcAstNodeRef) : ccSsaParameterIndex after tdef = ccSsaParameterIndex before tdef := by
  funext name
  have arrays (childs : ChildArray) : after.childs childs = before.childs childs := by
    cases childs with
    | none => rfl
    | some index => rw [CcState.childs, CcState.childs, same.arrays]
  rw [ccSsaParameterIndex, ccSsaParameterIndex, same.node tdef]
  cases before.node tdef <;> simp only [same.strviewGet, same.parameterFrom, arrays]

def CcSsaEmitter.emitted (emit : CcSsaEmitter) (low : Lowered) : CcSsaEmitter :=
  { emit with state := emit.state.pushSsaTokens emit.func low.toks, arg := low.next }

theorem grow_grow (first second : Nat) (func : CcSsaFunction) :
    (func.grow first).grow second = func.grow (first + second) := by
  simp only [CcSsaFunction.grow, BitVec.ofNat_add, BitVec.add_assoc]

theorem pushSsaTokens_append (state : CcState) (func : Nat) (first second : List CcSsaToken) :
    (state.pushSsaTokens func first).pushSsaTokens func second =
      state.pushSsaTokens func (first ++ second) := by
  have grown : CcSsaFunction.grow second.length ∘ CcSsaFunction.grow first.length =
      CcSsaFunction.grow (first ++ second).length := by
    funext each
    rw [Function.comp_apply, grow_grow, List.length_append]
  simp only [CcState.pushSsaTokens, List.append_assoc, List.modify_modify_eq, grown]

theorem pushSsaTokens_nil (state : CcState) (func : Nat) : state.pushSsaTokens func [] = state := by
  have grown : CcSsaFunction.grow ([] : List CcSsaToken).length = id := by
    funext each
    simp [CcSsaFunction.grow]
  simp only [CcState.pushSsaTokens, List.append_nil, grown, List.modify_id]

theorem sameAst_push (ast : CcState) {state : CcState} (same : SameAst ast state) (func : Nat)
    (toks : List CcSsaToken) : SameAst ast (state.pushSsaTokens func toks) :=
  ⟨same.nodes, same.arrays, same.data⟩

def CcSsaEmitter.drawn (emit : CcSsaEmitter) : CcSsaEmitter := { emit with arg := emit.arg + 1 }

theorem emitted_emitted (emit : CcSsaEmitter) (first second : Lowered) :
    (emit.emitted first).emitted second =
      emit.emitted ⟨second.arg, second.next, first.toks ++ second.toks⟩ := by
  simp only [CcSsaEmitter.emitted, pushSsaTokens_append]

theorem emitted_nil (emit : CcSsaEmitter) (arg : CcSsaArgument) :
    emit.emitted ⟨arg, emit.arg, []⟩ = emit := by
  simp only [CcSsaEmitter.emitted, pushSsaTokens_nil]

theorem drawn_eq (emit : CcSsaEmitter) :
    emit.drawn = emit.emitted ⟨ccSsaNull, emit.arg + 1, []⟩ := by
  simp only [CcSsaEmitter.drawn, CcSsaEmitter.emitted, pushSsaTokens_nil]

def runEmit {α : Type} (computation : EmitM α) (emit : CcSsaEmitter) :
    Except Halt (α × CcSsaEmitter) := computation.run emit

theorem runEmit_bind {α β : Type} (first : EmitM α) (next : α → EmitM β) (emit : CcSsaEmitter) :
    runEmit (first >>= next) emit =
      runEmit first emit >>= fun reached => runEmit (next reached.1) reached.2 := rfl

theorem runEmit_ok {α β : Type} {first : EmitM α} {next : α → EmitM β}
    {emit after : CcSsaEmitter} {value : α} (reached : runEmit first emit = .ok (value, after)) :
    runEmit (first >>= next) emit = runEmit (next value) after := by
  rw [runEmit_bind, reached]
  rfl

theorem runEmit_error {α β : Type} {first : EmitM α} {next : α → EmitM β} {emit : CcSsaEmitter}
    {why : Halt} (halted : runEmit first emit = .error why) :
    runEmit (first >>= next) emit = .error why := by
  rw [runEmit_bind, halted]
  rfl

theorem pushToken_run (emit : CcSsaEmitter) (low : Lowered) (tok : CcSsaToken) :
    runEmit (ccSsaPushToken tok) (emit.emitted low) =
      .ok ((), emit.emitted ⟨low.arg, low.next, low.toks ++ [tok]⟩) := by
  rw [← emitted_emitted emit low ⟨low.arg, low.next, [tok]⟩]
  rfl

section Lowerings

variable {ast : CcState} {inside : Nat → Prop} {tdef : CcAstNodeRef} {fuel : Nat}

def emitOutcome {α : Type} (value : Lowered → α) (emit : CcSsaEmitter) :
    Except Halt Lowered → Except Halt (α × CcSsaEmitter)
  | .ok low => .ok (value low, emit.emitted low)
  | .error why => .error why

/-- On `ref` the emitter does what the lowering of `tree` says. -/
def LowersTo (ast : CcState) (tdef : CcAstNodeRef) (fuel : Nat) (tree : Tree)
    (ref : CcAstNodeRef) : Prop :=
  ∀ emit : CcSsaEmitter, SameAst ast emit.state → emit.tdef = tdef →
    runEmit (ccSsaFromAstWithinFunc fuel ref) emit =
      emitOutcome Lowered.arg emit (tree.lower (ccSsaParameterIndex ast tdef) emit.arg)

def AllLowerTo (ast : CcState) (tdef : CcAstNodeRef) (fuel : Nat) (trees : List Tree)
    (refs : List CcAstNodeRef) : Prop :=
  ∀ emit : CcSsaEmitter, SameAst ast emit.state → emit.tdef = tdef →
    runEmit (ccSsaFromAstChilds (ccSsaFromAstWithinFunc fuel) refs) emit =
      emitOutcome (fun _ => ()) emit
        (Tree.lowerAll (ccSsaParameterIndex ast tdef) trees emit.arg)

theorem fromAstWithinFunc_step (fuel : Nat) (n : CcAstNodeRef) (emit : CcSsaEmitter) :
    runEmit (ccSsaFromAstWithinFunc (fuel + 1) n) emit =
      runEmit (ccSsaFromAstNode (ccSsaFromAstWithinFunc fuel) emit.state ⟨emit.arg, ccSsaWidth32⟩
        (emit.state.node n)) emit.drawn := rfl

theorem LowersTo.next {β : Type} {tree : Tree} {ref : CcAstNodeRef}
    (lowers : LowersTo ast tdef fuel tree ref) (emit : CcSsaEmitter) (low : Lowered)
    (same : SameAst ast emit.state) (type : emit.tdef = tdef) (rest : CcSsaArgument → EmitM β) :
    runEmit (ccSsaFromAstWithinFunc fuel ref >>= rest) (emit.emitted low) =
      match tree.lower (ccSsaParameterIndex ast tdef) low.next with
      | .ok more => runEmit (rest more.arg) (emit.emitted ⟨more.arg, more.next, low.toks ++ more.toks⟩)
      | .error why => .error why := by
  have ran := lowers (emit.emitted low) (sameAst_push ast same _ _) type
  cases lowered : tree.lower (ccSsaParameterIndex ast tdef) low.next with
  | ok more =>
      rw [show (emit.emitted low).arg = low.next from rfl, lowered] at ran
      rw [runEmit_ok ran, emitted_emitted]
  | error why =>
      rw [show (emit.emitted low).arg = low.next from rfl, lowered] at ran
      rw [runEmit_error ran]

theorem AllLowerTo.next {β : Type} {trees : List Tree} {refs : List CcAstNodeRef}
    (lowers : AllLowerTo ast tdef fuel trees refs) (emit : CcSsaEmitter) (low : Lowered)
    (same : SameAst ast emit.state) (type : emit.tdef = tdef) (rest : Unit → EmitM β) :
    runEmit (ccSsaFromAstChilds (ccSsaFromAstWithinFunc fuel) refs >>= rest) (emit.emitted low) =
      match Tree.lowerAll (ccSsaParameterIndex ast tdef) trees low.next with
      | .ok more => runEmit (rest ()) (emit.emitted ⟨more.arg, more.next, low.toks ++ more.toks⟩)
      | .error why => .error why := by
  have ran := lowers (emit.emitted low) (sameAst_push ast same _ _) type
  rw [show (emit.emitted low).arg = low.next from rfl] at ran
  cases lowered : Tree.lowerAll (ccSsaParameterIndex ast tdef) trees low.next with
  | ok more =>
      rw [lowered] at ran
      rw [runEmit_ok ran, emitted_emitted]
  | error why =>
      rw [lowered] at ran
      rw [runEmit_error ran]

theorem AllLowerTo.nil : AllLowerTo ast tdef fuel [] [] := by
  intro emit _ _
  change Except.ok ((), emit) = Except.ok ((), emit.emitted ⟨ccSsaNull, emit.arg, []⟩)
  rw [emitted_nil]

theorem AllLowerTo.cons {tree : Tree} {trees : List Tree} {ref : CcAstNodeRef}
    {refs : List CcAstNodeRef} (head : LowersTo ast tdef fuel tree ref)
    (tail : AllLowerTo ast tdef fuel trees refs) :
    AllLowerTo ast tdef fuel (tree :: trees) (ref :: refs) := by
  intro emit same type
  have first := head emit same type
  rw [Tree.lowerAll, ccSsaFromAstChilds]
  cases lowered : tree.lower (ccSsaParameterIndex ast tdef) emit.arg with
  | error why =>
      rw [lowered] at first
      rw [runEmit_error first]
      rfl
  | ok low =>
      rw [lowered] at first
      have rest := tail (emit.emitted low) (sameAst_push ast same _ _) type
      rw [runEmit_ok first, rest]
      change emitOutcome _ (emit.emitted low) (Tree.lowerAll _ trees low.next) = _
      change _ = emitOutcome _ emit (Tree.lowerAll _ trees low.next >>= _)
      cases Tree.lowerAll (ccSsaParameterIndex ast tdef) trees low.next with
      | error why => rfl
      | ok later =>
          change Except.ok ((), (emit.emitted low).emitted later) = _
          rw [emitted_emitted]
          rfl

theorem getFuncParameterIndex_run {emit : CcSsaEmitter} (same : SameAst ast emit.state)
    (type : emit.tdef = tdef) (low : Lowered) (name : CcStrview) :
    runEmit (ccSsaGetFuncParameterIndex name) (emit.emitted low) =
      (ccSsaParameterIndex ast tdef name).map fun i => (i, emit.emitted low) := by
  change runEmit (liftM (ccSsaParameterIndex (emit.state.pushSsaTokens emit.func low.toks) emit.tdef
    name)) _ = _
  rw [(sameAst_push ast same emit.func low.toks).parameterIndex, type]
  cases ccSsaParameterIndex ast tdef name <;> rfl

theorem LowersTo.refVar {name : CcStrview} {ref : CcAstNodeRef}
    (node : ast.node ref = .refVar name) :
    LowersTo ast tdef (fuel + 1) (.leaf (.refVar name)) ref := by
  intro emit same type
  rw [fromAstWithinFunc_step, same.node ref, node, ccSsaFromAstNode, drawn_eq, Tree.lower]
  have found := getFuncParameterIndex_run same type ⟨ccSsaNull, emit.arg + 1, []⟩ name
  cases index : ccSsaParameterIndex ast tdef name with
  | error why =>
      rw [index] at found
      rw [runEmit_error found]
      rfl
  | ok paramNo =>
      rw [index] at found
      rw [runEmit_ok found, runEmit_ok (pushToken_run emit _ _)]
      rfl

theorem LowersTo.leaf {node : CcAstNode} {ref : CcAstNodeRef} (found : ast.node ref = node)
    (kind : node.isLeaf = true) : LowersTo ast tdef (fuel + 1) (.leaf node) ref := by
  cases node with
  | refVar name => exact .refVar found
  | block _ => exact nomatch kind
  | newVar _ _ _ _ => exact nomatch kind
  | newType _ _ _ => exact nomatch kind
  | ifExpr _ _ _ => exact nomatch kind
  | ret _ => exact nomatch kind
  | binop _ _ _ => exact nomatch kind
  | _ =>
      intro emit same type
      rw [fromAstWithinFunc_step, same.node ref, found, drawn_eq]
      rfl

theorem LowersTo.block {children : List Tree} {ref : CcAstNodeRef} {childs : ChildArray}
    {refs : List CcAstNodeRef} (node : ast.node ref = .block childs)
    (array : ast.array childs = some refs) (all : AllLowerTo ast tdef fuel children refs) :
    LowersTo ast tdef (fuel + 1) (.block children) ref := by
  intro emit same type
  rw [fromAstWithinFunc_step, same.node ref, node, ccSsaFromAstNode, drawn_eq, Tree.lower,
    same.childs array, all.next emit _ same type]
  cases Tree.lowerAll (ccSsaParameterIndex ast tdef) children (emit.arg + 1) with
  | error why => rfl
  | ok low => rfl

theorem LowersTo.newType {returnType : Tree} {children : List Tree} {flags : BitVec 32}
    {ref returnRef : CcAstNodeRef} {childs : ChildArray} {refs : List CcAstNodeRef}
    (node : ast.node ref = .newType returnRef childs flags) (array : ast.array childs = some refs)
    (first : LowersTo ast tdef fuel returnType returnRef)
    (all : AllLowerTo ast tdef fuel children refs) :
    LowersTo ast tdef (fuel + 1) (.newType returnType children flags) ref := by
  intro emit same type
  rw [fromAstWithinFunc_step, same.node ref, node, ccSsaFromAstNode, drawn_eq, Tree.lower,
    same.childs array, first.next emit _ same type]
  cases returnType.lower (ccSsaParameterIndex ast tdef) (emit.arg + 1) with
  | error why => rfl
  | ok low =>
      change runEmit _ _ = emitOutcome _ emit (Tree.lowerAll _ children low.next >>= _)
      simp only
      rw [all.next emit _ same type]
      cases Tree.lowerAll (ccSsaParameterIndex ast tdef) children low.next with
      | error why => rfl
      | ok rest => rfl

theorem LowersTo.newVar {name : CcStrview} {init typeDef : Tree} {flags : BitVec 32}
    {ref initRef typeRef : CcAstNodeRef} (node : ast.node ref = .newVar name initRef typeRef flags)
    (second : LowersTo ast tdef fuel init initRef) (first : LowersTo ast tdef fuel typeDef typeRef) :
    LowersTo ast tdef (fuel + 1) (.newVar name init typeDef flags) ref := by
  intro emit same type
  rw [fromAstWithinFunc_step, same.node ref, node, ccSsaFromAstNode, drawn_eq, Tree.lower,
    first.next emit _ same type]
  cases typeDef.lower (ccSsaParameterIndex ast tdef) (emit.arg + 1) with
  | error why => rfl
  | ok low =>
      change runEmit _ _ = emitOutcome _ emit (Tree.lower _ init low.next >>= _)
      simp only
      rw [second.next emit _ same type]
      cases init.lower (ccSsaParameterIndex ast tdef) low.next with
      | error why => rfl
      | ok rest => rfl

theorem LowersTo.ifExpr {cond yes no : Tree} {ref condRef yesRef noRef : CcAstNodeRef}
    (node : ast.node ref = .ifExpr condRef yesRef noRef)
    (first : LowersTo ast tdef fuel cond condRef) (second : LowersTo ast tdef fuel yes yesRef)
    (third : LowersTo ast tdef fuel no noRef) :
    LowersTo ast tdef (fuel + 1) (.ifExpr cond yes no) ref := by
  intro emit same type
  rw [fromAstWithinFunc_step, same.node ref, node, ccSsaFromAstNode, drawn_eq, Tree.lower,
    first.next emit _ same type]
  cases cond.lower (ccSsaParameterIndex ast tdef) (emit.arg + 1) with
  | error why => rfl
  | ok low =>
      change runEmit _ _ = emitOutcome _ emit (Tree.lower _ yes low.next >>= _)
      simp only
      rw [second.next emit _ same type]
      cases yes.lower (ccSsaParameterIndex ast tdef) low.next with
      | error why => rfl
      | ok more =>
          change runEmit _ _ = emitOutcome _ emit (Tree.lower _ no more.next >>= _)
          simp only
          rw [third.next emit _ same type]
          cases no.lower (ccSsaParameterIndex ast tdef) more.next with
          | error why => rfl
          | ok rest => rfl

theorem LowersTo.ret {value : Tree} {ref valueRef : CcAstNodeRef}
    (node : ast.node ref = .ret valueRef) (first : LowersTo ast tdef fuel value valueRef) :
    LowersTo ast tdef (fuel + 1) (.ret value) ref := by
  intro emit same type
  rw [fromAstWithinFunc_step, same.node ref, node, ccSsaFromAstNode, drawn_eq, Tree.lower,
    first.next emit _ same type]
  cases value.lower (ccSsaParameterIndex ast tdef) (emit.arg + 1) with
  | error why => rfl
  | ok low =>
      simp only
      rw [runEmit_ok (pushToken_run emit _ _)]
      rfl

theorem LowersTo.binop {op : CcAstBinop} {lhs rhs : Tree} {ref lhsRef rhsRef : CcAstNodeRef}
    (node : ast.node ref = .binop op lhsRef rhsRef) (left : LowersTo ast tdef fuel lhs lhsRef)
    (right : LowersTo ast tdef fuel rhs rhsRef) :
    LowersTo ast tdef (fuel + 1) (.binop op lhs rhs) ref := by
  intro emit same type
  rw [fromAstWithinFunc_step, same.node ref, node, ccSsaFromAstNode, drawn_eq, Tree.lower,
    left.next emit _ same type]
  cases lhs.lower (ccSsaParameterIndex ast tdef) (emit.arg + 1) with
  | error why => rfl
  | ok first =>
      change runEmit _ _ = emitOutcome _ _ (Tree.lower _ rhs first.next >>= _)
      simp only
      rw [right.next emit _ same type]
      cases rhs.lower (ccSsaParameterIndex ast tdef) first.next with
      | error why => rfl
      | ok second =>
          by_cases arithmetic : op.isArithmetic = true
          · simp only [arithmetic, if_true, List.nil_append]
            rw [runEmit_ok (pushToken_run emit _ _)]
            rfl
          · simp only [arithmetic]
            rfl

mutual

theorem Tree.Denotes.lowersTo : ∀ (tree : Tree) (fuel : Nat) (ref : CcAstNodeRef),
    tree.Denotes ast inside ref → tree.size ≤ fuel → LowersTo ast tdef fuel tree ref
  | tree, 0, _, _, enough => absurd enough (by cases tree <;> simp [Tree.size])
  | .leaf _, _ + 1, _, ⟨_, node, kind⟩, _ => .leaf node kind
  | .block children, fuel + 1, _, ⟨_, _, refs, node, array, all⟩, enough => by
      rw [Tree.size] at enough
      exact .block node array (Tree.DenoteAll.lowerTo children fuel refs all (by omega))
  | .newVar _ init typeDef _, fuel + 1, _, ⟨_, initRef, typeRef, node, first, second⟩, enough => by
      rw [Tree.size] at enough
      exact .newVar node (Tree.Denotes.lowersTo init fuel initRef first (by omega))
        (Tree.Denotes.lowersTo typeDef fuel typeRef second (by omega))
  | .newType returnType children _, fuel + 1, _,
      ⟨_, returnRef, _, refs, node, array, first, all⟩, enough => by
      rw [Tree.size] at enough
      exact .newType node array (Tree.Denotes.lowersTo returnType fuel returnRef first (by omega))
        (Tree.DenoteAll.lowerTo children fuel refs all (by omega))
  | .ifExpr cond yes no, fuel + 1, _, ⟨_, condRef, yesRef, noRef, node, first, second, third⟩,
      enough => by
      rw [Tree.size] at enough
      exact .ifExpr node (Tree.Denotes.lowersTo cond fuel condRef first (by omega))
        (Tree.Denotes.lowersTo yes fuel yesRef second (by omega))
        (Tree.Denotes.lowersTo no fuel noRef third (by omega))
  | .ret value, fuel + 1, _, ⟨_, valueRef, node, first⟩, enough => by
      rw [Tree.size] at enough
      exact .ret node (Tree.Denotes.lowersTo value fuel valueRef first (by omega))
  | .binop _ lhs rhs, fuel + 1, _, ⟨_, lhsRef, rhsRef, node, first, second⟩, enough => by
      rw [Tree.size] at enough
      exact .binop node (Tree.Denotes.lowersTo lhs fuel lhsRef first (by omega))
        (Tree.Denotes.lowersTo rhs fuel rhsRef second (by omega))

theorem Tree.DenoteAll.lowerTo : ∀ (trees : List Tree) (fuel : Nat) (refs : List CcAstNodeRef),
    Tree.DenoteAll ast inside trees refs → Tree.sizeAll trees ≤ fuel →
      AllLowerTo ast tdef fuel trees refs
  | [], _, _, empty, _ => by
      have none : _ = [] := empty
      rw [none]
      exact .nil
  | tree :: trees, fuel, _, ⟨ref, rest, split, head, tail⟩, enough => by
      rw [Tree.sizeAll] at enough
      rw [split]
      exact .cons (Tree.Denotes.lowersTo tree fuel ref head (by omega))
        (Tree.DenoteAll.lowerTo trees fuel rest tail (by omega))

end

end Lowerings

/-- With enough fuel, lowering a node that denotes a tree halts or pushes exactly as the
lowering of the tree says. -/
theorem fromAstWithinFunc_lower {inside : Nat → Prop} {tree : Tree} {ref : CcAstNodeRef}
    (emit : CcSsaEmitter) (denoted : tree.Denotes emit.state inside ref) {fuel : Nat}
    (enough : tree.size ≤ fuel) :
    runEmit (ccSsaFromAstWithinFunc fuel ref) emit =
      emitOutcome Lowered.arg emit
        (tree.lower (ccSsaParameterIndex emit.state emit.tdef) emit.arg) :=
  Tree.Denotes.lowersTo tree fuel ref denoted enough emit ⟨rfl, rfl, rfl⟩ rfl

end Estros
