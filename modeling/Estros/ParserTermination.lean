import Estros.Fuel
import Estros.UnitParsing

/-!
The parser ends on every token stream. A call spends fuel on itself without reading a
token only to reach a later level of the grammar, or the same level with the lock set;
every loop reads a token in each round.
-/

namespace Estros

open Machine

variable {α : Type} {state : CcState}

abbrev Completes (family : Nat → ParseM α) (state : CcState) : Prop :=
  Settles family .outOfFuel state

theorem popNode_completes (ref : CcAstNodeRef) : Completes (fun _ => ccAstPopNode ref) state := by
  unfold ccAstPopNode
  refine Settles.get ?_
  exact Settles.check (by decide) .modify

theorem pushChildrenToBlock_completes (n c : CcAstNodeRef) :
    Completes (fun _ => ccAstPushChildrenToBlock n c) state := by
  unfold ccAstPushChildrenToBlock
  refine Settles.get ?_
  cases state.node n with
  | block _ => exact Settles.check (by decide) .modify
  | _ => exact .halt (by decide)

theorem pushChildrenToType_completes (n c : CcAstNodeRef) :
    Completes (fun _ => ccAstPushChildrenToType n c) state := by
  unfold ccAstPushChildrenToType
  refine Settles.get ?_
  cases state.node n with
  | newType _ _ _ => exact Settles.check (by decide) .modify
  | _ => exact .halt (by decide)

theorem pushChildrenToBlockCoalesce_completes (n c : CcAstNodeRef) :
    Completes (fun _ => ccAstPushChildrenToBlockCoalesce n c) state := by
  unfold ccAstPushChildrenToBlockCoalesce
  refine Settles.get ?_
  cases state.node n with
  | block _ => exact Settles.ite (fun _ => .modify) fun _ => pushChildrenToBlock_completes n c
  | _ => exact .halt (by decide)

theorem copyNode_completes (n : CcAstNodeRef) : Completes (fun _ => ccAstCopyNode n) state := by
  unfold ccAstCopyNode
  refine Settles.get ?_
  exact Settles.check (by decide) (.of_run (pushNode_run _ _) fun reason => nomatch reason)

theorem pushBlockCoalesce_completes (expr : CcAstNodeRef) :
    Completes (fun _ => ccAstPushBlockCoalesce expr) state := by
  unfold ccAstPushBlockCoalesce
  refine Settles.get ?_
  cases state.node expr with
  | block _ =>
      exact Settles.ite (fun _ => .pure _) fun _ => .bind_run (pushNode_run _ _) (.pure _)
  | _ => exact .bind_run (pushNode_run _ _) (.pure _)

theorem popBlockCoalesce_completes (inner : CcAstNewBlockResult) :
    Completes (fun _ => ccAstPopBlockCoalesce inner) state := by
  unfold ccAstPopBlockCoalesce
  exact Settles.ite (fun _ => popNode_completes inner.ref) fun _ => .pure ()

theorem peek_completes {next : Nat → CcToken → ParseM α}
    (after : ∀ tok, tok.type = headType state.remaining →
      Completes (fun fuel => next fuel tok) state) :
    Completes (fun fuel => ccPeekToken 0 >>= next fuel) state :=
  .bind_run (peek_run state) (after _ (peek_type state))

theorem peekIs_completes {type : CcTokenType} {yes no : Nat → CcToken → ParseM α}
    (holds : ∀ tok, headType state.remaining = type → Completes (fun fuel => yes fuel tok) state)
    (fails : ∀ tok, Completes (fun fuel => no fuel tok) state) :
    Completes (fun fuel => ccPeekToken 0 >>= fun tok =>
      if tok.type = type then yes fuel tok else no fuel tok) state := by
  apply peek_completes
  intro tok kind
  exact Settles.ite (fun same => holds tok (kind.symm.trans same)) fun _ => fails tok

theorem primary_completes (expr : CcAstNodeRef) :
    Completes (fun _ => ccParsePrimaryExpression expr) state := by
  unfold ccParsePrimaryExpression
  -- Both kinds of operand push a leaf, step over the token and hang the leaf below `expr`.
  have leaf (node : CcAstNode) : Completes (fun _ => do
      let primary ← ccAstPushNode node
      ccNextToken
      ccAstPushChildrenToBlock expr primary
      pure true) state :=
    .bind_run (pushNode_run state node) (.bind_run (next_run _)
      ((pushChildrenToBlock_completes expr _).bind fun _ _ _ _ _ => .pure true))
  apply peekIs_completes
  · exact fun tok _ => leaf _
  · exact fun tok => Settles.ite (fun _ => .get (leaf _)) fun _ => .pure false

theorem coalesced_completes {parse : CcAstNodeRef → ParseM Bool}
    (operand : ∀ expr state, Completes (fun _ => parse expr) state) (expr : CcAstNodeRef) :
    Completes (fun _ => do
      let inner ← ccAstPushBlockCoalesce expr
      if ← parse inner.ref then
        pure true
      else
        ccAstPopBlockCoalesce inner
        pure false) state := by
  refine (pushBlockCoalesce_completes expr).bind fun _ inner middle _ _ => ?_
  refine (operand inner.ref middle).bind fun _ accepted after _ _ => ?_
  refine Settles.ite (fun _ => .pure true) fun _ => ?_
  exact (popBlockCoalesce_completes inner).bind fun _ _ _ _ _ => .pure false

theorem unary_completes (expr : CcAstNodeRef) :
    Completes (fun _ => ccParseUnaryExpression expr) state :=
  coalesced_completes
    (fun expr _ => coalesced_completes (fun expr _ => primary_completes expr) expr) expr

section Levels

variable {next : CcAstNodeRef → Bool → ParseM Bool}
  (operand : ∀ expr lock state, Completes (fun _ => next expr lock) state)

include operand

theorem binopRhs_completes (nodeType : CcAstBinop) (expr lhsExpr : CcAstNodeRef) :
    Completes (fun _ => ccParseBinopRhs next nodeType expr lhsExpr) state := by
  unfold ccParseBinopRhs
  refine .bind_run (pushNode_run state _) (.bind_run (pushNode_run _ _) (.bind_run (next_run _) ?_))
  refine (operand _ false _).bind fun _ accepted middle _ _ => ?_
  refine Settles.ite (fun _ => ?_) fun _ => .halt (by decide)
  exact (pushChildrenToBlock_completes expr _).bind fun _ _ _ _ _ => .pure true

theorem binopLevel_completes (nodeType : CcAstBinop) (tokType : CcTokenType)
    {retry : CcAstNodeRef → ParseM Bool}
    (again : ∀ expr state, Completes (fun _ => retry expr) state) (expr : CcAstNodeRef) :
    Completes (fun _ => ccParseBinopLevel next nodeType tokType retry expr) state := by
  unfold ccParseBinopLevel
  refine .bind_run (pushNode_run state _) ?_
  refine (operand _ false _).bind fun _ accepted middle _ _ => ?_
  refine Settles.ite (fun _ => ?_) fun _ => ?_
  · apply peekIs_completes
    · exact fun _ _ => binopRhs_completes operand nodeType expr _
    · exact fun _ => (pushChildrenToBlockCoalesce_completes expr _).bind fun _ _ _ _ _ => .pure true
  · refine (again _ middle).bind fun _ retried last _ _ => ?_
    refine Settles.ite (fun _ => binopRhs_completes operand nodeType expr _) fun _ => ?_
    exact (popNode_completes _).bind fun _ _ _ _ _ => .pure false

theorem binopDefine_completes (nodeType : CcAstBinop) (tokType : CcTokenType) (expr : CcAstNodeRef)
    (lock : Bool) :
    Completes (fun _ => ccParseBinopDefine next nodeType tokType expr lock) state := by
  -- The second attempt has the lock set, and with the lock set there is no further one.
  have locked (expr : CcAstNodeRef) (state : CcState) :
      Completes (fun _ => ccParseBinopLevel next nodeType tokType (fun _ => pure false) expr)
        state :=
    binopLevel_completes operand nodeType tokType (fun _ _ => .pure false) expr
  unfold ccParseBinopDefine
  refine Settles.ite (fun _ => locked expr state) fun _ => ?_
  refine binopLevel_completes operand nodeType tokType (fun lhsExpr state => ?_) expr
  refine (locked lhsExpr state).bind fun _ accepted middle _ _ => ?_
  exact Settles.ite (fun _ => peek_completes fun _ _ => .pure _) fun _ => .pure false

end Levels

theorem logicalOr_completes (expr : CcAstNodeRef) (lock : Bool) (state : CcState) :
    Completes (fun _ => ccParseLogcalOrExpression expr lock) state := by
  have cast : ∀ expr lock state, Completes (fun _ => ccParseCastExpression expr lock) state :=
    fun expr _ _ => unary_completes expr
  have level {next : CcAstNodeRef → Bool → ParseM Bool} (nodeType : CcAstBinop)
      (tokType : CcTokenType)
      (operand : ∀ expr lock state, Completes (fun _ => next expr lock) state)
      (expr : CcAstNodeRef) (lock : Bool) (state : CcState) :
      Completes (fun _ => ccParseBinopDefine next nodeType tokType expr lock) state :=
    binopDefine_completes operand nodeType tokType expr lock
  have multiplicative := level .div .div (level .mul .asterisk cast)
  have additive := level .add .add (level .sub .sub multiplicative)
  have shift := level .rshift .rshift (level .lshift .lshift additive)
  have relational := level .condLt .condLt (level .condGte .condGte (level .condLte .condLte shift))
  have equality := level .condNeq .condNeq (level .condGt .condGt relational)
  have bitwise := level .bitOr .bitOr (level .bitXor .bitXor (level .bitAnd .ampersand equality))
  exact level .condOr .condOr (level .condAnd .condAnd bitwise) expr lock state

/-! ### Expressions -/

theorem assignmentOperator_completes (expr : CcAstNodeRef) :
    Completes (fun _ => ccParseAssignmentOperator expr) state := by
  unfold ccParseAssignmentOperator
  apply peek_completes
  intro tok kind
  refine Settles.get ?_
  have decided (node : CcAstNode) : Completes (fun _ => do
      if tok.type = .assign then
        ccNextToken
        modify (fun s => s.setNode expr node) (setNode_step _ _)
        pure true
      else if isCompoundAssignment tok.type then
        halt .abort
      else
        pure false) state := by
    refine Settles.ite (fun _ => ?_) fun _ => ?_
    · exact .bind_run (next_run state) (.bind_run rfl (.pure true))
    · exact Settles.ite (fun _ => .halt (by decide)) fun _ => .pure false
  cases state.node expr with
  | binop _ _ _ => exact decided _
  | unop _ _ => exact decided _
  | _ => exact .halt (by decide)

def Shortens (before : CcState) (accepted : Bool) (after : CcState) : Prop :=
  accepted = true → after.remaining.length < before.remaining.length

theorem Shortens.declined (before after : CcState) : Shortens before false after :=
  fun impossible => nomatch impossible

def MayHalt (_ : Halt) (_ : CcState) : Prop := True

theorem assignmentOperator_shortens (expr : CcAstNodeRef) :
    Ensures (ccParseAssignmentOperator expr) (Shortens state) MayHalt state := by
  unfold ccParseAssignmentOperator
  apply peek_ensures
  intro tok kind
  apply Ensures.get
  have decided (node : CcAstNode) : Ensures (do
      if tok.type = .assign then
        ccNextToken
        modify (fun s => s.setNode expr node) (setNode_step _ _)
        pure true
      else if isCompoundAssignment tok.type then
        halt .abort
      else
        pure false) (Shortens state) MayHalt state := by
    refine .ite (fun isAssign => ?_) fun _ =>
      .ite (fun _ => .halt trivial) fun _ => .pure (.declined _ _)
    refine .bind_run (next_run state) (.bind_run rfl (.pure fun _ => ?_))
    exact shorter_after_advance (by decide) (kind.symm.trans isAssign) (setNode_step expr node _)
  cases state.node expr with
  | binop _ _ _ => exact decided _
  | unop _ _ => exact decided _
  | _ => exact .halt trivial

structure ExpressionsComplete (bound : Nat) : Prop where
  conditional : ∀ expr state, state.remaining.length < bound →
    Completes (ccParseConditionalExpression · expr) state
  assignment : ∀ expr state, state.remaining.length < bound →
    Completes (ccParseAssignmentExpression · expr) state
  expression : ∀ expr lock state, state.remaining.length < bound →
    Completes (ccParseExpression · expr lock) state

theorem advance_shorter {state : CcState} {type : CcTokenType} {bound : Nat}
    (valid : type ≠ .invalid) (head : headType state.remaining = type)
    (short : state.remaining.length < bound + 1) : state.advance.remaining.length < bound :=
  Nat.lt_of_lt_of_le (shorter_after_advance valid head (.refl _)) (Nat.le_of_lt_succ short)

theorem branches_complete {bound : Nat} (inner : ExpressionsComplete bound)
    (expr condExpr : CcAstNodeRef) (isQmark : headType state.remaining = .qmark)
    (short : state.remaining.length < bound + 1) :
    Completes (fun fuel => ccParseConditionalBranches (ccParseExpression fuel · false)
      (ccParseConditionalExpression fuel) expr condExpr) state := by
  unfold ccParseConditionalBranches
  refine .bind_run (pushNode_run state _) (.bind_run (pushNode_run _ _)
    (.bind_run (pushNode_run _ _) (.bind_run (next_run _) ?_)))
  have shorter := advance_shorter (by decide) isQmark short
  refine (inner.expression _ false _ (by exact shorter)).bind fun _ accepted middle _ step => ?_
  refine Settles.ite (fun _ => ?_) fun _ => .halt (by decide)
  apply peekIs_completes
  · intro _ _
    refine .bind_run (next_run middle) ?_
    have fewer := (remaining_length_le (advance_step middle)).trans (remaining_length_le step)
    refine (inner.conditional _ _ (fewer.trans_lt (by exact shorter))).bind
      fun _ closed last _ _ => ?_
    refine Settles.ite (fun _ => ?_) fun _ => .halt (by decide)
    exact (pushChildrenToBlock_completes expr _).bind fun _ _ _ _ _ => .pure true
  · exact fun _ => .halt (by decide)

/-- The level below is the binary operators; only the branches call upwards, past a `?`. -/
theorem conditional_completes {bound : Nat} (inner : ExpressionsComplete bound)
    (expr : CcAstNodeRef) (state : CcState) (short : state.remaining.length < bound + 1) :
    Completes (ccParseConditionalExpression · expr) state := by
  apply Settles.succ
  simp only [ccParseConditionalExpression]
  refine .bind_run (pushNode_run state _) ?_
  refine (logicalOr_completes _ false _).bind fun _ accepted middle _ step => ?_
  have fewer := remaining_length_le step
  refine Settles.ite (fun _ => ?_) fun _ => ?_
  · apply peek_completes
    intro tok kind
    refine Settles.check (by decide) (Settles.ite (fun isQmark => ?_) fun _ => ?_)
    · exact branches_complete inner expr _ (kind.symm.trans isQmark) (fewer.trans_lt short)
    · exact (pushChildrenToBlock_completes expr _).bind fun _ _ _ _ _ => .pure true
  · exact (popNode_completes _).bind fun _ _ _ _ _ => .pure false

theorem assignment_completes {bound : Nat} (inner : ExpressionsComplete bound)
    (expr : CcAstNodeRef) (state : CcState) (short : state.remaining.length < bound + 1) :
    Completes (ccParseAssignmentExpression · expr) state := by
  apply Settles.succ
  simp only [ccParseAssignmentExpression]
  refine (conditional_completes inner expr state short).bind fun _ accepted middle _ step => ?_
  have fewer := remaining_length_le step
  refine Settles.ite (fun _ => .pure true) fun _ => ?_
  refine .bind_run (pushNode_run middle _) (.bind_run (pushNode_run _ _)
    (.bind_run (pushNode_run _ _) ?_))
  refine (unary_completes _).bind fun _ operand last _ step' => ?_
  have fewer' := remaining_length_le step'
  refine Settles.ite (fun _ => ?_) fun _ => ?_
  · refine (assignmentOperator_completes _).bind fun _ operator after ran step'' => ?_
    refine Settles.ite (fun assigns => ?_) fun _ => .halt (by decide)
    have read := (assignmentOperator_shortens _).ok ran assigns
    have shorter : after.remaining.length < bound := by
      simp only [push_remaining] at fewer'
      omega
    refine (inner.assignment _ after shorter).bind fun _ _ _ _ _ => ?_
    exact (pushChildrenToBlock_completes expr _).bind fun _ _ _ _ _ => .pure true
  · refine (popNode_completes _).bind fun _ _ _ _ _ => ?_
    refine (popNode_completes _).bind fun _ _ _ _ _ => ?_
    exact (popNode_completes _).bind fun _ _ _ _ _ => .pure false

theorem expression_completes {bound : Nat} (inner : ExpressionsComplete bound)
    (expr : CcAstNodeRef) (lock : Bool) (state : CcState)
    (short : state.remaining.length < bound + 1) :
    Completes (ccParseExpression · expr lock) state := by
  -- With the lock set the function makes no second attempt.
  have attempt (lock : Bool) (state : CcState) (short : state.remaining.length < bound + 1)
      (again : ∀ state, lock = false → state.remaining.length < bound + 1 →
        Completes (ccParseExpression · expr true) state) :
      Completes (ccParseExpression · expr lock) state := by
    apply Settles.succ
    simp only [ccParseExpression]
    refine (assignment_completes inner expr state short).bind fun _ accepted middle _ step => ?_
    refine Settles.ite (fun _ => .pure true) fun _ => ?_
    refine Settles.ite (fun _ => .pure false) fun unlocked => ?_
    have fewer := remaining_length_le step
    refine (again middle (Bool.eq_false_iff.mpr unlocked) (fewer.trans_lt short)).bind
      fun _ _ _ _ _ => ?_
    exact Settles.ite (fun _ => .halt (by decide)) fun _ => .pure false
  refine attempt lock state short fun middle _ fewer => ?_
  exact attempt true middle fewer fun _ impossible => absurd impossible (by decide)

theorem expressions_complete (bound : Nat) : ExpressionsComplete bound := by
  induction bound with
  | zero =>
      exact ⟨fun _ _ short => absurd short (Nat.not_lt_zero _),
        fun _ _ short => absurd short (Nat.not_lt_zero _),
        fun _ _ _ short => absurd short (Nat.not_lt_zero _)⟩
  | succ bound ih =>
      exact ⟨conditional_completes ih, assignment_completes ih, expression_completes ih⟩

theorem parseExpression_completes (expr : CcAstNodeRef) (lock : Bool) (state : CcState) :
    Completes (ccParseExpression · expr lock) state :=
  (expressions_complete _).expression expr lock state (Nat.lt_succ_self _)

theorem jumpStatment_completes (expr : CcAstNodeRef) (state : CcState) :
    Completes (ccParseJumpStatment · expr) state := by
  unfold ccParseJumpStatment
  apply peekIs_completes
  · intro _ _
    refine .bind_run (pushNode_run state _) ?_
    refine .bind_run (pushNode_run _ _) (.bind_run (next_run _) ?_)
    apply peekIs_completes
    · intro _ _
      refine .bind_run (next_run _) ?_
      exact (pushChildrenToBlock_completes expr _).bind fun _ _ _ _ _ => .pure true
    · intro _
      refine (parseExpression_completes _ false _).bind fun _ accepted middle _ _ => ?_
      refine Settles.ite (fun _ => ?_) fun _ => .halt (by decide)
      apply peekIs_completes
      · intro _ _
        refine .bind_run (next_run _) ?_
        exact (pushChildrenToBlock_completes expr _).bind fun _ _ _ _ _ => .pure true
      · exact fun _ => .halt (by decide)
  · exact fun _ => .pure false

theorem statmentLoop_completes (inner : CcAstNodeRef) (state : CcState) :
    Completes (ccParseStatmentLoop · inner) state := by
  -- Each round reads a `return`.
  induction length : state.remaining.length using Nat.strong_induction_on generalizing state with
  | _ _ ih =>
      apply Settles.succ
      simp only [ccParseStatmentLoop]
      refine (jumpStatment_completes inner state).bind fun fuel accepted after ran _ => ?_
      refine Settles.ite (fun accepts => ?_) fun _ => .pure ()
      have shorter := ((jumpStatment_ensures fuel state inner).ok ran).shorter accepts
      exact ih _ (length ▸ shorter) after rfl

theorem statmentList_completes (expr : CcAstNodeRef) (state : CcState) :
    Completes (ccParseStatmentList · expr) state := by
  unfold ccParseStatmentList
  refine (pushBlockCoalesce_completes expr).bind fun _ inner middle _ _ => ?_
  refine (jumpStatment_completes inner.ref middle).bind fun _ accepted after _ _ => ?_
  refine Settles.ite (fun _ => ?_) fun _ => ?_
  · exact (statmentLoop_completes inner.ref after).bind fun _ _ _ _ _ => .pure true
  · exact (popBlockCoalesce_completes inner).bind fun _ _ _ _ _ => .pure false

theorem compoundStatement_completes (expr : CcAstNodeRef) (state : CcState) :
    Completes (ccParseCompoundStatement · expr) state := by
  unfold ccParseCompoundStatement
  apply peekIs_completes
  · intro _ _
    refine .bind_run (next_run state) ?_
    apply peekIs_completes
    · exact fun _ _ => .bind_run (next_run _) (.pure true)
    · intro _
      have closing (state : CcState) : Completes (fun _ => do
          let close ← ccPeekToken 0
          if close.type = .rbrace then
            ccNextToken
            pure true
          else
            halt .abort) state :=
        peekIs_completes (fun _ _ => .bind_run (next_run _) (.pure true)) fun _ => .halt (by decide)
      refine (statmentList_completes expr _).bind fun _ listed middle _ _ => ?_
      refine Settles.ite (fun _ => closing middle) fun _ => ?_
      exact .bind_run (run_pure false middle) (.halt (by decide))
  · exact fun _ => .pure false

/-! ### Declarations -/

theorem storageClassSpecifier_completes (decl : CcAstNodeRef) (state : CcState) :
    Completes (fun _ => ccParseStorageClassSpecifier decl) state := by
  unfold ccParseStorageClassSpecifier
  apply peek_completes
  intro tok kind
  refine Settles.get ?_
  cases state.node decl with
  | newVar _ _ _ _ =>
      cases storageClassFlag tok.type with
      | some flag => exact .bind_run (next_run state) (.bind_run rfl (.pure true))
      | none => exact .pure false
  | _ => exact .halt (by decide)

theorem typeSpecifier_completes (typeDef : CcAstNodeRef) (state : CcState) :
    Completes (fun _ => ccParseTypeSpecifier typeDef) state := by
  unfold ccParseTypeSpecifier
  apply peek_completes
  intro tok kind
  refine Settles.get ?_
  cases state.node typeDef with
  | newType _ _ _ =>
      cases typeSpecifierFlag tok.type with
      | some flag => exact .bind_run (next_run state) (.bind_run rfl (.pure true))
      | none => exact .pure false
  | _ => exact .halt (by decide)

theorem oneSpecifier_completes (decl typeDef : CcAstNodeRef) (state : CcState) :
    Completes (fun _ => ccParseOneSpecifier decl typeDef) state := by
  unfold ccParseOneSpecifier
  refine (storageClassSpecifier_completes decl state).bind fun _ _ middle _ _ => ?_
  refine Settles.ite (fun _ => .pure true) fun _ => ?_
  refine (typeSpecifier_completes typeDef middle).bind fun _ _ after _ _ => ?_
  exact Settles.ite (fun _ => .pure true) fun _ => .pure false

theorem oneSpecifier_shortens (decl typeDef : CcAstNodeRef) (state : CcState) :
    Ensures (ccParseOneSpecifier decl typeDef) (Shortens state) MayHalt state := by
  refine (oneSpecifier_ensures state decl typeDef).mono (fun took after _ moved => ?_)
    fun _ _ _ => trivial
  rintro rfl
  obtain ⟨starts, moved⟩ := moved
  rw [moved.remaining, if_pos rfl, List.length_tail]
  cases tokens : state.remaining with
  | nil =>
      rw [tokens] at starts
      cases starts
  | cons tok rest => exact Nat.lt_succ_self _

theorem declarationSpecifiers_completes (decl : CcAstNodeRef) (state : CcState) :
    Completes (ccParseDeclarationSpecifiers · decl) state := by
  -- Each further specifier is a token more.
  induction length : state.remaining.length using Nat.strong_induction_on generalizing state with
  | _ _ ih =>
      apply Settles.succ
      simp only [ccParseDeclarationSpecifiers]
      refine Settles.get ?_
      cases state.node decl with
      | newVar _ _ typeDef _ =>
          refine (oneSpecifier_completes decl typeDef state).bind fun _ took after ran _ => ?_
          refine Settles.ite (fun accepts => ?_) fun _ => .pure false
          have shorter := (oneSpecifier_shortens decl typeDef state).ok ran accepts
          exact (ih _ (length ▸ shorter) after rfl).bind fun _ _ _ _ _ => .pure true
      | _ => exact .halt (by decide)

theorem setVarName_completes (decl : CcAstNodeRef) (name : CcStrview) (state : CcState) :
    Completes (fun _ => ccSetVarName decl name) state := by
  unfold ccSetVarName
  refine Settles.get ?_
  cases state.node decl with
  | newVar _ _ _ _ => exact .modify
  | _ => exact .pure ()

theorem makeFunctionType_completes (decl : CcAstNodeRef) (state : CcState) :
    Completes (fun _ => ccMakeFunctionType decl) state := by
  unfold ccMakeFunctionType
  refine Settles.get ?_
  refine (copyNode_completes _).bind fun _ copied middle _ _ => Settles.get ?_
  cases middle.node (state.typeDefOf decl) with
  | newType _ _ _ => exact .modify
  | _ => exact .halt (by decide)

structure DeclaratorsComplete (bound : Nat) : Prop where
  declarator : ∀ decl state, state.remaining.length < bound →
    Completes (ccParseDeclarator · decl) state
  parameterList : ∀ decl state, state.remaining.length < bound →
    Completes (ccParseParameterList · decl) state
  parameterTypeList : ∀ decl state, state.remaining.length < bound →
    Completes (ccParseParameterTypeList · decl) state

/-- A direct declarator calls upwards only past a name and a parenthesis, or a parenthesis. -/
theorem directDeclarator_completes {bound : Nat} (inner : DeclaratorsComplete bound)
    (decl : CcAstNodeRef) (state : CcState) (short : state.remaining.length < bound + 1) :
    Completes (ccParseDirectDeclarator · decl) state := by
  have closing (state : CcState) : Completes (fun _ => do
      let close ← ccPeekToken 0
      if close.type = .rparen then
        ccNextToken
        pure true
      else
        halt .abort) state :=
    peekIs_completes (fun _ _ => .bind_run (next_run _) (.pure true)) fun _ => .halt (by decide)
  apply Settles.succ
  simp only [ccParseDirectDeclarator]
  apply peek_completes
  intro tok kind
  refine Settles.get ?_
  cases state.node decl with
  | newVar _ _ _ _ =>
      refine Settles.ite (fun isIdent => ?_) fun _ =>
        Settles.ite (fun isParen => ?_) fun _ => .pure false
      · have shorter := advance_shorter (by decide) (kind.symm.trans isIdent) short
        refine .bind_run (next_run state) ?_
        refine (setVarName_completes decl _ _).bind fun _ _ named _ step => ?_
        have fewer := remaining_length_le step
        apply peekIs_completes
        · intro _ _
          refine (makeFunctionType_completes decl named).bind fun _ _ typed _ step' => ?_
          refine .bind_run (next_run typed) ?_
          have fewer' := remaining_length_le (step'.trans (advance_step typed))
          refine (inner.parameterTypeList decl _ (by omega)).bind fun _ _ after _ _ => ?_
          exact closing after
        · exact fun _ => .pure true
      · have shorter := advance_shorter (by decide) (kind.symm.trans isParen) short
        refine .bind_run (next_run state) ?_
        refine (inner.declarator decl _ shorter).bind fun _ accepted after _ _ => ?_
        exact Settles.ite (fun _ => closing after) fun _ => .halt (by decide)
  | _ => exact .halt (by decide)

theorem declarator_completes {bound : Nat} (inner : DeclaratorsComplete bound)
    (decl : CcAstNodeRef) (state : CcState) (short : state.remaining.length < bound + 1) :
    Completes (ccParseDeclarator · decl) state := by
  apply Settles.succ
  simp only [ccParseDeclarator]
  exact .bind_run (run_pure false state) (directDeclarator_completes inner decl state short)

theorem parameterDeclaration_completes {bound : Nat} (inner : DeclaratorsComplete bound)
    (decl : CcAstNodeRef) (state : CcState) (short : state.remaining.length < bound + 1) :
    Completes (ccParseParameterDeclaration · decl) state := by
  apply Settles.succ
  simp only [ccParseParameterDeclaration]
  refine .bind_run (pushNode_run state _) (.bind_run (pushNode_run _ _) ?_)
  refine (declarationSpecifiers_completes _ _).bind fun _ took middle _ step => ?_
  have fewer := remaining_length_le step
  simp only [push_remaining] at fewer
  refine Settles.ite (fun _ => Settles.get ?_) fun _ => ?_
  · cases middle.node decl with
    | newVar _ _ _ _ =>
        refine (declarator_completes inner _ middle (by omega)).bind fun _ accepted after _ _ => ?_
        refine Settles.ite (fun _ => Settles.get ?_) fun _ => ?_
        · exact (pushChildrenToType_completes _ _).bind fun _ _ _ _ _ => .pure true
        · exact .bind_run (run_pure false after) (.halt (by decide))
    | _ => exact .halt (by decide)
  · refine (popNode_completes _).bind fun _ _ _ _ _ => ?_
    exact (popNode_completes _).bind fun _ _ _ _ _ => .pure false

theorem parameterList_completes {bound : Nat} (inner : DeclaratorsComplete bound)
    (decl : CcAstNodeRef) (state : CcState) (short : state.remaining.length < bound + 1) :
    Completes (ccParseParameterList · decl) state := by
  apply Settles.succ
  simp only [ccParseParameterList]
  refine (parameterDeclaration_completes inner decl state short).bind fun _ _ after _ step => ?_
  have fewer := remaining_length_le step
  refine Settles.ite (fun _ => ?_) fun _ => .pure false
  apply peekIs_completes
  · intro _ isComma
    refine .bind_run (next_run after) (inner.parameterList decl _ ?_)
    exact advance_shorter (by decide) isComma (fewer.trans_lt short)
  · exact fun _ => .pure false

theorem parameterTypeList_completes {bound : Nat} (inner : DeclaratorsComplete bound)
    (decl : CcAstNodeRef) (state : CcState) (short : state.remaining.length < bound + 1) :
    Completes (ccParseParameterTypeList · decl) state := by
  apply Settles.succ
  simp only [ccParseParameterTypeList]
  refine (parameterList_completes inner decl state short).bind fun _ _ after _ _ => ?_
  refine Settles.ite (fun _ => ?_) fun _ => .pure false
  apply peekIs_completes
  · intro _ _
    refine .bind_run (next_run after) ?_
    exact peekIs_completes (fun _ _ => .pure true) fun _ => .halt (by decide)
  · exact fun _ => .pure true

theorem declarators_complete (bound : Nat) : DeclaratorsComplete bound := by
  induction bound with
  | zero =>
      exact ⟨fun _ _ short => absurd short (Nat.not_lt_zero _),
        fun _ _ short => absurd short (Nat.not_lt_zero _),
        fun _ _ short => absurd short (Nat.not_lt_zero _)⟩
  | succ bound ih =>
      exact ⟨declarator_completes ih, parameterList_completes ih, parameterTypeList_completes ih⟩

theorem functionDefinition_completes (decl : CcAstNodeRef) (state : CcState) :
    Completes (ccParseFunctionDefinition · decl) state := by
  unfold ccParseFunctionDefinition
  refine Settles.get ?_
  cases state.node decl with
  | newVar _ _ _ _ =>
      refine (declarationSpecifiers_completes decl state).bind fun _ _ middle _ _ => ?_
      refine ((declarators_complete _).declarator decl middle (Nat.lt_succ_self _)).bind
        fun _ _ after _ _ => ?_
      exact Settles.ite (fun _ => .get (compoundStatement_completes _ after)) fun _ => .pure false
  | _ => exact .halt (by decide)

theorem externalDeclaration_completes (state : CcState) :
    Completes ccParseExternalDeclaration state := by
  unfold ccParseExternalDeclaration
  refine .bind_run (pushNode_run state _) (.bind_run (pushNode_run _ _)
    (.bind_run (pushNode_run _ _) ?_))
  refine (functionDefinition_completes _ _).bind fun _ _ middle _ _ => ?_
  refine Settles.ite (fun _ => .pure _) fun _ => ?_
  refine (popNode_completes _).bind fun _ _ _ _ _ => ?_
  refine (popNode_completes _).bind fun _ _ _ _ _ => ?_
  exact (popNode_completes _).bind fun _ _ _ _ _ => .pure _

theorem ensures_anything (machine : ParseM α) :
    Ensures machine (fun _ _ => True) MayHalt state := by
  cases outcome : machine.run state with
  | ok value after => exact .of_ok outcome trivial
  | halt why after => exact .of_halt outcome trivial

/-- Only a function definition, which has a body, has a reference other than nil. -/
theorem externalDeclaration_shortens (fuel : Nat) (state : CcState) :
    Ensures (ccParseExternalDeclaration fuel)
      (fun node after => Shortens state (node ≠ ccAstNil) after) MayHalt state := by
  unfold ccParseExternalDeclaration
  refine .bind_run (pushNode_run state _) (.bind_run (pushNode_run _ _)
    (.bind_run (pushNode_run _ _) ?_))
  have defined := (functionDefinition_ensures fuel
    (((state.push (.newType 0 none 0)).push (.block none)).push
      (.newVar ⟨0, 0⟩ (refOf (state.push (.newType 0 none 0)).nNodes) (refOf state.nNodes) 0))
    (refOf ((state.push (.newType 0 none 0)).push (.block none)).nNodes)).mono
      (fun _ _ _ defines => defines) fun _ _ _ => (trivial : MayHalt _ _)
  refine defined.bind fun accepted middle _ defines => ?_
  refine .ite (fun accepts => ?_) fun _ => ?_
  · subst accepts
    exact .pure fun _ => defines.2.2
  · refine (ensures_anything _).bind fun _ _ _ _ => (ensures_anything _).bind fun _ _ _ _ => ?_
    refine (ensures_anything _).bind fun _ _ _ _ => .pure ?_
    exact fun impossible => absurd rfl (of_decide_eq_true impossible)

theorem unitLoop_completes (block : CcAstNodeRef) (state : CcState) :
    Completes (ccParseUnitLoop · block) state := by
  induction length : state.remaining.length using Nat.strong_induction_on generalizing state with
  | _ _ ih =>
      apply Settles.succ
      simp only [ccParseUnitLoop]
      refine (externalDeclaration_completes state).bind fun fuel node middle ran _ => ?_
      refine Settles.ite (fun other => ?_) fun _ => .pure ()
      have shorter := (externalDeclaration_shortens fuel state).ok ran (decide_eq_true other)
      refine (pushChildrenToBlock_completes block node).bind fun _ _ after _ step => ?_
      have fewer := remaining_length_le step
      exact ih _ (length ▸ fewer.trans_lt shorter) after rfl

/-- From every state, whatever its tokens, the parser ends in one outcome. -/
theorem parseUnit_completes (state : CcState) :
    ∃ bound outcome, outcome.reason ≠ some .outOfFuel ∧
      ∀ fuel, bound ≤ fuel → (ccParseUnit fuel).run state = outcome := by
  have completes : Completes ccParseUnit state := by
    unfold ccParseUnit
    refine .bind_run (pushNode_run state _) (.bind_run (pushNode_run _ _) ?_)
    exact (unitLoop_completes _ _).bind fun _ _ _ _ _ => .pure _
  exact completes

end Estros
