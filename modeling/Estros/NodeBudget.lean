import Estros.Credits
import Estros.ParserTermination
import Estros.TranslationUnit

/-!
How many nodes the parser writes. Nodes that were popped and written over count once, but a
declined function has written its nodes all the same: the bound is on the high-water mark of
the node array. A token pays for the twenty-one nodes that an operand takes on its way through
the levels of the grammar, and what a function pushes before it declines comes back by its pops.
-/

namespace Estros

open Machine

def nodesPerToken : Nat := 21

/-- The nodes ever written against those in use and those that the tokens left can pay for,
at `price` nodes a token. -/
def pricedNodes (price : Nat) : Account CcState where
  level state := state.nodes.length
  due state := state.nNodes + price * state.remaining.length

abbrev nodeAccount : Account CcState := pricedNodes nodesPerToken

variable {α : Type} {gives : α → Nat} {need price : Nat} {state : CcState}

theorem push_length (state : CcState) (node : CcAstNode) :
    (state.push node).nodes.length = max state.nodes.length (state.nNodes + 1) := by
  have written := state.nodesWritten
  simp only [CcState.push, List.length_append, List.length_take, List.length_cons,
    List.length_drop]
  omega

theorem covers_push {budget credit : Nat} (node : CcAstNode)
    (covers : (pricedNodes price).Covers budget (credit + 1) state) :
    (pricedNodes price).Covers budget credit (state.push node) := by
  have level : state.nodes.length ≤ budget := covers.level
  have due : state.nNodes + price * state.remaining.length + (credit + 1) ≤ budget :=
    covers.due
  refine ⟨?_, ?_⟩
  · change (state.push node).nodes.length ≤ budget
    rw [push_length]
    omega
  · change state.nNodes + 1 + price * (state.push node).remaining.length + credit ≤ budget
    rw [push_remaining]
    omega

theorem push_spends {node : CcAstNode} {next : CcAstNodeRef → ParseM α}
    (after : Spends (pricedNodes price) (next (refOf state.nNodes)) need gives (state.push node)) :
    Spends (pricedNodes price) (ccAstPushNode node >>= next) (need + 1) gives state :=
  .bind_run (pushNode_run state node)
    (fun _ _ covers => covers_push node (covers.less (Nat.succ_add _ _).ge)) after

theorem pop_spends (ref : CcAstNodeRef) :
    Spends (pricedNodes price) (ccAstPopNode ref) need (fun _ => need + 1) state := by
  unfold ccAstPopNode
  refine .get (.check fun last => ⟨fun budget other covers => .modify ⟨covers.level, ?_⟩⟩)
  have due : state.nNodes + price * state.remaining.length + (need + other) ≤ budget :=
    covers.due
  change state.nNodes - 1 + price * state.remaining.length + (need + 1 + other) ≤ budget
  have some := of_decide_eq_true last
  omega

theorem pushChildrenToBlock_spends (n c : CcAstNodeRef) :
    Spends (pricedNodes price) (ccAstPushChildrenToBlock n c) need (fun _ => need) state := by
  unfold ccAstPushChildrenToBlock
  refine .get ?_
  cases state.node n with
  | block childs =>
      refine .check fun _ => .modify ?_ (Nat.le_refl _) (Nat.le_refl _)
      exact (List.length_set ..).le
  | _ => exact .halt

theorem pushChildrenToType_spends (n c : CcAstNodeRef) :
    Spends (pricedNodes price) (ccAstPushChildrenToType n c) need (fun _ => need) state := by
  unfold ccAstPushChildrenToType
  refine .get ?_
  cases state.node n with
  | newType returnType childs flags =>
      refine .check fun _ => .modify ?_ (Nat.le_refl _) (Nat.le_refl _)
      exact (List.length_set ..).le
  | _ => exact .halt

theorem setNode_spends (ref : CcAstNodeRef) (node : CcState → CcAstNode) :
    Spends (pricedNodes price)
      (modify (fun s => s.setNode ref (node s)) (fun s => setNode_step ref (node s) s) : ParseM Unit)
      need (fun _ => need) state :=
  .modify (List.length_set ..).le (Nat.le_refl _) (Nat.le_refl _)

theorem pushChildrenToBlockCoalesce_spends (n c : CcAstNodeRef) :
    Spends (pricedNodes price) (ccAstPushChildrenToBlockCoalesce n c) need (fun _ => need) state := by
  unfold ccAstPushChildrenToBlockCoalesce
  refine .get ?_
  cases state.node n with
  | block childs =>
      exact .ite (fun _ => setNode_spends n fun s => s.node c) fun _ => pushChildrenToBlock_spends n c
  | _ => exact .halt

/-- Stepping over a token that is there brings in what it pays for. -/
theorem advance_spends {next : Unit → ParseM α} (some : state.remaining ≠ [])
    (after : Spends (pricedNodes price) (next ()) (need + price) gives state.advance) :
    Spends (pricedNodes price) (ccNextToken >>= next) need gives state := by
  refine .bind_run (next_run state) (fun budget other covers => ⟨covers.level, ?_⟩) after
  have due : state.nNodes + price * state.remaining.length + (need + other) ≤ budget :=
    covers.due
  change state.nNodes + price * state.advance.remaining.length + _ ≤ budget
  have positive := List.length_pos_of_ne_nil some
  rw [advance_remaining, List.length_tail]
  obtain ⟨fewer, length⟩ : ∃ fewer, state.remaining.length = fewer + 1 :=
    ⟨state.remaining.length - 1, by omega⟩
  rw [length, Nat.mul_succ] at due
  rw [length, Nat.add_sub_cancel]
  omega

theorem step_spends {next : Unit → ParseM α}
    (after : Spends (pricedNodes price) (next ()) need gives state.advance) :
    Spends (pricedNodes price) (ccNextToken >>= next) need gives state := by
  refine .bind_run (next_run state) (fun budget other covers => ⟨covers.level, ?_⟩) after
  have due : state.nNodes + price * state.remaining.length + (need + other) ≤ budget :=
    covers.due
  have fewer := Nat.mul_le_mul_left price (remaining_length_le (advance_step state))
  change state.nNodes + price * state.advance.remaining.length + (need + other) ≤ budget
  omega

theorem head_some {type : CcTokenType} (valid : type ≠ .invalid)
    (head : headType state.remaining = type) : state.remaining ≠ [] := by
  obtain ⟨tok, rest, remaining, _⟩ := headType_split valid head
  rw [remaining]
  exact List.cons_ne_nil _ _

theorem peek_spends {next : CcToken → ParseM α}
    (after : ∀ tok, tok.type = headType state.remaining →
      Spends (pricedNodes price) (next tok) need gives state) :
    Spends (pricedNodes price) (ccPeekToken 0 >>= next) need gives state :=
  .bind_run (peek_run state) (fun _ _ covers => covers) (after _ (peek_type state))

theorem peekIs_spends {type : CcTokenType} {yes no : CcToken → ParseM α} (valid : type ≠ .invalid)
    (holds : ∀ tok, state.remaining ≠ [] → Spends (pricedNodes price) (yes tok) need gives state)
    (fails : ∀ tok, tok.type = headType state.remaining →
      Spends (pricedNodes price) (no tok) need gives state) :
    Spends (pricedNodes price) (ccPeekToken 0 >>= fun tok => if tok.type = type then yes tok else no tok)
      need gives state := by
  apply peek_spends
  intro tok kind
  exact .ite (fun same => holds tok (head_some valid (kind.symm.trans same))) fun _ => fails tok kind

/-- A parser function that needs `need` credits and gives them back when it declines. -/
def Pays (parse : CcAstNodeRef → ParseM Bool) (need yes : Nat) : Prop :=
  ∀ expr state, Spends nodeAccount (parse expr) need (Spends.Answer yes need) state

theorem primary_pays : Pays ccParsePrimaryExpression 1 nodesPerToken := by
  intro expr state
  unfold ccParsePrimaryExpression
  have leaf (node : CcAstNode) (some : state.remaining ≠ []) : Spends nodeAccount (do
      let primary ← ccAstPushNode node
      ccNextToken
      ccAstPushChildrenToBlock expr primary
      pure true : ParseM Bool) 1 (Spends.Answer nodesPerToken 1) state := by
    refine push_spends (advance_spends some ?_)
    exact (pushChildrenToBlock_spends expr _).bind fun _ _ => .pure (Nat.le_add_left _ _)
  refine peekIs_spends (by decide) (fun tok some => leaf _ some) fun tok kind => ?_
  refine .ite (fun isLiteral => ?_) fun _ => .pure (Nat.le_refl _)
  exact .get (leaf _ (head_some (by decide) (kind.symm.trans isLiteral)))

theorem pushBlockCoalesce_run (expr : CcAstNodeRef) (state : CcState) :
    (ccAstPushBlockCoalesce expr).run state = .ok ⟨expr, false⟩ state ∨
      (ccAstPushBlockCoalesce expr).run state =
        .ok ⟨refOf state.nNodes, true⟩ (state.push (.block none)) := by
  rw [ccAstPushBlockCoalesce, run_bind_ok (run_get state)]
  cases state.node expr with
  | block childs =>
      by_cases empty : (state.childs childs).length = 0
      · exact Or.inl (congrArg (Machine.run · state) (if_pos empty))
      · exact Or.inr (congrArg (Machine.run · state) (if_neg empty))
  | _ => exact Or.inr rfl

theorem pushBlockCoalesce_spends {expr : CcAstNodeRef} {next : CcAstNewBlockResult → ParseM α}
    (reused : Spends (pricedNodes price) (next ⟨expr, false⟩) (need + 1) gives state)
    (pushed : Spends (pricedNodes price) (next ⟨refOf state.nNodes, true⟩) need gives
      (state.push (.block none))) :
    Spends (pricedNodes price) (ccAstPushBlockCoalesce expr >>= next) (need + 1) gives state := by
  rcases pushBlockCoalesce_run expr state with kept | drawn
  · exact .bind_run kept (fun _ _ covers => covers) reused
  · exact .bind_run drawn
      (fun _ _ covers => covers_push _ (covers.less (Nat.succ_add _ _).ge)) pushed

theorem coalesced_pays {parse : CcAstNodeRef → ParseM Bool} {need yes : Nat}
    (operand : Pays parse need yes) :
    Pays (fun expr => do
      let inner ← ccAstPushBlockCoalesce expr
      if ← parse inner.ref then
        pure true
      else
        ccAstPopBlockCoalesce inner
        pure false) (need + 1) yes := by
  -- The block that may be pushed first is popped again when the operand declines.
  intro expr state
  apply pushBlockCoalesce_spends
  · refine .bind_answer ((operand _ state).spare 1 (Nat.le_refl _) (Nat.le_succ _) (Nat.le_refl _))
      (fun _ => .pure (Nat.le_refl _)) fun _ => ?_
    exact .bind_run (run_pure () _) (fun _ _ covers => covers) (.pure (Nat.le_refl _))
  · refine .bind_answer (operand _ _) (fun _ => .pure (Nat.le_refl _)) fun _ => ?_
    exact (pop_spends _).bind fun _ _ => .pure (Nat.le_refl _)

theorem unary_pays : Pays ccParseUnaryExpression 3 nodesPerToken :=
  coalesced_pays (coalesced_pays primary_pays)

section Levels

variable {next : CcAstNodeRef → Bool → ParseM Bool} {yes : Nat}
  (operand : Pays (next · false) need yes)

include operand

theorem binopRhs_pays (spare : Nat) (nodeType : CcAstBinop) (expr lhsExpr : CcAstNodeRef) :
    Spends nodeAccount (ccParseBinopRhs next nodeType expr lhsExpr) (need + spare + 2)
      (fun _ => yes + spare) state := by
  unfold ccParseBinopRhs
  refine push_spends (push_spends (step_spends ?_))
  refine .bind_answer ((operand _ _).spare spare (Nat.le_refl _) (Nat.le_refl _) (Nat.le_refl _))
    (fun _ => ?_) fun _ => .halt
  exact (pushChildrenToBlock_spends expr _).bind fun _ _ => .pure (Nat.le_refl _)

/-- The second attempt writes one node more than the first, on top of the level's own. -/
theorem binopLevel_pays {retry : CcAstNodeRef → ParseM Bool} {extra : Nat} (one : extra ≤ 1)
    (enough : need + 3 ≤ yes) (again : Pays retry (need + extra) yes) (nodeType : CcAstBinop)
    (tokType : CcTokenType) :
    Pays (ccParseBinopLevel next nodeType tokType retry) (need + extra + 1) (yes + extra) := by
  intro expr state
  have rhs (credit : Nat) (lhsExpr : CcAstNodeRef) (reached : CcState) (covered : yes ≤ credit) :
      Spends nodeAccount (ccParseBinopRhs next nodeType expr lhsExpr) credit
        (Spends.Answer (yes + extra) (need + extra + 1)) reached := by
    refine (binopRhs_pays operand (credit - (need + 2)) nodeType expr lhsExpr).mono 0 (by omega)
      fun accepted => ?_
    cases accepted with
    | true =>
        change yes + extra ≤ _
        omega
    | false =>
        change need + extra + 1 ≤ _
        omega
  unfold ccParseBinopLevel
  refine push_spends (.bind_answer
    ((operand _ _).spare extra (Nat.le_refl _) (Nat.le_refl _) (Nat.le_refl (need + extra)))
    (fun _ => peek_spends fun tok _ => .ite (fun _ => ?_) fun _ => ?_) fun _ => ?_)
  · exact rhs (yes + extra) _ _ (Nat.le_add_right _ _)
  · exact (pushChildrenToBlockCoalesce_spends expr _).bind fun _ _ => .pure (Nat.le_refl _)
  · refine .bind_answer (again _ _) (fun _ => rhs yes _ _ (Nat.le_refl _)) fun _ => ?_
    exact (pop_spends _).bind fun _ _ => .pure (Nat.le_refl _)

theorem binopDefine_pays (enough : need + 3 ≤ yes) (nodeType : CcAstBinop)
    (tokType : CcTokenType) :
    Pays (ccParseBinopDefine next nodeType tokType · false) (need + 2) (yes + 1) := by
  have locked : Pays (ccParseBinopLevel next nodeType tokType fun _ => pure false) (need + 1) yes :=
    binopLevel_pays operand (Nat.zero_le 1) enough (fun _ _ => .pure (Nat.le_refl _)) nodeType tokType
  refine binopLevel_pays operand (Nat.le_refl 1) enough (fun lhsExpr reached => ?_) nodeType tokType
  refine .bind_answer (locked lhsExpr reached) (fun _ => peek_spends fun tok _ => ?_)
    fun _ => .pure (Nat.le_refl _)
  refine .pure ?_
  cases decide (tok.type = tokType) with
  | true => exact Nat.le_refl yes
  | false =>
      change need + 1 ≤ yes
      omega

end Levels

theorem logicalOr_pays : Pays (ccParseLogcalOrExpression · false) 35 37 := by
  have cast : Pays (ccParseCastExpression · false) 3 nodesPerToken := unary_pays
  have level {next : CcAstNodeRef → Bool → ParseM Bool} {need yes : Nat}
      (nodeType : CcAstBinop) (tokType : CcTokenType) (enough : need + 3 ≤ yes)
      (operand : Pays (next · false) need yes) :
      Pays (ccParseBinopDefine next nodeType tokType · false) (need + 2) (yes + 1) :=
    binopDefine_pays operand enough nodeType tokType
  have mul := level .mul .asterisk (by decide) cast
  have div := level .div .div (by decide) mul
  have sub := level .sub .sub (by decide) div
  have add := level .add .add (by decide) sub
  have lshift := level .lshift .lshift (by decide) add
  have rshift := level .rshift .rshift (by decide) lshift
  have lte := level .condLte .condLte (by decide) rshift
  have gte := level .condGte .condGte (by decide) lte
  have lt := level .condLt .condLt (by decide) gte
  have gt := level .condGt .condGt (by decide) lt
  have neq := level .condNeq .condNeq (by decide) gt
  have bitAnd := level .bitAnd .ampersand (by decide) neq
  have bitXor := level .bitXor .bitXor (by decide) bitAnd
  have bitOr := level .bitOr .bitOr (by decide) bitXor
  have and := level .condAnd .condAnd (by decide) bitOr
  exact level .condOr .condOr (by decide) and

/-! ### Expressions -/

structure ExpressionsPay (fuel : Nat) : Prop where
  conditional : Pays (ccParseConditionalExpression fuel) 36 37
  assignment : Pays (ccParseAssignmentExpression fuel) 36 37
  expression : ∀ lock, Pays (ccParseExpression fuel · lock) 36 37

theorem assignmentOperator_pays : Pays ccParseAssignmentOperator need need := by
  intro expr state
  unfold ccParseAssignmentOperator
  refine peek_spends fun tok _ => .get ?_
  have decided (node : CcAstNode) : Spends nodeAccount (do
      if tok.type = .assign then
        ccNextToken
        modify (fun s => s.setNode expr node) (setNode_step _ _)
        pure true
      else if isCompoundAssignment tok.type then
        halt .abort
      else
        pure false : ParseM Bool) need (Spends.Answer need need) state := by
    refine .ite (fun _ => step_spends ?_) fun _ => .ite (fun _ => .halt) fun _ => .pure (Nat.le_refl _)
    exact (setNode_spends expr fun _ => node).bind fun _ _ => .pure (Nat.le_refl _)
  cases state.node expr with
  | binop _ _ _ => exact decided _
  | unop _ _ => exact decided _
  | _ => exact .halt

section Expressions

variable {fuel : Nat} (inner : ExpressionsPay fuel)

include inner

/-- The `?` pays for the three nodes of the branches and for the two calls upwards. -/
theorem branches_pay (expr condExpr : CcAstNodeRef) (some : state.remaining ≠ []) :
    Spends nodeAccount (ccParseConditionalBranches (ccParseExpression fuel · false)
      (ccParseConditionalExpression fuel) expr condExpr) 37 (fun _ => 37) state := by
  unfold ccParseConditionalBranches
  refine push_spends (push_spends (push_spends (advance_spends some ?_)))
  refine .bind_answer ((inner.expression false _ _).spare 19 (by decide) (Nat.le_refl 56)
    (Nat.le_refl _)) (fun _ => ?_) fun _ => .halt
  refine peekIs_spends (by decide) (fun _ _ => step_spends ?_) fun _ _ => .halt
  refine .bind_answer ((inner.conditional _ _).spare 0 (by decide) (Nat.le_refl _) (Nat.le_refl _))
    (fun _ => ?_) fun _ => .halt
  exact (pushChildrenToBlock_spends expr _).bind fun _ _ => .pure (Nat.le_refl _)

theorem conditional_pays : Pays (ccParseConditionalExpression (fuel + 1)) 36 37 := by
  intro expr state
  rw [ccParseConditionalExpression]
  refine push_spends (.bind_answer (logicalOr_pays _ _) (fun _ => ?_) fun _ => ?_)
  · refine peek_spends fun tok kind => .check fun _ => .ite (fun isQmark => ?_) fun _ => ?_
    · have some := head_some (by decide) (kind.symm.trans isQmark)
      refine (branches_pay inner expr _ some).mono 0 (Nat.le_refl _) fun accepted => ?_
      cases accepted with
      | true => exact Nat.le_refl 37
      | false => exact Nat.le_succ 36
    · exact (pushChildrenToBlock_spends expr _).bind fun _ _ => .pure (Nat.le_refl _)
  · exact (pop_spends _).bind fun _ _ => .pure (Nat.le_refl _)

theorem assignment_pays : Pays (ccParseAssignmentExpression (fuel + 1)) 36 37 := by
  intro expr state
  rw [ccParseAssignmentExpression]
  refine .bind_answer (inner.conditional expr state) (fun _ => .pure (Nat.le_refl _)) fun _ => ?_
  refine push_spends (push_spends (push_spends ?_))
  refine .bind_answer ((unary_pays _ _).spare 30 (by decide) (Nat.le_refl 51) (Nat.le_refl 33))
    (fun _ => ?_) fun _ => ?_
  · refine .bind_answer (assignmentOperator_pays _ _) (fun _ => ?_) fun _ => .halt
    refine ((inner.assignment _ _).spare 15 (by decide) (Nat.le_refl 52) (Nat.le_refl 51)).bind
      fun accepted _ => (pushChildrenToBlock_spends expr _).bind fun _ _ => .pure ?_
    cases accepted with
    | true => decide
    | false => decide
  · refine (pop_spends _).bind fun _ _ => (pop_spends _).bind fun _ _ => ?_
    exact (pop_spends _).bind fun _ _ => .pure (Nat.le_refl _)

theorem expression_pays (lock : Bool) : Pays (ccParseExpression (fuel + 1) · lock) 36 37 := by
  intro expr state
  simp only [ccParseExpression]
  refine .bind_answer (inner.assignment expr state) (fun _ => .pure (Nat.le_refl _)) fun _ => ?_
  refine .ite (fun _ => .pure (Nat.le_refl _)) fun _ => ?_
  exact .bind_answer (inner.expression true expr _) (fun _ => .halt) fun _ => .pure (Nat.le_refl _)

end Expressions

theorem expressions_pay (fuel : Nat) : ExpressionsPay fuel := by
  induction fuel with
  | zero => exact ⟨fun _ _ => .halt, fun _ _ => .halt, fun _ _ _ => .halt⟩
  | succ fuel ih => exact ⟨conditional_pays ih, assignment_pays ih, expression_pays ih⟩

theorem jumpStatment_pays (fuel : Nat) : Pays (ccParseJumpStatment fuel) 17 36 := by
  intro expr state
  unfold ccParseJumpStatment
  refine peekIs_spends (by decide) (fun _ some => ?_) fun _ _ => .pure (Nat.le_refl _)
  refine push_spends (push_spends (advance_spends some ?_))
  have hang (child : CcAstNodeRef) (reached : CcState) : Spends nodeAccount (do
      ccNextToken
      ccAstPushChildrenToBlock expr child
      pure true : ParseM Bool) 36 (Spends.Answer 36 17) reached :=
    step_spends ((pushChildrenToBlock_spends expr child).bind fun _ _ => .pure (Nat.le_refl _))
  refine peek_spends fun _ _ => .ite (fun _ => hang _ _) fun _ => ?_
  refine .bind_answer ((expressions_pay fuel).expression false _ _) (fun _ => ?_) fun _ => .halt
  refine peek_spends fun _ _ => .ite (fun _ => ?_) fun _ => .halt
  exact (hang _ _).mono 0 (by decide) fun _ => Nat.le_refl _

theorem statmentLoop_spends (fuel : Nat) (expr : CcAstNodeRef) (state : CcState) :
    Spends nodeAccount (ccParseStatmentLoop fuel expr) 17 (fun _ => 17) state := by
  induction fuel generalizing state with
  | zero => exact .halt
  | succ fuel ih =>
      rw [ccParseStatmentLoop]
      refine .bind_answer (jumpStatment_pays fuel expr state) (fun reached => ?_)
        fun _ => .pure (Nat.le_refl _)
      exact (ih reached).mono 19 (Nat.le_refl _) fun _ => by decide

theorem statmentList_pays (fuel : Nat) : Pays (ccParseStatmentList fuel) 18 36 := by
  intro expr state
  have rest (inner : CcAstNodeRef) (reached : CcState) : Spends nodeAccount (do
      ccParseStatmentLoop fuel inner
      pure true : ParseM Bool) 36 (Spends.Answer 36 18) reached :=
    ((statmentLoop_spends fuel inner reached).mono 19 (Nat.le_refl _) fun _ => Nat.le_refl 36).bind
      fun _ _ => .pure (Nat.le_refl _)
  rw [ccParseStatmentList]
  apply pushBlockCoalesce_spends
  · refine .bind_answer ((jumpStatment_pays fuel _ state).spare 1 (Nat.le_refl _) (Nat.le_succ 36)
      (Nat.le_refl 18)) (fun _ => rest _ _) fun _ => ?_
    exact .bind_run (run_pure () _) (fun _ _ covers => covers) (.pure (Nat.le_refl _))
  · refine .bind_answer (jumpStatment_pays fuel _ _) (fun _ => rest _ _) fun _ => ?_
    exact (pop_spends _).bind fun _ _ => .pure (Nat.le_refl _)

/-- The braces pay for the statements' block. -/
theorem compoundStatement_pays (fuel : Nat) :
    Pays (ccParseCompoundStatement fuel) 0 nodesPerToken := by
  intro expr state
  unfold ccParseCompoundStatement
  refine peekIs_spends (by decide) (fun _ some => advance_spends some ?_)
    fun _ _ => .pure (Nat.le_refl _)
  refine peek_spends fun _ _ => .ite (fun _ => step_spends (.pure (Nat.le_refl _))) fun _ => ?_
  refine .bind_answer ((statmentList_pays fuel expr _).spare 3 (Nat.le_refl _) (Nat.le_refl 39)
    (Nat.le_refl _)) (fun _ => ?_) fun reached => ?_
  · exact peek_spends fun _ _ => .ite (fun _ => step_spends (.pure (by decide))) fun _ => .halt
  · -- A declaration list is never found.
    exact .bind_run (run_pure false reached) (fun _ _ covers => covers) .halt_bind

/-! ### Declarations -/

theorem storageClassSpecifier_pays : Pays ccParseStorageClassSpecifier need need := by
  intro decl state
  unfold ccParseStorageClassSpecifier
  refine peek_spends fun tok _ => .get ?_
  cases state.node decl with
  | newVar name init typeDef flags =>
      dsimp only
      cases storageClassFlag tok.type with
      | some flag =>
          refine step_spends ((setNode_spends decl fun _ => _).bind fun _ _ => ?_)
          exact .pure (Nat.le_refl _)
      | none => exact .pure (Nat.le_refl _)
  | _ => exact .halt

theorem typeSpecifier_pays : Pays ccParseTypeSpecifier need need := by
  intro typeDef state
  unfold ccParseTypeSpecifier
  refine peek_spends fun tok _ => .get ?_
  cases state.node typeDef with
  | newType returnType childs flags =>
      dsimp only
      cases typeSpecifierFlag tok.type with
      | some flag =>
          refine step_spends ((setNode_spends typeDef fun _ => _).bind fun _ _ => ?_)
          exact .pure (Nat.le_refl _)
      | none => exact .pure (Nat.le_refl _)
  | _ => exact .halt

theorem declarationSpecifiers_pays (fuel : Nat) :
    Pays (ccParseDeclarationSpecifiers fuel) need need := by
  intro decl state
  induction fuel generalizing state with
  | zero => exact .halt
  | succ fuel ih =>
      rw [ccParseDeclarationSpecifiers]
      refine .get ?_
      cases state.node decl with
      | newVar name init typeDef flags =>
          have one : Spends nodeAccount (ccParseOneSpecifier decl typeDef) need
              (Spends.Answer need need) state := by
            unfold ccParseOneSpecifier
            refine .bind_answer (storageClassSpecifier_pays decl state)
              (fun _ => .pure (Nat.le_refl _)) fun reached => ?_
            exact .bind_answer (typeSpecifier_pays typeDef reached) (fun _ => .pure (Nat.le_refl _))
              fun _ => .pure (Nat.le_refl _)
          refine .bind_answer one (fun reached => ?_) fun _ => .pure (Nat.le_refl _)
          refine (ih reached).bind fun accepted _ => .pure ?_
          cases accepted with
          | true => exact Nat.le_refl need
          | false => exact Nat.le_refl need
      | _ => exact .halt

theorem makeFunctionType_spends (decl : CcAstNodeRef) :
    Spends nodeAccount (ccMakeFunctionType decl) (need + 1) (fun _ => need) state := by
  unfold ccMakeFunctionType
  refine .get ?_
  have copied : Spends nodeAccount (ccAstCopyNode (state.typeDefOf decl)) (need + 1)
      (fun _ => need) state := by
    unfold ccAstCopyNode
    refine .get (.check fun _ => ⟨fun _ _ covers => ?_⟩)
    exact .of_ok (pushNode_run _ _) (covers_push _ (covers.less (Nat.succ_add _ _).ge))
  refine copied.bind fun copyType after => .get ?_
  cases after.node (state.typeDefOf decl) with
  | newType _ _ _ => exact setNode_spends _ fun _ => _
  | _ => exact .halt

theorem setVarName_spends (decl : CcAstNodeRef) (name : CcStrview) :
    Spends nodeAccount (ccSetVarName decl name) need (fun _ => need) state := by
  unfold ccSetVarName
  refine .get ?_
  cases state.node decl with
  | newVar _ _ _ _ => exact setNode_spends _ fun _ => _
  | _ => exact .pure (Nat.le_refl _)

structure DeclaratorsPay (fuel : Nat) : Prop where
  parameter : Pays (ccParseParameterDeclaration fuel) 2 20
  list : Pays (ccParseParameterList fuel) 2 2
  typeList : Pays (ccParseParameterTypeList fuel) 2 2
  direct : Pays (ccParseDirectDeclarator fuel) 0 20
  declarator : Pays (ccParseDeclarator fuel) 0 20

section Declarators

variable {fuel : Nat} (inner : DeclaratorsPay fuel)

include inner

theorem parameter_pays : Pays (ccParseParameterDeclaration (fuel + 1)) 2 20 := by
  intro decl state
  rw [ccParseParameterDeclaration]
  refine push_spends (push_spends (.bind_answer (declarationSpecifiers_pays fuel _ _)
    (fun reached => .get ?_) fun _ => ?_))
  · cases reached.node decl with
    | newVar _ _ _ _ =>
        refine .bind_answer (inner.declarator _ reached) (fun after => .get ?_) fun _ => ?_
        · exact (pushChildrenToType_spends _ _).bind fun _ _ => .pure (Nat.le_refl _)
        · exact .bind_run (run_pure false _) (fun _ _ covers => covers) .halt
    | _ => exact .halt
  · refine (pop_spends _).bind fun _ _ => (pop_spends _).bind fun _ _ => ?_
    exact .pure (Nat.le_refl _)

theorem parameterList_pays : Pays (ccParseParameterList (fuel + 1)) 2 2 := by
  intro decl state
  rw [ccParseParameterList]
  refine .bind_answer (inner.parameter decl state) (fun _ => ?_) fun _ => .pure (Nat.le_refl _)
  refine peek_spends fun _ _ => .ite (fun _ => step_spends ?_) fun _ => .pure (by decide)
  exact (inner.list decl _).spare 18 (by decide) (by decide) (by decide)

theorem parameterTypeList_pays : Pays (ccParseParameterTypeList (fuel + 1)) 2 2 := by
  intro decl state
  rw [ccParseParameterTypeList]
  refine .bind_answer (inner.list decl state) (fun _ => ?_) fun _ => .pure (Nat.le_refl _)
  refine peek_spends fun _ _ => .ite (fun _ => step_spends ?_) fun _ => .pure (Nat.le_refl _)
  exact peek_spends fun _ _ => .ite (fun _ => .pure (Nat.le_refl _)) fun _ => .halt

/-- The name, or the bracket, pays for the copy of the type and for the parameters tried. -/
theorem directDeclarator_pays : Pays (ccParseDirectDeclarator (fuel + 1)) 0 20 := by
  intro decl state
  rw [ccParseDirectDeclarator]
  refine peek_spends fun tok kind => .get ?_
  have close (reached : CcState) : Spends nodeAccount (do
      let close ← ccPeekToken 0
      if close.type = .rparen then
        ccNextToken
        pure true
      else
        halt .abort : ParseM Bool) 20 (Spends.Answer 20 0) reached :=
    peek_spends fun _ _ => .ite (fun _ => step_spends (.pure (Nat.le_refl _))) fun _ => .halt
  cases state.node decl with
  | newVar _ _ _ _ =>
      refine .ite (fun isIdent => ?_) fun _ => .ite (fun isParen => ?_) fun _ => .pure (Nat.le_refl _)
      · refine advance_spends (head_some (by decide) (kind.symm.trans isIdent)) ?_
        refine (setVarName_spends decl _).bind fun _ _ => peek_spends fun _ _ => ?_
        refine .ite (fun _ => ?_) fun _ => .pure (by decide)
        refine (makeFunctionType_spends decl).bind fun _ _ => step_spends ?_
        refine ((inner.typeList decl _).spare 18 (by decide) (Nat.le_refl 20) (Nat.le_refl 20)).bind
          fun accepted _ => ?_
        cases accepted with
        | true => exact close _
        | false => exact close _
      · refine advance_spends (head_some (by decide) (kind.symm.trans isParen)) ?_
        refine .bind_answer ((inner.declarator decl _).spare 0 (by decide) (Nat.le_refl _)
          (Nat.le_refl _)) (fun _ => close _) fun _ => .halt
  | _ => exact .halt

end Declarators

theorem declarators_pay (fuel : Nat) : DeclaratorsPay fuel := by
  induction fuel with
  | zero => exact ⟨fun _ _ => .halt, fun _ _ => .halt, fun _ _ => .halt, fun _ _ => .halt,
      fun _ _ => .halt⟩
  | succ fuel ih =>
      refine ⟨parameter_pays ih, parameterList_pays ih, parameterTypeList_pays ih,
        directDeclarator_pays ih, fun decl state => ?_⟩
      exact .bind_run (run_pure false state) (fun _ _ covers => covers) (ih.direct decl state)

theorem functionDefinition_pays (fuel : Nat) :
    Pays (ccParseFunctionDefinition fuel) 0 nodesPerToken := by
  intro decl state
  unfold ccParseFunctionDefinition
  refine .get ?_
  cases state.node decl with
  | newVar _ _ _ _ =>
      have rest (reached : CcState) : Spends nodeAccount (do
          if ← ccParseDeclarator fuel decl then
            let after ← get
            ccParseCompoundStatement fuel (after.initOf decl)
          else
            pure false : ParseM Bool) 0 (Spends.Answer nodesPerToken 0) reached := by
        refine .bind_answer ((declarators_pay fuel).declarator decl reached) (fun _ => .get ?_)
          fun _ => .pure (Nat.le_refl _)
        exact (compoundStatement_pays fuel _ _).spare 20 (Nat.le_refl _) (by decide) (by decide)
      refine (declarationSpecifiers_pays fuel decl state).bind fun accepted reached => ?_
      cases accepted with
      | true => exact rest reached
      | false => exact rest reached
  | _ => exact .halt

theorem externalDeclaration_spends (fuel : Nat) (state : CcState) :
    Spends nodeAccount (ccParseExternalDeclaration fuel) 3 (fun _ => 3) state := by
  -- The three nodes of a declaration are paid for by its tokens, or popped.
  unfold ccParseExternalDeclaration
  refine push_spends (push_spends (push_spends ?_))
  refine .bind_answer (functionDefinition_pays fuel _ _) (fun _ => .pure (by decide)) fun _ => ?_
  refine (pop_spends _).bind fun _ _ => (pop_spends _).bind fun _ _ => ?_
  exact (pop_spends _).bind fun _ _ => .pure (Nat.le_refl _)

theorem unitLoop_spends (fuel : Nat) (block : CcAstNodeRef) (state : CcState) :
    Spends nodeAccount (ccParseUnitLoop fuel block) 3 (fun _ => 3) state := by
  induction fuel generalizing state with
  | zero => exact .halt
  | succ fuel ih =>
      rw [ccParseUnitLoop]
      refine (externalDeclaration_spends fuel state).bind fun node reached => ?_
      refine .ite (fun _ => ?_) fun _ => .pure (Nat.le_refl _)
      exact (pushChildrenToBlock_spends block node).bind fun _ after => ih after

theorem unit_spends (fuel : Nat) (state : CcState) :
    Spends nodeAccount (ccParseUnit fuel) 5 (fun _ => 3) state := by
  unfold ccParseUnit
  refine push_spends (push_spends ?_)
  exact (unitLoop_spends fuel _ _).bind fun _ _ => .pure (Nat.le_refl _)

theorem translationUnit_halts {fuel : Nat} {start final : CcState} {why : Halt}
    (ran : (ccParseUnit fuel).run start = .halt why final) :
    (ccParseTranslationUnit fuel).run start = .halt why final := by
  have ranUnit : (widen ParseStep.unit (ccParseUnit fuel) : UnitM CcAstNodeRef).run start =
    .halt why final := ran
  exact run_bind_halt ranUnit

theorem translationUnit_run {fuel : Nat} {start parsed : CcState} {block : CcAstNodeRef}
    (ran : (ccParseUnit fuel).run start = .ok block parsed) :
    (ccParseTranslationUnit fuel).run start =
      match (ccAstCoalesce fuel block).run parsed with
      | .ok written final => .ok (written.getD block) final
      | .halt why final => .halt why final := by
  have ranUnit : (widen ParseStep.unit (ccParseUnit fuel) : UnitM CcAstNodeRef).run start =
    .ok block parsed := ran
  rw [ccParseTranslationUnit, run_bind_ok ranUnit, run_bind, run_widen]
  cases (ccAstCoalesce fuel block).run parsed with
  | ok written final => rfl
  | halt why final => rfl

theorem unit_nodes (data : List UInt8) (toks : List CcToken) (fuel : Nat) :
    ((ccParseUnit fuel).run (CcState.start data toks)).state.nodes.length ≤
      nodesPerToken * toks.length + 5 := by
  have spent := (unit_spends fuel (CcState.start data toks)).bounded (Nat.zero_le _)
  change _ ≤ 0 + nodesPerToken * toks.length + 5 at spent
  rw [Nat.zero_add] at spent
  exact spent

/-- However the parser ends, it has written at most twenty-one nodes a token, and five. -/
theorem translationUnit_nodes (data : List UInt8) (toks : List CcToken) (fuel : Nat) :
    ((ccParseTranslationUnit fuel).run (CcState.start data toks)).state.nodes.length ≤
      nodesPerToken * toks.length + 5 := by
  have spent := unit_nodes data toks fuel
  cases outcome : (ccParseUnit fuel).run (CcState.start data toks) with
  | halt why final =>
      rw [translationUnit_halts outcome]
      rw [outcome] at spent
      exact spent
  | ok block parsed =>
      rw [outcome] at spent
      have step := (ccAstCoalesce fuel block).keeps parsed
      rw [translationUnit_run outcome]
      cases coalesced : (ccAstCoalesce fuel block).run parsed with
      | ok written final =>
          rw [coalesced] at step
          exact step.nodes.trans_le spent
      | halt why final =>
          rw [coalesced] at step
          exact step.nodes.trans_le spent

/-- So few tokens never truncate a reference. -/
theorem unit_refsFit (data : List UInt8) {toks : List CcToken} (fuel : Nat)
    (short : toks.length ≤ 3120) :
    ((ccParseUnit fuel).run (CcState.start data toks)).state.refsFit := by
  have few : nodesPerToken * toks.length ≤ nodesPerToken * 3120 := Nat.mul_le_mul_left _ short
  exact (unit_nodes data toks fuel).trans ((Nat.add_le_add_right few 5).trans (by decide))

end Estros
