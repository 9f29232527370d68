import Estros.ExpressionContracts
import Estros.NodeBudget

/-!
How many nodes one expression takes. In front of identifiers and operators in turn every level
of the grammar accepts, with one operator at most, so that the length of the input does not
count: the call writes a fixed number of nodes at most. No token pays for any here.
-/

namespace Estros

open Machine

def spellsOperator : CcTokenType → Bool
  | .asterisk | .div | .add | .sub | .lshift | .rshift | .ampersand | .bitXor | .bitOr => true
  | _ => false

/-- What stands behind an identifier: a semicolon, or an operator and an identifier before the
same again. -/
inductive AfterOperand : List CcToken → Prop where
  | semi {toks : List CcToken} (isSemi : headType toks = .semi) : AfterOperand toks
  | operator {toks : List CcToken} (spells : spellsOperator (headType toks) = true)
      (ident : headType toks.tail = .ident) (next : AfterOperand toks.tail.tail) : AfterOperand toks

structure OperandAhead (toks : List CcToken) : Prop where
  ident : headType toks = .ident
  next : AfterOperand toks.tail

theorem AfterOperand.split {toks : List CcToken} (after : AfterOperand toks) :
    headType toks = .semi ∨ spellsOperator (headType toks) = true ∧ OperandAhead toks.tail := by
  cases after with
  | semi isSemi => exact Or.inl isSemi
  | operator spells ident next => exact Or.inr ⟨spells, ident, next⟩

theorem AfterOperand.not_qmark {toks : List CcToken} (after : AfterOperand toks) :
    headType toks ≠ .qmark := by
  intro question
  rcases after.split with isSemi | ⟨spells, _⟩
  · cases isSemi.symm.trans question
  · rw [question] at spells
    cases spells

/-- The recogniser accepts where an operand is ahead, and stops behind an operand. -/
def StopsAfterOperand (recognise : List UInt8 → List CcToken → Reply Tree) : Prop :=
  ∀ data toks, OperandAhead toks →
    ∃ tree rest, recognise data toks = .yes tree rest ∧ AfterOperand rest

theorem parsePrimary_stops : StopsAfterOperand parsePrimary := by
  intro data toks ahead
  obtain ⟨tree, reply⟩ := parsePrimary_operand data (Or.inl ahead.ident)
  exact ⟨tree, _, reply, ahead.next⟩

theorem parseBinop_stops {recognise : List UInt8 → List CcToken → Reply Tree} (op : CcAstBinop)
    {operator : CcTokenType} (notSemi : operator ≠ .semi) (operand : StopsAfterOperand recognise) :
    StopsAfterOperand fun data => parseBinop op operator (recognise data) := by
  intro data toks ahead
  obtain ⟨lhs, rest, first, after⟩ := operand data toks ahead
  by_cases isOp : headType rest = operator
  · have right : OperandAhead rest.tail := by
      rcases after.split with isSemi | ⟨_, right⟩
      · exact absurd (isOp.symm.trans isSemi) notSemi
      · exact right
    obtain ⟨rhs, left, second, behind⟩ := operand data rest.tail right
    exact ⟨.binop op lhs rhs, left, by simp only [parseBinop, first, isOp, if_true, second], behind⟩
  · exact ⟨lhs, rest, by simp only [parseBinop, first, isOp, if_false], after⟩

/-- A parser function that follows its recogniser and writes `cost` nodes at most where an
operand is ahead. -/
structure Affordable (parse : CcAstNodeRef → ParseM Bool)
    (recognise : List UInt8 → List CcToken → Reply Tree) (cost : Nat) : Prop where
  tracks : Tracks parse recognise
  stops : StopsAfterOperand recognise
  spends : ∀ expr state, OperandAhead state.remaining →
    Spends (pricedNodes 0) (parse expr) cost (fun _ => 0) state

variable {parse : CcAstNodeRef → ParseM Bool} {cost need more : Nat} {state : CcState}
  {recognise : List UInt8 → List CcToken → Reply Tree}

theorem Affordable.bind {α : Type} {gives : α → Nat} {accept decline : ParseM α}
    (affordable : Affordable parse recognise cost) (expr : CcAstNodeRef)
    (ahead : OperandAhead state.remaining) (enough : cost + more ≤ need)
    (accepted : ∀ reached, AfterOperand reached.remaining →
      Spends (pricedNodes 0) accept more gives reached) :
    Spends (pricedNodes 0) (parse expr >>= fun answer => if answer then accept else decline)
      need gives state := by
  obtain ⟨tree, rest, reply, after⟩ := affordable.stops state.data _ ahead
  have spends : Spends (pricedNodes 0) (parse expr) need (fun _ => more) state :=
    (affordable.spends expr state ahead).mono more enough fun _ => by omega
  refine .bind_ensured (affordable.tracks state expr) spends fun answer reached follows => ?_
  rw [reply] at follows
  cases answer with
  | true =>
      obtain ⟨_, value, same⟩ := follows
      cases same
      exact accepted reached after
  | false => exact nomatch follows.1

theorem primary_affordable : Affordable ccParsePrimaryExpression parsePrimary 1 := by
  refine ⟨primary_tracks, parsePrimary_stops, fun expr state ahead => ?_⟩
  unfold ccParsePrimaryExpression
  have leaf (node : CcAstNode) : Spends (pricedNodes 0) (do
      let primary ← ccAstPushNode node
      ccNextToken
      ccAstPushChildrenToBlock expr primary
      pure true : ParseM Bool) 1 (fun _ => 0) state :=
    push_spends (step_spends ((pushChildrenToBlock_spends expr _).bind
      fun _ _ => .pure (Nat.le_refl _)))
  refine peek_spends fun tok _ => .ite (fun _ => leaf _) fun _ => .ite (fun _ => ?_) fun _ => ?_
  · exact .get (leaf _)
  · exact .pure (Nat.zero_le _)

theorem coalesced_affordable (operand : Affordable parse recognise cost) :
    Affordable (fun expr => do
      let inner ← ccAstPushBlockCoalesce expr
      if ← parse inner.ref then
        pure true
      else
        ccAstPopBlockCoalesce inner
        pure false) recognise (cost + 1) := by
  refine ⟨coalesced_tracks operand.tracks, operand.stops, fun expr state ahead => ?_⟩
  apply pushBlockCoalesce_spends
  · exact operand.bind _ ahead (Nat.le_succ cost) fun _ _ => .pure (Nat.le_refl 0)
  · exact operand.bind _ ahead (Nat.le_refl cost) fun _ _ => .pure (Nat.le_refl 0)

theorem unary_affordable : Affordable ccParseUnaryExpression parsePrimary 3 :=
  coalesced_affordable (coalesced_affordable primary_affordable)

section Levels

variable {next : CcAstNodeRef → Bool → ParseM Bool}
  (operand : Affordable (next · false) recognise cost)

include operand

theorem binopRhs_spends (op : CcAstBinop) (expr lhsExpr : CcAstNodeRef)
    (ahead : OperandAhead state.remaining.tail) :
    Spends (pricedNodes 0) (ccParseBinopRhs next op expr lhsExpr) (cost + 2) (fun _ => 0) state := by
  unfold ccParseBinopRhs
  have enough : cost + 0 ≤ cost := Nat.le_refl _
  refine push_spends (push_spends (step_spends (operand.bind _ ?_ enough fun _ _ => ?_)))
  · rw [advance_remaining]
    exact ahead
  · exact (pushChildrenToBlock_spends expr _).bind fun _ _ => .pure (Nat.le_refl 0)

/-- A level whose operator is not among those of the expression takes no right operand. -/
theorem binop_affordable (rhs : Nat) (op : CcAstBinop) {operator : CcTokenType}
    (notSemi : operator ≠ .semi) (room : spellsOperator operator = true → cost + 2 ≤ rhs) :
    Affordable (ccParseBinopDefine next op operator · false)
      (fun data => parseBinop op operator (recognise data)) (cost + rhs + 1) := by
  refine ⟨binopDefine_tracks op operator operand.tracks, parseBinop_stops op notSemi operand.stops,
    fun expr state ahead => push_spends
      (operand.bind _ ahead (Nat.le_refl (cost + rhs)) fun reached after => ?_)⟩
  refine peek_spends fun tok kind => .ite (fun isOp => ?_) fun _ => ?_
  · have head : headType reached.remaining = operator := kind.symm.trans isOp
    rcases after.split with isSemi | ⟨spells, right⟩
    · exact absurd (head.symm.trans isSemi) notSemi
    · rw [head] at spells
      exact (binopRhs_spends operand op expr _ right).mono 0 (room spells) fun _ => Nat.zero_le _
  · exact (pushChildrenToBlockCoalesce_spends expr _).bind fun _ _ => .pure (Nat.zero_le _)

end Levels

theorem logicalOr_affordable :
    Affordable (ccParseLogcalOrExpression · false) parseLogicalOr 3111 := by
  have cast : Affordable (ccParseCastExpression · false) _ 3 := unary_affordable
  have level {next : CcAstNodeRef → Bool → ParseM Bool} {cost : Nat}
      {recognise : List UInt8 → List CcToken → Reply Tree} (rhs : Nat) (op : CcAstBinop)
      (operator : CcTokenType) (notSemi : operator ≠ .semi)
      (room : spellsOperator operator = true → cost + 2 ≤ rhs)
      (operand : Affordable (next · false) recognise cost) :
      Affordable (ccParseBinopDefine next op operator · false) _ (cost + rhs + 1) :=
    binop_affordable operand rhs op notSemi room
  have mul := level 5 .mul .asterisk (by decide) (by decide) cast
  have div := level 11 .div .div (by decide) (by decide) mul
  have sub := level 23 .sub .sub (by decide) (by decide) div
  have add := level 47 .add .add (by decide) (by decide) sub
  have lshift := level 95 .lshift .lshift (by decide) (by decide) add
  have rshift := level 191 .rshift .rshift (by decide) (by decide) lshift
  have lte := level 0 .condLte .condLte (by decide) (by decide) rshift
  have gte := level 0 .condGte .condGte (by decide) (by decide) lte
  have lt := level 0 .condLt .condLt (by decide) (by decide) gte
  have gt := level 0 .condGt .condGt (by decide) (by decide) lt
  have neq := level 0 .condNeq .condNeq (by decide) (by decide) gt
  have bitAnd := level 388 .bitAnd .ampersand (by decide) (by decide) neq
  have bitXor := level 777 .bitXor .bitXor (by decide) (by decide) bitAnd
  have bitOr := level 1555 .bitOr .bitOr (by decide) (by decide) bitXor
  have and := level 0 .condAnd .condAnd (by decide) (by decide) bitOr
  exact level 0 .condOr .condOr (by decide) (by decide) and

theorem parseExpression_stops : StopsAfterOperand parseExpression := by
  intro data toks ahead
  obtain ⟨tree, rest, reply, after⟩ := logicalOr_affordable.stops data toks ahead
  refine ⟨tree, rest, ?_, after⟩
  rw [parseExpression, parseConditional, reply, parseQuestion, if_neg after.not_qmark]

theorem conditional_affordable (fuel : Nat) :
    Affordable (ccParseConditionalExpression fuel) parseExpression 3112 := by
  refine ⟨fun before expr => (expressions_track fuel).conditional _ before expr (Nat.lt_succ_self _),
    parseExpression_stops, fun expr state ahead => ?_⟩
  cases fuel with
  | zero => exact .halt
  | succ fuel =>
      rw [ccParseConditionalExpression]
      have enough : 3111 + 0 ≤ 3111 := Nat.le_refl _
      refine push_spends (logicalOr_affordable.bind _ ahead enough fun reached after => ?_)
      refine peek_spends fun tok kind => .check fun _ => .ite (fun isQmark => ?_) fun _ => ?_
      · exact absurd (kind.symm.trans isQmark) after.not_qmark
      · exact (pushChildrenToBlock_spends expr _).bind fun _ _ => .pure (Nat.le_refl 0)

theorem assignment_affordable (fuel : Nat) :
    Affordable (ccParseAssignmentExpression fuel) parseExpression 3112 := by
  refine ⟨fun before expr => (expressions_track fuel).assignment _ before expr (Nat.lt_succ_self _),
    parseExpression_stops, fun expr state ahead => ?_⟩
  cases fuel with
  | zero => exact .halt
  | succ fuel =>
      rw [ccParseAssignmentExpression]
      exact (conditional_affordable fuel).bind _ ahead (Nat.le_refl _) fun _ _ => .pure (Nat.le_refl 0)

theorem expression_affordable (fuel : Nat) (lock : Bool) :
    Affordable (ccParseExpression fuel · lock) parseExpression 3112 := by
  refine ⟨parseExpression_tracks fuel lock, parseExpression_stops, fun expr state ahead => ?_⟩
  cases fuel with
  | zero => exact .halt
  | succ fuel =>
      simp only [ccParseExpression]
      exact (assignment_affordable fuel).bind _ ahead (Nat.le_refl _) fun _ _ => .pure (Nat.le_refl 0)

/-- In a state with room for the nodes that it can write, an expression truncates no reference. -/
theorem expression_refsFit (fuel : Nat) (expr : CcAstNodeRef) (lock : Bool)
    (ahead : OperandAhead state.remaining) (room : state.nodes.length + 3112 ≤ 65536) :
    ((ccParseExpression fuel expr lock).run state).state.refsFit := by
  have level : state.nodes.length ≤ 65536 := by omega
  refine ((expression_affordable fuel lock).spends expr state ahead).within ⟨level, ?_⟩
  have written := state.nodesWritten
  change state.nNodes + 0 * state.remaining.length + 3112 ≤ 65536
  omega

end Estros
