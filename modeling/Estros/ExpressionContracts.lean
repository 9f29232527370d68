import Estros.Contracts
import Estros.ExpressionParsing

/-!
What the expression functions of parser.c do in any state at all, truncated references and
blocks with children included: they read the tokens that the recognisers read, leave the
node counter as it was when they decline, and pop nodes in the order of the pushes.
-/

namespace Estros

open Machine

/-- The node counter has not gone down, and the nil node, once pushed, is still invalid. -/
structure Grown (before after : CcState) : Prop where
  nNodes : before.nNodes ≤ after.nNodes
  nil : 0 < before.nNodes → before.nodeAt 0 = .invalid → after.nodeAt 0 = .invalid

structure Steady (before after : CcState) : Prop where
  grown : Grown before after
  remaining : after.remaining = before.remaining
  nNodes : after.nNodes = before.nNodes

/-- The assertion of `cc_ast_pop_node` fails only on a truncated reference. -/
def PopsInOrder (why : Halt) (after : CcState) : Prop :=
  why = .assertion .ccAstPopNode → ¬ after.refsFit

theorem PopsInOrder.of_ne {why : Halt} {after : CcState} (other : why ≠ .assertion .ccAstPopNode) :
    PopsInOrder why after := fun same => absurd same other

theorem Grown.refl (state : CcState) : Grown state state := ⟨Nat.le_refl _, fun _ invalid => invalid⟩

theorem Grown.trans {first middle last : CcState} (left : Grown first middle)
    (right : Grown middle last) : Grown first last :=
  ⟨Nat.le_trans left.nNodes right.nNodes, fun positive invalid =>
    right.nil (Nat.lt_of_lt_of_le positive left.nNodes) (left.nil positive invalid)⟩

theorem Grown.push (state : CcState) (node : CcAstNode) : Grown state (state.push node) := by
  refine ⟨Nat.le_succ _, fun positive invalid => ?_⟩
  rw [push_nodeAt, if_neg (Nat.ne_of_lt positive), invalid]

theorem Grown.advance (state : CcState) : Grown state state.advance :=
  ⟨Nat.le_refl _, fun _ invalid => invalid⟩

theorem Grown.setNode {state : CcState} {ref : CcAstNodeRef} (node : CcAstNode)
    (valid : state.node ref ≠ .invalid) : Grown state (state.setNode ref node) := by
  refine ⟨Nat.le_refl _, fun _ invalid => ?_⟩
  have other : ref.toNat ≠ 0 := fun zero => valid (by rw [node_eq_nodeAt, zero, invalid])
  rw [← invalid]
  simp only [CcState.setNode, CcState.nodeAt, List.getD_eq_getElem?_getD]
  rw [List.getElem?_set_ne other]

theorem Grown.appendChild {state : CcState} {ref : CcAstNodeRef} (childs : ChildArray)
    (child : CcAstNodeRef) (rebuild : ChildArray → CcAstNode) (valid : state.node ref ≠ .invalid) :
    Grown state (state.appendChild ref childs child rebuild) :=
  ⟨Nat.le_refl _, (Grown.setNode (rebuild (some state.childArrays.length)) valid).nil⟩

theorem Steady.refl (state : CcState) : Steady state state := ⟨Grown.refl state, rfl, rfl⟩

theorem Steady.trans {first middle last : CcState} (left : Steady first middle)
    (right : Steady middle last) : Steady first last :=
  ⟨left.grown.trans right.grown, right.remaining.trans left.remaining,
    right.nNodes.trans left.nNodes⟩

theorem Grown.popped {state after : CcState} {node : CcAstNode} (grown : Grown (state.push node) after)
    (nNodes : after.nNodes = state.nNodes + 1) : Grown state after.pop := by
  refine ⟨by rw [pop_nNodes, nNodes]; exact Nat.le_refl _, fun positive invalid => ?_⟩
  exact ((Grown.push state node).trans grown).nil positive invalid

theorem Steady.popped {state after : CcState} {node : CcAstNode}
    (steady : Steady (state.push node) after) : Steady state after.pop :=
  ⟨steady.grown.popped steady.nNodes, steady.remaining, by rw [pop_nNodes, steady.nNodes]; rfl⟩

theorem popNode_ensures {state : CcState} (index : Nat) (last : state.nNodes = index + 1) :
    Ensures (ccAstPopNode (refOf index)) (fun _ after => after = state.pop) PopsInOrder state := by
  by_cases small : index < 65536
  · have fits : (refOf index).toNat + 1 = state.nNodes := by rw [toNat_refOf small, last]
    exact .of_ok (popNode_run state _ fits) rfl
  · have truncated : (refOf index).toNat + 1 ≠ state.nNodes := by
      have bound := (refOf index).isLt
      omega
    -- So many nodes were written that the reference lost bits.
    refine .of_halt (popNode_fails state _ truncated) fun _ fits => ?_
    have written := state.nodesWritten
    have bound : state.nodes.length ≤ 65536 := fits
    omega

theorem pushChildrenToBlock_ensures (state : CcState) (n c : CcAstNodeRef) :
    Ensures (ccAstPushChildrenToBlock n c) (fun _ after => Steady state after) PopsInOrder state := by
  unfold ccAstPushChildrenToBlock
  apply Ensures.get
  cases found : state.node n with
  | block childs =>
      apply Ensures.check
      · exact fun _ => .modify ⟨.appendChild childs c .block (by simp [found]), rfl, rfl⟩
      · exact fun _ => .of_ne (by simp)
  | _ => exact .halt (.of_ne (by simp))

theorem pushChildrenToBlockCoalesce_ensures (state : CcState) (n c : CcAstNodeRef) :
    Ensures (ccAstPushChildrenToBlockCoalesce n c) (fun _ after => Steady state after) PopsInOrder
      state := by
  unfold ccAstPushChildrenToBlockCoalesce
  apply Ensures.get
  cases found : state.node n with
  | block childs =>
      apply Ensures.ite
      · exact fun _ => .modify ⟨.setNode _ (by simp [found]), rfl, rfl⟩
      · exact fun _ => pushChildrenToBlock_ensures state n c
  | _ => exact .halt (.of_ne (by simp))

/-- What the call of `cc_ast_push_block_coalesce` returned and did. -/
inductive Coalesced (before : CcState) (expr : CcAstNodeRef) : CcAstNewBlockResult → CcState → Prop where
  | reused : Coalesced before expr ⟨expr, false⟩ before
  | pushed : Coalesced before expr ⟨refOf before.nNodes, true⟩ (before.push (.block none))

theorem pushBlockCoalesce_ensures (state : CcState) (expr : CcAstNodeRef) :
    Ensures (ccAstPushBlockCoalesce expr) (Coalesced state expr) PopsInOrder state := by
  unfold ccAstPushBlockCoalesce
  apply Ensures.get
  cases state.node expr with
  | block childs =>
      apply Ensures.ite
      · exact fun _ => .pure .reused
      · exact fun _ => .bind_run (pushNode_run state _) (.pure .pushed)
  -- A block with children, or no block at all, gets a new block.
  | _ => exact .bind_run (pushNode_run state _) (.pure .pushed)

theorem Coalesced.steady {before middle : CcState} {expr : CcAstNodeRef} {inner : CcAstNewBlockResult}
    (coalesced : Coalesced before expr inner middle) :
    middle.remaining = before.remaining ∧ middle.data = before.data ∧ Grown before middle := by
  cases coalesced with
  | reused => exact ⟨rfl, rfl, .refl _⟩
  | pushed => exact ⟨rfl, rfl, .push _ _⟩

theorem Coalesced.pop_ensures {before middle state : CcState} {expr : CcAstNodeRef}
    {inner : CcAstNewBlockResult} (coalesced : Coalesced before expr inner middle)
    (steady : Steady middle state) :
    Ensures (ccAstPopBlockCoalesce inner) (fun _ after => Steady before after) PopsInOrder state := by
  cases coalesced with
  | reused => exact .pure steady
  | pushed =>
      refine (popNode_ensures before.nNodes steady.nNodes).post_mono fun _ after _ same => ?_
      rw [same]
      exact steady.popped

theorem peek_ensures {α : Type} {next : CcToken → ParseM α} {post : α → CcState → Prop}
    {stop : Halt → CcState → Prop} {state : CcState}
    (after : ∀ tok, tok.type = headType state.remaining → Ensures (next tok) post stop state) :
    Ensures (ccPeekToken 0 >>= next) post stop state :=
  .bind_run (peek_run state) (after _ (peek_type state))

theorem peekIs_ensures {α : Type} {type : CcTokenType} {yes no : CcToken → ParseM α}
    {post : α → CcState → Prop} {stop : Halt → CcState → Prop} {state : CcState}
    (holds : ∀ tok, headType state.remaining = type → Ensures (yes tok) post stop state)
    (fails : ∀ tok, tok.type = headType state.remaining → headType state.remaining ≠ type →
      Ensures (no tok) post stop state) :
    Ensures (ccPeekToken 0 >>= fun tok => if tok.type = type then yes tok else no tok) post stop
      state := by
  apply peek_ensures
  intro tok kind
  apply Ensures.ite
  · exact fun same => holds tok (kind.symm.trans same)
  · exact fun other => fails tok kind fun same => other (kind.trans same)

theorem remaining_length_le {before after : CcState} (step : ParseStep before after) :
    after.remaining.length ≤ before.remaining.length := by
  have forward := step.curTok
  simp only [CcState.remaining, List.length_drop, step.tokens]
  omega

/-- A call that accepts has read what the reply says; a call that declines has changed nothing. -/
def Follows {α : Type} (before : CcState) (reply : Reply α) : Bool → CcState → Prop
  | true, after => Grown before after ∧ ∃ value, reply = .yes value after.remaining
  | false, after => reply = .no ∧ Steady before after

/-- A parser function follows a recogniser from every state, whatever the given node is. -/
def Tracks (parse : CcAstNodeRef → ParseM Bool)
    (recognise : List UInt8 → List CcToken → Reply Tree) : Prop :=
  ∀ before expr, Ensures (parse expr) (Follows before (recognise before.data before.remaining))
    PopsInOrder before

theorem parsePrimary_operand (data : List UInt8) {toks : List CcToken}
    (operand : headType toks = .ident ∨ headType toks = .literal) :
    ∃ tree, parsePrimary data toks = .yes tree toks.tail := by
  cases toks with
  | nil => simp [headType] at operand
  | cons tok rest =>
      rcases operand with ident | literal
      · exact ⟨_, if_pos ident⟩
      · have notIdent : tok.type ≠ .ident := fun ident => by cases literal.symm.trans ident
        exact ⟨_, (if_neg notIdent).trans (if_pos literal)⟩

theorem parsePrimary_none (data : List UInt8) {toks : List CcToken}
    (notIdent : headType toks ≠ .ident) (notLiteral : headType toks ≠ .literal) :
    parsePrimary data toks = .no := by
  cases toks with
  | nil => rfl
  | cons tok rest => exact (if_neg notIdent).trans (if_neg notLiteral)

theorem primary_tracks : Tracks ccParsePrimaryExpression parsePrimary := by
  intro before expr
  unfold ccParsePrimaryExpression
  -- Both kinds of operand push a leaf, step over the token and hang the leaf below `expr`.
  have leaf (node : CcAstNode)
      (operand : headType before.remaining = .ident ∨ headType before.remaining = .literal) :
      Ensures (do
        let primary ← ccAstPushNode node
        ccNextToken
        ccAstPushChildrenToBlock expr primary
        pure true) (Follows before (parsePrimary before.data before.remaining)) PopsInOrder before := by
    refine .bind_run (pushNode_run before node) (.bind_run (next_run _) ?_)
    refine (pushChildrenToBlock_ensures _ expr _).bind fun _ after _ steady => .pure ?_
    obtain ⟨tree, reply⟩ := parsePrimary_operand before.data operand
    refine ⟨((Grown.push before node).trans (.advance _)).trans steady.grown, tree, ?_⟩
    rw [steady.remaining, reply, advance_remaining, push_remaining]
  apply peekIs_ensures
  · exact fun _ ident => leaf _ (Or.inl ident)
  · intro tok kind notIdent
    rw [kind]
    apply Ensures.ite
    · exact fun literal => .get (leaf _ (Or.inr literal))
    · intro notLiteral
      exact .pure ⟨parsePrimary_none before.data notIdent notLiteral, Steady.refl before⟩

theorem coalesced_tracks {parse : CcAstNodeRef → ParseM Bool}
    {recognise : List UInt8 → List CcToken → Reply Tree} (operand : Tracks parse recognise) :
    Tracks (fun expr => do
      let inner ← ccAstPushBlockCoalesce expr
      if ← parse inner.ref then
        pure true
      else
        ccAstPopBlockCoalesce inner
        pure false) recognise := by
  intro before expr
  refine (pushBlockCoalesce_ensures before expr).bind fun inner middle _ coalesced => ?_
  obtain ⟨remaining, data, grown⟩ := coalesced.steady
  refine (operand middle inner.ref).bind fun accepted after _ follows => ?_
  rw [remaining, data] at follows
  cases accepted with
  | true => exact .pure ⟨grown.trans follows.1, follows.2⟩
  | false =>
      refine (coalesced.pop_ensures follows.2).bind fun _ last _ steady => .pure ?_
      exact ⟨follows.1, steady⟩

theorem unary_tracks : Tracks ccParseUnaryExpression parsePrimary :=
  coalesced_tracks (coalesced_tracks primary_tracks)

theorem binopRhs_tracks {next : CcAstNodeRef → Bool → ParseM Bool}
    {recognise : List UInt8 → List CcToken → Reply Tree}
    (operand : Tracks (fun ref => next ref false) recognise) (op : CcAstBinop)
    (state : CcState) (expr lhsExpr : CcAstNodeRef) :
    Ensures (ccParseBinopRhs next op expr lhsExpr) (fun accepted after => accepted = true ∧
      Grown state after ∧ ∃ rhs, recognise state.data state.remaining.tail = .yes rhs after.remaining)
      PopsInOrder state := by
  unfold ccParseBinopRhs
  refine .bind_run (pushNode_run state _) (.bind_run (pushNode_run _ _) (.bind_run (next_run _) ?_))
  refine (operand _ _).bind fun accepted middle _ follows => ?_
  simp only [advance_remaining, push_remaining] at follows
  cases accepted with
  | true =>
      obtain ⟨grown, rhs, reply⟩ := follows
      refine (pushChildrenToBlock_ensures middle expr _).bind fun _ after _ steady => .pure ?_
      refine ⟨rfl, ?_, rhs, by rw [steady.remaining]; exact reply⟩
      exact (((Grown.push _ _).trans (.push _ _)).trans (.advance _)).trans (grown.trans steady.grown)
  | false => exact .halt (.of_ne (by simp))

theorem binopLevel_tracks {next : CcAstNodeRef → Bool → ParseM Bool}
    {recognise : List UInt8 → List CcToken → Reply Tree}
    (operand : Tracks (fun ref => next ref false) recognise) (op : CcAstBinop)
    (operator : CcTokenType) {retry : CcAstNodeRef → ParseM Bool}
    (declines : ∀ before expr, recognise before.data before.remaining = .no →
      Ensures (retry expr) (fun accepted after => accepted = false ∧ Steady before after)
        PopsInOrder before) :
    Tracks (ccParseBinopLevel next op operator retry)
      (fun data => parseBinop op operator (recognise data)) := by
  intro before expr
  unfold ccParseBinopLevel
  refine .bind_run (pushNode_run before _) ((operand _ _).bind fun accepted middle step follows => ?_)
  simp only [push_remaining, push_data] at follows
  have data : middle.data = before.data := step.data
  cases accepted with
  | true =>
      obtain ⟨grown, lhs, reply⟩ := follows
      replace grown := (Grown.push before (.block none)).trans grown
      apply peekIs_ensures
      · intro _ isOp
        refine (binopRhs_tracks operand op middle expr _).post_mono ?_
        rintro accepted after _ ⟨rfl, more, rhs, second⟩
        refine ⟨grown.trans more, .binop op lhs rhs, ?_⟩
        rw [data] at second
        simp only [parseBinop, reply, isOp, if_true, second]
      · intro _ _ notOp
        refine (pushChildrenToBlockCoalesce_ensures middle expr _).bind fun _ after _ steady =>
          .pure ⟨grown.trans steady.grown, lhs, ?_⟩
        simp only [parseBinop, reply, notOp, if_false, steady.remaining]
  | false =>
      obtain ⟨reply, steady⟩ := follows
      have again : recognise middle.data middle.remaining = .no := by
        rw [data, steady.remaining, push_remaining, reply]
      refine (declines middle _ again).bind ?_
      rintro accepted last _ ⟨rfl, unchanged⟩
      have whole := steady.trans unchanged
      refine (popNode_ensures before.nNodes whole.nNodes).bind fun _ after _ popped =>
        .pure ⟨by simp only [parseBinop, reply], ?_⟩
      rw [popped]
      exact whole.popped

theorem binopDefine_tracks {next : CcAstNodeRef → Bool → ParseM Bool}
    {recognise : List UInt8 → List CcToken → Reply Tree} (op : CcAstBinop) (operator : CcTokenType)
    (operand : Tracks (fun ref => next ref false) recognise) :
    Tracks (fun ref => ccParseBinopDefine next op operator ref false)
      (fun data => parseBinop op operator (recognise data)) := by
  -- With the lock set there is nothing to retry.
  have locked : Tracks (ccParseBinopLevel next op operator fun _ => pure false)
      (fun data => parseBinop op operator (recognise data)) :=
    binopLevel_tracks operand op operator fun before _ _ => .pure ⟨rfl, Steady.refl before⟩
  -- The second attempt sees the tokens that the first one declined.
  refine binopLevel_tracks operand op operator fun before expr reply => ?_
  refine (locked before expr).bind fun accepted middle _ follows => ?_
  have declined : parseBinop op operator (recognise before.data) before.remaining = .no := by
    rw [parseBinop, reply]
  cases accepted with
  | true =>
      obtain ⟨_, tree, read⟩ := follows
      cases declined.symm.trans read
  | false => exact .pure ⟨rfl, follows.2⟩

theorem logicalOr_tracks : Tracks (fun ref => ccParseLogcalOrExpression ref false) parseLogicalOr := by
  have cast : Tracks (fun ref => ccParseCastExpression ref false) parsePrimary := unary_tracks
  have mul : Tracks (ccParseMultiplicativeExpression2 · false) _ :=
    binopDefine_tracks .mul .asterisk cast
  have div : Tracks (ccParseMultiplicativeExpression1 · false) _ := binopDefine_tracks .div .div mul
  have sub : Tracks (ccParseAdditiveExpression2 · false) _ := binopDefine_tracks .sub .sub div
  have add : Tracks (ccParseAdditiveExpression1 · false) _ := binopDefine_tracks .add .add sub
  have lshift : Tracks (ccParseShiftExpression2 · false) _ :=
    binopDefine_tracks .lshift .lshift add
  have rshift : Tracks (ccParseShiftExpression1 · false) _ :=
    binopDefine_tracks .rshift .rshift lshift
  have lte : Tracks (ccParseRelationalExpression3 · false) _ :=
    binopDefine_tracks .condLte .condLte rshift
  have gte : Tracks (ccParseRelationalExpression2 · false) _ :=
    binopDefine_tracks .condGte .condGte lte
  have lt : Tracks (ccParseRelationalExpression1 · false) _ :=
    binopDefine_tracks .condLt .condLt gte
  have gt : Tracks (ccParseEqualityExpression2 · false) _ := binopDefine_tracks .condGt .condGt lt
  have neq : Tracks (ccParseEqualityExpression1 · false) _ :=
    binopDefine_tracks .condNeq .condNeq gt
  have bitAnd : Tracks (ccParseAndExpression · false) _ :=
    binopDefine_tracks .bitAnd .ampersand neq
  have bitXor : Tracks (ccParseExclusiveOrExpression · false) _ :=
    binopDefine_tracks .bitXor .bitXor bitAnd
  have bitOr : Tracks (ccParseInclusiveOrExpression · false) _ :=
    binopDefine_tracks .bitOr .bitOr bitXor
  have condAnd : Tracks (ccParseLogcalAndExpression · false) _ :=
    binopDefine_tracks .condAnd .condAnd bitOr
  exact binopDefine_tracks .condOr .condOr condAnd

/-! ### Conditional, assignment and full expressions -/

def TracksBelow (bound : Nat) (parse : CcAstNodeRef → ParseM Bool)
    (recognise : List UInt8 → List CcToken → Reply Tree) : Prop :=
  ∀ before expr, before.remaining.length < bound →
    Ensures (parse expr) (Follows before (recognise before.data before.remaining)) PopsInOrder before

theorem tail_length_lt {toks : List CcToken} {type : CcTokenType} {bound : Nat}
    (valid : type ≠ .invalid) (head : headType toks = type) (short : toks.length < bound + 1) :
    toks.tail.length < bound := by
  obtain ⟨tok, rest, rfl, _⟩ := headType_split valid head
  rw [List.tail_cons]
  exact Nat.lt_of_succ_lt_succ short

theorem branches_track {bound : Nat} {parseThen parseElse : CcAstNodeRef → ParseM Bool}
    {recognise : List UInt8 → List CcToken → Reply Tree}
    (thenTracks : TracksBelow bound parseThen recognise)
    (elseTracks : TracksBelow bound parseElse recognise) (state : CcState)
    (expr condExpr : CcAstNodeRef) (cond : Tree) (short : state.remaining.tail.length < bound) :
    Ensures (ccParseConditionalBranches parseThen parseElse expr condExpr)
      (fun accepted after => accepted = true ∧ Grown state after ∧
        ∃ tree, parseBranches (recognise state.data) cond state.remaining.tail = .yes tree after.remaining)
      PopsInOrder state := by
  unfold ccParseConditionalBranches
  refine .bind_run (pushNode_run state _) (.bind_run (pushNode_run _ _)
    (.bind_run (pushNode_run _ _) (.bind_run (next_run _) ?_)))
  refine (thenTracks _ _ (by simpa using short)).bind fun accepted middle step follows => ?_
  have fewer := remaining_length_le step
  have data : middle.data = state.data := step.data
  simp only [advance_remaining, push_remaining] at follows fewer
  cases accepted with
  | false => exact .halt (.of_ne (by simp))
  | true =>
      obtain ⟨grown, thenTree, first⟩ := follows
      replace grown := ((((Grown.push state _).trans (.push _ _)).trans (.push _ _)).trans
        (.advance _)).trans grown
      apply peekIs_ensures
      · intro _ isColon
        have left : middle.advance.remaining.length < bound := by
          rw [advance_remaining]
          exact tail_length_lt (by decide) isColon (by omega)
        refine .bind_run (next_run middle) ((elseTracks _ _ left).bind fun accepted last _ follows => ?_)
        cases accepted with
        | false => exact .halt (.of_ne (by simp))
        | true =>
            obtain ⟨more, elseTree, second⟩ := follows
            rw [advance_remaining] at second
            refine (pushChildrenToBlock_ensures last expr _).bind fun _ after _ steady => .pure ?_
            refine ⟨rfl, (grown.trans (.advance _)).trans (more.trans steady.grown),
              .ifExpr cond thenTree elseTree, ?_⟩
            have second : recognise state.data middle.remaining.tail = .yes elseTree last.remaining := by
              rw [← data]; exact second
            have first : recognise state.data state.remaining.tail = .yes thenTree middle.remaining :=
              first
            simp only [parseBranches, first, isColon, if_true, second, steady.remaining]
      · exact fun _ _ _ => .halt (.of_ne (by simp))

theorem conditional_tracks {fuel bound : Nat}
    (branch : TracksBelow bound (ccParseExpression fuel · false) (fun data => parseConditional data bound))
    (last : TracksBelow bound (ccParseConditionalExpression fuel) (fun data => parseConditional data bound)) :
    TracksBelow (bound + 1) (ccParseConditionalExpression (fuel + 1))
      (fun data => parseConditional data (bound + 1)) := by
  intro before expr short
  rw [ccParseConditionalExpression]
  refine .bind_run (pushNode_run before _) ((logicalOr_tracks _ _).bind fun accepted middle step follows => ?_)
  have fewer := remaining_length_le step
  have data : middle.data = before.data := step.data
  simp only [push_remaining, push_data] at follows fewer
  simp only [parseConditional]
  cases accepted with
  | true =>
      obtain ⟨grown, cond, reply⟩ := follows
      replace grown := (Grown.push before (.block none)).trans grown
      rw [reply]
      apply peek_ensures
      intro tok kind
      rw [kind]
      apply Ensures.check
      · intro _
        apply Ensures.ite
        · intro question
          have left := tail_length_lt (by decide) question (Nat.lt_of_le_of_lt fewer short)
          refine (branches_track branch last middle expr _ cond left).post_mono ?_
          rintro accepted after _ ⟨rfl, more, tree, accepted⟩
          rw [data] at accepted
          exact ⟨grown.trans more, tree, by rw [parseQuestion, if_pos question, accepted]⟩
        · intro noQuestion
          refine (pushChildrenToBlock_ensures middle expr _).bind fun _ after _ steady =>
            .pure ⟨grown.trans steady.grown, cond, ?_⟩
          rw [parseQuestion, if_neg noQuestion, steady.remaining]
      · exact fun _ => .of_ne (by simp)
  | false =>
      obtain ⟨reply, steady⟩ := follows
      rw [reply]
      refine (popNode_ensures before.nNodes steady.nNodes).bind fun _ after _ popped =>
        .pure ⟨rfl, ?_⟩
      rw [popped]
      exact steady.popped

/-- Where a conditional expression declines, so does the operand of an assignment. -/
theorem assignment_tracks {fuel bound : Nat}
    (operand : TracksBelow bound (ccParseConditionalExpression fuel) (fun data => parseConditional data bound)) :
    TracksBelow bound (ccParseAssignmentExpression (fuel + 1)) (fun data => parseConditional data bound) := by
  intro before expr short
  rw [ccParseAssignmentExpression]
  refine (operand before expr short).bind fun accepted middle step follows => ?_
  cases accepted with
  | true => exact .pure follows
  | false =>
      obtain ⟨reply, steady⟩ := follows
      refine .bind_run (pushNode_run middle _) (.bind_run (pushNode_run _ _)
        (.bind_run (pushNode_run _ _) ?_))
      refine (unary_tracks _ _).bind fun accepted last _ follows => ?_
      simp only [push_remaining, push_data] at follows
      -- A conditional expression declines only where no operand starts.
      have declined : parsePrimary middle.data middle.remaining = .no := by
        refine parseConditional_declines bound _ _ (by rw [steady.remaining]; exact short) ?_
        rw [step.data, steady.remaining, reply]
      cases accepted with
      | true =>
          obtain ⟨_, tree, read⟩ := follows
          cases declined.symm.trans read
      | false =>
          have unchanged := follows.2
          -- The three pops undo the three pushes, the last one first.
          refine (popNode_ensures (middle.nNodes + 2) unchanged.nNodes).bind
            fun _ first _ popped => ?_
          have firstSteady : Steady _ first := popped ▸ unchanged.popped
          refine (popNode_ensures (middle.nNodes + 1) firstSteady.nNodes).bind
            fun _ second _ popped => ?_
          have secondSteady : Steady _ second := popped ▸ firstSteady.popped
          refine (popNode_ensures middle.nNodes secondSteady.nNodes).bind
            fun _ third _ popped => .pure ⟨reply, ?_⟩
          rw [popped]
          exact steady.trans secondSteady.popped

theorem expression_tracks {fuel bound : Nat}
    (operand : TracksBelow bound (ccParseAssignmentExpression fuel) (fun data => parseConditional data bound))
    (again : TracksBelow bound (ccParseExpression fuel · true) (fun data => parseConditional data bound))
    (lock : Bool) :
    TracksBelow bound (ccParseExpression (fuel + 1) · lock) (fun data => parseConditional data bound) := by
  -- A second attempt at a declined expression declines again.
  intro before expr short
  simp only [ccParseExpression]
  refine (operand before expr short).bind fun accepted middle step follows => ?_
  cases accepted with
  | true => exact .pure follows
  | false =>
      obtain ⟨reply, steady⟩ := follows
      cases lock with
      | true => exact .pure ⟨reply, steady⟩
      | false =>
          refine (again middle expr (by rw [steady.remaining]; exact short)).bind
            fun accepted last _ follows => ?_
          rw [step.data, steady.remaining] at follows
          cases accepted with
          | true => exact .halt (.of_ne (by simp))
          | false => exact .pure ⟨reply, steady.trans follows.2⟩

structure ExpressionsTrack (fuel : Nat) : Prop where
  conditional : ∀ bound, TracksBelow bound (ccParseConditionalExpression fuel)
    (fun data => parseConditional data bound)
  assignment : ∀ bound, TracksBelow bound (ccParseAssignmentExpression fuel)
    (fun data => parseConditional data bound)
  expression : ∀ lock bound, TracksBelow bound (ccParseExpression fuel · lock)
    (fun data => parseConditional data bound)

theorem expressions_track (fuel : Nat) : ExpressionsTrack fuel := by
  have outOfFuel {before : CcState} {post : Bool → CcState → Prop} :
      Ensures (halt .outOfFuel : ParseM Bool) post PopsInOrder before := .halt (.of_ne (by simp))
  induction fuel with
  | zero =>
      constructor
      · intro bound before expr _
        rw [ccParseConditionalExpression]
        exact outOfFuel
      · intro bound before expr _
        rw [ccParseAssignmentExpression]
        exact outOfFuel
      · intro lock bound before expr _
        simp only [ccParseExpression]
        exact outOfFuel
  | succ fuel ih =>
      constructor
      · intro bound
        cases bound with
        -- No state has fewer than no tokens left.
        | zero => exact fun before expr short => absurd short (Nat.not_lt_zero _)
        | succ bound => exact conditional_tracks (ih.expression false bound) (ih.conditional bound)
      · exact fun bound => assignment_tracks (ih.conditional bound)
      · exact fun lock bound => expression_tracks (ih.assignment bound) (ih.expression true bound) lock

/-- The expression parser, with whatever fuel and on whatever node, follows `parseExpression`. -/
theorem parseExpression_tracks (fuel : Nat) (lock : Bool) :
    Tracks (ccParseExpression fuel · lock) parseExpression := fun before expr =>
  (expressions_track fuel).expression lock _ before expr (Nat.lt_succ_self _)

end Estros
