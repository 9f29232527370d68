import Estros.Parser
import Estros.ExpressionSyntax

/-!
The expression functions of parser.c realise the recognisers of `ExpressionSyntax`: same
tokens read, a tree that strips to the recognised one hung below the given block, and on
failure a state as before. Everything is under the proviso that no node reference was
truncated, that is, that at most 65536 node slots were ever written.
-/

namespace Estros

open Machine

/-- The tokens from the read position on. -/
def CcState.remaining (state : CcState) : List CcToken := state.tokens.drop state.curTok

/-- Every node reference drawn so far fits its sixteen bits. -/
def CcState.refsFit (state : CcState) : Prop := state.nodes.length ≤ 65536

instance (state : CcState) : Decidable state.refsFit := Nat.decLe _ _

def Within (low high index : Nat) : Prop := low ≤ index ∧ index < high

/-- An empty block that nothing else was appended to. -/
structure Fresh (state : CcState) (expr : CcAstNodeRef) : Prop where
  empty : state.node expr = .block none
  inside : expr.toNat < state.nNodes

/-- The given block has become the only parent of a tree made of new nodes. -/
structure Holds (before after : CcState) (expr : CcAstNodeRef) (tree : Tree) : Prop where
  nNodes : before.nNodes ≤ after.nNodes
  others : ∀ index, index < before.nNodes → index ≠ expr.toNat →
    after.nodeAt index = before.nodeAt index
  block : ∃ index child, ∃ full : Tree, after.node expr = .block (some index) ∧
    after.childArrays[index]? = some [child] ∧
    full.Denotes after (Within before.nNodes after.nNodes) child ∧ full.strip = tree

structure MovedTo (before after : CcState) (rest : List CcToken) : Prop where
  remaining : after.remaining = rest
  position : after.curTok + rest.length = before.curTok + before.remaining.length

structure Restored (before after : CcState) : Prop where
  curTok : after.curTok = before.curTok
  nNodes : after.nNodes = before.nNodes
  nodes : ∀ index, index < before.nNodes → after.nodeAt index = before.nodeAt index

/-- A parser function called on the block `expr` ended as the reply says. -/
def Realises (before : CcState) (expr : CcAstNodeRef) (outcome : Outcome Halt CcState Bool) :
    Reply Tree → Prop
  | .yes tree rest =>
      ∃ after, outcome = .ok true after ∧ Holds before after expr tree ∧ MovedTo before after rest
  | .no => ∃ after, outcome = .ok false after ∧ Restored before after
  | .abort => ∃ after, outcome = .halt .abort after

def Refines (parse : CcAstNodeRef → ParseM Bool)
    (recognise : List UInt8 → List CcToken → Reply Tree) : Prop :=
  ∀ before expr, Fresh before expr → ((parse expr).run before).state.refsFit →
    Realises before expr ((parse expr).run before) (recognise before.data before.remaining)

theorem fits_before {α β : Type} (first : ParseM α) (next : α → ParseM β) (state : CcState)
    (fits : ((first >>= next).run state).state.refsFit) : (first.run state).state.refsFit :=
  Nat.le_trans (bind_keeps first next state).nodes fits

theorem fits_after {α β : Type} {first : ParseM α} {next : α → ParseM β} {state middle : CcState}
    {value : α} (fits : ((first >>= next).run state).state.refsFit)
    (ran : first.run state = .ok value middle) : ((next value).run middle).state.refsFit := by
  rwa [run_bind_ok ran] at fits

theorem fits_start {α : Type} (parse : ParseM α) (state : CcState)
    (fits : (parse.run state).state.refsFit) : state.refsFit :=
  Nat.le_trans (parse.keeps state).nodes fits

theorem fits_of_push {state : CcState} {node : CcAstNode} (fits : (state.push node).refsFit) :
    state.refsFit :=
  Nat.le_trans (push_step node state).nodes fits

theorem toNat_pushed (state : CcState) (node : CcAstNode) (fits : (state.push node).refsFit) :
    (refOf state.nNodes).toNat = state.nNodes := by
  apply toNat_refOf
  have written := (state.push node).nodesWritten
  have bound : (state.push node).nodes.length ≤ 65536 := fits
  simp only [push_nNodes] at written
  omega

theorem fresh_push (state : CcState) (fits : (state.push (.block none)).refsFit) :
    Fresh (state.push (.block none)) (refOf state.nNodes) := by
  have index := toNat_pushed state _ fits
  constructor
  · rw [node_eq_nodeAt, push_nodeAt, index, if_pos rfl]
  · rw [index]
    exact Nat.lt_succ_self _

theorem push_node_old (state : CcState) (node : CcAstNode) {ref : CcAstNodeRef}
    (old : ref.toNat < state.nNodes) : (state.push node).node ref = state.node ref := by
  rw [node_eq_nodeAt, push_nodeAt, if_neg (Nat.ne_of_lt old), node_eq_nodeAt]

theorem Fresh.push {state : CcState} {expr : CcAstNodeRef} (fresh : Fresh state expr)
    (node : CcAstNode) : Fresh (state.push node) expr :=
  ⟨(push_node_old state node fresh.inside).trans fresh.empty, Nat.lt_succ_of_lt fresh.inside⟩

theorem Fresh.advance {state : CcState} {expr : CcAstNodeRef} (fresh : Fresh state expr) :
    Fresh state.advance expr := ⟨fresh.empty, fresh.inside⟩

@[simp] theorem push_remaining (state : CcState) (node : CcAstNode) :
    (state.push node).remaining = state.remaining := rfl

@[simp] theorem pop_remaining (state : CcState) : state.pop.remaining = state.remaining := rfl

@[simp] theorem setNode_remaining (state : CcState) (ref : CcAstNodeRef) (node : CcAstNode) :
    (state.setNode ref node).remaining = state.remaining := rfl

@[simp] theorem appendChild_remaining (state : CcState) (ref : CcAstNodeRef) (childs : ChildArray)
    (child : CcAstNodeRef) (rebuild : ChildArray → CcAstNode) :
    (state.appendChild ref childs child rebuild).remaining = state.remaining := rfl

@[simp] theorem advance_remaining (state : CcState) :
    state.advance.remaining = state.remaining.tail := by
  simp [CcState.remaining, CcState.advance]

theorem peek_run (state : CcState) :
    (ccPeekToken 0).run state = .ok (state.tokens.getD state.curTok {}) state := rfl

theorem peek_token (state : CcState) :
    state.tokens.getD state.curTok ({} : CcToken) = state.remaining.headD {} := by
  rw [CcState.remaining, List.getD_eq_getElem?_getD, ← List.head?_drop, List.headD_eq_head?_getD]

theorem peek_type (state : CcState) :
    (state.tokens.getD state.curTok ({} : CcToken)).type = headType state.remaining := by
  rw [peek_token]
  cases state.remaining <;> rfl

theorem next_run (state : CcState) : ccNextToken.run state = .ok () state.advance := rfl

theorem Restored.refl (state : CcState) : Restored state state := ⟨rfl, rfl, fun _ _ => rfl⟩

theorem Restored.trans {first middle last : CcState} (left : Restored first middle)
    (right : Restored middle last) : Restored first last :=
  ⟨right.curTok.trans left.curTok, right.nNodes.trans left.nNodes,
    fun index below => (right.nodes index (left.nNodes ▸ below)).trans (left.nodes index below)⟩

theorem Restored.popped {state after : CcState} {node : CcAstNode}
    (restored : Restored (state.push node) after) : Restored state after.pop := by
  refine ⟨restored.curTok, by simp [restored.nNodes], fun index below => ?_⟩
  rw [pop_nodeAt, restored.nodes index (Nat.lt_succ_of_lt below), push_nodeAt,
    if_neg (Nat.ne_of_lt below)]

theorem Restored.fresh {before after : CcState} {expr : CcAstNodeRef}
    (restored : Restored before after) (fresh : Fresh before expr) : Fresh after expr :=
  ⟨(restored.nodes _ fresh.inside).trans fresh.empty, restored.nNodes ▸ fresh.inside⟩

theorem Restored.remaining {before after : CcState} (restored : Restored before after)
    (step : ParseStep before after) : after.remaining = before.remaining := by
  rw [CcState.remaining, CcState.remaining, step.tokens, restored.curTok]

theorem MovedTo.trans {first middle last : CcState} {rest left : List CcToken}
    (earlier : MovedTo first middle rest) (later : MovedTo middle last left) :
    MovedTo first last left :=
  ⟨later.remaining, by rw [later.position, earlier.remaining, earlier.position]⟩

theorem MovedTo.advance {before middle : CcState} {tok : CcToken} {rest : List CcToken}
    (moved : MovedTo before middle (tok :: rest)) : MovedTo before middle.advance rest := by
  refine ⟨by rw [advance_remaining, moved.remaining]; rfl, ?_⟩
  have position := moved.position
  simp only [List.length_cons, advance_curTok] at position ⊢
  omega

/-- The nodes a call on `expr` may write: the block itself and the new ones. -/
def Owned (before after : CcState) (expr : CcAstNodeRef) (index : Nat) : Prop :=
  index = expr.toNat ∨ Within before.nNodes after.nNodes index

theorem Within.wider {low high higher index : Nat} (within : Within low high index)
    (grown : high ≤ higher) : Within low higher index :=
  ⟨within.1, Nat.lt_of_lt_of_le within.2 grown⟩

theorem Owned.bounds {before after : CcState} {expr : CcAstNodeRef} {low index : Nat}
    (owned : Owned before after expr index) (new : low ≤ expr.toNat) (start : low ≤ before.nNodes)
    (inside : expr.toNat < after.nNodes) : Within low after.nNodes index := by
  rcases owned with rfl | within
  · exact ⟨new, inside⟩
  · exact ⟨Nat.le_trans start within.1, within.2⟩

theorem Holds.denotes {before after final : CcState} {expr : CcAstNodeRef} {tree : Tree}
    {larger : Nat → Prop} (holds : Holds before after expr tree)
    (same : SameInside (Owned before after expr) after final)
    (wider : ∀ index, Owned before after expr index → larger index) :
    ∃ full : Tree, (Tree.block [full]).Denotes final larger expr ∧ full.strip = tree := by
  -- The block denotes a one-child block over the tree it holds, and still does after writes to
  -- nodes it does not own.
  obtain ⟨index, child, full, node, array, denoted, stripped⟩ := holds.block
  have inOwned : full.Denotes after (Owned before after expr) child :=
    Tree.Denotes.frame (SameInside.refl _ after) (fun _ within => Or.inr within) full child denoted
  have whole : (Tree.block [full]).Denotes after (Owned before after expr) expr :=
    ⟨Or.inl rfl, some index, [child], node, array, child, [], rfl, inOwned, rfl⟩
  exact ⟨full, Tree.Denotes.frame same wider _ expr whole, stripped⟩

theorem step_of_run {α : Type} {parse : ParseM α} {before after : CcState} {value : α}
    (ran : parse.run before = .ok value after) : ParseStep before after := by
  have kept := parse.keeps before
  rwa [ran] at kept

theorem Realises.orElse {before : CcState} {expr : CcAstNodeRef} {parse other : ParseM Bool}
    {reply : Reply Tree} (parsed : Realises before expr (parse.run before) reply)
    (otherwise : ∀ middle, reply = .no → parse.run before = .ok false middle →
      Restored before middle → Realises before expr (other.run middle) .no) :
    Realises before expr ((do if ← parse then pure true else other : ParseM Bool).run before)
      reply := by
  cases reply with
  | yes tree rest =>
      obtain ⟨after, ran, realised⟩ := parsed
      rw [run_bind_ok ran]
      exact ⟨after, rfl, realised⟩
  | no =>
      obtain ⟨middle, ran, restored⟩ := parsed
      rw [run_bind_ok ran]
      exact otherwise middle rfl ran restored
  | abort =>
      obtain ⟨after, ran⟩ := parsed
      rw [run_bind_halt ran]
      exact ⟨after, rfl⟩

theorem Realises.aborts {before : CcState} {expr : CcAstNodeRef} {parse : ParseM Bool}
    {next : Bool → ParseM Bool} {reply : Reply Tree}
    (parsed : Realises before expr (parse.run before) reply) (stops : next false = halt .abort)
    (failed : ∀ tree rest, reply ≠ .yes tree rest) :
    ∃ after, (parse >>= next).run before = .halt .abort after := by
  cases reply with
  | yes tree rest => exact absurd rfl (failed tree rest)
  | no =>
      obtain ⟨after, ran, _⟩ := parsed
      rw [run_bind_ok ran, stops]
      exact ⟨after, rfl⟩
  | abort =>
      obtain ⟨after, ran⟩ := parsed
      rw [run_bind_halt ran]
      exact ⟨after, rfl⟩

/-! ### One binary-operator level -/

theorem Holds.ofAppend {before after : CcState} {expr child : CcAstNodeRef} {tree : Tree}
    (full : Tree) (fresh : Fresh before expr) (nNodes : before.nNodes ≤ after.nNodes)
    (kept : ∀ index, index < before.nNodes → after.nodeAt index = before.nodeAt index)
    (denoted : full.Denotes after (Within before.nNodes after.nNodes) child)
    (stripped : full.strip = tree) :
    Holds before (after.appendChild expr none child .block) expr tree := by
  have inside : expr.toNat < after.nNodes := Nat.lt_of_lt_of_le fresh.inside nNodes
  refine ⟨nNodes, fun index below other => ?_, after.childArrays.length, child, full, ?_, ?_, ?_,
    stripped⟩
  · rw [appendChild_nodeAt _ _ _ _ _ _ inside, if_neg other, kept index below]
  · rw [node_eq_nodeAt, appendChild_nodeAt _ _ _ _ _ _ inside, if_pos rfl]
  · simp [CcState.appendChild, CcState.childs]
  · refine Tree.Denotes.frame ⟨fun index within => ?_, ?_⟩ (fun _ within => within) full child denoted
    · have := fresh.inside
      have := within.1
      rw [appendChild_nodeAt _ _ _ _ _ _ inside, if_neg (by omega)]
    · exact List.prefix_append _ _

theorem Holds.kept {before after : CcState} {child : CcAstNodeRef} {tree : Tree}
    (held : Holds (before.push (.block none)) after child tree)
    (start : child.toNat = before.nNodes) {index : Nat} (old : index < before.nNodes) :
    after.nodeAt index = before.nodeAt index := by
  -- Parsing into a new block leaves the older nodes alone.
  rw [held.others index (Nat.lt_succ_of_lt old) (by omega), push_nodeAt,
    if_neg (Nat.ne_of_lt old)]

theorem operator_holds {op : CcAstBinop} {before state after : CcState}
    {expr lhsExpr rhsExpr opExpr : CcAstNodeRef} {lhs rhs : Tree}
    (fresh : Fresh before expr) (start : lhsExpr.toNat = before.nNodes)
    (held : Holds (before.push (.block none)) state lhsExpr lhs)
    (rhsIndex : rhsExpr.toNat = state.nNodes) (opIndex : opExpr.toNat = state.nNodes + 1)
    (rhsHeld : Holds ((state.push (.block none)).push (.binop op lhsExpr rhsExpr)).advance after
      rhsExpr rhs)
    (step : ParseStep ((state.push (.block none)).push (.binop op lhsExpr rhsExpr)).advance after) :
    after.node expr = .block none ∧ expr ≠ opExpr ∧
      Holds before (after.appendChild expr none opExpr .block) expr (.binop op lhs rhs) := by
  have below := fresh.inside
  have grown := held.nNodes
  have rhsGrown := rhsHeld.nNodes
  simp only [push_nNodes, advance_nNodes] at grown rhsGrown
  -- The right operand wrote to its own block and to new nodes only.
  have kept : ∀ index, index < state.nNodes → after.nodeAt index = state.nodeAt index := by
    intro index old
    rw [rhsHeld.others index (by simp; omega) (by omega)]
    simp only [advance_nodeAt, push_nodeAt, push_nNodes]
    rw [if_neg (by omega), if_neg (by omega)]
  have keptBefore : ∀ index, index < before.nNodes →
      after.nodeAt index = before.nodeAt index := by
    intro index old
    rw [kept index (by omega), held.kept start old]
  refine ⟨(keptBefore _ below).trans fresh.empty, ref_ne_of_toNat (by rw [opIndex]; omega), ?_⟩
  have lhsOwned : ∀ index, Owned (before.push (.block none)) state lhsExpr index →
      Within before.nNodes state.nNodes index := fun index owned =>
    owned.bounds (by omega) (Nat.le_succ _) (by omega)
  -- Both operand blocks still denote their trees in the last state.
  have lhsTree : ∃ full : Tree, (Tree.block [full]).Denotes after
      (Within before.nNodes after.nNodes) lhsExpr ∧ full.strip = lhs :=
    held.denotes ⟨fun index owned => kept index (lhsOwned index owned).2, step.arrays⟩
      (fun index owned => (lhsOwned index owned).wider (by omega))
  have rhsTree : ∃ full : Tree, (Tree.block [full]).Denotes after
      (Within before.nNodes after.nNodes) rhsExpr ∧ full.strip = rhs :=
    rhsHeld.denotes (SameInside.refl _ after) (fun index owned =>
      owned.bounds (by omega) (by simp; omega) (by omega))
  obtain ⟨lhsFull, lhsDenoted, lhsStripped⟩ := lhsTree
  obtain ⟨rhsFull, rhsDenoted, rhsStripped⟩ := rhsTree
  refine Holds.ofAppend (.binop op (.block [lhsFull]) (.block [rhsFull])) fresh
    (by omega) keptBefore ?_ (by simp [lhsStripped, rhsStripped])
  refine ⟨⟨by omega, by omega⟩, lhsExpr, rhsExpr, ?_, lhsDenoted, rhsDenoted⟩
  rw [node_eq_nodeAt, opIndex, rhsHeld.others _ (by simp) (by omega)]
  simp only [advance_nodeAt, push_nodeAt, push_nNodes, if_true]

theorem binopRhs_realises {next : CcAstNodeRef → Bool → ParseM Bool}
    {recognise : List UInt8 → List CcToken → Reply Tree} (op : CcAstBinop)
    (operand : Refines (fun ref => next ref false) recognise)
    {before state : CcState} {expr lhsExpr : CcAstNodeRef} {lhs : Tree}
    (fresh : Fresh before expr) (start : lhsExpr.toNat = before.nNodes)
    (held : Holds (before.push (.block none)) state lhsExpr lhs) (data : state.data = before.data)
    (fits : ((ccParseBinopRhs next op expr lhsExpr).run state).state.refsFit) :
    match recognise before.data state.remaining.tail with
    | .yes rhs rest => ∃ after,
        (ccParseBinopRhs next op expr lhsExpr).run state = .ok true after ∧
        Holds before after expr (.binop op lhs rhs) ∧ MovedTo state.advance after rest
    | _ => ∃ after, (ccParseBinopRhs next op expr lhsExpr).run state = .halt .abort after := by
  simp only [ccParseBinopRhs] at fits ⊢
  rw [run_bind_ok (pushNode_run state _), run_bind_ok (pushNode_run _ _),
    run_bind_ok (next_run _)] at fits ⊢
  set rhsExpr := refOf state.nNodes
  set withOp := (state.push (.block none)).push (.binop op lhsExpr rhsExpr)
  have fitsOperand := fits_before _ _ _ fits
  have fitsOp : withOp.advance.refsFit := fits_start _ _ fitsOperand
  have fitsRhs : (state.push (.block none)).refsFit := fits_of_push fitsOp
  have rhsIndex : rhsExpr.toNat = state.nNodes := toNat_pushed state _ fitsRhs
  have opIndex : (refOf (state.push (.block none)).nNodes).toNat = state.nNodes + 1 :=
    toNat_pushed _ _ fitsOp
  have rhsFresh : Fresh withOp.advance rhsExpr := ((fresh_push state fitsRhs).push _).advance
  have parsed := operand withOp.advance rhsExpr rhsFresh fitsOperand
  have sameTokens : withOp.advance.remaining = state.remaining.tail := by simp [withOp]
  have sameData : withOp.advance.data = before.data := data
  rw [sameTokens, sameData] at parsed
  cases reply : recognise before.data state.remaining.tail with
  | no | abort =>
      rw [reply] at parsed
      exact parsed.aborts rfl fun _ _ same => by cases same
  | yes rhs rest =>
      rw [reply] at parsed
      obtain ⟨after, ran, rhsHeld, moved⟩ := parsed
      rw [run_bind_ok ran]
      obtain ⟨empty, distinct, holds⟩ :=
        operator_holds fresh start held rhsIndex opIndex rhsHeld (step_of_run ran)
      simp only [if_true]
      rw [run_bind_ok (pushChildrenToBlock_run after expr _ none empty distinct), run_pure]
      exact ⟨_, rfl, holds, moved.remaining, moved.position⟩

theorem Holds.copied {before after : CcState} {expr child : CcAstNodeRef} {tree : Tree}
    (fresh : Fresh before expr) (start : child.toNat = before.nNodes)
    (held : Holds (before.push (.block none)) after child tree) :
    Holds before (after.setNode expr (after.node child)) expr tree := by
  obtain ⟨index, grand, full, node, array, denoted, stripped⟩ := held.block
  have below := fresh.inside
  have grown := held.nNodes
  simp only [push_nNodes] at grown
  have inside : expr.toNat < after.nNodes := by omega
  refine ⟨by simp; omega, fun other old distinct => ?_, index, grand, full, ?_, array, ?_, stripped⟩
  · rw [setNode_nodeAt _ _ _ _ inside, if_neg distinct, held.kept start old]
  · rw [node_eq_nodeAt, setNode_nodeAt _ _ _ _ inside, if_pos rfl, node]
  · have same : SameInside (Within (before.push (.block none)).nNodes after.nNodes) after
        (after.setNode expr (after.node child)) := by
      refine ⟨fun other within => ?_, List.prefix_refl _⟩
      have := within.1
      simp only [push_nNodes] at this
      rw [setNode_nodeAt _ _ _ _ inside, if_neg (by omega)]
    exact Tree.Denotes.frame same
      (fun other within => ⟨Nat.le_trans (Nat.le_succ _) within.1, within.2⟩) full grand denoted

theorem Holds.pushed {before after : CcState} {expr child : CcAstNodeRef} {tree : Tree}
    (fresh : Fresh before expr) (start : child.toNat = before.nNodes)
    (held : Holds (before.push (.block none)) after child tree) :
    Holds before (after.appendChild expr none child .block) expr tree := by
  have grown := held.nNodes
  simp only [push_nNodes] at grown
  have whole : ∃ full : Tree, (Tree.block [full]).Denotes after
      (Within before.nNodes after.nNodes) child ∧ full.strip = tree :=
    held.denotes (SameInside.refl _ after) (fun index owned =>
      owned.bounds (by omega) (Nat.le_succ _) (by omega))
  obtain ⟨full, denoted, stripped⟩ := whole
  exact Holds.ofAppend (.block [full]) fresh (by omega) (fun _ old => held.kept start old) denoted
    (by simp [stripped])

/-- The second attempt at a left operand fails and leaves no trace. -/
def Declines (retry : CcAstNodeRef → ParseM Bool)
    (recognise : List UInt8 → List CcToken → Reply Tree) : Prop :=
  ∀ before expr, Fresh before expr → ((retry expr).run before).state.refsFit →
    recognise before.data before.remaining = .no →
    ∃ after, (retry expr).run before = .ok false after ∧ Restored before after

theorem binopLevel_refines {next : CcAstNodeRef → Bool → ParseM Bool}
    {recognise : List UInt8 → List CcToken → Reply Tree} (op : CcAstBinop) {operator : CcTokenType}
    (valid : operator ≠ .invalid) (operand : Refines (fun ref => next ref false) recognise)
    {retry : CcAstNodeRef → ParseM Bool} (declines : Declines retry recognise) :
    Refines (ccParseBinopLevel next op operator retry)
      (fun data => parseBinop op operator (recognise data)) := by
  intro before expr fresh fits
  simp only [ccParseBinopLevel] at fits ⊢
  rw [run_bind_ok (pushNode_run before _)] at fits ⊢
  set lhsExpr := refOf before.nNodes
  have fitsOperand := fits_before _ _ _ fits
  have fitsPush : (before.push (.block none)).refsFit := fits_start _ _ fitsOperand
  have lhsIndex : lhsExpr.toNat = before.nNodes := toNat_pushed before _ fitsPush
  have lhsFresh := fresh_push before fitsPush
  have parsed := operand _ lhsExpr lhsFresh fitsOperand
  rw [push_remaining, push_data] at parsed
  simp only [parseBinop]
  cases reply : recognise before.data before.remaining with
  | abort =>
      rw [reply] at parsed
      obtain ⟨middle, ran⟩ := parsed
      rw [run_bind_halt ran]
      exact ⟨middle, rfl⟩
  | no =>
      rw [reply] at parsed
      obtain ⟨middle, ran, restored⟩ := parsed
      have step := step_of_run ran
      rw [run_bind_ok ran] at fits ⊢
      simp only [Bool.false_eq_true, if_false] at fits ⊢
      -- The second attempt starts from the tokens that the first one left, all of them.
      have still : recognise middle.data middle.remaining = .no := by
        rw [step.data, restored.remaining step]
        exact reply
      obtain ⟨last, again, unchanged⟩ :=
        declines middle lhsExpr (restored.fresh lhsFresh) (fits_before _ _ _ fits) still
      have both := restored.trans unchanged
      rw [run_bind_ok again]
      simp only [Bool.false_eq_true, if_false]
      rw [run_bind_ok (popNode_run last lhsExpr (by rw [lhsIndex, both.nNodes]; rfl)), run_pure]
      exact ⟨_, rfl, both.popped⟩
  | yes lhs rest =>
      rw [reply] at parsed
      obtain ⟨middle, ran, held, moved⟩ := parsed
      have step := step_of_run ran
      rw [run_bind_ok ran] at fits ⊢
      simp only [if_true] at fits ⊢
      rw [run_bind_ok (peek_run middle), peek_type, moved.remaining] at fits ⊢
      by_cases isOp : headType rest = operator
      · simp only [isOp, if_true] at fits ⊢
        have finished := binopRhs_realises op operand fresh lhsIndex held step.data fits
        rw [moved.remaining] at finished
        obtain ⟨tok, more, rfl, _⟩ := headType_split valid isOp
        cases right : recognise before.data more with
        | no =>
            simp only [List.tail_cons, right] at finished ⊢
            exact finished
        | abort =>
            simp only [List.tail_cons, right] at finished ⊢
            exact finished
        | yes rhs left =>
            simp only [List.tail_cons, right] at finished ⊢
            obtain ⟨after, done, holds, later⟩ := finished
            have start : MovedTo before middle (tok :: more) := ⟨moved.remaining, moved.position⟩
            exact ⟨after, done, holds, start.advance.trans later⟩
      -- No operator of this level: `expr` takes over the operand's block.
      · simp only [isOp, if_false] at fits ⊢
        have empty := (held.kept lhsIndex fresh.inside).trans fresh.empty
        rw [run_bind_ok (pushChildrenToBlockCoalesce_run middle expr lhsExpr empty), run_pure]
        exact ⟨_, rfl, held.copied fresh lhsIndex, moved.remaining, moved.position⟩

theorem binopDefine_refines {next : CcAstNodeRef → Bool → ParseM Bool}
    {recognise : List UInt8 → List CcToken → Reply Tree} (op : CcAstBinop) (operator : CcTokenType)
    (valid : operator ≠ .invalid) (operand : Refines (fun ref => next ref false) recognise) :
    Refines (fun ref => ccParseBinopDefine next op operator ref false)
      (fun data => parseBinop op operator (recognise data)) := by
  have never : Declines (fun _ => pure false) recognise := fun before _ _ _ _ =>
    ⟨before, rfl, Restored.refl before⟩
  have locked := binopLevel_refines op valid operand never
  -- The second attempt declines because the level declines where its operand does.
  refine binopLevel_refines op valid operand fun before expr fresh fits declined => ?_
  have again := locked before expr fresh (fits_before _ _ _ fits)
  simp only [parseBinop, declined] at again
  obtain ⟨after, ran, restored⟩ := again
  refine ⟨after, ?_, restored⟩
  rw [run_bind_ok ran]
  rfl

theorem leaf_realises {before : CcState} {expr : CcAstNodeRef} {tok : CcToken}
    {rest : List CcToken} (node : CcAstNode) (fresh : Fresh before expr) (kind : node.isLeaf = true)
    (remaining : before.remaining = tok :: rest) (fits : (before.push node).refsFit) :
    ∃ after, (do
        let primary ← ccAstPushNode node
        ccNextToken
        ccAstPushChildrenToBlock expr primary
        pure true : ParseM Bool).run before = .ok true after ∧
      Holds before after expr (.leaf node) ∧ MovedTo before after rest := by
  have index : (refOf before.nNodes).toNat = before.nNodes := toNat_pushed before _ fits
  have below := fresh.inside
  have kept : ∀ index, index < before.nNodes →
      (before.push node).advance.nodeAt index = before.nodeAt index := by
    intro index old
    rw [advance_nodeAt, push_nodeAt, if_neg (Nat.ne_of_lt old)]
  rw [run_bind_ok (pushNode_run before node), run_bind_ok (next_run _),
    run_bind_ok (pushChildrenToBlock_run _ expr _ none ((kept _ below).trans fresh.empty)
      (ref_ne_of_toNat (by omega))), run_pure]
  refine ⟨_, rfl, Holds.ofAppend (.leaf node) fresh (by simp) kept ⟨?_, ?_, kind⟩ (strip_leaf node), ?_⟩
  · rw [index]
    exact ⟨Nat.le_refl _, Nat.lt_succ_self _⟩
  · rw [node_eq_nodeAt, index, advance_nodeAt, push_nodeAt, if_pos rfl]
  · exact ⟨by simp [remaining], by simp [remaining]; omega⟩

theorem primary_refines : Refines ccParsePrimaryExpression parsePrimary := by
  intro before expr fresh fits
  simp only [ccParsePrimaryExpression] at fits ⊢
  rw [run_bind_ok (peek_run before), peek_token] at fits ⊢
  cases remaining : before.remaining with
  | nil => exact ⟨before, rfl, Restored.refl before⟩
  | cons tok rest =>
      simp only [remaining, List.headD_cons] at fits ⊢
      by_cases ident : tok.type = .ident
      · simp only [parsePrimary, ident, if_true] at fits ⊢
        rw [run_bind_ok (pushNode_run before _)] at fits
        exact leaf_realises _ fresh rfl remaining (fits_start _ _ fits)
      · by_cases literal : tok.type = .literal
        · simp only [parsePrimary, literal, if_true, if_false, reduceCtorEq] at fits ⊢
          rw [run_bind_ok (run_get before)] at fits ⊢
          rw [run_bind_ok (pushNode_run before _)] at fits
          exact leaf_realises _ fresh rfl remaining (fits_start _ _ fits)
        · simp only [parsePrimary, ident, literal, if_false]
          exact ⟨before, rfl, Restored.refl before⟩

/-- On a fresh block the coalescing wrapper of the postfix and unary levels does nothing. -/
theorem coalesced_refines {parse : CcAstNodeRef → ParseM Bool}
    {recognise : List UInt8 → List CcToken → Reply Tree} (operand : Refines parse recognise) :
    Refines (fun expr => do
      let inner ← ccAstPushBlockCoalesce expr
      if ← parse inner.ref then
        pure true
      else
        ccAstPopBlockCoalesce inner
        pure false) recognise := by
  intro before expr fresh fits
  have same : (ccAstPushBlockCoalesce expr).run before = .ok ⟨expr, false⟩ before := by
    simp [ccAstPushBlockCoalesce, run_bind, fresh.empty, CcState.childs]
  rw [run_bind_ok same] at fits ⊢
  refine (operand before expr fresh (fits_before _ _ _ fits)).orElse fun middle _ _ restored => ?_
  exact ⟨middle, rfl, restored⟩

theorem unary_refines : Refines ccParseUnaryExpression parsePrimary :=
  coalesced_refines (coalesced_refines primary_refines)

theorem logicalOr_refines : Refines (fun ref => ccParseLogcalOrExpression ref false) parseLogicalOr := by
  have cast : Refines (fun ref => ccParseCastExpression ref false) parsePrimary := unary_refines
  have mul := binopDefine_refines .mul .asterisk (by decide) cast
  have div := binopDefine_refines .div .div (by decide) mul
  have sub := binopDefine_refines .sub .sub (by decide) div
  have add := binopDefine_refines .add .add (by decide) sub
  have lshift := binopDefine_refines .lshift .lshift (by decide) add
  have rshift := binopDefine_refines .rshift .rshift (by decide) lshift
  have lte := binopDefine_refines .condLte .condLte (by decide) rshift
  have gte := binopDefine_refines .condGte .condGte (by decide) lte
  have lt := binopDefine_refines .condLt .condLt (by decide) gte
  have gt := binopDefine_refines .condGt .condGt (by decide) lt
  have neq := binopDefine_refines .condNeq .condNeq (by decide) gt
  have bitAnd := binopDefine_refines .bitAnd .ampersand (by decide) neq
  have bitXor := binopDefine_refines .bitXor .bitXor (by decide) bitAnd
  have bitOr := binopDefine_refines .bitOr .bitOr (by decide) bitXor
  have condAnd := binopDefine_refines .condAnd .condAnd (by decide) bitOr
  exact binopDefine_refines .condOr .condOr (by decide) condAnd

/-! ### Conditional expressions -/

/-- `Refines` on the states with fewer than `bound` tokens left. -/
def RefinesBelow (bound : Nat) (parse : CcAstNodeRef → ParseM Bool)
    (recognise : List UInt8 → List CcToken → Reply Tree) : Prop :=
  ∀ before expr, Fresh before expr → before.remaining.length < bound →
    ((parse expr).run before).state.refsFit →
    Realises before expr ((parse expr).run before) (recognise before.data before.remaining)

theorem MovedTo.length_le {before after : CcState} {rest : List CcToken}
    (moved : MovedTo before after rest) (step : ParseStep before after) :
    rest.length ≤ before.remaining.length := by
  have position := moved.position
  have forward := step.curTok
  omega

theorem Holds.node_old {before after : CcState} {expr : CcAstNodeRef} {tree : Tree}
    (held : Holds before after expr tree) {ref : CcAstNodeRef} (old : ref.toNat < before.nNodes)
    (other : ref.toNat ≠ expr.toNat) : after.node ref = before.node ref :=
  held.others _ old other

theorem branches_hold {before state middle after : CcState}
    {expr condExpr thenExpr elseExpr ifExpr : CcAstNodeRef} {cond thenTree elseTree : Tree}
    (fresh : Fresh before expr) (start : condExpr.toNat = before.nNodes)
    (held : Holds (before.push (.block none)) state condExpr cond)
    (thenIndex : thenExpr.toNat = state.nNodes) (elseIndex : elseExpr.toNat = state.nNodes + 1)
    (ifIndex : ifExpr.toNat = state.nNodes + 2)
    (thenHeld : Holds (((state.push (.block none)).push (.block none)).push
      (.ifExpr condExpr thenExpr elseExpr)).advance middle thenExpr thenTree)
    (elseHeld : Holds middle.advance after elseExpr elseTree)
    (thenStep : ParseStep (((state.push (.block none)).push (.block none)).push
      (.ifExpr condExpr thenExpr elseExpr)).advance middle)
    (elseStep : ParseStep middle.advance after) :
    after.node expr = .block none ∧ expr ≠ ifExpr ∧
      Holds before (after.appendChild expr none ifExpr .block) expr
        (.ifExpr cond thenTree elseTree) := by
  have below := fresh.inside
  have grown := held.nNodes
  have thenGrown := thenHeld.nNodes
  have elseGrown : middle.nNodes ≤ after.nNodes := elseHeld.nNodes
  simp only [push_nNodes, advance_nNodes] at grown thenGrown
  -- The branches wrote to their own blocks and to new nodes only.
  have keptMiddle : ∀ index, index < middle.nNodes → index ≠ elseExpr.toNat →
      after.nodeAt index = middle.nodeAt index := elseHeld.others
  have kept : ∀ index, index < state.nNodes → after.nodeAt index = state.nodeAt index := by
    intro index old
    rw [keptMiddle index (by omega) (by omega), thenHeld.others index (by simp; omega) (by omega)]
    simp only [advance_nodeAt, push_nodeAt, push_nNodes]
    rw [if_neg (by omega), if_neg (by omega), if_neg (by omega)]
  have keptBefore : ∀ index, index < before.nNodes →
      after.nodeAt index = before.nodeAt index := by
    intro index old
    rw [kept index (by omega), held.kept start old]
  refine ⟨(keptBefore _ below).trans fresh.empty, ref_ne_of_toNat (by rw [ifIndex]; omega), ?_⟩
  have condOwned : ∀ index, Owned (before.push (.block none)) state condExpr index →
      Within before.nNodes state.nNodes index := fun index owned =>
    owned.bounds (by omega) (Nat.le_succ _) (by omega)
  have thenOwned : ∀ index, Owned (((state.push (.block none)).push (.block none)).push
      (.ifExpr condExpr thenExpr elseExpr)).advance middle thenExpr index →
      Within before.nNodes middle.nNodes index ∧ index ≠ elseExpr.toNat := by
    intro index owned
    refine ⟨owned.bounds (by omega) (by simp; omega) (by omega), ?_⟩
    rcases owned with same | within
    · omega
    · have low := within.1
      simp only [push_nNodes, advance_nNodes] at low
      omega
  -- The three blocks still denote their trees in the last state.
  have condTree : ∃ full : Tree, (Tree.block [full]).Denotes after
      (Within before.nNodes after.nNodes) condExpr ∧ full.strip = cond :=
    held.denotes ⟨fun index owned => kept index (condOwned index owned).2,
        thenStep.arrays.trans elseStep.arrays⟩
      (fun index owned => (condOwned index owned).wider (by omega))
  have thenFull : ∃ full : Tree, (Tree.block [full]).Denotes after
      (Within before.nNodes after.nNodes) thenExpr ∧ full.strip = thenTree :=
    thenHeld.denotes ⟨fun index owned =>
        keptMiddle index (thenOwned index owned).1.2 (thenOwned index owned).2,
        elseStep.arrays⟩
      (fun index owned => (thenOwned index owned).1.wider elseGrown)
  have elseFull : ∃ full : Tree, (Tree.block [full]).Denotes after
      (Within before.nNodes after.nNodes) elseExpr ∧ full.strip = elseTree :=
    elseHeld.denotes (SameInside.refl _ after) (fun index owned =>
      owned.bounds (by omega) (by simp; omega) (by omega))
  obtain ⟨first, condDenoted, condStripped⟩ := condTree
  obtain ⟨second, thenDenoted, thenStripped⟩ := thenFull
  obtain ⟨third, elseDenoted, elseStripped⟩ := elseFull
  refine Holds.ofAppend (.ifExpr (.block [first]) (.block [second]) (.block [third])) fresh
    (by omega) keptBefore ?_ (by simp [condStripped, thenStripped, elseStripped])
  refine ⟨⟨by omega, by omega⟩, condExpr, thenExpr, elseExpr, ?_, condDenoted, thenDenoted,
    elseDenoted⟩
  rw [node_eq_nodeAt, ifIndex, keptMiddle _ (by omega) (by omega),
    thenHeld.others _ (by simp) (by omega)]
  simp [push_nodeAt]

theorem branches_realise {parseThen parseElse : CcAstNodeRef → ParseM Bool}
    {recognise : List UInt8 → List CcToken → Reply Tree} {bound : Nat}
    (first : RefinesBelow bound parseThen recognise)
    (second : RefinesBelow bound parseElse recognise)
    {before state : CcState} {expr condExpr : CcAstNodeRef} {cond : Tree}
    (fresh : Fresh before expr) (start : condExpr.toNat = before.nNodes)
    (held : Holds (before.push (.block none)) state condExpr cond) (data : state.data = before.data)
    (short : state.remaining.tail.length < bound)
    (fits : ((ccParseConditionalBranches parseThen parseElse expr condExpr).run state).state.refsFit) :
    match parseBranches (recognise before.data) cond state.remaining.tail with
    | .yes tree rest => ∃ after,
        (ccParseConditionalBranches parseThen parseElse expr condExpr).run state = .ok true after ∧
        Holds before after expr tree ∧ MovedTo state.advance after rest
    | _ => ∃ after,
        (ccParseConditionalBranches parseThen parseElse expr condExpr).run state =
          .halt .abort after := by
  simp only [ccParseConditionalBranches] at fits ⊢
  rw [run_bind_ok (pushNode_run state _), run_bind_ok (pushNode_run _ _),
    run_bind_ok (pushNode_run _ _), run_bind_ok (next_run _)] at fits ⊢
  set thenExpr := refOf state.nNodes
  set elseExpr := refOf (state.push (.block none)).nNodes
  set withElse := (state.push (.block none)).push (.block none)
  set withIf := withElse.push (.ifExpr condExpr thenExpr elseExpr)
  have fitsThen := fits_before _ _ _ fits
  have fitsIf : withIf.advance.refsFit := fits_start _ _ fitsThen
  have fitsElse : withElse.refsFit := fits_of_push fitsIf
  have fitsPush : (state.push (.block none)).refsFit := fits_of_push fitsElse
  have thenIndex : thenExpr.toNat = state.nNodes := toNat_pushed state _ fitsPush
  have elseIndex : elseExpr.toNat = state.nNodes + 1 := toNat_pushed _ _ fitsElse
  have ifIndex : (refOf withElse.nNodes).toNat = state.nNodes + 2 := toNat_pushed _ _ fitsIf
  have thenFresh : Fresh withIf.advance thenExpr :=
    (((fresh_push state fitsPush).push _).push _).advance
  have elseFresh : Fresh withIf.advance elseExpr := ((fresh_push _ fitsElse).push _).advance
  have sameTokens : withIf.advance.remaining = state.remaining.tail := by simp [withIf, withElse]
  have sameData : withIf.advance.data = before.data := data
  have parsed := first withIf.advance thenExpr thenFresh (sameTokens ▸ short) fitsThen
  rw [sameTokens, sameData] at parsed
  unfold parseBranches
  cases thenReply : recognise before.data state.remaining.tail with
  | no | abort =>
      rw [thenReply] at parsed
      exact parsed.aborts rfl fun _ _ same => by cases same
  | yes thenTree rest =>
      rw [thenReply] at parsed
      obtain ⟨middle, ran, thenHeld, moved⟩ := parsed
      have thenStep := step_of_run ran
      have thenGrown := thenHeld.nNodes
      rw [run_bind_ok ran] at fits ⊢
      simp only [if_true] at fits ⊢
      rw [run_bind_ok (peek_run middle), peek_type, moved.remaining] at fits ⊢
      by_cases isColon : headType rest = .colon
      swap
      · simp only [isColon, if_false]
        exact ⟨middle, rfl⟩
      simp only [isColon, if_true] at fits ⊢
      obtain ⟨colon, more, rfl, _⟩ := headType_split (by decide) isColon
      rw [run_bind_ok (next_run middle)] at fits ⊢
      have shorter : middle.advance.remaining.length < bound := by
        have := moved.length_le thenStep
        rw [sameTokens] at this
        rw [moved.advance.remaining]
        simp only [List.length_cons] at this
        omega
      have elseKept : Fresh middle.advance elseExpr :=
        ⟨(thenHeld.node_old elseFresh.inside (by omega)).trans elseFresh.empty,
          Nat.lt_of_lt_of_le elseFresh.inside thenGrown⟩
      have parsedElse := second middle.advance elseExpr elseKept shorter (fits_before _ _ _ fits)
      rw [moved.advance.remaining, show middle.advance.data = before.data from
        thenStep.data.trans sameData] at parsedElse
      simp only [List.tail_cons]
      cases elseReply : recognise before.data more with
      | no | abort =>
          rw [elseReply] at parsedElse
          exact parsedElse.aborts rfl fun _ _ same => by cases same
      | yes elseTree left =>
          rw [elseReply] at parsedElse
          obtain ⟨after, done, elseHeld, later⟩ := parsedElse
          obtain ⟨empty, distinct, holds⟩ := branches_hold fresh start held thenIndex elseIndex ifIndex
            thenHeld elseHeld thenStep (step_of_run done)
          rw [run_bind_ok done]
          simp only [if_true]
          rw [run_bind_ok (pushChildrenToBlock_run after expr _ none empty distinct), run_pure]
          exact ⟨_, rfl, holds, later.remaining, (moved.advance.trans later).position⟩

def DeclinesWith (bound : Nat) (recognise : List UInt8 → List CcToken → Reply Tree) : Prop :=
  ∀ data toks, toks.length < bound → recognise data toks = .no → parsePrimary data toks = .no

theorem assignment_refines {bound need : Nat} {recognise : List UInt8 → List CcToken → Reply Tree}
    (operand : ∀ fuel, need ≤ fuel → RefinesBelow bound (ccParseConditionalExpression fuel) recognise)
    (declines : DeclinesWith bound recognise) (fuel : Nat) (enough : need + 1 ≤ fuel) :
    RefinesBelow bound (ccParseAssignmentExpression fuel) recognise := by
  obtain ⟨fuel, rfl⟩ : ∃ smaller, fuel = smaller + 1 := ⟨fuel - 1, by omega⟩
  intro before expr fresh short fits
  simp only [ccParseAssignmentExpression] at fits ⊢
  refine (operand fuel (by omega) before expr fresh short (fits_before _ _ _ fits)).orElse
    fun middle declined ran restored => ?_
  have step := step_of_run ran
  rw [run_bind_ok ran] at fits
  simp only [Bool.false_eq_true, if_false] at fits
  rw [run_bind_ok (pushNode_run middle _), run_bind_ok (pushNode_run _ _),
    run_bind_ok (pushNode_run _ _)] at fits ⊢
  set lhsExpr := refOf middle.nNodes
  set withRhs := (middle.push (.block none)).push (.block none)
  set withAssign := withRhs.push (.binop .assign lhsExpr lhsExpr)
  have fitsUnary := fits_before _ _ _ fits
  have fitsAssign : withAssign.refsFit := fits_start _ _ fitsUnary
  have fitsRhs : withRhs.refsFit := fits_of_push fitsAssign
  have fitsLhs : (middle.push (.block none)).refsFit := fits_of_push fitsRhs
  have lhsIndex : lhsExpr.toNat = middle.nNodes := toNat_pushed middle _ fitsLhs
  have rhsIndex : (refOf (middle.push (.block none)).nNodes).toNat = middle.nNodes + 1 :=
    toNat_pushed _ _ fitsRhs
  have assignIndex : (refOf withRhs.nNodes).toNat = middle.nNodes + 2 := toNat_pushed _ _ fitsAssign
  have unary := unary_refines withAssign lhsExpr
    (((fresh_push middle fitsLhs).push _).push _) fitsUnary
  have noOperand : parsePrimary withAssign.data withAssign.remaining = .no := by
    refine declines _ _ ?_ ?_
    · simpa [withAssign, withRhs, restored.remaining step] using short
    · simpa [withAssign, withRhs, restored.remaining step, step.data] using declined
  rw [noOperand] at unary
  obtain ⟨last, done, unchanged⟩ := unary
  have nNodes : last.nNodes = middle.nNodes + 3 := unchanged.nNodes
  rw [run_bind_ok done]
  simp only [Bool.false_eq_true, if_false]
  rw [run_bind_ok (popNode_run last _ (by omega)),
    run_bind_ok (popNode_run last.pop _ (by rw [rhsIndex, pop_nNodes]; omega)),
    run_bind_ok (popNode_run last.pop.pop _ (by rw [lhsIndex, pop_nNodes, pop_nNodes]; omega)),
    run_pure]
  exact ⟨_, rfl, restored.trans unchanged.popped.popped.popped⟩

theorem expression_refines {bound need : Nat} {recognise : List UInt8 → List CcToken → Reply Tree}
    (operand : ∀ fuel, need ≤ fuel → RefinesBelow bound (ccParseConditionalExpression fuel) recognise)
    (declines : DeclinesWith bound recognise) (fuel : Nat) (enough : need + 3 ≤ fuel) (lock : Bool) :
    RefinesBelow bound (ccParseExpression fuel · lock) recognise := by
  -- A declined expression is tried once more with the lock set and declines again.
  obtain ⟨fuel, rfl⟩ : ∃ smaller, fuel = smaller + 2 := ⟨fuel - 2, by omega⟩
  intro before expr fresh short fits
  simp only [ccParseExpression] at fits ⊢
  refine (assignment_refines operand declines (fuel + 1) (by omega) before expr fresh short
    (fits_before _ _ _ fits)).orElse fun middle declined ran restored => ?_
  cases lock with
  | true => exact ⟨middle, rfl, restored⟩
  | false =>
      have step := step_of_run ran
      have same := restored.remaining step
      rw [run_bind_ok ran] at fits
      simp only [Bool.false_eq_true, if_false, if_true] at fits ⊢
      have again := assignment_refines operand declines fuel (by omega) middle expr
        (restored.fresh fresh) (same ▸ short) (fits_before _ _ _ (fits_before _ _ _ fits))
      rw [same, step.data, declined] at again
      obtain ⟨last, done, unchanged⟩ := again
      rw [run_bind, run_bind_ok done]
      exact ⟨last, rfl, restored.trans unchanged⟩

theorem parseConditional_declines (bound : Nat) :
    DeclinesWith bound (fun data => parseConditional data bound) := by
  intro data toks short declined
  have reads := parseConditional_reads data bound toks short
  simp only [] at declined
  rw [declined] at reads
  cases toks with
  | nil => rfl
  | cons tok rest =>
      simp only [Reads, startsOperand, Bool.or_eq_false_iff, decide_eq_false_iff_not] at reads
      simp [parsePrimary, reads.1, reads.2]

theorem conditional_refines (bound fuel : Nat) (enough : 4 * bound ≤ fuel) :
    RefinesBelow bound (ccParseConditionalExpression fuel)
      (fun data => parseConditional data bound) := by
  induction bound generalizing fuel with
  | zero => exact fun _ _ _ short => absurd short (Nat.not_lt_zero _)
  | succ bound ih =>
      obtain ⟨fuel, rfl⟩ : ∃ smaller, fuel = smaller + 1 := ⟨fuel - 1, by omega⟩
      have thenRefines := expression_refines ih (parseConditional_declines bound) fuel (by omega) false
      have elseRefines := ih fuel (by omega)
      intro before expr fresh short fits
      simp only [ccParseConditionalExpression] at fits ⊢
      rw [run_bind_ok (pushNode_run before _)] at fits ⊢
      set condExpr := refOf before.nNodes
      have fitsCond := fits_before _ _ _ fits
      have fitsPush : (before.push (.block none)).refsFit := fits_start _ _ fitsCond
      have condIndex : condExpr.toNat = before.nNodes := toNat_pushed before _ fitsPush
      have parsed := logicalOr_refines _ condExpr (fresh_push before fitsPush) fitsCond
      rw [push_remaining, push_data] at parsed
      rw [parseConditional]
      have logical := parseLogicalOr_reads before.data before.remaining
      cases reply : parseLogicalOr before.data before.remaining with
      | abort =>
          rw [reply] at parsed
          obtain ⟨middle, ran⟩ := parsed
          rw [run_bind_halt ran]
          exact ⟨middle, rfl⟩
      | no =>
          rw [reply] at parsed
          obtain ⟨middle, ran, restored⟩ := parsed
          rw [run_bind_ok ran]
          simp only [Bool.false_eq_true, if_false]
          rw [run_bind_ok (popNode_run middle condExpr (by rw [condIndex, restored.nNodes]; rfl)),
            run_pure]
          exact ⟨_, rfl, restored.popped⟩
      | yes cond rest =>
          rw [reply] at parsed logical
          obtain ⟨middle, ran, held, moved⟩ := parsed
          obtain ⟨_, used, nonempty, split, _⟩ := logical
          have step := step_of_run ran
          have distinct : condExpr ≠ expr :=
            ref_ne_of_toNat (condIndex ▸ Nat.ne_of_gt fresh.inside)
          rw [run_bind_ok ran]
          replace fits := fits_after fits ran
          simp only [if_true] at fits ⊢
          rw [run_bind_ok (peek_run middle), run_bind_ok (run_check_true (decide_eq_true distinct) _ _),
            peek_type, moved.remaining] at fits ⊢
          by_cases question : headType rest = .qmark
          · simp only [parseQuestion, question, if_true] at fits ⊢
            obtain ⟨tok, more, rfl, _⟩ := headType_split (by decide) question
            have fewer : middle.remaining.tail.length < bound := by
              have total := congrArg List.length split
              simp only [List.length_append, List.length_cons] at total
              rw [moved.remaining, List.tail_cons]
              omega
            have finished := branches_realise thenRefines elseRefines fresh condIndex held step.data
              fewer fits
            rw [moved.remaining] at finished
            cases branches : parseBranches (parseConditional before.data bound) cond more with
            | no => exact absurd branches (parseBranches_ne_no _ _ _)
            | abort =>
                simp only [List.tail_cons, branches] at finished ⊢
                exact finished
            | yes tree left =>
                simp only [List.tail_cons, branches] at finished ⊢
                obtain ⟨after, done, holds, later⟩ := finished
                have start : MovedTo before middle (tok :: more) := ⟨moved.remaining, moved.position⟩
                exact ⟨after, done, holds, start.advance.trans later⟩
          · simp only [parseQuestion, question, if_false] at fits ⊢
            have empty := (held.kept condIndex fresh.inside).trans fresh.empty
            rw [run_bind_ok (pushChildrenToBlock_run middle expr condExpr none empty distinct.symm),
              run_pure]
            exact ⟨_, rfl, held.pushed fresh condIndex, moved.remaining, moved.position⟩

/-- With fuel for every token left, the expression parser realises `parseExpression`. -/
theorem expression_realises {before : CcState} {expr : CcAstNodeRef} {fuel : Nat} (lock : Bool)
    (fresh : Fresh before expr) (enough : 4 * before.remaining.length + 7 ≤ fuel)
    (fits : ((ccParseExpression fuel expr lock).run before).state.refsFit) :
    Realises before expr ((ccParseExpression fuel expr lock).run before)
      (parseExpression before.data before.remaining) :=
  expression_refines (conditional_refines (before.remaining.length + 1))
    (parseConditional_declines _) fuel (by omega) lock before expr fresh (Nat.lt_succ_self _) fits

/-- What a call of the expression parser on the block `expr` may leave behind. -/
def ExpressionOutcome (before : CcState) (expr : CcAstNodeRef) : Outcome Halt CcState Bool → Prop
  | .ok true after =>
      startsOperand before.remaining = true ∧ ∃ consumed, consumed ≠ [] ∧
        before.remaining = consumed ++ after.remaining ∧
        after.curTok = before.curTok + consumed.length ∧
        ∃ index child, ∃ tree : Tree, after.node expr = .block (some index) ∧
          after.childArrays[index]? = some [child] ∧
          tree.Denotes after (Within before.nNodes after.nNodes) child ∧
          tree.inOrder = consumed.map (lexeme before.data)
  | .ok false after =>
      startsOperand before.remaining = false ∧ after.curTok = before.curTok ∧
        after.nNodes = before.nNodes ∧ after.node expr = .block none
  | .halt .abort _ => startsOperand before.remaining = true
  | .halt _ _ => False

/-- On an empty block, such as a freshly pushed one, the expression parser aborts, reads
tokens and hangs a tree that spells them below the block, or leaves everything as it was. -/
theorem expression_outcome (before : CcState) (expr : CcAstNodeRef) (fuel : Nat) (lock : Bool)
    (fresh : Fresh before expr) (enough : 4 * before.remaining.length + 7 ≤ fuel)
    (fits : ((ccParseExpression fuel expr lock).run before).state.refsFit) :
    ExpressionOutcome before expr ((ccParseExpression fuel expr lock).run before) := by
  have realised := expression_realises lock fresh enough fits
  have reads := parseExpression_reads before.data before.remaining
  cases reply : parseExpression before.data before.remaining with
  | yes tree rest =>
      rw [reply] at realised reads
      obtain ⟨after, ran, held, moved⟩ := realised
      obtain ⟨starts, consumed, nonempty, split, spelled⟩ := reads
      obtain ⟨index, child, full, node, array, denoted, stripped⟩ := held.block
      rw [ran]
      refine ⟨starts, consumed, nonempty, by rw [moved.remaining, split], ?_,
        index, child, full, node, array, denoted, by rw [← inOrder_strip, stripped, spelled]⟩
      have position := moved.position
      have total := congrArg List.length split
      simp only [List.length_append] at total
      omega
  | no =>
      rw [reply] at realised reads
      obtain ⟨after, ran, restored⟩ := realised
      rw [ran]
      exact ⟨reads, restored.curTok, restored.nNodes, (restored.fresh fresh).empty⟩
  | abort =>
      rw [reply] at realised reads
      obtain ⟨after, ran⟩ := realised
      rw [ran]
      exact reads

def sumState : CcState :=
  (CcState.start [97, 43, 98, 59]
    [⟨⟨0, 1⟩, .ident⟩, ⟨⟨1, 1⟩, .add⟩, ⟨⟨2, 1⟩, .ident⟩, ⟨⟨3, 1⟩, .semi⟩]).push (.block none)

theorem expression_outcome_sum :
    ExpressionOutcome sumState 0 ((ccParseExpression 23 0 false).run sumState) := by
  have fresh : Fresh sumState 0 := ⟨rfl, by decide⟩
  have enough : 4 * sumState.remaining.length + 7 ≤ 23 := by decide
  have fits : ((ccParseExpression 23 0 false).run sumState).state.refsFit := by decide +kernel
  exact expression_outcome sumState 0 23 false fresh enough fits

end Estros
