import Estros.ExpressionRoom

/-!
The expression parser against C's grammar. C puts `*` and `/` on one left-recursive
level, `+` and `-` on the next, `<<` and `>>` on the next; the parser gives every operator
a level of its own, and lets each level take one operator at most.
-/

namespace Estros

open Machine

/-- C's precedence classes for the operators considered here, the tightest first. -/
def CcAstBinop.precedence : CcAstBinop → Option Nat
  | .mul | .div => some 1
  | .add | .sub => some 2
  | .lshift | .rshift => some 3
  | .bitAnd => some 4
  | .bitXor => some 5
  | .bitOr => some 6
  | _ => none

/-- C's grammar of parenthesis-free expressions: class `n + 1` is left-recursive over
class `n`. The relational and equality classes in between add nothing here. -/
inductive CDerives : Nat → List CcToken → Tree → Prop where
  | operand (tok : CcToken) (ident : tok.type = .ident) :
      CDerives 0 [tok] (.leaf (.refVar tok.data))
  | tighter {level : Nat} {toks : List CcToken} {tree : Tree} (derived : CDerives level toks tree) :
      CDerives (level + 1) toks tree
  | chain {level : Nat} {left right : List CcToken} {lhs rhs : Tree} (op : CcAstBinop)
      (tok : CcToken) (belongs : op.precedence = some (level + 1)) (spelled : tok.type = op.token)
      (first : CDerives (level + 1) left lhs) (second : CDerives level right rhs) :
      CDerives (level + 1) (left ++ tok :: right) (.binop op lhs rhs)

def CExpression (toks : List CcToken) (tree : Tree) : Prop := CDerives 6 toks tree

/-- The parser level of an operator: `*`, `/`, `-`, `+`, `<<`, `>>`, then the comparisons,
`&`, `^`, `|` and the logical operators. -/
def CcAstBinop.rank (op : CcAstBinop) : Nat :=
  binopLevels.findIdx fun level => level.1 = op

def Tree.RootBelow (bound : Nat) : Tree → Prop
  | .binop op _ _ => op.rank < bound
  | _ => True

/-- Every left operand is of a tighter parser level than its operator. -/
def Tree.Aligned : Tree → Prop
  | .binop op lhs rhs => lhs.RootBelow op.rank ∧ lhs.Aligned ∧ rhs.Aligned
  | _ => True

/-- The trees that the levels below `bound` can build. -/
def Tree.FitsBelow : Nat → Tree → Prop
  | _, .leaf _ => True
  | bound, .binop op lhs rhs =>
      op.rank < bound ∧ lhs.FitsBelow op.rank ∧ rhs.FitsBelow op.rank
  | _, _ => False

def Tree.Spells : Tree → List CcToken → Prop
  | .leaf node, toks => ∃ tok, toks = [tok] ∧ tok.type = .ident ∧ node = .refVar tok.data
  | .binop op lhs rhs, toks =>
      ∃ left tok right, toks = left ++ tok :: right ∧ tok.type = op.token ∧
        lhs.Spells left ∧ rhs.Spells right
  | _, _ => False

theorem CDerives.spells {level : Nat} {toks : List CcToken} {tree : Tree}
    (derived : CDerives level toks tree) : tree.Spells toks := by
  induction derived with
  | operand tok ident => exact ⟨tok, rfl, ident, rfl⟩
  | tighter _ ih => exact ih
  | chain op tok _ spelled _ _ first second => exact ⟨_, tok, _, rfl, spelled, first, second⟩

theorem rank_lt_of_precedence {tight loose : CcAstBinop} {low high : Nat}
    (first : tight.precedence = some low) (second : loose.precedence = some high)
    (below : low < high) : tight.rank < loose.rank := by
  revert first second
  cases tight <;> cases loose <;> simp [CcAstBinop.precedence] <;> intros <;> subst_vars <;>
    first | omega | decide

theorem CDerives.root {level : Nat} {toks : List CcToken} {tree : Tree}
    (derived : CDerives level toks tree) :
    ∀ op lhs rhs, tree = .binop op lhs rhs → ∃ class', op.precedence = some class' ∧ class' ≤ level := by
  induction derived with
  | operand tok ident => exact fun _ _ _ impossible => nomatch impossible
  | tighter _ ih =>
      intro op lhs rhs same
      obtain ⟨found, belongs, bound⟩ := ih op lhs rhs same
      exact ⟨found, belongs, Nat.le_succ_of_le bound⟩
  | @chain level _ _ _ _ op _ belongs _ _ _ _ _ =>
      intro other lhs rhs same
      cases same
      exact ⟨level + 1, belongs, Nat.le_refl _⟩

theorem Tree.FitsBelow.root {bound : Nat} {tree : Tree} (fits : tree.FitsBelow bound) :
    tree.RootBelow bound := by
  cases tree with
  | binop op lhs rhs => exact fits.1
  | _ => trivial

theorem Tree.FitsBelow.mono {bound larger : Nat} (le : bound ≤ larger) {tree : Tree}
    (fits : tree.FitsBelow bound) : tree.FitsBelow larger := by
  cases tree with
  | binop op lhs rhs => exact ⟨Nat.lt_of_lt_of_le fits.1 le, fits.2⟩
  | leaf node => trivial
  | _ => exact fits.elim

theorem Tree.FitsBelow.aligned : ∀ {tree : Tree} {bound : Nat}, tree.FitsBelow bound → tree.Aligned
  | .binop _ _ _, _, ⟨_, first, second⟩ => ⟨first.root, first.aligned, second.aligned⟩
  | .leaf _, _, _ => trivial
  | .block _, _, _ => trivial
  | .newVar _ _ _ _, _, _ => trivial
  | .newType _ _ _, _, _ => trivial
  | .ifExpr _ _ _, _, _ => trivial
  | .ret _, _, _ => trivial

/-- In a C tree the right operands are of tighter classes already, so aligned left operands
suffice. -/
theorem CDerives.fitsBelow {level bound : Nat} {toks : List CcToken} {tree : Tree}
    (derived : CDerives level toks tree) (aligned : tree.Aligned) (root : tree.RootBelow bound) :
    tree.FitsBelow bound := by
  induction derived generalizing bound with
  | operand tok ident => trivial
  | tighter _ ih => exact ih aligned root
  | @chain level _ _ lhs rhs op _ belongs _ _ second first ih =>
      refine ⟨root, first aligned.2.1 aligned.1, ih aligned.2.2 ?_⟩
      -- A right operand is of a tighter class already in C's grammar.
      cases tree : rhs with
      | binop inner _ _ =>
          obtain ⟨found, innerBelongs, bound⟩ := second.root inner _ _ tree
          exact rank_lt_of_precedence innerBelongs belongs (Nat.lt_succ_of_le bound)
      | _ => trivial

theorem rank_inside {op : CcAstBinop} {class' : Nat} (belongs : op.precedence = some class') :
    op.rank < binopLevels.length := by
  cases op <;> first | decide | simp [CcAstBinop.precedence] at belongs

theorem spellsOperator_of_precedence {op : CcAstBinop} {class' : Nat}
    (belongs : op.precedence = some class') : spellsOperator op.token = true := by
  cases op <;> first | rfl | cases belongs

theorem CDerives.ahead {level : Nat} {toks rest : List CcToken} {tree : Tree}
    (derived : CDerives level toks tree) (after : AfterOperand rest) : OperandAhead (toks ++ rest) := by
  induction derived generalizing rest with
  | operand tok ident => exact ⟨ident, after⟩
  | tighter _ ih => exact ih after
  | chain op tok belongs spelled _ _ first second =>
      have right := second after
      rw [List.append_assoc]
      refine first (.operator ?_ right.ident right.next)
      change spellsOperator tok.type = true
      rw [spelled]
      exact spellsOperator_of_precedence belongs

theorem parseLevels_succ (data : List UInt8) {bound : Nat} {level : CcAstBinop × CcTokenType}
    (member : binopLevels[bound]? = some level) :
    parseLevels (binopLevels.take (bound + 1)) data =
      parseBinop level.1 level.2 (parseLevels (binopLevels.take bound) data) := by
  rw [List.take_add_one, member, parseLevels, List.foldl_append]
  rfl

theorem rank_of_index :
    ∀ index : Fin binopLevels.length, (binopLevels[index]).1.rank = index := by
  decide

theorem rank_of_level {bound : Nat} {level : CcAstBinop × CcTokenType}
    (member : binopLevels[bound]? = some level) : level.1.rank = bound := by
  obtain ⟨inside, rfl⟩ := List.getElem?_eq_some_iff.mp member
  exact rank_of_index ⟨bound, inside⟩

theorem parseLevels_fits {data : List UInt8} {bound : Nat} {toks rest : List CcToken} {tree : Tree}
    (accepted : parseLevels (binopLevels.take bound) data toks = .yes tree rest) :
    tree.FitsBelow bound := by
  induction bound generalizing toks rest tree with
  | zero =>
      simp only [List.take_zero, parseLevels, List.foldl_nil] at accepted
      cases toks with
      | nil => simp [parsePrimary] at accepted
      | cons tok more =>
          by_cases ident : tok.type = .ident
          · simp only [parsePrimary, ident, if_true] at accepted
            cases accepted
            trivial
          · by_cases literal : tok.type = .literal
            · simp only [parsePrimary, literal, if_true, reduceCtorEq, if_false] at accepted
              cases accepted
              trivial
            · simp [parsePrimary, ident, literal] at accepted
  | succ bound ih =>
      cases member : binopLevels[bound]? with
      | none =>
          have outside := List.getElem?_eq_none_iff.mp member
          rw [List.take_of_length_le (by omega), ← List.take_of_length_le outside] at accepted
          exact (ih accepted).mono (Nat.le_succ _)
      | some level =>
          rw [parseLevels_succ data member, parseBinop] at accepted
          have rank := rank_of_level member
          cases left : parseLevels (binopLevels.take bound) data toks with
          | no => simp [left] at accepted
          | abort => simp [left] at accepted
          | yes lhs more =>
              simp only [left] at accepted
              by_cases isOp : headType more = level.2
              · rw [if_pos isOp] at accepted
                cases right : parseLevels (binopLevels.take bound) data more.tail with
                | no => simp [right] at accepted
                | abort => simp [right] at accepted
                | yes rhs tail =>
                    simp only [right] at accepted
                    cases accepted
                    exact ⟨rank ▸ Nat.lt_succ_self _, rank ▸ ih left, rank ▸ ih right⟩
              · rw [if_neg isOp] at accepted
                cases accepted
                exact (ih left).mono (Nat.le_succ _)

def StopsBelow (bound : Nat) (toks : List CcToken) : Prop :=
  ∀ level ∈ binopLevels.take bound, headType toks ≠ level.2

theorem StopsBelow.mono {bound smaller : Nat} {toks : List CcToken} (stops : StopsBelow bound toks)
    (le : smaller ≤ bound) : StopsBelow smaller toks := fun level member =>
  stops level (List.take_subset_take_left _ le member)

theorem token_of_index :
    ∀ index : Fin binopLevels.length, (binopLevels[index]).2 = (binopLevels[index]).1.token ∧
      ∀ level ∈ binopLevels.take index, (binopLevels[index]).2 ≠ level.2 := by
  decide

theorem level_of_rank {op : CcAstBinop} (inside : op.rank < binopLevels.length) :
    (binopLevels[op.rank]).1 = op := by
  exact of_decide_eq_true (List.findIdx_getElem (w := inside))

theorem parseLevels_spelled {data : List UInt8} {bound : Nat} (known : bound ≤ binopLevels.length)
    {toks rest : List CcToken} {tree : Tree} (fits : tree.FitsBelow bound)
    (spelled : tree.Spells toks) (stops : StopsBelow bound rest) :
    parseLevels (binopLevels.take bound) data (toks ++ rest) = .yes tree rest := by
  induction bound generalizing toks rest tree with
  | zero =>
      cases tree with
      | leaf node =>
          obtain ⟨tok, rfl, ident, rfl⟩ := spelled
          simp [parseLevels, parsePrimary, ident]
      | binop op lhs rhs => exact absurd fits.1 (Nat.not_lt_zero _)
      | _ => exact fits.elim
  | succ bound ih =>
      have inside : bound < binopLevels.length := known
      replace ih := @ih (Nat.le_of_lt inside)
      have member : binopLevels[bound]? = some binopLevels[bound] := List.getElem?_eq_getElem inside
      have token := token_of_index ⟨bound, inside⟩
      have smaller := stops.mono (Nat.le_succ bound)
      rw [parseLevels_succ data member, parseBinop]
      -- Either this level has no operator to read, or its operator is the outermost one.
      by_cases below : tree.FitsBelow bound
      · have other : headType rest ≠ (binopLevels[bound]).2 :=
          stops _ (by
            rw [List.take_succ_eq_append_getElem inside]
            exact List.mem_append_right _ (List.mem_singleton_self _))
        rw [ih below spelled smaller]
        simp [other]
      · cases tree with
        | binop op lhs rhs =>
            obtain ⟨left, tok, right, rfl, kind, first, second⟩ := spelled
            have rank : op.rank = bound := by
              have upper := fits.1
              have lower : ¬ op.rank < bound := fun less => below ⟨less, fits.2⟩
              omega
            subst rank
            have operator := level_of_rank inside
            have head : headType (tok :: (right ++ rest)) = (binopLevels[op.rank]).2 := by
              rw [← operator] at kind
              exact kind.trans token.1.symm
            have firstStops : StopsBelow op.rank (tok :: (right ++ rest)) := fun level before => by
              rw [head]
              exact token.2 level before
            rw [List.append_assoc, List.cons_append, ih fits.2.1 first firstStops]
            simp only [head, if_true, List.tail_cons]
            rw [ih fits.2.2 second smaller, operator]
        | leaf node => exact absurd trivial below
        | _ => exact fits.elim

/-! ### Reading C expressions -/

theorem parseBranches_yes {next : List CcToken → Reply Tree} {cond tree : Tree}
    {toks rest : List CcToken} (accepted : parseBranches next cond toks = .yes tree rest) :
    ∃ thenTree elseTree, tree = .ifExpr cond thenTree elseTree := by
  unfold parseBranches at accepted
  repeat' split at accepted
  all_goals first | (cases accepted; done) | (cases accepted; exact ⟨_, _, rfl⟩)

/-- A C expression in front of a semicolon is read as its tree exactly if that is aligned. -/
theorem parseExpression_derived_iff {data : List UInt8} {toks rest : List CcToken} {semi : CcToken}
    {tree : Tree} (derived : CExpression toks tree) (isSemi : semi.type = .semi) :
    parseExpression data (toks ++ semi :: rest) = .yes tree (semi :: rest) ↔ tree.Aligned := by
  have spelled := CDerives.spells derived
  have levels : binopLevels.take binopLevels.length = binopLevels := List.take_length
  rw [parseExpression, parseConditional]
  constructor
  · intro accepted
    cases reply : parseLogicalOr data (toks ++ semi :: rest) with
    | no => simp [reply, parseQuestion] at accepted
    | abort => simp [reply, parseQuestion] at accepted
    | yes cond left =>
        rw [reply, parseQuestion] at accepted
        by_cases question : headType left = .qmark
        · rw [if_pos question] at accepted
          obtain ⟨_, _, rfl⟩ := parseBranches_yes accepted
          exact spelled.elim
        · rw [if_neg question] at accepted
          cases accepted
          rw [parseLogicalOr, ← levels] at reply
          exact (parseLevels_fits reply).aligned
  · intro aligned
    have root : tree.RootBelow binopLevels.length := by
      cases same : tree with
      | binop op lhs rhs =>
          obtain ⟨found, belongs, _⟩ := CDerives.root derived op lhs rhs same
          exact rank_inside belongs
      | _ => trivial
    have stops : StopsBelow binopLevels.length (semi :: rest) := by
      have none : ∀ level ∈ binopLevels, CcTokenType.semi ≠ level.2 := by decide
      intro level member
      rw [headType, isSemi]
      exact none level (List.mem_of_mem_take member)
    have read : parseLevels (binopLevels.take binopLevels.length) data (toks ++ semi :: rest) =
        .yes tree (semi :: rest) :=
      parseLevels_spelled (Nat.le_refl _) (CDerives.fitsBelow derived aligned root) spelled stops
    rw [levels] at read
    rw [parseLogicalOr, read, parseQuestion]
    simp [headType, isSemi]

/-- The call ended well, every token of `toks` was read and no other, and the tree below the
block groups as `tree` does. -/
def Builds (before : CcState) (expr : CcAstNodeRef) (toks : List CcToken) (tree : Tree)
    (outcome : Outcome Halt CcState Bool) : Prop :=
  ∃ after, outcome = .ok true after ∧ after.curTok = before.curTok + toks.length ∧
    ∃ index child, ∃ full : Tree, after.node expr = .block (some index) ∧
      after.childArrays[index]? = some [child] ∧
      full.Denotes after (Within before.nNodes after.nNodes) child ∧ full.strip = tree

theorem Realises.builds_iff {before : CcState} {expr : CcAstNodeRef} {toks rest : List CcToken}
    {tree : Tree} {outcome : Outcome Halt CcState Bool} {reply : Reply Tree}
    (realised : Realises before expr outcome reply) (reads : Reads before.data before.remaining reply)
    (remaining : before.remaining = toks ++ rest) :
    Builds before expr toks tree outcome ↔ reply = .yes tree rest := by
  cases reply with
  | no =>
      obtain ⟨after, ran, _⟩ := realised
      exact ⟨fun ⟨_, done, _⟩ => (nomatch ran.symm.trans done), fun impossible => (nomatch impossible)⟩
  | abort =>
      obtain ⟨after, ran⟩ := realised
      exact ⟨fun ⟨_, done, _⟩ => (nomatch ran.symm.trans done), fun impossible => (nomatch impossible)⟩
  | yes found left =>
      obtain ⟨after, ran, held, moved⟩ := realised
      obtain ⟨index, child, full, node, array, denoted, stripped⟩ := held.block
      have position := moved.position
      simp only [remaining, List.length_append] at position
      constructor
      · rintro ⟨_, done, curTok, _, _, other, node', array', denoted', stripped'⟩
        cases ran.symm.trans done
        cases node.symm.trans node'
        cases array.symm.trans array'
        have same := Tree.Denotes.unique full other child denoted denoted'
        obtain ⟨_, used, _, split, _⟩ := reads
        have tail : left = rest :=
          (List.append_inj' (split.symm.trans remaining) (by omega)).2
        rw [← stripped, same, stripped', tail]
      · intro same
        cases same
        exact ⟨after, ran, by omega, index, child, full, node, array, denoted, stripped⟩

/-- The expression parser builds C's tree of a C expression in front of a semicolon exactly
if every left operand in it is of a tighter parser level than its operator. The node array
has room for what one call can write, however long the expression is. -/
theorem expression_groups_iff (before : CcState) (expr : CcAstNodeRef) (fuel : Nat)
    (toks rest : List CcToken) (semi : CcToken) (tree : Tree) (fresh : Fresh before expr)
    (remaining : before.remaining = toks ++ semi :: rest) (isSemi : semi.type = .semi)
    (derived : CExpression toks tree) (enough : 4 * before.remaining.length + 7 ≤ fuel)
    (room : before.nodes.length + 3112 ≤ 65536) :
    Builds before expr toks tree ((ccParseExpression fuel expr false).run before) ↔
      tree.Aligned := by
  have ahead : OperandAhead before.remaining := by
    rw [remaining]
    exact CDerives.ahead derived (.semi isSemi)
  have fits := expression_refsFit fuel expr false ahead room
  have realised := expression_realises false fresh enough fits
  have reads := parseExpression_reads before.data before.remaining
  rw [realised.builds_iff reads remaining, remaining]
  exact parseExpression_derived_iff derived isSemi

def differenceToks : List CcToken :=
  [⟨⟨0, 1⟩, .ident⟩, ⟨⟨1, 1⟩, .sub⟩, ⟨⟨2, 1⟩, .ident⟩]

def chainToks : List CcToken := differenceToks ++ [⟨⟨3, 1⟩, .sub⟩, ⟨⟨4, 1⟩, .ident⟩]

def differenceTree : Tree :=
  .binop .sub (.leaf (.refVar ⟨0, 1⟩)) (.leaf (.refVar ⟨2, 1⟩))

def chainTree : Tree := .binop .sub differenceTree (.leaf (.refVar ⟨4, 1⟩))

def expressionState (toks : List CcToken) : CcState :=
  (CcState.start [97, 45, 98, 45, 99, 59] (toks ++ [⟨⟨5, 1⟩, .semi⟩])).push (.block none)

theorem difference_derived : CDerives 2 differenceToks differenceTree := by
  have operand (tok : CcToken) (ident : tok.type = .ident) :
      CDerives 1 [tok] (.leaf (.refVar tok.data)) := .tighter (.operand tok ident)
  exact .chain .sub _ rfl rfl (.tighter (operand _ rfl)) (operand _ rfl)

theorem chain_derived : CExpression chainToks chainTree := by
  have operand : CDerives 1 [⟨⟨4, 1⟩, .ident⟩] (.leaf (.refVar ⟨4, 1⟩)) := .tighter (.operand _ rfl)
  have chain : CDerives 2 chainToks chainTree :=
    .chain .sub _ rfl rfl difference_derived operand
  exact .tighter (.tighter (.tighter (.tighter chain)))

theorem expression_groups_difference :
    Builds (expressionState differenceToks) 0 differenceToks differenceTree
        ((ccParseExpression 23 0 false).run (expressionState differenceToks)) ↔
      differenceTree.Aligned := by
  have derived : CExpression differenceToks differenceTree :=
    .tighter (.tighter (.tighter (.tighter difference_derived)))
  exact expression_groups_iff (expressionState differenceToks) 0 23 differenceToks []
    ⟨⟨5, 1⟩, .semi⟩ differenceTree ⟨rfl, by decide⟩ rfl rfl derived (by decide) (by decide)

/-- `a - b - c ;` is a C expression, and the parser does not build its tree. -/
theorem chain_not_built :
    CExpression chainToks chainTree ∧ Fresh (expressionState chainToks) 0 ∧
      (expressionState chainToks).nodes.length + 3112 ≤ 65536 ∧
      ¬ Builds (expressionState chainToks) 0 chainToks chainTree
        ((ccParseExpression 31 0 false).run (expressionState chainToks)) := by
  have fresh : Fresh (expressionState chainToks) 0 := ⟨rfl, by decide⟩
  have room : (expressionState chainToks).nodes.length + 3112 ≤ 65536 := by decide
  have ahead : OperandAhead (expressionState chainToks).remaining :=
    CDerives.ahead chain_derived (.semi rfl)
  have fits := expression_refsFit 31 0 false ahead room
  have realised := expression_realises false fresh (by decide) fits
  have reads := parseExpression_reads (expressionState chainToks).data
    (expressionState chainToks).remaining
  refine ⟨chain_derived, fresh, room, fun built => ?_⟩
  have accepted := (realised.builds_iff reads rfl).mp built
  have aligned := (parseExpression_derived_iff chain_derived rfl).mp accepted
  exact Nat.lt_irrefl _ aligned.1

end Estros
