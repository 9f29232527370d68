import Estros.AstTree

/-!
The expression language the parser recognises, on token lists: no nodes, no counters.
Each recogniser replies with the tree it read and the tokens it left, declines without
reading anything, or aborts the compilation.
-/

namespace Estros

inductive Reply (α : Type) where
  | yes (value : α) (rest : List CcToken)
  | no
  | abort

def literalValue (data : List UInt8) (view : CcStrview) : BitVec 64 :=
  BitVec.ofInt 64 (atoll (cString ((data.drop view.pos.toNat).take view.len.toNat)))

def parsePrimary (data : List UInt8) : List CcToken → Reply Tree
  | [] => .no
  | tok :: rest =>
      if tok.type = .ident then .yes (.leaf (.refVar tok.data)) rest
      else if tok.type = .literal then
        .yes (.leaf (.literalInteger (literalValue data tok.data))) rest
      else .no

/-- The type `cc_peek_token` reports: past the end it is the invalid token's. -/
def headType : List CcToken → CcTokenType
  | [] => .invalid
  | tok :: _ => tok.type

def parseBinop (op : CcAstBinop) (operator : CcTokenType) (next : List CcToken → Reply Tree)
    (toks : List CcToken) : Reply Tree :=
  match next toks with
  | .yes lhs rest =>
      if headType rest = operator then
        match next rest.tail with
        | .yes rhs left => .yes (.binop op lhs rhs) left
        | _ => .abort
      else .yes lhs rest
  | .no => .no
  | .abort => .abort

/-- The levels of `CC_PARSE_BINOP_DEFINE` from the tightest to the loosest. -/
def binopLevels : List (CcAstBinop × CcTokenType) :=
  [(.mul, .asterisk), (.div, .div), (.sub, .sub), (.add, .add), (.lshift, .lshift),
    (.rshift, .rshift), (.condLte, .condLte), (.condGte, .condGte), (.condLt, .condLt),
    (.condGt, .condGt), (.condNeq, .condNeq), (.bitAnd, .ampersand), (.bitXor, .bitXor),
    (.bitOr, .bitOr), (.condAnd, .condAnd), (.condOr, .condOr)]

def parseLevels (levels : List (CcAstBinop × CcTokenType)) (data : List UInt8) :
    List CcToken → Reply Tree :=
  levels.foldl (fun next level => parseBinop level.1 level.2 next) (parsePrimary data)

def parseLogicalOr (data : List UInt8) : List CcToken → Reply Tree := parseLevels binopLevels data

def parseBranches (next : List CcToken → Reply Tree) (cond : Tree) (toks : List CcToken) :
    Reply Tree :=
  match next toks with
  | .yes thenTree rest =>
      if headType rest = .colon then
        match next rest.tail with
        | .yes elseTree left => .yes (.ifExpr cond thenTree elseTree) left
        | _ => .abort
      else .abort
  | _ => .abort

def parseQuestion (next : List CcToken → Reply Tree) : Reply Tree → Reply Tree
  | .yes cond rest =>
      if headType rest = .qmark then parseBranches next cond rest.tail else .yes cond rest
  | .no => .no
  | .abort => .abort

/-- `logical-or [? expression : conditional]`. Each nesting reads at least one token, so
one unit of fuel for each token suffices. -/
def parseConditional (data : List UInt8) : Nat → List CcToken → Reply Tree
  | 0, _ => .abort
  | fuel + 1, toks => parseQuestion (parseConditional data fuel) (parseLogicalOr data toks)

def parseExpression (data : List UInt8) (toks : List CcToken) : Reply Tree :=
  parseConditional data (toks.length + 1) toks

def startsOperand : List CcToken → Bool
  | [] => false
  | tok :: _ => tok.type = .ident || tok.type = .literal

/-- What a token contributes to the in-order reading of a tree. -/
def lexeme (data : List UInt8) (tok : CcToken) : Lexeme :=
  if tok.type = .ident then .ident tok.data
  else if tok.type = .literal then .literal (literalValue data tok.data)
  else .operator tok.type

/-- A recogniser reads a non-empty prefix and returns a tree that spells it, unless the
next token cannot start an operand, in which case and only then it declines. -/
def Reads (data : List UInt8) (toks : List CcToken) : Reply Tree → Prop
  | .yes tree rest =>
      startsOperand toks = true ∧
        ∃ used, used ≠ [] ∧ toks = used ++ rest ∧ tree.inOrder = used.map (lexeme data)
  | .no => startsOperand toks = false
  | .abort => startsOperand toks = true

theorem parsePrimary_reads (data : List UInt8) (toks : List CcToken) :
    Reads data toks (parsePrimary data toks) := by
  cases toks with
  | nil => rfl
  | cons tok rest =>
      by_cases ident : tok.type = .ident
      · simp only [parsePrimary, ident, if_true]
        exact ⟨by simp [startsOperand, ident], [tok], by simp, rfl,
          by simp [Tree.inOrder, lexeme, ident]⟩
      · by_cases literal : tok.type = .literal
        · simp only [parsePrimary, literal, if_true]
          exact ⟨by simp [startsOperand, literal], [tok], by simp, rfl,
            by simp [Tree.inOrder, lexeme, literal]⟩
        · simp [parsePrimary, ident, literal, Reads, startsOperand]

def IsOperator (type : CcTokenType) : Prop := type ≠ .ident ∧ type ≠ .literal

theorem lexeme_operator {data : List UInt8} {tok : CcToken} (operator : IsOperator tok.type) :
    lexeme data tok = .operator tok.type := by
  simp [lexeme, operator.1, operator.2]

theorem headType_split {toks : List CcToken} {type : CcTokenType} (valid : type ≠ .invalid)
    (head : headType toks = type) : ∃ tok rest, toks = tok :: rest ∧ tok.type = type := by
  cases toks with
  | nil => exact absurd head.symm valid
  | cons tok rest => exact ⟨tok, rest, rfl, head⟩

theorem parseBinop_reads (data : List UInt8) (op : CcAstBinop)
    (next : List CcToken → Reply Tree) (operator : IsOperator op.token)
    (valid : op.token ≠ .invalid) (reads : ∀ toks, Reads data toks (next toks))
    (toks : List CcToken) : Reads data toks (parseBinop op op.token next toks) := by
  have first := reads toks
  rw [parseBinop]
  cases left : next toks with
  | no => rw [left] at first; exact first
  | abort => rw [left] at first; exact first
  | yes lhs rest =>
      rw [left] at first
      obtain ⟨starts, used, nonempty, split, spelled⟩ := first
      by_cases isOp : headType rest = op.token
      swap
      · simp only [isOp, if_false]
        exact ⟨starts, used, nonempty, split, spelled⟩
      obtain ⟨tok, more, rfl, kind⟩ := headType_split valid isOp
      have second := reads more
      simp only [isOp, if_true, List.tail_cons]
      cases right : next more with
      | no => exact starts
      | abort => exact starts
      | yes rhs tail =>
          rw [right] at second
          obtain ⟨_, moreUsed, _, splitRest, spelledRest⟩ := second
          refine ⟨starts, used ++ tok :: moreUsed, by simp, by simp [split, splitRest], ?_⟩
          have read : lexeme data tok = .operator tok.type := lexeme_operator (kind ▸ operator)
          simp [Tree.inOrder, spelled, spelledRest, read, kind]

theorem parseLevels_reads (data : List UInt8) (levels : List (CcAstBinop × CcTokenType))
    (spelling : ∀ level ∈ levels, level.2 = level.1.token ∧ IsOperator level.1.token ∧ level.1.token ≠ .invalid)
    (toks : List CcToken) : Reads data toks (parseLevels levels data toks) := by
  suffices general : ∀ (levels : List (CcAstBinop × CcTokenType)) (next : List CcToken → Reply Tree),
      (∀ level ∈ levels, level.2 = level.1.token ∧ IsOperator level.1.token ∧ level.1.token ≠ .invalid) →
      (∀ toks, Reads data toks (next toks)) → ∀ toks, Reads data toks
        (levels.foldl (fun next level => parseBinop level.1 level.2 next) next toks) from
    general levels _ spelling (parsePrimary_reads data) toks
  intro levels
  induction levels with
  | nil => exact fun _ _ reads => reads
  | cons level rest ih =>
      intro next spelling reads
      have head := spelling level (by simp)
      apply ih _ (fun later member => spelling later (List.mem_cons_of_mem level member))
      intro toks
      change Reads data toks (parseBinop level.1 level.2 next toks)
      rw [head.1]
      exact parseBinop_reads data level.1 next head.2.1 head.2.2 reads toks

theorem binopLevels_spelling :
    ∀ level ∈ binopLevels, level.2 = level.1.token ∧ IsOperator level.1.token ∧ level.1.token ≠ .invalid := by
  simp [binopLevels, CcAstBinop.token, IsOperator]

theorem parseLogicalOr_reads (data : List UInt8) (toks : List CcToken) :
    Reads data toks (parseLogicalOr data toks) :=
  parseLevels_reads data binopLevels binopLevels_spelling toks

theorem parseBranches_reads (data : List UInt8) (next : List CcToken → Reply Tree) (cond : Tree)
    (toks : List CcToken) (reads : ∀ shorter, shorter.length ≤ toks.length → Reads data shorter (next shorter))
    (tree : Tree) (left : List CcToken) (accepted : parseBranches next cond toks = .yes tree left) :
    ∃ used colon more, toks = used ++ colon :: more ++ left ∧ colon.type = .colon ∧
      tree.inOrder = cond.inOrder ++ .operator .qmark :: used.map (lexeme data) ++
        .operator .colon :: more.map (lexeme data) := by
  have first := reads toks (Nat.le_refl _)
  unfold parseBranches at accepted
  cases thenReply : next toks with
  | no => simp [thenReply] at accepted
  | abort => simp [thenReply] at accepted
  | yes thenTree rest =>
      rw [thenReply] at first
      obtain ⟨_, used, _, split, spelled⟩ := first
      by_cases isColon : headType rest = .colon
      swap
      · simp [thenReply, isColon] at accepted
      obtain ⟨colon, more, rfl, kind⟩ := headType_split (by decide) isColon
      have second := reads more (by simp [split]; omega)
      cases elseReply : next more with
      | no => simp [thenReply, isColon, elseReply] at accepted
      | abort => simp [thenReply, isColon, elseReply] at accepted
      | yes elseTree tail =>
          rw [elseReply] at second
          obtain ⟨_, moreUsed, _, moreSplit, moreSpelled⟩ := second
          simp only [thenReply, isColon, if_true, List.tail_cons, elseReply, Reply.yes.injEq] at accepted
          obtain ⟨rfl, rfl⟩ := accepted
          exact ⟨used, colon, moreUsed, by simp [split, moreSplit], kind,
            by simp [Tree.inOrder, spelled, moreSpelled]⟩

theorem parseBranches_ne_no (next : List CcToken → Reply Tree) (cond : Tree) (toks : List CcToken) :
    parseBranches next cond toks ≠ .no := by
  unfold parseBranches
  repeat' split
  all_goals exact fun impossible => nomatch impossible

theorem parseConditional_reads (data : List UInt8) (fuel : Nat) (toks : List CcToken)
    (enough : toks.length < fuel) : Reads data toks (parseConditional data fuel toks) := by
  induction fuel generalizing toks with
  | zero => omega
  | succ fuel ih =>
      have first := parseLogicalOr_reads data toks
      rw [parseConditional]
      cases condition : parseLogicalOr data toks with
      | no => rw [condition] at first; exact first
      | abort => rw [condition] at first; exact first
      | yes cond rest =>
          rw [condition] at first
          obtain ⟨starts, used, nonempty, split, spelled⟩ := first
          by_cases question : headType rest = .qmark
          swap
          · simp only [parseQuestion, question, if_false]
            exact ⟨starts, used, nonempty, split, spelled⟩
          obtain ⟨tok, more, rfl, kind⟩ := headType_split (by decide) question
          simp only [parseQuestion, question, if_true, List.tail_cons]
          have shorter : more.length < fuel := by
            have total := congrArg List.length split
            simp only [List.length_append, List.length_cons] at total
            omega
          cases branches : parseBranches (parseConditional data fuel) cond more with
          | no => exact absurd branches (parseBranches_ne_no _ _ _)
          | abort => exact starts
          | yes tree left =>
              obtain ⟨thenUsed, colon, elseUsed, moreSplit, isColon, moreSpelled⟩ :=
                parseBranches_reads data _ cond more
                  (fun later bound => ih later (Nat.lt_of_le_of_lt bound shorter)) tree left branches
              refine ⟨starts, used ++ tok :: thenUsed ++ colon :: elseUsed, by simp,
                by simp [split, moreSplit], ?_⟩
              simp [moreSpelled, spelled, lexeme, kind, isColon]

theorem parseExpression_reads (data : List UInt8) (toks : List CcToken) :
    Reads data toks (parseExpression data toks) :=
  parseConditional_reads data _ toks (Nat.lt_succ_self _)

end Estros
