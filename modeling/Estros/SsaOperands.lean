import Mathlib.Data.List.Forall2
import Estros.SsaLowering

/-!
Which operands the lowering keeps. Integer literals and conditional expressions fall through
the switch to a null result, so an operator or a `return` over one loses it without a word;
an identifier or operator loses its own result only where the 12-bit counter gives it id 0.
-/

namespace Estros

inductive Tree.Expression : Tree → Prop where
  | ident (name : CcStrview) : Expression (.leaf (.refVar name))
  | literal (ull : BitVec 64) : Expression (.leaf (.literalInteger ull))
  | conditional {cond yes no : Tree} (first : Expression cond) (second : Expression yes)
      (third : Expression no) : Expression (.ifExpr cond yes no)
  | binop (op : CcAstBinop) {lhs rhs : Tree} (left : Expression lhs) (right : Expression rhs) :
      Expression (.binop op lhs rhs)

def returnTree : Option Tree → Tree
  | none => .ret (.block [])
  | some value => .ret value

/-- A body of return statements; `cc_ast_coalesce` replaces a block with one child. -/
def bodyTree : List (Option Tree) → Tree
  | [only] => returnTree only
  | stmts => .block (stmts.map returnTree)

def Tree.Lowerable (lookup : CcStrview → Except Halt Nat) : Tree → Prop
  | .leaf (.refVar name) => ∃ i, lookup name = .ok i
  | .ifExpr cond yes no => cond.Lowerable lookup ∧ yes.Lowerable lookup ∧ no.Lowerable lookup
  | .binop op lhs rhs => op.isArithmetic = true ∧ lhs.Lowerable lookup ∧ rhs.Lowerable lookup
  | _ => True

def Tree.Plain : Tree → Prop
  | .leaf (.refVar _) => True
  | .binop _ lhs rhs => lhs.Plain ∧ rhs.Plain
  | _ => False

/-- None of `size` nodes visited from the one numbered `first` on gets the id 0. -/
def NoneNull (first size : Nat) : Prop := ∀ k < size, (first + k) % 4096 ≠ 0

/-- A returned expression is plain and none of its nodes gets the id 0, when the statement is
the node numbered `first`. -/
def StatementClean (first : Nat) : Option Tree → Prop
  | none => True
  | some value => value.Plain ∧ NoneNull (first + 1) value.size

def StatementsClean : Nat → List (Option Tree) → Prop
  | _, [] => True
  | first, stmt :: rest =>
      StatementClean first stmt ∧ StatementsClean (first + (returnTree stmt).size) rest

/-- The statements of a body that coalesced to a single one come first, else behind the block. -/
def BodyClean : List (Option Tree) → Prop
  | [only] => StatementsClean ccSsaFirstTemporal.toNat [only]
  | stmts => StatementsClean (ccSsaFirstTemporal.toNat + 1) stmts

/-! ### What it means to keep them -/

def CcSsaTokenType.isBinop : CcSsaTokenType → Bool
  | .add | .sub | .mul | .div | .rem | .lshift | .rshift | .and | .xor | .or => true
  | _ => false

def CcSsaToken.OperatorKept (tok : CcSsaToken) : Prop :=
  tok.type.isBinop = true → (tok.arg 0).id ≠ ccSsaIdNull ∧ (tok.arg 1).id ≠ ccSsaIdNull

def ReturnKept (stmt : Option Tree) (tok : CcSsaToken) : Prop :=
  stmt.isSome = true → (tok.arg 0).id ≠ ccSsaIdNull

/-- Operators have both operands, and the `RETURN` tokens, which belong to the statements one
by one, have one where the statement has an expression. -/
def OperandsKept (stmts : List (Option Tree)) (toks : List CcSsaToken) : Prop :=
  (∀ tok ∈ toks, tok.OperatorKept) ∧
    List.Forall₂ ReturnKept stmts (toks.filter fun tok => tok.type = .ret)

section Expressions

variable {lookup : CcStrview → Except Halt Nat}

abbrev idOf (number : Nat) : BitVec 12 := BitVec.ofNat 12 number

theorem idOf_succ (number : Nat) : idOf number + 1 = idOf (number + 1) := by
  rw [idOf, idOf, BitVec.ofNat_add]
  rfl

theorem idOf_eq_null (number : Nat) : idOf number = ccSsaIdNull ↔ number % 4096 = 0 := by
  rw [← BitVec.toNat_inj, BitVec.toNat_ofNat]
  rfl

theorem noneNull_one (number : Nat) : NoneNull number 1 ↔ number % 4096 ≠ 0 := by
  constructor
  · exact fun none => none 0 Nat.one_pos
  · intro other k less
    rwa [show k = 0 by omega]

theorem noneNull_add (first left right : Nat) :
    NoneNull first (left + right) ↔ NoneNull first left ∧ NoneNull (first + left) right := by
  constructor
  · intro none
    refine ⟨fun k less => none k (by omega), fun k less => ?_⟩
    rw [Nat.add_assoc]
    exact none (left + k) (by omega)
  · rintro ⟨before, behind⟩ k less
    by_cases inLeft : k < left
    · exact before k inLeft
    · have later := behind (k - left) (by omega)
      rwa [show first + left + (k - left) = first + k by omega] at later

theorem lower_ifExpr_ok {cond yes no : Tree} {id : BitVec 12} {low : Lowered}
    (lowered : (Tree.ifExpr cond yes no).lower lookup id = .ok low) :
    ∃ first second third, cond.lower lookup (id + 1) = .ok first ∧
      yes.lower lookup first.next = .ok second ∧ no.lower lookup second.next = .ok third ∧
        low = ⟨ccSsaNull, third.next, first.toks ++ second.toks ++ third.toks⟩ := by
  rw [Tree.lower] at lowered
  obtain ⟨first, firstDone, rest⟩ := bind_eq_ok lowered
  obtain ⟨second, secondDone, more⟩ := bind_eq_ok rest
  obtain ⟨third, thirdDone, last⟩ := bind_eq_ok more
  exact ⟨first, second, third, firstDone, secondDone, thirdDone, (Except.ok.inj last).symm⟩

theorem Tree.Expression.lowered {tree : Tree} (expression : tree.Expression)
    (lowerable : tree.Lowerable lookup) (id : BitVec 12) :
    ∃ low, tree.lower lookup id = .ok low := by
  induction expression generalizing id with
  | ident name =>
      obtain ⟨i, found⟩ := lowerable
      exact ⟨_, by rw [Tree.lower, found]; rfl⟩
  | literal ull => exact ⟨_, rfl⟩
  | conditional _ _ _ first second third =>
      obtain ⟨one, oneDone⟩ := first lowerable.1 (id + 1)
      obtain ⟨two, twoDone⟩ := second lowerable.2.1 one.next
      obtain ⟨three, threeDone⟩ := third lowerable.2.2 two.next
      refine ⟨⟨ccSsaNull, three.next, one.toks ++ two.toks ++ three.toks⟩, ?_⟩
      simp only [Tree.lower, oneDone, twoDone, threeDone, bind, Except.bind, pure, Except.pure]
  | binop op _ _ left right =>
      obtain ⟨operator, leftLowerable, rightLowerable⟩ := lowerable
      obtain ⟨one, oneDone⟩ := left leftLowerable (id + 1)
      obtain ⟨two, twoDone⟩ := right rightLowerable one.next
      refine ⟨⟨⟨id, ccSsaWidth32⟩, two.next,
        one.toks ++ two.toks ++ [binopToken op ⟨id, ccSsaWidth32⟩ one.arg two.arg]⟩, ?_⟩
      simp only [Tree.lower, oneDone, twoDone, operator, bind, Except.bind, pure, Except.pure, if_true]

theorem Tree.Expression.lowerable {tree : Tree} (expression : tree.Expression) {id : BitVec 12}
    {low : Lowered} (lowered : tree.lower lookup id = .ok low) : tree.Lowerable lookup := by
  induction expression generalizing id low with
  | ident name =>
      obtain ⟨i, found, _⟩ := lower_refVar_ok lowered
      exact ⟨i, found⟩
  | literal ull => trivial
  | conditional _ _ _ first second third =>
      obtain ⟨_, _, _, oneDone, twoDone, threeDone, _⟩ := lower_ifExpr_ok lowered
      exact ⟨first oneDone, second twoDone, third threeDone⟩
  | binop op _ _ left right =>
      obtain ⟨_, _, leftDone, rightDone, operator, _⟩ := lower_binop_ok lowered
      exact ⟨operator, left leftDone, right rightDone⟩

structure ExpressionTokens (tree : Tree) (first : Nat) (low : Lowered) : Prop where
  next : low.next = idOf (first + tree.size)
  noReturn : ∀ tok ∈ low.toks, tok.type ≠ .ret
  kept : (∀ tok ∈ low.toks, tok.OperatorKept) ∧ low.arg.id ≠ ccSsaIdNull ↔
    tree.Plain ∧ NoneNull first tree.size

theorem operationType_isBinop {op : CcAstBinop} (operator : op.isArithmetic = true) :
    (ccSsaTypeFromAstBinopType op).isBinop = true := by
  cases op <;> first | rfl | exact absurd operator (by decide)

theorem binopToken_kept {op : CcAstBinop} (operator : op.isArithmetic = true)
    (res lhs rhs : CcSsaArgument) :
    (binopToken op res lhs rhs).OperatorKept ↔ lhs.id ≠ ccSsaIdNull ∧ rhs.id ≠ ccSsaIdNull :=
  ⟨fun kept => kept (operationType_isBinop operator), fun both _ => both⟩

theorem operationType_not_ret (op : CcAstBinop) : ccSsaTypeFromAstBinopType op ≠ .ret := by
  cases op <;> decide

theorem Tree.Expression.tokens {tree : Tree} (expression : tree.Expression) {first : Nat}
    {low : Lowered} (lowered : tree.lower lookup (idOf first) = .ok low) :
    ExpressionTokens tree first low := by
  induction expression generalizing first low with
  | ident name =>
      obtain ⟨i, _, rfl⟩ := lower_refVar_ok lowered
      refine ⟨idOf_succ first, ?_, ?_⟩
      · intro tok member
        rw [List.mem_singleton.mp member]
        simp [parameterToken]
      · rw [show (Tree.leaf (.refVar name)).size = 1 from rfl, noneNull_one, ne_eq, idOf_eq_null]
        simp [Tree.Plain, CcSsaToken.OperatorKept, parameterToken, CcSsaTokenType.isBinop]
  | literal ull =>
      cases Except.ok.inj lowered
      refine ⟨idOf_succ first, fun _ member => absurd member List.not_mem_nil, ?_⟩
      simp [Tree.Plain, ccSsaNull]
  | @conditional cond yes no _ _ _ one two three =>
      -- no token of its own: the tokens of the parts one after the other, and no operand
      obtain ⟨lowCond, lowYes, lowNo, condDone, yesDone, noDone, rfl⟩ := lower_ifExpr_ok lowered
      rw [idOf_succ] at condDone
      have condTokens := one condDone
      rw [condTokens.next] at yesDone
      have yesTokens := two yesDone
      rw [yesTokens.next] at noDone
      have noTokens := three noDone
      refine ⟨?_, ?_, ?_⟩
      · change lowNo.next = _
        rw [noTokens.next, Tree.size]
        congr 1
        omega
      · intro tok member
        simp only [List.mem_append] at member
        rcases member with (inCond | inYes) | inNo
        · exact condTokens.noReturn tok inCond
        · exact yesTokens.noReturn tok inYes
        · exact noTokens.noReturn tok inNo
      · simp [Tree.Plain, ccSsaNull]
  | @binop op lhs rhs _ _ left right =>
      obtain ⟨lowLeft, lowRight, leftDone, rightDone, operator, rfl⟩ := lower_binop_ok lowered
      rw [idOf_succ] at leftDone
      have leftTokens := left leftDone
      rw [leftTokens.next] at rightDone
      have rightTokens := right rightDone
      refine ⟨?_, ?_, ?_⟩
      · change lowRight.next = _
        rw [rightTokens.next, Tree.size]
        congr 1
        omega
      · intro tok member
        simp only [List.mem_append, List.mem_singleton] at member
        rcases member with (inLeft | inRight) | rfl
        · exact leftTokens.noReturn tok inLeft
        · exact rightTokens.noReturn tok inRight
        · exact operationType_not_ret op
      · have total : (Tree.binop op lhs rhs).size = 1 + (lhs.size + rhs.size) := by
          rw [Tree.size, Nat.add_comm]
        rw [total, noneNull_add, noneNull_one, noneNull_add, Tree.Plain]
        simp only [List.forall_mem_append, List.forall_mem_singleton, binopToken_kept operator,
          ne_eq (idOf first), idOf_eq_null]
        have one := leftTokens.kept
        have two := rightTokens.kept
        tauto

structure StatementTokens (stmt : Option Tree) (first : Nat) (low : Lowered) : Prop where
  next : low.next = idOf (first + (returnTree stmt).size)
  kept : ∃ tok, (low.toks.filter fun tok => tok.type = .ret) = [tok] ∧
    ((∀ tok ∈ low.toks, tok.OperatorKept) ∧ ReturnKept stmt tok ↔ StatementClean first stmt)

theorem returnToken_kept (res value : CcSsaArgument) : (returnToken res value).OperatorKept :=
  fun impossible => by simp [returnToken, CcSsaTokenType.isBinop] at impossible

theorem filter_returns {toks : List CcSsaToken} (none : ∀ tok ∈ toks, tok.type ≠ .ret)
    (res value : CcSsaArgument) :
    ((toks ++ [returnToken res value]).filter fun tok => tok.type = .ret) =
      [returnToken res value] := by
  have empty : (toks.filter fun tok => tok.type = .ret) = [] :=
    List.filter_eq_nil_iff.mpr fun tok member => by simpa using none tok member
  rw [List.filter_append, empty, List.nil_append]
  simp [returnToken]

theorem returnTree_tokens {stmt : Option Tree} (expression : ∀ value ∈ stmt, value.Expression)
    {first : Nat} {low : Lowered} (lowered : (returnTree stmt).lower lookup (idOf first) = .ok low) :
    StatementTokens stmt first low := by
  have ret : (Tree.ret (stmt.getD (.block []))).lower lookup (idOf first) = .ok low := by
    cases stmt <;> exact lowered
  obtain ⟨inner, done, rfl⟩ := lower_ret_ok ret
  rw [idOf_succ] at done
  cases stmt with
  | none =>
      cases Except.ok.inj done
      refine ⟨by rw [idOf_succ]; rfl, _, filter_returns (fun _ member => absurd member List.not_mem_nil) _ _, ?_⟩
      simp [StatementClean, ReturnKept, returnToken_kept]
  | some value =>
      have tokens := (expression value rfl).tokens done
      refine ⟨?_, _, filter_returns tokens.noReturn _ _, ?_⟩
      · change inner.next = _
        rw [tokens.next, returnTree, Tree.size]
        congr 1
        omega
      · rw [StatementClean, ← tokens.kept]
        simp only [List.forall_mem_append, List.forall_mem_singleton, returnToken_kept, and_true,
          ReturnKept, Option.isSome_some, true_implies]
        rfl

theorem statements_tokens {stmts : List (Option Tree)}
    (expressions : ∀ value, some value ∈ stmts → value.Expression) {first : Nat} {low : Lowered}
    (lowered : Tree.lowerAll lookup (stmts.map returnTree) (idOf first) = .ok low) :
    OperandsKept stmts low.toks ↔ StatementsClean first stmts := by
  induction stmts generalizing first low with
  | nil =>
      cases Except.ok.inj lowered
      simp [OperandsKept, StatementsClean]
  | cons stmt rest ih =>
      obtain ⟨one, oneDone, more⟩ := bind_eq_ok lowered
      obtain ⟨others, othersDone, last⟩ := bind_eq_ok more
      cases Except.ok.inj last
      have own : ∀ value ∈ stmt, value.Expression := fun value same =>
        expressions value (List.mem_cons.mpr (Or.inl (Option.mem_def.mp same).symm))
      have tokens := returnTree_tokens own oneDone
      rw [tokens.next] at othersDone
      have later := ih (fun value member => expressions value (List.mem_cons_of_mem stmt member))
        othersDone
      obtain ⟨tok, returns, kept⟩ := tokens.kept
      rw [StatementsClean, ← kept, ← later]
      simp only [OperandsKept, List.forall_mem_append, List.filter_append, returns,
        List.singleton_append, List.forall₂_cons]
      tauto

def StatementsLowerable (lookup : CcStrview → Except Halt Nat) (stmts : List (Option Tree)) : Prop :=
  ∀ value, some value ∈ stmts → value.Lowerable lookup

theorem returnTree_lowered {stmt : Option Tree} (expression : ∀ value ∈ stmt, value.Expression)
    (lowerable : ∀ value ∈ stmt, value.Lowerable lookup) (id : BitVec 12) :
    ∃ low, (returnTree stmt).lower lookup id = .ok low := by
  cases stmt with
  | none => exact ⟨_, rfl⟩
  | some value =>
      obtain ⟨low, done⟩ := (expression value rfl).lowered (lowerable value rfl) (id + 1)
      exact ⟨_, by rw [returnTree, Tree.lower, done]; rfl⟩

theorem returnTree_lowerable {stmt : Option Tree} (expression : ∀ value ∈ stmt, value.Expression)
    {id : BitVec 12} {low : Lowered} (lowered : (returnTree stmt).lower lookup id = .ok low) :
    ∀ value ∈ stmt, value.Lowerable lookup := by
  intro value same
  cases Option.mem_def.mp same
  obtain ⟨inner, done, _⟩ := lower_ret_ok lowered
  exact (expression value rfl).lowerable done

theorem member_cons {stmt : Option Tree} {rest : List (Option Tree)} {holds : Tree → Prop} :
    (∀ value, some value ∈ stmt :: rest → holds value) ↔
      (∀ value ∈ stmt, holds value) ∧ ∀ value, some value ∈ rest → holds value := by
  constructor
  · intro all
    exact ⟨fun value same => all value (List.mem_cons.mpr (Or.inl (Option.mem_def.mp same).symm)),
      fun value member => all value (List.mem_cons_of_mem stmt member)⟩
  · rintro ⟨own, others⟩ value member
    rcases List.mem_cons.mp member with same | later
    · exact own value same.symm
    · exact others value later

theorem statements_lowered {stmts : List (Option Tree)}
    (expressions : ∀ value, some value ∈ stmts → value.Expression)
    (lowerable : StatementsLowerable lookup stmts) (id : BitVec 12) :
    ∃ low, Tree.lowerAll lookup (stmts.map returnTree) id = .ok low := by
  induction stmts generalizing id with
  | nil => exact ⟨_, rfl⟩
  | cons stmt rest ih =>
      obtain ⟨own, others⟩ := member_cons.mp expressions
      obtain ⟨ownLowerable, othersLowerable⟩ := member_cons.mp lowerable
      obtain ⟨one, oneDone⟩ := returnTree_lowered own ownLowerable id
      obtain ⟨more, moreDone⟩ := ih others othersLowerable one.next
      refine ⟨⟨ccSsaNull, more.next, one.toks ++ more.toks⟩, ?_⟩
      simp only [List.map_cons, Tree.lowerAll, oneDone, moreDone, bind, Except.bind, pure, Except.pure]

theorem statements_lowerable {stmts : List (Option Tree)}
    (expressions : ∀ value, some value ∈ stmts → value.Expression) {id : BitVec 12} {low : Lowered}
    (lowered : Tree.lowerAll lookup (stmts.map returnTree) id = .ok low) :
    StatementsLowerable lookup stmts := by
  induction stmts generalizing id low with
  | nil => exact fun _ member => absurd member List.not_mem_nil
  | cons stmt rest ih =>
      obtain ⟨own, others⟩ := member_cons.mp expressions
      obtain ⟨one, oneDone, more⟩ := bind_eq_ok lowered
      obtain ⟨later, laterDone, _⟩ := bind_eq_ok more
      exact member_cons.mpr ⟨returnTree_lowerable own oneDone, ih others laterDone⟩

theorem bodyTree_cases (stmts : List (Option Tree)) :
    (∃ only, stmts = [only]) ∨
      bodyTree stmts = .block (stmts.map returnTree) ∧
        BodyClean stmts = StatementsClean (ccSsaFirstTemporal.toNat + 1) stmts := by
  cases stmts with
  | nil => exact Or.inr ⟨rfl, rfl⟩
  | cons only rest =>
      cases rest with
      | nil => exact Or.inl ⟨only, rfl⟩
      | cons _ _ => exact Or.inr ⟨rfl, rfl⟩

theorem body_lowered {stmts : List (Option Tree)}
    (expressions : ∀ value, some value ∈ stmts → value.Expression)
    (lowerable : StatementsLowerable lookup stmts) (id : BitVec 12) :
    ∃ low, (bodyTree stmts).lower lookup id = .ok low := by
  rcases bodyTree_cases stmts with ⟨only, rfl⟩ | ⟨block, _⟩
  · exact returnTree_lowered (member_cons.mp expressions).1 (member_cons.mp lowerable).1 id
  · obtain ⟨low, done⟩ := statements_lowered expressions lowerable (id + 1)
    exact ⟨_, by rw [block, Tree.lower, done]; rfl⟩

theorem body_kept {stmts : List (Option Tree)}
    (expressions : ∀ value, some value ∈ stmts → value.Expression) {low : Lowered}
    (lowered : (bodyTree stmts).lower lookup ccSsaFirstTemporal = .ok low) :
    StatementsLowerable lookup stmts ∧ (OperandsKept stmts low.toks ↔ BodyClean stmts) := by
  rcases bodyTree_cases stmts with ⟨only, rfl⟩ | ⟨block, clean⟩
  · obtain ⟨own, _⟩ := member_cons.mp expressions
    have tokens : StatementTokens only ccSsaFirstTemporal.toNat low := returnTree_tokens own lowered
    obtain ⟨tok, returns, kept⟩ := tokens.kept
    refine ⟨member_cons.mpr ⟨returnTree_lowerable own lowered, fun _ member =>
      absurd member List.not_mem_nil⟩, ?_⟩
    rw [OperandsKept, returns, List.forall₂_cons]
    simpa only [List.forall₂_nil_left_iff, and_true, BodyClean, StatementsClean] using kept
  · rw [block] at lowered
    obtain ⟨all, done, last⟩ := bind_eq_ok lowered
    cases Except.ok.inj last
    refine ⟨statements_lowerable expressions done, ?_⟩
    have kept : OperandsKept stmts all.toks ↔
        StatementsClean (ccSsaFirstTemporal.toNat + 1) stmts := statements_tokens expressions done
    rwa [clean]

end Expressions

/-- Lowering a function body keeps every operand, or aborts, exactly if the body is not
lowerable or its returned expressions are plain and none of their nodes gets the id 0. -/
theorem fromAst_operands_iff (emit : CcSsaEmitter) {inside : Nat → Prop}
    {stmts : List (Option Tree)} {ref : CcAstNodeRef}
    (expressions : ∀ value, some value ∈ stmts → value.Expression)
    (denoted : (bodyTree stmts).Denotes emit.state inside ref)
    (start : emit.arg = ccSsaFirstTemporal) {fuel : Nat} (enough : (bodyTree stmts).size ≤ fuel) :
    (∀ arg after, runEmit (ccSsaFromAstWithinFunc fuel ref) emit = .ok (arg, after) →
      ∃ toks, after.state.ssaTokens = emit.state.ssaTokens ++ toks ∧ OperandsKept stmts toks) ↔
    (¬ StatementsLowerable (ccSsaParameterIndex emit.state emit.tdef) stmts ∨ BodyClean stmts) := by
  rw [fromAstWithinFunc_lower emit denoted enough, start]
  cases lowered : (bodyTree stmts).lower (ccSsaParameterIndex emit.state emit.tdef)
      ccSsaFirstTemporal with
  | error why =>
      constructor
      · intro _
        refine Or.inl fun lowerable => ?_
        obtain ⟨low, done⟩ := body_lowered expressions lowerable ccSsaFirstTemporal
        cases lowered.symm.trans done
      · intro _ arg after ran
        cases ran
  | ok low =>
      obtain ⟨lowerable, kept⟩ := body_kept expressions lowered
      have reached : emitOutcome Lowered.arg emit (.ok low) = .ok (low.arg, emit.emitted low) := rfl
      rw [reached]
      constructor
      · intro holds
        obtain ⟨toks, pushed, all⟩ := holds low.arg (emit.emitted low) rfl
        cases List.append_cancel_left pushed
        exact Or.inr (kept.mp all)
      · intro condition arg after ran
        cases Except.ok.inj ran
        have clean := condition.resolve_left (not_not.mpr lowerable)
        exact ⟨low.toks, rfl, kept.mpr clean⟩

def literalState : CcState :=
  { CcState.start [] [] with
    nodes := [.invalid, .newType 0 none ccAstTypeFlagsFunction, .literalInteger 1, .ret 2]
    nodesWritten := Nat.zero_le _ }

def literalEmitter : CcSsaEmitter := ⟨literalState, 0, ccSsaFirstTemporal, 1⟩

theorem literal_denoted :
    (bodyTree [some (.leaf (.literalInteger 1))]).Denotes literalState (fun _ => True) 3 :=
  ⟨trivial, 2, rfl, trivial, rfl, rfl⟩

theorem fromAst_operands_literal :
    (∀ arg after, runEmit (ccSsaFromAstWithinFunc 2 3) literalEmitter = .ok (arg, after) →
      ∃ toks, after.state.ssaTokens = literalState.ssaTokens ++ toks ∧
        OperandsKept [some (.leaf (.literalInteger 1))] toks) ↔
    (¬ StatementsLowerable (ccSsaParameterIndex literalState 1) [some (.leaf (.literalInteger 1))] ∨
      BodyClean [some (.leaf (.literalInteger 1))]) :=
  fromAst_operands_iff literalEmitter
    (fun value member => by cases Option.some.inj (List.mem_singleton.mp member); exact .literal 1)
    literal_denoted rfl (by decide)

/-- The literal goes: the `RETURN` token has no operand. -/
theorem fromAst_literal_dropped :
    ∃ arg after, runEmit (ccSsaFromAstWithinFunc 2 3) literalEmitter = .ok (arg, after) ∧
      ¬ ∃ toks, after.state.ssaTokens = literalState.ssaTokens ++ toks ∧
        OperandsKept [some (.leaf (.literalInteger 1))] toks := by
  refine ⟨_, _, rfl, ?_⟩
  rintro ⟨toks, pushed, _, returns⟩
  cases List.append_cancel_left pushed
  simp [ReturnKept, CcSsaToken.arg, ccSsaNull, ccSsaArgs, returnToken] at returns

end Estros
