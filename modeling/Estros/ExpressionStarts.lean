import Mathlib.Data.Fintype.Basic
import Mathlib.Tactic.FinCases
import Estros.SsaReady

/-!
Which operators of an expression the merging pass takes for one. It looks at the kind of an
operator and at the first operand only, so down to the leftmost parameter; where operators that
start alike also end alike, what it merges are equal subexpressions.
-/

namespace Estros

/-- The leftmost parameter of an expression, and the operators above it from the root on. -/
structure ExpressionStart where
  parameter : Option Nat
  operators : List CcAstBinop
  deriving DecidableEq

def ExpressionStart.below (op : CcAstBinop) (start : ExpressionStart) : ExpressionStart :=
  ⟨start.parameter, op :: start.operators⟩

def Tree.start (index : CcStrview → Option Nat) : Tree → ExpressionStart
  | .leaf (.refVar name) => ⟨index name, []⟩
  | .binop op lhs _ => (lhs.start index).below op
  | _ => ⟨none, []⟩

structure OperatorStarts where
  op : CcAstBinop
  left : ExpressionStart
  right : ExpressionStart
  deriving DecidableEq

def Tree.operators (index : CcStrview → Option Nat) : Tree → List OperatorStarts
  | .binop op lhs rhs =>
      ⟨op, lhs.start index, rhs.start index⟩ :: (lhs.operators index ++ rhs.operators index)
  | _ => []

/-- Operators that start alike end alike. -/
def StartDecides (operators : List OperatorStarts) : Prop :=
  ∀ one ∈ operators, ∀ other ∈ operators,
    one.op = other.op → one.left = other.left → one.right = other.right

instance (operators : List OperatorStarts) : Decidable (StartDecides operators) :=
  inferInstanceAs (Decidable (∀ one ∈ operators, ∀ other ∈ operators,
    one.op = other.op → one.left = other.left → one.right = other.right))

/-- The operator that a token puts on the start of its first operand; that of a `RETURN` is one
that no expression has. -/
def startOperator : CcSsaTokenType → Option CcAstBinop
  | .add => some .add
  | .sub => some .sub
  | .mul => some .mul
  | .div => some .div
  | .rem => some .rem
  | .lshift => some .lshift
  | .rshift => some .rshift
  | .and => some .bitAnd
  | .xor => some .bitXor
  | .or => some .bitOr
  | .ret => some .assign
  | _ => none

theorem startOperator_injective {one other : CcSsaTokenType} {op : CcAstBinop}
    (first : startOperator one = some op) (second : startOperator other = some op) :
    one = other := by
  cases one <;> cases first <;> cases other <;> first | rfl | cases second

theorem startOperator_plain {type : CcSsaTokenType} {op : CcAstBinop}
    (found : startOperator type = some op) :
    type ≠ .identity ∧ type ≠ .none ∧ type ≠ .rawData := by
  cases type <;> first | exact ⟨by decide, by decide, by decide⟩ | cases found

/-- What the starts of the ids say of a token: a copy starts as what it copies does, an operation
as its first operand below the operator, and the operator is one of those listed. -/
inductive StartsAs (starts : BitVec 12 → ExpressionStart) (operators : List OperatorStarts)
    (tok : CcSsaToken) : Prop where
  | copy (type : tok.type = .identity ∨ tok.type = .none)
      (same : starts tok.result.id = starts (tok.arg 0).id)
  | operator (op : CcAstBinop) (type : startOperator tok.type = some op)
      (result : starts tok.result.id = (starts (tok.arg 0).id).below op)
      (width : (tok.arg 0).width = ccSsaWidth32)
      (listed : tok.type = .ret ∨ ⟨op, starts (tok.arg 0).id, starts (tok.arg 1).id⟩ ∈ operators)

def CcSsaToken.Trimmed (tok : CcSsaToken) : Prop :=
  ∀ k : Fin ccSsaMaxArgs, operandCount tok.type ≤ k.val → (tok.arg k).id = 0

section Tokens

variable {starts : BitVec 12 → ExpressionStart} {operators : List OperatorStarts}

theorem StartsAs.plain {tok : CcSsaToken} (started : StartsAs starts operators tok) :
    tok.type ≠ .rawData := by
  cases started with
  | copy type _ => rcases type with same | same <;> rw [same] <;> exact nofun
  | operator op type _ _ _ => exact (startOperator_plain type).2.2

theorem StartsAs.of_operator {tok : CcSsaToken} {op : CcAstBinop}
    (started : StartsAs starts operators tok) (type : startOperator tok.type = some op) :
    starts tok.result.id = (starts (tok.arg 0).id).below op ∧
      (tok.arg 0).width = ccSsaWidth32 ∧
      (tok.type = .ret ∨ ⟨op, starts (tok.arg 0).id, starts (tok.arg 1).id⟩ ∈ operators) := by
  cases started with
  | copy copies _ =>
      obtain ⟨noCopy, live, _⟩ := startOperator_plain type
      exact absurd copies (not_or.mpr ⟨noCopy, live⟩)
  | operator other found result width listed =>
      cases type.symm.trans found
      exact ⟨result, width, listed⟩

theorem StartsAs.moved {later : BitVec 12 → ExpressionStart} {more : List OperatorStarts}
    {tok moved : CcSsaToken} (started : StartsAs starts operators tok) (type : moved.type = tok.type)
    (width : (moved.arg 0).width = (tok.arg 0).width)
    (result : later moved.result.id = starts tok.result.id)
    (operands : ∀ k : Fin ccSsaMaxArgs, later (moved.arg k).id = starts (tok.arg k).id)
    (wider : operators ⊆ more) : StartsAs later more moved := by
  cases started with
  | copy copies same =>
      refine .copy (type ▸ copies) ?_
      rw [result, operands 0, same]
  | operator op found below old listed =>
      refine .operator op (type ▸ found) ?_ (width.trans old) ?_
      · rw [result, operands 0, below]
      · rw [type, operands 0, operands 1]
        exact listed.imp_right (@wider _)

theorem StartsAs.replaced {source target : CcSsaArgument} {tok : CcSsaToken}
    (started : StartsAs starts operators tok) (same : starts source.id = starts target.id) :
    StartsAs starts operators (ccSsaReplaceArgs source target tok) := by
  have operands := started.plain
  refine started.moved (replaceArgs_type source target tok) ?_ ?_ (fun k => ?_) (List.Subset.refl _)
  · rw [replaceArgs_arg source target operands 0]
    split <;> rfl
  · rw [replaceArgs_result]
  · rw [replaceArgs_id source target operands k, substitute]
    split
    · rename_i found
      rw [found, same]
    · rfl

theorem trimmed_replaced {source target : CcSsaArgument} {tok : CcSsaToken} (named : source.id ≠ 0)
    (plain : tok.type ≠ .rawData) (trimmed : tok.Trimmed) :
    (ccSsaReplaceArgs source target tok).Trimmed := by
  intro k beyond
  rw [replaceArgs_type] at beyond
  rw [replaceArgs_id source target plain k, substitute, trimmed k beyond, if_neg named.symm]

def AllStart (starts : BitVec 12 → ExpressionStart) (operators : List OperatorStarts)
    (toks : List CcSsaToken) : Prop :=
  ∀ tok ∈ toks, StartsAs starts operators tok ∧ tok.Trimmed ∧ tok.result.id ≠ 0

theorem AllStart.replaced {source target : CcSsaArgument} {toks : List CcSsaToken}
    (all : AllStart starts operators toks) (named : source.id ≠ 0)
    (same : starts source.id = starts target.id) :
    AllStart starts operators (toks.map (ccSsaReplaceArgs source target)) := by
  intro tok member
  obtain ⟨old, before, rfl⟩ := List.mem_map.mp member
  obtain ⟨started, trimmed, result⟩ := all old before
  exact ⟨started.replaced same, trimmed_replaced named started.plain trimmed,
    by rwa [replaceArgs_result]⟩

theorem AllStart.tail {tok : CcSsaToken} {rest : List CcSsaToken}
    (all : AllStart starts operators (tok :: rest)) : AllStart starts operators rest :=
  fun other member => all other (List.mem_cons_of_mem tok member)

theorem dropIdentities_start {toks : List CcSsaToken} (all : AllStart starts operators toks) :
    AllStart starts operators (dropIdentities.run toks) := by
  induction toks using sweep_induction with
  | nil => exact all
  | cons tok rest ih =>
      obtain ⟨started, trimmed, named⟩ := all tok List.mem_cons_self
      by_cases identity : tok.type = .identity
      · have copies : starts tok.result.id = starts (tok.arg 0).id := by
          cases started with
          | copy _ same => exact same
          | operator op type _ _ _ => exact absurd identity (startOperator_plain type).1
        have erased : tok.erase.Trimmed := fun k beyond => trimmed k (by
          rw [identity]
          exact le_trans (show operandCount .identity ≤ 2 by decide) beyond)
        have later := ih (.map (ccSsaReplaceArgs tok.result (tok.arg 0)))
          (all.tail.replaced named copies)
        rw [dropIdentities_copy identity]
        intro other member
        rcases List.mem_cons.mp member with rfl | behind
        · exact ⟨.copy (Or.inr rfl) copies, erased, named⟩
        · exact later other behind
      · rw [dropIdentities_other identity]
        intro other member
        rcases List.mem_cons.mp member with rfl | behind
        · exact ⟨started, trimmed, named⟩
        · exact ih .id all.tail other behind

theorem Alike.same_start {toks : List CcSsaToken} (all : AllStart starts operators toks)
    {x y : BitVec 12} (alike : Alike toks x y) : starts x = starts y := by
  -- Ids that the pass takes for one value start alike.
  induction alike with
  | refl _ => rfl
  | @chain left right leftIn rightIn _ types _ _ same =>
      cases (all left leftIn).1 with
      | copy copies result =>
          cases (all right rightIn).1 with
          | copy _ other => rw [result, other, same]
          | operator op found _ _ _ =>
              obtain ⟨noCopy, live, _⟩ := startOperator_plain found
              exact absurd (types ▸ copies) (not_or.mpr ⟨noCopy, live⟩)
      | operator op found result _ _ =>
          have other := ((all right rightIn).1.of_operator (types ▸ found)).1
          rw [result, other, same]

/-! ### What starts alike is alike -/

def Valued (toks : List CcSsaToken) (id : BitVec 12) : Prop :=
  id ∈ paramIds 4 ∨ ∃ tok ∈ toks, tok.type ≠ .none ∧ tok.result.id = id

/-- Tokens in SSA form with starts and without copies, in which nothing that is left out is used. -/
structure Started (starts : BitVec 12 → ExpressionStart) (operators : List OperatorStarts)
    (toks : List CcSsaToken) : Prop where
  all : AllStart starts operators toks
  params : ∀ id ∈ paramIds 4, starts id = ⟨some (id.toNat - 2), []⟩
  form : SsaForm 4 toks
  unused : DeadUnused toks
  named : OperandsNamed toks
  noCopy : ∀ tok ∈ toks, tok.type ≠ .identity

variable {toks : List CcSsaToken}

theorem Started.operand_valued (started : Started starts operators toks) {tok : CcSsaToken}
    (member : tok ∈ toks) (live : tok.type ≠ .none) (k : Fin ccSsaMaxArgs)
    (needed : k.val < operandCount tok.type) : Valued toks (tok.arg k).id := by
  obtain ⟨front, back, split⟩ := List.append_of_mem member
  have operated := started.named tok member live
  have positive : (tok.arg k).id ≠ 0 := operated.2 k needed
  rcases operandsRemain started.form started.unused front tok back split live _
    ⟨operated.1, k, rfl⟩ with null | param | ⟨earlier, there, stays, same⟩
  · exact absurd null positive
  · exact Or.inl param
  · exact Or.inr ⟨earlier, split ▸ List.mem_append_left _ there, stays, same⟩

theorem Started.valued (started : Started starts operators toks) {id : BitVec 12}
    (valued : Valued toks id) :
    (id ∈ paramIds 4 ∧ starts id = ⟨some (id.toNat - 2), []⟩) ∨
      ∃ tok ∈ toks, ∃ op, startOperator tok.type = some op ∧ tok.result.id = id ∧
        Valued toks (tok.arg 0).id ∧ starts id = (starts (tok.arg 0).id).below op ∧
        (tok.arg 0).width = ccSsaWidth32 := by
  -- A value starts at a parameter, or is that of an operation.
  rcases valued with param | ⟨tok, member, live, rfl⟩
  · exact Or.inl ⟨param, started.params id param⟩
  · refine Or.inr ⟨tok, member, ?_⟩
    cases (started.all tok member).1 with
    | copy copies _ => exact absurd copies (not_or.mpr ⟨started.noCopy tok member, live⟩)
    | operator op type result width _ =>
        have first := started.operand_valued member live 0 (by
          unfold operandCount
          split <;> decide)
        exact ⟨op, type, rfl, first, result, width⟩

/-- By induction on the operators that the two start with. -/
theorem Started.alike (started : Started starts operators toks) {x y : BitVec 12}
    (first : Valued toks x) (second : Valued toks y) (same : starts x = starts y) :
    Alike toks x y := by
  generalize ops : (starts x).operators = above
  induction above generalizing x y with
  | nil =>
      rcases started.valued first with ⟨param, here⟩ | ⟨_, _, op, _, _, _, here, _⟩
      · rcases started.valued second with ⟨other, there⟩ | ⟨_, _, op, _, _, _, there, _⟩
        · have equal := congrArg ExpressionStart.parameter (here.symm.trans (same.trans there))
          have indices : x.toNat - 2 = y.toNat - 2 := Option.some.inj equal
          have apart : x.toNat = y.toNat := by
            have low := param.1
            have high := other.1
            omega
          exact BitVec.eq_of_toNat_eq apart ▸ .refl _
        · rw [same, there] at ops
          cases ops
      · rw [here] at ops
        cases ops
  | cons top rest ih =>
      rcases started.valued first with ⟨_, here⟩ | ⟨left, leftIn, op, type, rfl, value, here, width⟩
      · rw [here] at ops
        cases ops
      · rcases started.valued second with
          ⟨_, there⟩ | ⟨right, rightIn, op', type', rfl, value', there, width'⟩
        · rw [same, there] at ops
          cases ops
        · have equal := here.symm.trans (same.trans there)
          obtain ⟨params, opsEqual⟩ := ExpressionStart.mk.inj equal
          obtain ⟨rfl, restEqual⟩ := List.cons.inj opsEqual
          have below : starts (left.arg 0).id = starts (right.arg 0).id :=
            congrArg₂ ExpressionStart.mk params restEqual
          rw [here] at ops
          have operands := ih value value' below (List.cons.inj ops).2
          exact .chain leftIn rightIn (startOperator_plain type).2.2
            (startOperator_injective type' type) (width.trans width'.symm) operands

theorem Started.decides (started : Started starts operators toks) (decides : StartDecides operators) :
    FirstOperandDecides toks := by
  -- Where the starts decide, the first operands do.
  intro left leftIn right rightIn live raw type _ first k
  have liveRight : right.type ≠ .none := type ▸ live
  by_cases needed : k.val < operandCount left.type
  · cases (started.all left leftIn).1 with
    | copy copies _ => exact absurd copies (not_or.mpr ⟨started.noCopy left leftIn, live⟩)
    | operator op found _ _ listed =>
        obtain ⟨_, _, other⟩ := (started.all right rightIn).1.of_operator (type ▸ found)
        rcases Nat.eq_zero_or_pos k.val with zero | positive
        · rw [show k = 0 from Fin.ext zero]
          exact first
        · -- the second operand: neither token is a `RETURN`
          have noReturn : left.type ≠ .ret := fun ret => by
            rw [ret] at needed
            simp only [operandCount] at needed
            omega
          have second : k = 1 := by
            have few : operandCount left.type ≤ 2 := by
              unfold operandCount
              split <;> decide
            exact Fin.ext (by show k.val = 1; omega)
          have starting := decides _ (listed.resolve_left noReturn) _
            (other.resolve_left (type ▸ noReturn)) rfl (first.same_start started.all)
          rw [second] at needed ⊢
          exact started.alike (started.operand_valued leftIn live 1 needed)
            (started.operand_valued rightIn liveRight 1 (type ▸ needed)) starting
  · have beyond := Nat.not_lt.mp needed
    rw [(started.all left leftIn).2.1 k beyond, (started.all right rightIn).2.1 k (type ▸ beyond)]
    exact .refl 0

end Tokens

theorem ccSsaArgs_beyond (first second : CcSsaArgument) {k : Fin ccSsaMaxArgs} (beyond : 2 ≤ k.val) :
    ((ccSsaArgs first second).get k).id = 0 := by
  fin_cases k <;> first | rfl | exact absurd beyond (by decide)

theorem parameter_trimmed (res : CcSsaArgument) (i : Nat) : (parameterToken res i).Trimmed := by
  intro k beyond
  have first : 1 ≤ k.val := beyond
  rcases Nat.eq_or_lt_of_le first with one | more
  · rw [show k = 1 from Fin.ext one.symm]
    rfl
  · exact ccSsaArgs_beyond _ _ more

theorem return_trimmed (res value : CcSsaArgument) : (returnToken res value).Trimmed := by
  intro k beyond
  have first : 1 ≤ k.val := beyond
  rcases Nat.eq_or_lt_of_le first with one | more
  · rw [show k = 1 from Fin.ext one.symm]
    rfl
  · exact ccSsaArgs_beyond _ _ more

theorem binop_trimmed {op : CcAstBinop} (arithmetic : op.isArithmetic = true)
    (res lhs rhs : CcSsaArgument) : (binopToken op res lhs rhs).Trimmed := by
  intro k beyond
  rw [show (binopToken op res lhs rhs).type = ccSsaTypeFromAstBinopType op from rfl,
    operationType_count arithmetic] at beyond
  exact ccSsaArgs_beyond _ _ beyond

theorem startOperator_binop {op : CcAstBinop} (arithmetic : op.isArithmetic = true) :
    startOperator (ccSsaTypeFromAstBinopType op) = some op := by
  cases op <;> first | rfl | cases arithmetic

section Lowering

variable {index : CcStrview → Option Nat} {params : Nat}

theorem LoweredFrom.operand_range {id : BitVec 12} {size : Nat} {low : Lowered}
    (source : LoweredFrom params id size low) (few : params ≤ 30) (start : 32 ≤ id.toNat)
    {tok : CcSsaToken} (member : tok ∈ low.toks) (k : Fin ccSsaMaxArgs) :
    (tok.arg k).id.toNat < 32 ∨ Drawn id size (tok.arg k).id := by
  have form := source.form (paramIds params) (fun _ inside => inside) fun other inside drawn => by
    have low := drawn.1
    have high := inside.2
    omega
  rcases form.uses member ⟨(source.operated tok member).1, k, rfl⟩ with null | known
  · left
    rw [null]
    decide
  · rcases mem_knownAfter.mp known with param | ⟨other, there, same⟩
    · left
      have high := param.2
      omega
    · exact Or.inr (same ▸ source.drawn other there)

theorem Tree.Arithmetic.started (finds : Finds index params) (few : params ≤ 30) {tree : Tree}
    (arithmetic : tree.Arithmetic index) {id : BitVec 12} (start : 32 ≤ id.toNat)
    (room : id.toNat + tree.size ≤ 4096) {low : Lowered}
    (lowered : tree.lower (lookupBy index) id = .ok low) {base : BitVec 12 → ExpressionStart}
    (given : ∀ i < params, base (ccSsaIdParam i) = ⟨some i, []⟩) :
    ∃ starts : BitVec 12 → ExpressionStart,
      (∀ other, ¬ Drawn id tree.size other → starts other = base other) ∧
        starts id = tree.start index ∧ AllStart starts (tree.operators index) low.toks := by
  induction arithmetic generalizing id low base with
  | @parameter name i found =>
      obtain ⟨j, lookup, rfl⟩ := lower_refVar_ok lowered
      have same : i = j := by
        rw [lookupBy, found] at lookup
        exact Except.ok.inj lookup
      subst same
      have inside := finds name i found
      have param : (ccSsaIdParam i).toNat = i + 2 := paramId_toNat (by omega)
      have apart : ccSsaIdParam i ≠ id := by
        rintro rfl
        omega
      refine ⟨Function.update base id ⟨some i, []⟩, ?_, ?_, ?_⟩
      · intro other outside
        refine Function.update_of_ne ?_ _ _
        rintro rfl
        exact outside ⟨Nat.le_refl _, Nat.lt_succ_self _⟩
      · rw [Function.update_self, Tree.start, found]
      · intro tok member
        rw [List.mem_singleton.mp member]
        refine ⟨.copy (Or.inl rfl) ?_, parameter_trimmed _ i, ?_⟩
        · change Function.update base id _ id = Function.update base id _ (ccSsaIdParam i)
          rw [Function.update_self, Function.update_of_ne apart, given i inside]
        · rintro rfl
          exact absurd start (by decide)
  | @binop op lhs rhs operator arithmeticLeft arithmeticRight left right =>
      obtain ⟨lowLeft, lowRight, leftDone, rightDone, _, rfl⟩ := lower_binop_ok lowered
      rw [Tree.size] at room ⊢
      have nonempty := size_pos rhs
      have second : (id + 1).toNat = id.toNat + 1 := toNat_succ_small (by omega)
      obtain ⟨_, again, leftFrom⟩ := arithmeticLeft.lowered finds few (id + 1) (by omega) (by omega)
      cases leftDone.symm.trans again
      have third : lowLeft.next.toNat = id.toNat + 1 + lhs.size := by
        rw [leftFrom.next, toNat_add_small (by omega), second]
      obtain ⟨_, more, rightFrom⟩ := arithmeticRight.lowered finds few lowLeft.next
        (by omega) (by omega)
      cases rightDone.symm.trans more
      obtain ⟨starts, kept, root, all⟩ := left (by omega) (by omega) leftDone given
      have small : ∀ other : BitVec 12, other.toNat < 32 → starts other = base other :=
        fun other low => kept other fun drawn => by
          have high := drawn.1
          omega
      have given' : ∀ i < params, starts (ccSsaIdParam i) = ⟨some i, []⟩ := fun i inside => by
        have param : (ccSsaIdParam i).toNat = i + 2 := paramId_toNat (by omega)
        rw [small _ (by omega), given i inside]
      obtain ⟨later, keptRight, rootRight, allRight⟩ := right (by omega) (by omega) rightDone given'
      -- the root's id comes before those of its operands, and the left side's before the right's
      let whole := Function.update later id ((lhs.start index).below op)
      have final : ∀ other : BitVec 12, other.toNat ≠ id.toNat → whole other = later other :=
        fun other apart => Function.update_of_ne (fun same => apart (congrArg BitVec.toNat same)) _ _
      have leftIds : ∀ other : BitVec 12, other.toNat < 32 ∨ Drawn (id + 1) lhs.size other →
          whole other = starts other := by
        intro other range
        simp only [Drawn, second] at range
        rw [final other (by omega), keptRight other]
        simp only [Drawn, third]
        omega
      have rightIds : ∀ other : BitVec 12, other.toNat < 32 ∨ Drawn lowLeft.next rhs.size other →
          whole other = later other := by
        intro other range
        simp only [Drawn, third] at range
        exact final other (by omega)
      have nonemptyLeft := size_pos lhs
      have own : whole id = (lhs.start index).below op := Function.update_self _ _ _
      refine ⟨whole, ?_, own, ?_⟩
      · intro other outside
        simp only [Drawn] at outside
        rw [final other (by omega), keptRight other, kept other]
        · simp only [Drawn, second]
          omega
        · simp only [Drawn, third]
          omega
      · intro tok member
        simp only [List.mem_append, List.mem_singleton] at member
        rcases member with (before | between) | rfl
        · obtain ⟨started, trimmed, named⟩ := all tok before
          refine ⟨started.moved rfl rfl (leftIds _ (Or.inr (leftFrom.drawn tok before)))
            (fun k => leftIds _ (leftFrom.operand_range few (by omega) before k)) ?_, trimmed, named⟩
          exact fun one there => List.mem_cons_of_mem _ (List.mem_append_left _ there)
        · obtain ⟨started, trimmed, named⟩ := allRight tok between
          refine ⟨started.moved rfl rfl (rightIds _ (Or.inr (rightFrom.drawn tok between)))
            (fun k => rightIds _ (rightFrom.operand_range few (by omega) between k)) ?_, trimmed, named⟩
          exact fun one there => List.mem_cons_of_mem _ (List.mem_append_right _ there)
        · have leftRoot := leftIds (id + 1) (Or.inr ⟨Nat.le_refl _, by omega⟩)
          have rightRoot := rightIds lowLeft.next (Or.inr ⟨Nat.le_refl _, by omega⟩)
          rw [root] at leftRoot
          rw [rootRight] at rightRoot
          refine ⟨.operator op (startOperator_binop operator) ?_ ?_ (Or.inr ?_),
            binop_trimmed operator _ _ _, ?_⟩
          · change whole id = (whole lowLeft.arg.id).below op
            rw [own, leftFrom.arg, leftRoot]
          · exact congrArg CcSsaArgument.width leftFrom.arg
          · change OperatorStarts.mk op (whole lowLeft.arg.id) (whole lowRight.arg.id) ∈ _
            rw [leftFrom.arg, rightFrom.arg, leftRoot, rightRoot]
            exact List.mem_cons_self
          · rintro rfl
            exact absurd start (by decide)

end Lowering

end Estros
