import Estros.SsaLowering
import Estros.SsaSemantics

/-!
Lowering keeps the meaning of arithmetic expressions. The id of a node is drawn before its
operands are lowered and its token is pushed after theirs, so the ids of a subtree form a
range, and evaluating one operand leaves the ranges of the others alone.
-/

namespace Estros

/-- The ten operators on 32-bit words; there is no value for a zero divisor or a shift count
of 32 or more. -/
def CcAstBinop.value : CcAstBinop → Word → Word → Option Word
  | .add, lhs, rhs => some (lhs + rhs)
  | .sub, lhs, rhs => some (lhs - rhs)
  | .mul, lhs, rhs => some (lhs * rhs)
  | .div, lhs, rhs => whenDefined (rhs ≠ 0) (lhs / rhs)
  | .rem, lhs, rhs => whenDefined (rhs ≠ 0) (lhs % rhs)
  | .bitAnd, lhs, rhs => some (lhs &&& rhs)
  | .bitXor, lhs, rhs => some (lhs ^^^ rhs)
  | .bitOr, lhs, rhs => some (lhs ||| rhs)
  | .lshift, lhs, rhs => whenDefined (rhs.toNat < 32) (lhs <<< rhs.toNat)
  | .rshift, lhs, rhs => whenDefined (rhs.toNat < 32) (lhs >>> rhs.toNat)
  | _, _, _ => none

def Tree.value (index : CcStrview → Option Nat) (values : List Word) : Tree → Option Word
  | .leaf (.refVar name) => (index name).bind fun i => values[i]?
  | .binop op lhs rhs =>
      (lhs.value index values).bind fun left => (rhs.value index values).bind (op.value left)
  | _ => none

/-- Parameters and the ten operators only. -/
inductive Tree.Arithmetic (index : CcStrview → Option Nat) : Tree → Prop where
  | parameter {name : CcStrview} {i : Nat} (found : index name = some i) :
      Arithmetic index (.leaf (.refVar name))
  | binop {op : CcAstBinop} {lhs rhs : Tree} (operator : op.isArithmetic = true)
      (left : Arithmetic index lhs) (right : Arithmetic index rhs) :
      Arithmetic index (.binop op lhs rhs)

theorem arith_of_binop {op : CcAstBinop} (arithmetic : op.isArithmetic = true) :
    ssaArith (ccSsaTypeFromAstBinopType op) = some op.value := by
  cases op <;> first | rfl | exact absurd arithmetic (by decide)

def ParameterNames (state : CcState) (tdef : CcAstNodeRef) (names : List (List UInt8)) : Prop :=
  ∃ returnType childs flags, state.node tdef = .newType returnType childs flags ∧
    List.Forall₂ (fun child name => ∃ view init typeDef varFlags,
      state.node child = .newVar view init typeDef varFlags ∧
        name = cString (ccStrviewGet state view)) (state.childs childs) names

/-- The first parameter with the name that the source text has at `view`. -/
def parameterNamed (state : CcState) (names : List (List UInt8)) (view : CcStrview) : Option Nat :=
  names.idxOf? (cString (ccStrviewGet state view))

theorem parameterFrom_names {state : CcState} {children : List CcAstNodeRef}
    {names : List (List UInt8)} (s1 : List UInt8)
    (params : List.Forall₂ (fun child name => ∃ view init typeDef varFlags,
      state.node child = .newVar view init typeDef varFlags ∧
        name = cString (ccStrviewGet state view)) children names) (i : Nat) :
    ccSsaParameterFrom state s1 children i =
      match names.idxOf? s1 with
      | some index => .ok (i + index)
      | none => .error .abort := by
  induction params generalizing i with
  | nil => rfl
  | @cons child name rest others head _ ih =>
      obtain ⟨view, init, typeDef, varFlags, node, rfl⟩ := head
      rw [ccSsaParameterFrom, node, List.idxOf?_cons]
      by_cases same : s1 = cString (ccStrviewGet state view)
      · simp [same]
      · have other : (cString (ccStrviewGet state view) == s1) = false := by simpa using Ne.symm same
        simp only [same, if_false, other]
        rw [ih]
        cases others.idxOf? s1 with
        | none => rfl
        | some index => exact congrArg Except.ok (Nat.add_right_comm i 1 index)

theorem parameterIndex_names {state : CcState} {tdef : CcAstNodeRef} {names : List (List UInt8)}
    (params : ParameterNames state tdef names) (view : CcStrview) :
    ccSsaParameterIndex state tdef view =
      match parameterNamed state names view with
      | some index => .ok index
      | none => .error .abort := by
  obtain ⟨returnType, childs, flags, node, all⟩ := params
  rw [ccSsaParameterIndex, node, parameterNamed]
  simp only
  rw [parameterFrom_names _ all]
  cases names.idxOf? (cString (ccStrviewGet state view)) <;> simp

theorem parameterNamed_lt {state : CcState} {names : List (List UInt8)} {view : CcStrview}
    {index : Nat} (found : parameterNamed state names view = some index) :
    index < names.length := by
  rw [parameterNamed, List.idxOf?_eq_some_iff] at found
  exact found.1

def Drawn (first : BitVec 12) (count : Nat) (id : BitVec 12) : Prop :=
  first.toNat ≤ id.toNat ∧ id.toNat < first.toNat + count

theorem toNat_add_small {id : BitVec 12} {count : Nat} (room : id.toNat + count < 4096) :
    (id + BitVec.ofNat 12 count).toNat = id.toNat + count := by
  rw [BitVec.toNat_add, BitVec.toNat_ofNat, Nat.add_mod_mod]
  exact Nat.mod_eq_of_lt room

theorem toNat_succ_small {id : BitVec 12} (room : id.toNat + 1 < 4096) :
    (id + 1).toNat = id.toNat + 1 := toNat_add_small room

theorem paramId_toNat {i : Nat} (few : i < 30) : (ccSsaIdParam i).toNat = i + 2 := by
  rw [ccSsaIdParam, BitVec.toNat_ofNat]
  exact Nat.mod_eq_of_lt (by omega)

theorem size_pos (tree : Tree) : 0 < tree.size := by
  cases tree <;> simp [Tree.size]

/-- How many operands a token of the type has; the lowering emits no others. -/
def operandCount : CcSsaTokenType → Nat
  | .identity | .ret => 1
  | _ => 2

def CcSsaToken.Operated (tok : CcSsaToken) : Prop :=
  tok.type ≠ .rawData ∧
    ∀ k : Fin ccSsaMaxArgs, k.val < operandCount tok.type → (tok.arg k).id ≠ ccSsaIdNull

theorem mem_args {first second arg : CcSsaArgument} (member : arg ∈ ccSsaArgs first second) :
    arg = first ∨ arg = second ∨ arg = ccSsaNull := by
  simpa only [ccSsaArgs, Vector.mem_mk, List.mem_toArray, List.mem_cons, List.not_mem_nil, or_false,
    or_self] using member

theorem uses_args {tok : CcSsaToken} {first second : CcSsaArgument}
    (args : tok.args = ccSsaArgs first second) {id : BitVec 12} (used : tok.Uses id) :
    id = first.id ∨ id = second.id ∨ id = 0 := by
  obtain ⟨_, k, rfl⟩ := used
  have member : tok.arg k ∈ ccSsaArgs first second := args ▸ Vector.getElem_mem k.isLt
  rcases mem_args member with same | same | same
  · exact Or.inl (by rw [same])
  · exact Or.inr (Or.inl (by rw [same]))
  · exact Or.inr (Or.inr (by rw [same]; rfl))

section Expressions

variable {index : CcStrview → Option Nat} {params : Nat}

def Finds (index : CcStrview → Option Nat) (params : Nat) : Prop :=
  ∀ view i, index view = some i → i < params

def lookupBy (index : CcStrview → Option Nat) (view : CcStrview) : Except Halt Nat :=
  match index view with
  | some i => .ok i
  | none => .error .abort

/-- What lowering an arithmetic tree of `size` nodes from the id `id` on yields. -/
structure LoweredFrom (params : Nat) (id : BitVec 12) (size : Nat) (low : Lowered) : Prop where
  arg : low.arg = ⟨id, ccSsaWidth32⟩
  next : low.next = id + BitVec.ofNat 12 size
  count : low.toks.length = size
  drawn : ∀ tok ∈ low.toks, Drawn id size tok.result.id
  root : ∃ tok ∈ low.toks, tok.result.id = id
  form : ∀ known, paramIds params ⊆ known → (∀ other ∈ known, ¬ Drawn id size other) →
    Scoped known low.toks
  operated : ∀ tok ∈ low.toks, tok.Operated

theorem paramId_mem {i : Nat} (found : i < params) (few : params ≤ 30) :
    ccSsaIdParam i ∈ paramIds params := by
  have value : (ccSsaIdParam i).toNat = i + 2 := paramId_toNat (by omega)
  exact ⟨by omega, by omega⟩

theorem lowered_parameter {id : BitVec 12} {i : Nat} (found : i < params) (few : params ≤ 30)
    (start : 32 ≤ id.toNat) :
    LoweredFrom params id 1
      ⟨⟨id, ccSsaWidth32⟩, id + 1, [parameterToken ⟨id, ccSsaWidth32⟩ i]⟩ := by
  have named : id ≠ 0 := by
    rintro rfl
    simp at start
  constructor
  · rfl
  · rfl
  · rfl
  · intro tok member
    rw [List.mem_singleton.mp member]
    exact ⟨Nat.le_refl _, Nat.lt_succ_self _⟩
  · exact ⟨_, List.mem_singleton_self _, rfl⟩
  · intro known params new
    refine ⟨named, fun member => new id member ⟨Nat.le_refl _, Nat.lt_succ_self _⟩, ?_, trivial⟩
    intro other used
    rcases uses_args rfl used with same | same | same
    · exact Or.inr (params (same ▸ paramId_mem found few))
    · exact Or.inl same
    · exact Or.inl same
  · intro tok member
    rw [List.mem_singleton.mp member]
    refine ⟨by simp [parameterToken], fun k needed => ?_⟩
    have first : k = 0 := Fin.ext (by simpa [parameterToken, operandCount] using needed)
    subst first
    have value : (ccSsaIdParam i).toNat = i + 2 := paramId_toNat (by omega)
    intro null
    rw [show ((parameterToken ⟨id, ccSsaWidth32⟩ i).arg 0).id = ccSsaIdParam i
      from rfl] at null
    rw [null] at value
    simp [ccSsaIdNull] at value

theorem operationType_count {op : CcAstBinop} (arithmetic : op.isArithmetic = true) :
    operandCount (ccSsaTypeFromAstBinopType op) = 2 := by
  cases op <;> first | rfl | exact absurd arithmetic (by decide)

theorem operationType_plain (op : CcAstBinop) : ccSsaTypeFromAstBinopType op ≠ .rawData := by
  cases op <;> decide

theorem LoweredFrom.arg_named {id : BitVec 12} {size : Nat} {low : Lowered}
    (lowered : LoweredFrom params id size low) (positive : 0 < id.toNat) :
    low.arg.id ≠ ccSsaIdNull := by
  rw [lowered.arg]
  rintro rfl
  exact absurd positive (by decide)

theorem binop_operated {op : CcAstBinop} {result left right : CcSsaArgument}
    (arithmetic : op.isArithmetic = true) (leftNamed : left.id ≠ ccSsaIdNull)
    (rightNamed : right.id ≠ ccSsaIdNull) : (binopToken op result left right).Operated := by
  refine ⟨operationType_plain op, fun k needed => ?_⟩
  rw [show (binopToken op result left right).type = ccSsaTypeFromAstBinopType op from rfl,
    operationType_count arithmetic] at needed
  rcases (show k.val = 0 ∨ k.val = 1 by omega) with first | last
  · rw [show k = 0 from Fin.ext first]
    exact leftNamed
  · rw [show k = 1 from Fin.ext last]
    exact rightNamed

theorem binop_scoped {op : CcAstBinop} {id : BitVec 12} {known : Set (BitVec 12)}
    {left right : Lowered} (leftScoped : Scoped known left.toks)
    (rightScoped : Scoped (knownAfter known left.toks) right.toks) (named : id ≠ 0)
    (new : id ∉ knownAfter known (left.toks ++ right.toks))
    (leftRoot : ∃ tok ∈ left.toks, tok.result.id = left.arg.id)
    (rightRoot : ∃ tok ∈ right.toks, tok.result.id = right.arg.id) :
    Scoped known
      (left.toks ++ right.toks ++ [binopToken op ⟨id, ccSsaWidth32⟩ left.arg right.arg]) := by
  refine scoped_append.mpr ⟨scoped_append.mpr ⟨leftScoped, rightScoped⟩, named, new, ?_, trivial⟩
  intro other used
  rcases uses_args rfl used with rfl | rfl | null
  · obtain ⟨tok, member, same⟩ := leftRoot
    exact Or.inr (mem_knownAfter.mpr (Or.inr ⟨tok, List.mem_append_left _ member, same⟩))
  · obtain ⟨tok, member, same⟩ := rightRoot
    exact Or.inr (mem_knownAfter.mpr (Or.inr ⟨tok, List.mem_append_right _ member, same⟩))
  · exact Or.inl null

theorem LoweredFrom.binop {op : CcAstBinop} {id : BitVec 12} {leftSize rightSize : Nat}
    {left right : Lowered} (arithmetic : op.isArithmetic = true)
    (lowLeft : LoweredFrom params (id + 1) leftSize left)
    (lowRight : LoweredFrom params left.next rightSize right) (start : 32 ≤ id.toNat)
    (nonempty : 0 < rightSize) (room : id.toNat + (leftSize + rightSize + 1) ≤ 4096) :
    LoweredFrom params id (leftSize + rightSize + 1) ⟨⟨id, ccSsaWidth32⟩, right.next,
      left.toks ++ right.toks ++ [binopToken op ⟨id, ccSsaWidth32⟩ left.arg right.arg]⟩ := by
  have second : (id + 1).toNat = id.toNat + 1 := toNat_succ_small (by omega)
  have third : left.next.toNat = id.toNat + 1 + leftSize := by
    rw [lowLeft.next, toNat_add_small (by omega), second]
  -- the root's id, the ids of the left side and those of the right side follow one another
  have leftRange : ∀ tok ∈ left.toks, id.toNat < tok.result.id.toNat ∧
      tok.result.id.toNat < id.toNat + 1 + leftSize := fun tok member => by
    have range := lowLeft.drawn tok member
    simp only [Drawn, second] at range
    omega
  have rightRange : ∀ tok ∈ right.toks, id.toNat + leftSize < tok.result.id.toNat ∧
      tok.result.id.toNat < id.toNat + 1 + leftSize + rightSize := fun tok member => by
    have range := lowRight.drawn tok member
    simp only [Drawn, third] at range
    omega
  constructor
  · rfl
  · change right.next = id + BitVec.ofNat 12 (leftSize + rightSize + 1)
    rw [lowRight.next, lowLeft.next, BitVec.ofNat_add, BitVec.ofNat_add]
    ac_rfl
  · simp only [List.length_append, lowLeft.count, lowRight.count, List.length_singleton]
  · intro tok member
    simp only [List.mem_append, List.mem_singleton] at member
    rcases member with (before | between) | rfl
    · have range := leftRange tok before
      exact ⟨by omega, by omega⟩
    · have range := rightRange tok between
      exact ⟨by omega, by omega⟩
    · exact ⟨Nat.le_refl _, by show id.toNat < _; omega⟩
  · exact ⟨_, List.mem_append_right _ (List.mem_singleton_self _), rfl⟩
  · intro known params new
    refine binop_scoped ?_ ?_ ?_ ?_ (lowLeft.arg ▸ lowLeft.root) (lowRight.arg ▸ lowRight.root)
    · refine lowLeft.form known params fun other member drawn => new other member ?_
      simp only [Drawn, second] at drawn ⊢
      omega
    · refine lowRight.form _ (fun other member => mem_knownAfter.mpr (Or.inl (params member))) ?_
      intro other member drawn
      simp only [Drawn, third] at drawn
      rcases mem_knownAfter.mp member with old | ⟨tok, before, rfl⟩
      · refine new other old ?_
        simp only [Drawn]
        omega
      · have range := leftRange tok before
        omega
    · rintro rfl
      simp at start
    · intro member
      rcases mem_knownAfter.mp member with old | ⟨tok, before, same⟩
      · exact new id old ⟨Nat.le_refl _, by omega⟩
      · have equal : tok.result.id.toNat = id.toNat := congrArg BitVec.toNat same
        rcases List.mem_append.mp before with inLeft | inRight
        · have range := leftRange tok inLeft
          omega
        · have range := rightRange tok inRight
          omega
  · intro tok member
    simp only [List.mem_append, List.mem_singleton] at member
    rcases member with (before | between) | rfl
    · exact lowLeft.operated tok before
    · exact lowRight.operated tok between
    · exact binop_operated arithmetic (lowLeft.arg_named (by omega)) (lowRight.arg_named (by omega))

theorem Tree.Arithmetic.lowered (finds : Finds index params) (few : params ≤ 30) {tree : Tree}
    (arithmetic : tree.Arithmetic index) (id : BitVec 12) (start : 32 ≤ id.toNat)
    (room : id.toNat + tree.size ≤ 4096) :
    ∃ low, tree.lower (lookupBy index) id = .ok low ∧ LoweredFrom params id tree.size low := by
  induction arithmetic generalizing id with
  | @parameter name i found =>
      refine ⟨_, ?_, lowered_parameter (finds name i found) few start⟩
      simp only [Tree.lower, lookupBy, found]
      rfl
  | @binop op lhs rhs operator _ _ left right =>
      have nonempty := size_pos rhs
      rw [Tree.size] at room ⊢
      have second : (id + 1).toNat = id.toNat + 1 := toNat_succ_small (by omega)
      obtain ⟨lowLeft, leftDone, leftFrom⟩ := left (id + 1) (by omega) (by omega)
      have third : lowLeft.next.toNat = id.toNat + 1 + lhs.size := by
        rw [leftFrom.next, toNat_add_small (by omega), second]
      obtain ⟨lowRight, rightDone, rightFrom⟩ := right lowLeft.next (by omega) (by omega)
      refine ⟨_, ?_, leftFrom.binop operator rightFrom start nonempty room⟩
      rw [Tree.lower, leftDone]
      change Tree.lower (lookupBy index) rhs lowLeft.next >>= _ = _
      rw [rightDone]
      change (if op.isArithmetic = true then _ else _) = _
      rw [if_pos operator]
      rfl

/-! ### Evaluating the tokens -/

theorem effect_parameter (meaning : SsaMeaning) (env : SsaEnv) (res : CcSsaArgument) (i : Nat) :
    (parameterToken res i).effect meaning env = .define (env (ccSsaIdParam i)) :=
  congrArg SsaEffect.define (operandValues_get env (parameterToken res i) 0)

def SsaEffect.computed : Option Word → SsaEffect
  | some value => .define (some value)
  | none => .stop .undefined

theorem effect_binop (meaning : SsaMeaning) {op : CcAstBinop} (operator : op.isArithmetic = true)
    {env : SsaEnv} {lhs rhs : CcSsaArgument} {left right : Word} (res : CcSsaArgument)
    (first : env lhs.id = some left) (second : env rhs.id = some right) :
    (binopToken op res lhs rhs).effect meaning env = .computed (op.value left right) := by
  have lhsValue : (operandValues env (binopToken op res lhs rhs)).get 0 = some left := by
    rw [operandValues_get]
    exact first
  have rhsValue : (operandValues env (binopToken op res lhs rhs)).get 1 = some right := by
    rw [operandValues_get]
    exact second
  have arith := arith_of_binop operator
  rw [CcSsaToken.effect, show (binopToken op res lhs rhs).type =
    ccSsaTypeFromAstBinopType op from rfl]
  generalize ccSsaTypeFromAstBinopType op = type at arith ⊢
  cases result : op.value left right <;> cases type <;> first
    | (simp [ssaArith] at arith; done)
    | simp only [ssaEffect, arith, lhsValue, rhsValue, result, SsaEffect.computed]

def Assigns (values : List Word) (env : SsaEnv) : Prop :=
  ∀ i < values.length, env (ccSsaIdParam i) = values[i]?

/-- The tokens compute `value` into `id` and change nothing outside the ids drawn, or end
undefined where there is no value. -/
def Computes (meaning : SsaMeaning) (toks : List CcSsaToken) (id : BitVec 12) (size : Nat)
    (env : SsaEnv) (value : Option Word) : Prop :=
  match value with
  | some word => ∃ after, ssaSteps meaning toks env = .ok after ∧ after id = some word ∧
      ∀ other, ¬ Drawn id size other → after other = env other
  | none => ssaSteps meaning toks env = .error .undefined

theorem assigns_kept {values : List Word} (few : values.length ≤ 30) {env after : SsaEnv}
    (assigns : Assigns values env) {id : BitVec 12} {size : Nat} (start : 32 ≤ id.toNat)
    (kept : ∀ other, ¬ Drawn id size other → after other = env other) : Assigns values after := by
  intro i inside
  have param : (ccSsaIdParam i).toNat = i + 2 := paramId_toNat (by omega)
  rw [kept _ fun drawn => by have low := drawn.1; omega]
  exact assigns i inside

theorem steps_then (meaning : SsaMeaning) {front back : List CcSsaToken} {env middle : SsaEnv}
    (reached : ssaSteps meaning front env = .ok middle) :
    ssaSteps meaning (front ++ back) env = ssaSteps meaning back middle := by
  rw [ssaSteps_append, reached]

theorem steps_stop (meaning : SsaMeaning) {front back : List CcSsaToken} {env : SsaEnv}
    {outcome : SsaOutcome} (stopped : ssaSteps meaning front env = .error outcome) :
    ssaSteps meaning (front ++ back) env = .error outcome := by
  rw [ssaSteps_append, stopped]

theorem computes_root (meaning : SsaMeaning) {op : CcAstBinop} (operator : op.isArithmetic = true)
    {toks : List CcSsaToken} {lhs rhs : CcSsaArgument} {id : BitVec 12} {size : Nat}
    {env last : SsaEnv} {left right : Word} (steps : ssaSteps meaning toks env = .ok last)
    (readLeft : last lhs.id = some left) (readRight : last rhs.id = some right)
    (kept : ∀ other, other ≠ id → ¬ Drawn id (size + 1) other → last other = env other) :
    Computes meaning (toks ++ [binopToken op ⟨id, ccSsaWidth32⟩ lhs rhs]) id (size + 1) env
      (op.value left right) := by
  have effect := effect_binop meaning operator ⟨id, ccSsaWidth32⟩ readLeft readRight
  cases value : op.value left right with
  | none =>
      change ssaSteps meaning _ env = _
      rw [steps_then meaning steps, ssaSteps, effect, value]
      rfl
  | some result =>
      refine ⟨last.set id (.some result), ?_, ?_, ?_⟩
      · rw [steps_then meaning steps, ssaSteps, effect, value]
        rfl
      · rw [SsaEnv.set, if_pos rfl]
      · intro other outside
        have apart : other ≠ id := by
          rintro rfl
          exact outside ⟨Nat.le_refl _, by omega⟩
        rw [SsaEnv.set, if_neg apart]
        exact kept other apart outside

theorem Computes.binop {meaning : SsaMeaning} {op : CcAstBinop} {id : BitVec 12}
    {leftSize rightSize : Nat} {left right : Lowered} {env : SsaEnv} {leftValue rightValue : Option Word}
    (operator : op.isArithmetic = true) (leftFrom : LoweredFrom params (id + 1) leftSize left)
    (rightFrom : LoweredFrom params left.next rightSize right) (nonempty : 0 < rightSize)
    (room : id.toNat + (leftSize + rightSize + 1) ≤ 4096)
    (evalLeft : Computes meaning left.toks (id + 1) leftSize env leftValue)
    (evalRight : ∀ middle : SsaEnv,
      (∀ other, ¬ Drawn (id + 1) leftSize other → middle other = env other) →
        Computes meaning right.toks left.next rightSize middle rightValue) :
    Computes meaning
      (left.toks ++ right.toks ++ [binopToken op ⟨id, ccSsaWidth32⟩ left.arg right.arg]) id
      (leftSize + rightSize + 1) env
      (leftValue.bind fun first => rightValue.bind (op.value first)) := by
  have start : (id + 1).toNat = id.toNat + 1 := toNat_succ_small (by omega)
  have third : left.next.toNat = id.toNat + 1 + leftSize := by
    rw [leftFrom.next, toNat_add_small (by omega), start]
  -- an undefined operand stops the run where the value is undefined
  cases leftValue with
  | none =>
      have stopped : ssaSteps meaning left.toks env = .error .undefined := evalLeft
      exact steps_stop meaning (steps_stop meaning stopped)
  | some first =>
      obtain ⟨middle, stepsLeft, readLeft, keptLeft⟩ := evalLeft
      have later := evalRight middle keptLeft
      cases rightValue with
      | none =>
          have stopped : ssaSteps meaning right.toks middle = .error .undefined := later
          exact steps_stop meaning ((steps_then meaning stepsLeft).trans stopped)
      | some next =>
          obtain ⟨last, stepsRight, readRight, keptRight⟩ := later
          -- the right operand leaves the left operand's id alone
          have untouched : ¬ Drawn left.next rightSize (id + 1) := fun drawn => by
            simp only [Drawn, start, third] at drawn
            have one : 0 < leftSize := by
              obtain ⟨tok, member, _⟩ := leftFrom.root
              rw [← leftFrom.count]
              exact List.length_pos_of_mem member
            omega
          have first : last left.arg.id = .some first := by
            rw [leftFrom.arg, keptRight _ untouched]
            exact readLeft
          have second : last right.arg.id = .some next := by
            rw [rightFrom.arg]
            exact readRight
          refine computes_root meaning operator ((steps_then meaning stepsLeft).trans stepsRight)
            first second ?_
          intro other _ outside
          rw [keptRight other, keptLeft other]
          · intro drawn
            simp only [Drawn, start] at drawn outside
            omega
          · intro drawn
            simp only [Drawn, third] at drawn outside
            omega

/-- Evaluating the tokens of an arithmetic tree computes its value into the root's id. -/
theorem Tree.Arithmetic.computed (meaning : SsaMeaning) {values : List Word}
    (finds : Finds index values.length) (few : values.length ≤ 30) {tree : Tree}
    (arithmetic : tree.Arithmetic index) {id : BitVec 12} (start : 32 ≤ id.toNat)
    (room : id.toNat + tree.size ≤ 4096) {low : Lowered}
    (lowered : tree.lower (lookupBy index) id = .ok low) {env : SsaEnv}
    (assigns : Assigns values env) :
    Computes meaning low.toks id tree.size env (tree.value index values) := by
  induction arithmetic generalizing id low env with
  | @parameter name i found =>
      obtain ⟨j, lookup, rfl⟩ := lower_refVar_ok lowered
      have same : i = j := by
        rw [lookupBy, found] at lookup
        exact Except.ok.inj lookup
      subst same
      have inside := finds name i found
      have value : (Tree.leaf (.refVar name)).value index values = some values[i] := by
        rw [Tree.value, found]
        exact List.getElem?_eq_getElem inside
      have read : env (ccSsaIdParam i) = some values[i] :=
        (assigns i inside).trans (List.getElem?_eq_getElem inside)
      rw [value]
      refine ⟨env.set id (some values[i]), ?_, ?_, ?_⟩
      · rw [ssaSteps, effect_parameter, read]
        rfl
      · rw [SsaEnv.set, if_pos rfl]
      · intro other outside
        rw [SsaEnv.set, if_neg]
        rintro rfl
        exact outside ⟨Nat.le_refl _, Nat.lt_succ_self _⟩
  | @binop op lhs rhs operator arithmeticLeft arithmeticRight left right =>
      obtain ⟨lowLeft, lowRight, leftDone, rightDone, _, rfl⟩ := lower_binop_ok lowered
      rw [Tree.size] at room ⊢
      have nonempty := size_pos rhs
      have second : (id + 1).toNat = id.toNat + 1 := toNat_succ_small (by omega)
      obtain ⟨_, again, leftFrom⟩ := arithmeticLeft.lowered finds few (id + 1) (by omega)
        (by omega)
      cases leftDone.symm.trans again
      -- the right side is evaluated where the left one has written only ids of its own
      have third : lowLeft.next.toNat = id.toNat + 1 + lhs.size := by
        rw [leftFrom.next, toNat_add_small (by omega), second]
      obtain ⟨_, more, rightFrom⟩ := arithmeticRight.lowered finds few lowLeft.next
        (by omega) (by omega)
      cases rightDone.symm.trans more
      rw [Tree.value]
      refine Computes.binop operator leftFrom rightFrom nonempty (by omega)
        (left (by omega) (by omega) leftDone assigns) fun middle kept => ?_
      exact right (by omega) (by omega) rightDone (assigns_kept few assigns (by omega) kept)

end Expressions

/-- Every operand a token needs is a parameter or the result of an earlier token. -/
def OperandsDefined (params : Nat) (toks : List CcSsaToken) : Prop :=
  ∀ front tok back, toks = front ++ tok :: back →
    ∀ k : Fin ccSsaMaxArgs, k.val < operandCount tok.type →
      (tok.arg k).id ∈ paramIds params ∨ ∃ earlier ∈ front, earlier.result.id = (tok.arg k).id

theorem operandsDefined {params : Nat} {toks : List CcSsaToken} (form : SsaForm params toks)
    (operated : ∀ tok ∈ toks, tok.Operated) :
    OperandsDefined params toks := by
  rintro front tok back rfl k needed
  have member : tok ∈ front ++ tok :: back := by simp
  obtain ⟨_, _, _, operands, _⟩ := scoped_append.mp form
  rcases operands (tok.arg k).id ⟨(operated tok member).1, k, rfl⟩ with null | known
  · exact absurd null ((operated tok member).2 k needed)
  · rcases mem_knownAfter.mp known with param | ⟨earlier, before, same⟩
    · exact Or.inl param
    · exact Or.inr ⟨earlier, before, same⟩

/-- Lowering an arithmetic expression over at most 30 parameters appends one token a node, in
SSA form with the ids drawn for the nodes, and the tokens compute the expression's value. -/
theorem fromAst_arithmetic (emit : CcSsaEmitter) {inside : Nat → Prop} {tree : Tree}
    {ref : CcAstNodeRef} (names : List (List UInt8))
    (parameters : ParameterNames emit.state emit.tdef names) (few : names.length ≤ 30)
    (denoted : tree.Denotes emit.state inside ref)
    (arithmetic : tree.Arithmetic (parameterNamed emit.state names))
    (start : ccSsaFirstTemporal.toNat ≤ emit.arg.toNat)
    (room : emit.arg.toNat + tree.size ≤ 4096) {fuel : Nat} (enough : tree.size ≤ fuel) :
    ∃ arg toks, runEmit (ccSsaFromAstWithinFunc fuel ref) emit =
        .ok (arg, emit.emitted ⟨arg, emit.arg + BitVec.ofNat 12 tree.size, toks⟩) ∧
      toks.length = tree.size ∧ SsaForm names.length toks ∧ OperandsDefined names.length toks ∧
      (∀ tok ∈ toks, Drawn emit.arg tree.size tok.result.id) ∧
      ∀ meaning values, values.length = names.length →
        Computes meaning toks arg.id tree.size (paramEnv values)
          (tree.value (parameterNamed emit.state names) values) := by
  have finds : Finds (parameterNamed emit.state names) names.length := fun _ _ => parameterNamed_lt
  have lookup : ccSsaParameterIndex emit.state emit.tdef =
      lookupBy (parameterNamed emit.state names) := funext fun view => parameterIndex_names parameters view
  obtain ⟨low, lowered, source⟩ := arithmetic.lowered finds few emit.arg start room
  have ran := fromAstWithinFunc_lower emit denoted enough
  rw [lookup, lowered] at ran
  have form := source.form (paramIds names.length) (fun _ member => member)
    fun other member drawn => by
      have low := drawn.1
      have high := member.2
      have first : ccSsaFirstTemporal.toNat = 32 := rfl
      omega
  refine ⟨low.arg, low.toks, ?_, source.count, form, ?_, source.drawn, ?_⟩
  · rw [ran, ← source.next]
    rfl
  · exact operandsDefined form source.operated
  · intro meaning values arity
    rw [source.arg]
    refine arithmetic.computed meaning (arity ▸ finds) (arity ▸ few) start room lowered ?_
    intro i bound
    have param : (ccSsaIdParam i).toNat = i + 2 := paramId_toNat (by omega)
    rw [paramEnv, param, if_pos (by omega), Nat.add_sub_cancel]

def quotientState : CcState :=
  { CcState.start [97, 98] [] with
    nodes :=
      [.invalid, .newType 0 none 4, .newVar ⟨0, 1⟩ 0 1 0, .newVar ⟨1, 1⟩ 0 1 0,
        .newType 1 (some 0) ccAstTypeFlagsFunction, .refVar ⟨0, 1⟩, .refVar ⟨1, 1⟩, .binop .div 5 6]
    childArrays := [[2, 3]]
    nodesWritten := Nat.zero_le _ }

def quotientEmitter : CcSsaEmitter := ⟨quotientState, 0, ccSsaFirstTemporal, 4⟩

def quotientTree : Tree := .binop .div (.leaf (.refVar ⟨0, 1⟩)) (.leaf (.refVar ⟨1, 1⟩))

theorem fromAst_quotient :
    ∃ arg toks, runEmit (ccSsaFromAstWithinFunc 3 7) quotientEmitter =
        .ok (arg, quotientEmitter.emitted
          ⟨arg, quotientEmitter.arg + BitVec.ofNat 12 quotientTree.size, toks⟩) ∧
      toks.length = quotientTree.size ∧ SsaForm 2 toks ∧ OperandsDefined 2 toks ∧
      (∀ tok ∈ toks, Drawn quotientEmitter.arg quotientTree.size tok.result.id) ∧
      ∀ meaning values, values.length = 2 →
        Computes meaning toks arg.id quotientTree.size (paramEnv values)
          (quotientTree.value (parameterNamed quotientState [[97], [98]]) values) := by
  have parameters : ParameterNames quotientState 4 [[97], [98]] :=
    ⟨1, some 0, _, rfl, .cons ⟨⟨0, 1⟩, 0, 1, 0, rfl, by decide⟩
      (.cons ⟨⟨1, 1⟩, 0, 1, 0, rfl, by decide⟩ .nil)⟩
  have denoted : quotientTree.Denotes quotientState (fun _ => True) 7 :=
    ⟨trivial, 5, 6, rfl, ⟨trivial, rfl, rfl⟩, ⟨trivial, rfl, rfl⟩⟩
  have first : parameterNamed quotientState [[97], [98]] ⟨0, 1⟩ = some 0 := by decide
  have second : parameterNamed quotientState [[97], [98]] ⟨1, 1⟩ = some 1 := by decide
  exact fromAst_arithmetic quotientEmitter [[97], [98]] parameters (by decide) denoted
    (.binop rfl (.parameter first) (.parameter second)) (by decide) (by decide) (by decide)

end Estros
