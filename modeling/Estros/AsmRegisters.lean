import Estros.AsmLowering
import Estros.ExpressionLowering

/-!
The register table while a function is lowered. `cc_asm_is_fixed_reg` holds of every
register, so no entry is ever freed: each operation takes the next of `$t0` to `$t6`, and
from the eighth operation on a spill.
-/

namespace Estros

theorem firstEntry_eq_some {as : CcAsmState} {id : BitVec 12} {first bound reg : Nat} :
    as.firstEntry id first bound = some reg ↔
      (as.regInfo reg).id = id ∧ (first ≤ reg ∧ reg < bound) ∧
        ∀ i, first ≤ i → i < reg → (as.regInfo i).id ≠ id := by
  rw [CcAsmState.firstEntry, List.find?_range'_eq_some, List.mem_range'_1]
  simp only [decide_eq_true_eq, Bool.not_eq_true', decide_eq_false_iff_not]
  refine and_congr_right fun _ => and_congr_left fun _ => ?_
  omega

theorem firstEntry_eq_none {as : CcAsmState} {id : BitVec 12} {first bound : Nat} :
    as.firstEntry id first bound = none ↔
      ∀ i, first ≤ i → i < bound → (as.regInfo i).id ≠ id := by
  rw [CcAsmState.firstEntry, List.find?_range'_eq_none]
  simp only [Bool.not_eq_true', decide_eq_false_iff_not]
  refine forall₂_congr fun i low => ?_
  constructor
  · intro other below
    exact other (by omega)
  · intro other below
    exact other (by omega)

theorem isFixedReg_true (reg : Nat) : ccAsmIsFixedReg reg = true := by
  have either : ccAsmRegisterA0 ≤ reg ∨ reg ≤ ccAsmRegisterA3 := by
    unfold ccAsmRegisterA0 ccAsmRegisterA3
    omega
  rcases either with high | low
  · simp [ccAsmIsFixedReg, high]
  · simp [ccAsmIsFixedReg, low]

theorem regfree_run {as : CcAsmState} {reg : Nat} (used : (as.regInfo reg).id ≠ 0) :
    ccAsmRegfree as reg = .ok as := by
  rw [ccAsmRegfree, if_pos used, if_pos (isFixedReg_true reg)]
  rfl

theorem freeIfLast_run {as : CcAsmState} {reg : Nat} (used : (as.regInfo reg).id ≠ 0)
    {rest : List CcSsaToken} (behind : rest ≠ []) (arg : CcSsaArgument) :
    ccAsmFreeIfLast (lastUseIn rest arg) as reg = .ok as := by
  rw [lastUseIn, if_neg behind]
  change (if _ then ccAsmRegfree as reg else pure as) = _
  split
  · exact regfree_run used
  · rfl

theorem findUsed_run {as : CcAsmState} {arg : CcSsaArgument} {reg : Nat}
    (below : reg < as.nRegInfo) (holds : (as.regInfo reg).id = arg.id) :
    ∃ found, ccAsmFindUsed as arg = .ok found ∧ found < as.nRegInfo ∧
      (as.regInfo found).id = arg.id := by
  rw [ccAsmFindUsed]
  cases search : as.firstEntry arg.id 0 as.nRegInfo with
  | none => exact absurd holds (firstEntry_eq_none.mp search reg (Nat.zero_le _) below)
  | some found =>
      obtain ⟨same, ⟨_, bound⟩, _⟩ := firstEntry_eq_some.mp search
      exact ⟨found, rfl, bound, same⟩

theorem findFree_integer (as : CcAsmState) :
    (∃ reg, ccAsmFindFree as .integer = (reg, as) ∧ (as.regInfo reg).id = 0 ∧
      (ccAsmRegisterT0 ≤ reg ∧ reg < ccAsmRegisterT7 ∨
        ccAsmRegisterSpill ≤ reg ∧ reg < as.nRegInfo)) ∨
      ccAsmFindFree as .integer = (as.nRegInfo, { as with nRegInfo := as.nRegInfo + 1 }) := by
  simp only [ccAsmFindFree]
  cases temporary : as.firstEntry 0 ccAsmRegisterT0 ccAsmRegisterT7 with
  | some reg =>
      obtain ⟨free, bounds, _⟩ := firstEntry_eq_some.mp temporary
      exact Or.inl ⟨reg, rfl, free, Or.inl bounds⟩
  | none =>
      rw [Option.none_or]
      cases spill : as.firstEntry 0 ccAsmRegisterSpill as.nRegInfo with
      | some reg =>
          obtain ⟨free, bounds, _⟩ := firstEntry_eq_some.mp spill
          exact Or.inl ⟨reg, rfl, free, Or.inr bounds⟩
      | none => exact Or.inr rfl

@[simp] theorem setReg_regInfo (as : CcAsmState) (reg other : Nat) (arg : CcSsaArgument) :
    (as.setReg reg arg).regInfo other = if other = reg then arg else as.regInfo other := rfl

@[simp] theorem setReg_nRegInfo (as : CcAsmState) (reg : Nat) (arg : CcSsaArgument) :
    (as.setReg reg arg).nRegInfo = as.nRegInfo := rfl

@[simp] theorem write_regInfo (as : CcAsmState) (line : CcAsmLine) :
    (ccAsmWrite as line).regInfo = as.regInfo := rfl

@[simp] theorem write_nRegInfo (as : CcAsmState) (line : CcAsmLine) :
    (ccAsmWrite as line).nRegInfo = as.nRegInfo := rfl

def ccAsmInsn : CcSsaTokenType → Option CcAsmInsn
  | .add => some .add
  | .sub => some .sub
  | .mul => some .mul
  | .div => some .div
  | .rem => some .rem
  | .lshift => some .shl
  | .rshift => some .shr
  | .xor => some .xor
  | .or => some .or
  | .and => some .and
  | _ => none

theorem switch_insn {tok : CcSsaToken} {insn : CcAsmInsn} (type : ccAsmInsn tok.type = some insn)
    (lastUse : CcSsaArgument → Except Halt Bool) (as : CcAsmState) :
    ccAsmSwitch lastUse tok as = ccAsmBinop lastUse insn tok as := by
  cases kind : tok.type <;> rw [kind] at type <;> cases type <;> simp only [ccAsmSwitch, kind]

structure Operates (known : Set (BitVec 12)) (tok : CcSsaToken) : Prop where
  insn : (ccAsmInsn tok.type).isSome = true
  temporal : ccSsaFirstTemporal ≤ tok.result.id
  fresh : tok.result.id ∉ known
  left : (tok.arg 0).id ∈ known
  right : (tok.arg 1).id ∈ known

/-- The tokens of an optimised function: nothing but `NONE`, `RETURN` and operations whose
operands are parameters or results of earlier operations. -/
def CodegenReady (known : Set (BitVec 12)) : List CcSsaToken → Prop
  | [] => True
  | tok :: rest =>
      if tok.type = .none ∨ tok.type = .ret then CodegenReady known rest
      else Operates known tok ∧ CodegenReady (insert tok.result.id known) rest

instance (known : Set (BitVec 12)) [DecidablePred (· ∈ known)] (tok : CcSsaToken) :
    Decidable (Operates known tok) :=
  decidable_of_iff ((ccAsmInsn tok.type).isSome = true ∧ ccSsaFirstTemporal ≤ tok.result.id ∧
      tok.result.id ∉ known ∧ (tok.arg 0).id ∈ known ∧ (tok.arg 1).id ∈ known)
    ⟨fun ⟨insn, temporal, fresh, left, right⟩ => ⟨insn, temporal, fresh, left, right⟩,
      fun operates => ⟨operates.insn, operates.temporal, operates.fresh, operates.left,
        operates.right⟩⟩

instance decidableCodegenReady : ∀ (known : Set (BitVec 12)) [DecidablePred (· ∈ known)]
    (toks : List CcSsaToken), Decidable (CodegenReady known toks)
  | _, _, [] => .isTrue trivial
  | known, _, tok :: rest =>
      have _inserted : DecidablePred (· ∈ insert tok.result.id known) := fun id =>
        decidable_of_iff (id = tok.result.id ∨ id ∈ known) Set.mem_insert_iff.symm
      have _same : Decidable (CodegenReady known rest) := decidableCodegenReady known rest
      have _behind : Decidable (CodegenReady (insert tok.result.id known) rest) :=
        decidableCodegenReady _ rest
      inferInstanceAs (Decidable (if tok.type = .none ∨ tok.type = .ret then CodegenReady known rest
        else Operates known tok ∧ CodegenReady (insert tok.result.id known) rest))

theorem Operates.nonzero {known : Set (BitVec 12)} {tok : CcSsaToken} (operates : Operates known tok) :
    tok.result.id ≠ 0 := by
  intro zero
  have temporal := operates.temporal
  rw [zero] at temporal
  exact absurd temporal (by decide)

/-- Every known id has an entry in the table. -/
structure Table (known : Set (BitVec 12)) (as : CcAsmState) : Prop where
  physical : ccAsmRegisterSpill ≤ as.nRegInfo
  named : ∀ id ∈ known, id ≠ 0
  entry : ∀ id ∈ known, ∃ reg < as.nRegInfo, (as.regInfo reg).id = id

theorem Table.alloc {known : Set (BitVec 12)} {as : CcAsmState} (table : Table known as)
    {arg : CcSsaArgument} (nonzero : arg.id ≠ 0) :
    Table (insert arg.id known) (ccAsmRegalloc as .integer arg).2 := by
  have physical : 32 ≤ as.nRegInfo := table.physical
  -- Known ids are not 0, so the entry that the new one takes over was none of theirs.
  have kept {reg : Nat} (free : reg < as.nRegInfo → (as.regInfo reg).id = 0)
      {grown : CcAsmState} (same : grown.regInfo = as.regInfo) (more : as.nRegInfo ≤ grown.nRegInfo)
      (inside : reg < grown.nRegInfo) : Table (insert arg.id known) (grown.setReg reg arg) := by
    constructor
    · exact Nat.le_trans table.physical more
    · rintro id (rfl | member)
      · exact nonzero
      · exact table.named id member
    · rintro id (rfl | member)
      · exact ⟨reg, inside, by rw [setReg_regInfo, if_pos rfl]⟩
      · obtain ⟨old, below, holds⟩ := table.entry id member
        have other : old ≠ reg := by
          rintro rfl
          exact table.named id member (holds.symm.trans (free below))
        exact ⟨old, Nat.lt_of_lt_of_le below more, by rw [setReg_regInfo, if_neg other, same, holds]⟩
  rw [ccAsmRegalloc]
  rcases findFree_integer as with ⟨reg, found, free, bounds⟩ | found
  · rw [found]
    refine kept (fun _ => free) rfl (Nat.le_refl _) ?_
    unfold ccAsmRegisterT0 ccAsmRegisterT7 at bounds
    rcases bounds with temporary | spill
    · exact Nat.lt_of_lt_of_le temporary.2 (by omega)
    · exact spill.2
  · rw [found]
    exact kept (fun below => absurd below (Nat.lt_irrefl _)) rfl (Nat.le_succ _) (Nat.lt_succ_self _)

/-- What an operation does: it takes a register, finds those of its operands and writes its
line; behind the last token of a function it then fails. -/
theorem binop_run {known : Set (BitVec 12)} {as : CcAsmState} {tok : CcSsaToken}
    (table : Table known as) (operates : Operates known tok) (insn : CcAsmInsn) :
    ∃ arg0 arg1,
      let next := (ccAsmRegalloc as .integer tok.result).2
      (arg0 < next.nRegInfo ∧ (next.regInfo arg0).id = (tok.arg 0).id) ∧
      (arg1 < next.nRegInfo ∧ (next.regInfo arg1).id = (tok.arg 1).id) ∧
      (∀ rest ≠ [], ccAsmBinop (lastUseIn rest) insn tok as =
        .ok (ccAsmWrite next (.binop insn (ccAsmRegalloc as .integer tok.result).1 arg0 arg1))) ∧
      ccAsmBinop (lastUseIn []) insn tok as = .error (.assertion .ccSsaIsLastUse) := by
  have grown := table.alloc operates.nonzero
  have left : (tok.arg 0).id ∈ insert tok.result.id known := Set.mem_insert_of_mem _ operates.left
  have right : (tok.arg 1).id ∈ insert tok.result.id known := Set.mem_insert_of_mem _ operates.right
  obtain ⟨entry0, below0, holds0⟩ := grown.entry _ left
  obtain ⟨entry1, below1, holds1⟩ := grown.entry _ right
  obtain ⟨arg0, found0, bound0, same0⟩ := findUsed_run below0 holds0
  obtain ⟨arg1, found1, bound1, same1⟩ := findUsed_run below1 holds1
  refine ⟨arg0, arg1, ⟨bound0, same0⟩, ⟨bound1, same1⟩, fun rest behind => ?_, ?_⟩
  · let line := CcAsmLine.binop insn (ccAsmRegalloc as .integer tok.result).1 arg0 arg1
    let written := ccAsmWrite (ccAsmRegalloc as .integer tok.result).2 line
    have used0 : (written.regInfo arg0).id ≠ 0 := same0.trans_ne (grown.named _ left)
    have used1 : (written.regInfo arg1).id ≠ 0 := same1.trans_ne (grown.named _ right)
    simp only [ccAsmBinop, found0, found1, bind, Except.bind]
    rw [freeIfLast_run used0 behind]
    exact freeIfLast_run used1 behind _
  · simp only [ccAsmBinop, found0, found1, bind, Except.bind]
    rfl

theorem allocates_insn {type : CcSsaTokenType} (insn : (ccAsmInsn type).isSome = true) :
    type.allocates = true := by
  cases type <;> first | rfl | cases insn

/-! ### The order in which registers are handed out -/

def slot (index : Nat) : Nat :=
  if index < 7 then ccAsmRegisterT0 + index else ccAsmRegisterSpill + (index - 7)

structure Filled (count : Nat) (as : CcAsmState) : Prop where
  temporaries : ∀ i < 7, (as.regInfo (ccAsmRegisterT0 + i)).id = 0 ↔ count ≤ i
  spills : ∀ reg, ccAsmRegisterSpill ≤ reg → reg < as.nRegInfo → (as.regInfo reg).id ≠ 0
  size : as.nRegInfo = ccAsmRegisterSpill + (count - 7)

theorem Filled.findFree {count : Nat} {as : CcAsmState} (filled : Filled count as) :
    ccAsmFindFree as .integer =
      (slot count, { as with nRegInfo := ccAsmRegisterSpill + (count + 1 - 7) }) := by
  have size := filled.size
  by_cases room : count < 7
  · have found : as.firstEntry 0 ccAsmRegisterT0 ccAsmRegisterT7 = some (slot count) := by
      refine firstEntry_eq_some.mpr ⟨?_, ?_, fun i low high => ?_⟩
      · rw [slot, if_pos room]
        exact (filled.temporaries count room).mpr (Nat.le_refl _)
      · simp only [slot, if_pos room, ccAsmRegisterT0, ccAsmRegisterT7]
        omega
      · simp only [slot, if_pos room, ccAsmRegisterT0] at low high
        obtain ⟨index, rfl⟩ := Nat.exists_eq_add_of_le low
        intro free
        have later := (filled.temporaries index (by omega)).mp free
        omega
    have same : ccAsmRegisterSpill + (count + 1 - 7) = as.nRegInfo := by
      rw [size]
      omega
    rw [same]
    simp only [ccAsmFindFree, found, Option.some_or]
  · have none : as.firstEntry 0 ccAsmRegisterT0 ccAsmRegisterT7 = none := by
      refine firstEntry_eq_none.mpr fun i low high => ?_
      simp only [ccAsmRegisterT0, ccAsmRegisterT7] at low high
      obtain ⟨index, rfl⟩ := Nat.exists_eq_add_of_le low
      intro free
      have later := (filled.temporaries index (by omega)).mp free
      omega
    have noSpill : as.firstEntry 0 ccAsmRegisterSpill as.nRegInfo = Option.none :=
      firstEntry_eq_none.mpr filled.spills
    have later : as.nRegInfo + 1 = ccAsmRegisterSpill + (count + 1 - 7) := by
      rw [size]
      omega
    rw [slot, if_neg room, ← size, ← later]
    simp only [ccAsmFindFree, none, noSpill, Option.or_none]

theorem Filled.alloc {count : Nat} {as : CcAsmState} (filled : Filled count as)
    {arg : CcSsaArgument} (nonzero : arg.id ≠ 0) :
    Filled (count + 1) (ccAsmRegalloc as .integer arg).2 := by
  have size := filled.size
  simp only [ccAsmRegisterSpill] at size
  rw [ccAsmRegalloc, filled.findFree]
  constructor
  · intro i few
    have old := filled.temporaries i few
    simp only [setReg_regInfo, slot, ccAsmRegisterT0, ccAsmRegisterSpill] at old ⊢
    by_cases room : count < 7
    · rw [if_pos room]
      by_cases same : i = count
      · subst same
        rw [if_pos rfl]
        exact ⟨fun zero => absurd zero nonzero, fun late => absurd late (by omega)⟩
      · rw [if_neg (by omega), old]
        omega
    · rw [if_neg room, if_neg (by omega), old]
      omega
  · intro reg high below
    have old := filled.spills reg high
    simp only [setReg_regInfo, setReg_nRegInfo, slot, ccAsmRegisterSpill, ccAsmRegisterT0] at *
    by_cases room : count < 7
    · rw [if_pos room, if_neg (by omega)]
      exact old (by omega)
    · rw [if_neg room]
      by_cases same : reg = 32 + (count - 7)
      · rw [if_pos same]
        exact nonzero
      · rw [if_neg same]
        exact old (by omega)
  · rfl

theorem write_filled {count : Nat} {as : CcAsmState} (filled : Filled count as)
    (line : CcAsmLine) : Filled count (ccAsmWrite as line) :=
  ⟨filled.temporaries, filled.spills, filled.size⟩

theorem write_table {known : Set (BitVec 12)} {as : CcAsmState} (table : Table known as)
    (line : CcAsmLine) : Table known (ccAsmWrite as line) :=
  ⟨table.physical, table.named, table.entry⟩

def operations (toks : List CcSsaToken) : List CcSsaToken :=
  toks.filter fun tok => (ccAsmInsn tok.type).isSome

theorem operations_insn {tok : CcSsaToken} (insn : (ccAsmInsn tok.type).isSome = true)
    (rest : List CcSsaToken) : operations (tok :: rest) = tok :: operations rest :=
  List.filter_cons_of_pos insn

theorem operations_plain {tok : CcSsaToken} (plain : tok.type = .none ∨ tok.type = .ret)
    (rest : List CcSsaToken) : operations (tok :: rest) = operations rest := by
  refine List.filter_cons_of_neg ?_
  rcases plain with none | ret
  · simp [none, ccAsmInsn]
  · simp [ret, ccAsmInsn]

theorem handedOut_slots {known : Set (BitVec 12)} {count : Nat} {as : CcAsmState}
    (toks back : List CcSsaToken) (ready : CodegenReady known toks) (table : Table known as)
    (filled : Filled count as) :
    handedOut toks back as =
      (List.range (operations toks).length).map fun i => slot (count + i) := by
  induction toks generalizing known count as with
  | nil => rfl
  | cons tok rest ih =>
      rw [CodegenReady] at ready
      rw [handedOut]
      by_cases plain : tok.type = .none ∨ tok.type = .ret
      · rw [if_pos plain] at ready
        rw [operations_plain plain]
        rcases plain with none | ret
        · simp only [ccAsmTaken, ccAsmSwitch, none, CcSsaTokenType.allocates]
          exact ih ready table filled
        · simp only [ccAsmTaken, ccAsmSwitch, ret, CcSsaTokenType.allocates]
          exact ih ready (write_table table _) (write_filled filled _)
      · rw [if_neg plain] at ready
        obtain ⟨operates, behind⟩ := ready
        obtain ⟨insn, type⟩ := Option.isSome_iff_exists.mp operates.insn
        obtain ⟨arg0, arg1, _, _, goes, stops⟩ := binop_run table operates insn
        have next := List.range_succ_eq_map (n := (operations rest).length)
        rw [ccAsmTaken, if_pos (allocates_insn operates.insn), filled.findFree, switch_insn type,
          operations_insn operates.insn, List.length_cons, next, List.map_cons, Nat.add_zero,
          List.singleton_append]
        congr 1
        by_cases last : rest ++ back = []
        · -- The last token of the function stops the program, and no token is left.
          obtain ⟨rfl, rfl⟩ := List.append_eq_nil_iff.mp last
          rw [List.append_nil, stops]
          rfl
        · rw [goes _ last]
          refine (ih behind (write_table (table.alloc operates.nonzero) _)
            (write_filled (filled.alloc operates.nonzero) _)).trans ?_
          rw [List.map_map]
          refine List.map_congr_left fun i _ => ?_
          rw [Function.comp_apply, Nat.add_assoc, Nat.add_comm 1 i]

theorem start_table (state : CcState) (func : CcSsaFunction) (as : CcAsmState) :
    Table (paramIds 4) (ccAsmFuncHeader state func as.reset) := by
  constructor
  · exact Nat.le_refl _
  · rintro id ⟨low, _⟩ rfl
    exact absurd low (by decide)
  · rintro id ⟨low, high⟩
    refine ⟨22 + id.toNat, by change _ < 32; omega, ?_⟩
    change CcSsaArgument.id (if 24 ≤ 22 + id.toNat ∧ 22 + id.toNat < 24 + 4 then _ else _) = id
    rw [if_pos (by omega)]
    apply BitVec.eq_of_toNat_eq
    change (ccSsaIdParam (22 + id.toNat - 24)).toNat = id.toNat
    rw [ccSsaIdParam, BitVec.toNat_ofNat]
    omega

theorem start_filled (state : CcState) (func : CcSsaFunction) (as : CcAsmState) :
    Filled 0 (ccAsmFuncHeader state func as.reset) := by
  constructor
  · intro i few
    change CcSsaArgument.id (if 24 ≤ 16 + i ∧ 16 + i < 24 + 4 then _ else if 16 + i < 32 then _ else _)
      = 0 ↔ _
    rw [if_neg (by omega), if_pos (by omega)]
    exact ⟨fun _ => Nat.zero_le i, fun _ => rfl⟩
  · intro reg high below
    exact absurd below (Nat.not_lt.mpr high)
  · rfl

/-- The temporaries that are still needed before the token with index `point`: some token in
front defines them, and it or a later one uses them. -/
def stillNeeded (toks : List CcSsaToken) (point : Nat) : List (BitVec 12) :=
  ((operations (toks.take point)).map fun tok => tok.result.id).filter fun id =>
    (toks.drop point).any fun tok => tok.args.any fun used => used.id = id

/-- All registers that a function is given are temporaries if and only if it has at most seven
operations, however few of their results are still needed at any point. -/
theorem handedOut_temporaries_iff {state : CcState} {func : CcSsaFunction}
    (inside : state.ViewInside func)
    (ready : CodegenReady (paramIds 4) (state.funcTokens func)) (as : CcAsmState) :
    (∀ reg ∈ ccAsmHandedOut state func func.tokens.len.toNat 0
        (ccAsmFuncHeader state func as.reset), ccAsmRegisterT0 ≤ reg ∧ reg ≤ ccAsmRegisterT7) ↔
      (operations (state.funcTokens func)).length ≤ 7 := by
  have viewed := handedOut_view inside [] (state.funcTokens func) []
    (List.append_nil _).symm (ccAsmFuncHeader state func as.reset)
  rw [funcTokens_length inside] at viewed
  change (∀ reg ∈ ccAsmHandedOut state func _ ([] : List CcSsaToken).length _, _) ↔ _
  rw [viewed, handedOut_slots _ _ ready (start_table state func as) (start_filled state func as)]
  constructor
  · intro temporaries
    by_contra many
    have eighth := temporaries (slot 7) (List.mem_map.mpr ⟨7, List.mem_range.mpr (by omega), rfl⟩)
    exact absurd eighth.2 (by decide)
  · intro few reg member
    obtain ⟨index, below, rfl⟩ := List.mem_map.mp member
    have early := List.mem_range.mp below
    rw [slot, if_pos (by omega)]
    simp only [ccAsmRegisterT0, ccAsmRegisterT7]
    omega

def doublings (count : Nat) : List CcSsaToken :=
  (List.range count).map (fun i =>
    let before : CcSsaArgument :=
      if i = 0 then ⟨ccSsaIdParam 0, 0⟩ else ⟨BitVec.ofNat 12 (31 + i), ccSsaWidth32⟩
    { result := ⟨BitVec.ofNat 12 (32 + i), ccSsaWidth32⟩, args := ccSsaArgs before before,
      type := .add }) ++
    [returnToken ⟨BitVec.ofNat 12 (32 + count), ccSsaWidth32⟩
      ⟨BitVec.ofNat 12 (31 + count), ccSsaWidth32⟩]

def singleFunc (toks : List CcSsaToken) : CcSsaFunction :=
  ⟨⟨0, 1⟩, ⟨0, BitVec.ofNat 8 toks.length⟩⟩

def singleState (toks : List CcSsaToken) : CcState :=
  { CcState.start [102] [] with
    ssaFuncs := [singleFunc toks]
    ssaTokens := toks
    nodesWritten := Nat.zero_le _ }

theorem handedOut_temporaries_doublings :
    (∀ reg ∈ ccAsmHandedOut (singleState (doublings 2)) (singleFunc (doublings 2)) 3 0
        (ccAsmFuncHeader (singleState (doublings 2)) (singleFunc (doublings 2))
          CcAsmState.init.reset), ccAsmRegisterT0 ≤ reg ∧ reg ≤ ccAsmRegisterT7) ↔
      (operations (doublings 2)).length ≤ 7 :=
  handedOut_temporaries_iff (by decide) (by decide) CcAsmState.init

theorem handedOut_spills :
    (∀ point ≤ 9, (stillNeeded (doublings 8) point).length ≤ 1) ∧
      CodegenReady (paramIds 4) (doublings 8) ∧
      ccAsmRegisterSpill ∈ ccAsmHandedOut (singleState (doublings 8)) (singleFunc (doublings 8)) 9 0
        (ccAsmFuncHeader (singleState (doublings 8)) (singleFunc (doublings 8))
          CcAsmState.init.reset) := by
  decide +kernel

end Estros
