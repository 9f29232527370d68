import Mathlib.Data.Fin.VecNotation
import Estros.AsmRegisters

/-!
The emitted lines on a machine with 32-bit registers against the tokens they come from:
after each token the registers that the table names hold the values of the ids. The return
value is the one thing that is lost, since `RETURN` becomes a bare `ret`.
-/

namespace Estros

abbrev AsmRegs := Nat → Word

def AsmRegs.set (regs : AsmRegs) (reg : Nat) (value : Word) : AsmRegs :=
  fun other => if other = reg then value else regs other

/-- The unsigned instructions of sim.c. A division by zero and a shift by 32 or more have no
result there. -/
def CcAsmInsn.apply : CcAsmInsn → Word → Word → Option Word
  | .add, lhs, rhs => some (lhs + rhs)
  | .sub, lhs, rhs => some (lhs - rhs)
  | .mul, lhs, rhs => some (lhs * rhs)
  | .div, lhs, rhs => whenDefined (rhs ≠ 0) (lhs / rhs)
  | .rem, lhs, rhs => whenDefined (rhs ≠ 0) (lhs % rhs)
  | .shl, lhs, rhs => whenDefined (rhs.toNat < 32) (lhs <<< rhs.toNat)
  | .shr, lhs, rhs => whenDefined (rhs.toNat < 32) (lhs >>> rhs.toNat)
  | .xor, lhs, rhs => some (lhs ^^^ rhs)
  | .or, lhs, rhs => some (lhs ||| rhs)
  | .and, lhs, rhs => some (lhs &&& rhs)

/-- One line. Section directives and labels are not executed; nothing is said of a register
without a name, and lines of other kinds do not occur here. -/
def CcAsmLine.exec : CcAsmLine → AsmRegs → Option AsmRegs
  | .section _, regs | .label _, regs => some regs
  | .binop insn res arg0 arg1, regs =>
      if res < ccAsmRegisterSpill ∧ arg0 < ccAsmRegisterSpill ∧ arg1 < ccAsmRegisterSpill then
        (insn.apply (regs arg0) (regs arg1)).map (regs.set res)
      else
        none
  | _, _ => none

def asmExec : List CcAsmLine → AsmRegs → Option AsmRegs
  | [], regs => some regs
  | line :: rest, regs => (line.exec regs).bind (asmExec rest)

def asmRun : List CcAsmLine → AsmRegs → Option AsmRegs
  | [], _ => none
  | .ret :: _, regs => some regs
  | line :: rest, regs => (line.exec regs).bind (asmRun rest)

theorem regnameText_isSome (reg : Nat) :
    (regnameText reg).isSome = true ↔ reg < ccAsmRegisterSpill := by
  rw [regnameText, Option.isSome_map, Option.isSome_iff_ne_none, ne_eq, List.getElem?_eq_none_iff,
    Nat.not_le]
  exact Iff.rfl

theorem binop_text_isSome (insn : CcAsmInsn) (res arg0 arg1 : Nat) :
    (CcAsmLine.binop insn res arg0 arg1).text.isSome = true ↔
      res < ccAsmRegisterSpill ∧ arg0 < ccAsmRegisterSpill ∧ arg1 < ccAsmRegisterSpill := by
  rw [← regnameText_isSome res, ← regnameText_isSome arg0, ← regnameText_isSome arg1]
  cases first : regnameText res <;> cases second : regnameText arg0 <;>
    cases third : regnameText arg1 <;> simp [CcAsmLine.text, first, second, third]

theorem asmText_isSome (lines : List CcAsmLine) :
    (asmText lines).isSome = true ↔ ∀ line ∈ lines, line.text.isSome = true := by
  rw [asmText, Option.isSome_map]
  induction lines with
  | nil => exact iff_of_true rfl (fun _ member => absurd member List.not_mem_nil)
  | cons line rest ih =>
      rw [List.forall_mem_cons, ← ih, List.mapM_cons]
      cases line.text with
      | none => simp
      | some text => cases rest.mapM CcAsmLine.text <;> simp

theorem asmRun_append {front : List CcAsmLine} (noRet : CcAsmLine.ret ∉ front)
    (back : List CcAsmLine) (regs : AsmRegs) :
    asmRun (front ++ back) regs = (asmExec front regs).bind (asmRun back) := by
  induction front generalizing regs with
  | nil => rfl
  | cons line rest ih =>
      have behind : CcAsmLine.ret ∉ rest := fun member => noRet (List.mem_cons_of_mem _ member)
      have other : asmRun (line :: (rest ++ back)) regs =
          (line.exec regs).bind (asmRun (rest ++ back)) := by
        cases line with
        | ret => exact absurd List.mem_cons_self noRet
        | _ => rfl
      rw [List.cons_append, other, asmExec, Option.bind_assoc]
      exact Option.bind_congr fun next _ => ih behind next

theorem arith_insn {type : CcSsaTokenType} {insn : CcAsmInsn} (same : ccAsmInsn type = some insn) :
    ssaArith type = some insn.apply := by
  cases type <;> cases same <;> rfl

theorem effect_insn (meaning : SsaMeaning) {tok : CcSsaToken} {insn : CcAsmInsn}
    (type : ccAsmInsn tok.type = some insn) {env : SsaEnv} {lhs rhs : Word}
    (left : env (tok.arg 0).id = some lhs) (right : env (tok.arg 1).id = some rhs) :
    tok.effect meaning env = .computed (insn.apply lhs rhs) := by
  have arith := arith_insn type
  have first : (operandValues env tok).get 0 = some lhs := by rw [operandValues_get, left]
  have second : (operandValues env tok).get 1 = some rhs := by rw [operandValues_get, right]
  rw [CcSsaToken.effect]
  generalize tok.type = kind at type arith ⊢
  cases result : insn.apply lhs rhs <;> cases kind <;> first
    | (cases type; done)
    | simp [ssaEffect, arith, first, second, result, SsaEffect.computed]

/-- The ids known are those that have a value. -/
def KnownValues (known : Set (BitVec 12)) (env : SsaEnv) : Prop :=
  ∀ id, id ∈ known ↔ ∃ value, env id = some value

theorem KnownValues.set {known : Set (BitVec 12)} {env : SsaEnv} (valued : KnownValues known env)
    (id : BitVec 12) (value : Word) : KnownValues (insert id known) (env.set id (some value)) := by
  intro other
  rw [Set.mem_insert_iff, SsaEnv.set]
  by_cases same : other = id
  · rw [if_pos same]
    exact ⟨fun _ => ⟨value, rfl⟩, fun _ => Or.inl same⟩
  · rw [if_neg same, valued other]
    exact ⟨fun either => either.resolve_left same, Or.inr⟩

/-- Every physical register that the table gives to an id holds the value of the id. -/
structure Carries (as : CcAsmState) (regs : AsmRegs) (env : SsaEnv) : Prop where
  physical : as.nRegInfo = ccAsmRegisterSpill
  values : ∀ reg < ccAsmRegisterSpill, (as.regInfo reg).id ≠ 0 →
    env (as.regInfo reg).id = some (regs reg)

theorem taken_physical {as : CcAsmState} (size : as.nRegInfo = ccAsmRegisterSpill)
    (physical : (ccAsmFindFree as .integer).1 < ccAsmRegisterSpill) :
    ∃ reg, ccAsmFindFree as .integer = (reg, as) ∧ (as.regInfo reg).id = 0 ∧
      ccAsmRegisterT0 ≤ reg ∧ reg < ccAsmRegisterT7 := by
  rcases findFree_integer as with ⟨reg, found, free, temporary | spill⟩ | found
  · exact ⟨reg, found, free, temporary⟩
  · rw [size] at spill
    exact absurd spill.2 (Nat.not_lt.mpr spill.1)
  · rw [found, size] at physical
    exact absurd physical (Nat.lt_irrefl _)

theorem alloc_asmOut (as : CcAsmState) (arg : CcSsaArgument) :
    (ccAsmRegalloc as .integer arg).2.asmOut = as.asmOut := by
  rw [ccAsmRegalloc]
  rcases findFree_integer as with ⟨reg, found, _⟩ | found
  · rw [found]
    rfl
  · rw [found]
    rfl

def Performs (known : Set (BitVec 12)) (as next : CcAsmState) (tok : CcSsaToken)
    (insn : CcAsmInsn) (reg : Nat) (line : CcAsmLine) : Prop :=
  ∀ regs env, Carries as regs env → KnownValues known env →
    ∃ lhs rhs, env (tok.arg 0).id = some lhs ∧ env (tok.arg 1).id = some rhs ∧
      line.exec regs = (insn.apply lhs rhs).map (regs.set reg) ∧
      ∀ value, Carries next (regs.set reg value) (env.set tok.result.id (some value))

theorem step_simulates {known : Set (BitVec 12)} {as : CcAsmState} {tok : CcSsaToken}
    {insn : CcAsmInsn} {rest : List CcSsaToken} (table : Table known as)
    (operates : Operates known tok) (type : ccAsmInsn tok.type = some insn)
    (size : as.nRegInfo = ccAsmRegisterSpill)
    (physical : (ccAsmFindFree as .integer).1 < ccAsmRegisterSpill) (behind : rest ≠ []) :
    ∃ reg arg0 arg1, (ccAsmRegisterT0 ≤ reg ∧ reg < ccAsmRegisterT7) ∧
      let line := CcAsmLine.binop insn reg arg0 arg1
      let next := ccAsmWrite (as.setReg reg tok.result) line
      line.text.isSome = true ∧
      ccAsmSwitch (lastUseIn rest) tok as = .ok next ∧ Table (insert tok.result.id known) next ∧
      Performs known as next tok insn reg line := by
  obtain ⟨reg, found, free, bounds⟩ := taken_physical size physical
  obtain ⟨arg0, arg1, at0, at1, goes, _⟩ := binop_run table operates insn
  have alloc : ccAsmRegalloc as .integer tok.result = (reg, as.setReg reg tok.result) := by
    rw [ccAsmRegalloc, found]
  have grown := table.alloc operates.nonzero
  rw [alloc] at at0 at1 goes grown
  simp only [setReg_nRegInfo, size] at at0 at1
  have low : reg < ccAsmRegisterSpill := Nat.lt_trans bounds.2 (by decide)
  have named := (binop_text_isSome insn reg arg0 arg1).mpr ⟨low, at0.1, at1.1⟩
  refine ⟨reg, arg0, arg1, bounds, named, ?_, write_table grown _, fun regs env carries valued => ?_⟩
  · rw [switch_insn type]
    exact goes rest behind
  -- An operand's register is not the new one: its id was known and the result was not.
  have operand {arg : Nat} {id : BitVec 12} (inside : id ∈ known) (below : arg < ccAsmRegisterSpill)
      (holds : ((as.setReg reg tok.result).regInfo arg).id = id) :
      env id = some (regs arg) := by
    have other : arg ≠ reg := by
      rintro rfl
      rw [setReg_regInfo, if_pos rfl] at holds
      exact operates.fresh (holds ▸ inside)
    rw [setReg_regInfo, if_neg other] at holds
    rw [← holds]
    exact carries.values arg below (holds ▸ table.named id inside)
  refine ⟨_, _, operand operates.left at0.1 at0.2, operand operates.right at1.1 at1.2, ?_, ?_⟩
  · rw [CcAsmLine.exec, if_pos ⟨low, at0.1, at1.1⟩]
  · intro value
    refine ⟨size, fun other below used => ?_⟩
    rw [write_regInfo, setReg_regInfo] at used ⊢
    rw [AsmRegs.set, SsaEnv.set]
    by_cases same : other = reg
    · rw [if_pos same, if_pos rfl, if_pos same]
    · rw [if_neg same] at used ⊢
      have old := carries.values other below used
      have known := (valued _).mpr ⟨_, old⟩
      have apart : (as.regInfo other).id ≠ tok.result.id := by
        intro clash
        exact operates.fresh (clash ▸ known)
      rw [if_neg apart, if_neg same, old]

/-- The ids known after some tokens: those known before and the results of the operations. -/
def definedAfter (known : Set (BitVec 12)) (toks : List CcSsaToken) : Set (BitVec 12) :=
  knownAfter known (operations toks)

theorem definedAfter_plain {known : Set (BitVec 12)} {tok : CcSsaToken}
    (plain : tok.type = .none ∨ tok.type = .ret) (rest : List CcSsaToken) :
    definedAfter known (tok :: rest) = definedAfter known rest := by
  rw [definedAfter, operations_plain plain, definedAfter]

theorem definedAfter_insn {known : Set (BitVec 12)} {tok : CcSsaToken}
    (insn : (ccAsmInsn tok.type).isSome = true) (rest : List CcSsaToken) :
    definedAfter known (tok :: rest) = definedAfter (insert tok.result.id known) rest := by
  rw [definedAfter, operations_insn insn, definedAfter]
  rfl

/-- With a token behind them the operations are lowered, whatever registers they are given, and
every register given is the result of a line. -/
theorem lowerTokens_total {known : Set (BitVec 12)} {as : CcAsmState}
    (toks back : List CcSsaToken) (ready : CodegenReady known toks)
    (noReturn : ∀ tok ∈ toks, tok.type ≠ .ret) (table : Table known as) (behind : back ≠ []) :
    ∃ now lines, lowerTokens toks back as = .ok now ∧ now.asmOut = as.asmOut ++ lines ∧
      CcAsmLine.ret ∉ lines ∧
      ∀ reg ∈ handedOut toks back as, ∃ insn arg0 arg1, .binop insn reg arg0 arg1 ∈ lines := by
  induction toks generalizing known as with
  | nil =>
      exact ⟨as, [], rfl, (List.append_nil _).symm, List.not_mem_nil,
        fun _ member => absurd member List.not_mem_nil⟩
  | cons tok rest ih =>
      rw [CodegenReady] at ready
      have noneBehind := fun other member => noReturn other (List.mem_cons_of_mem tok member)
      have notLast : rest ++ back ≠ [] := fun empty => behind (List.append_eq_nil_iff.mp empty).2
      by_cases plain : tok.type = .none ∨ tok.type = .ret
      · rw [if_pos plain] at ready
        have none := plain.resolve_right (noReturn tok List.mem_cons_self)
        simp only [lowerTokens, handedOut, ccAsmTaken, ccAsmSwitch, none, CcSsaTokenType.allocates]
        exact ih ready noneBehind table
      · rw [if_neg plain] at ready
        obtain ⟨operates, readyBehind⟩ := ready
        obtain ⟨insn, type⟩ := Option.isSome_iff_exists.mp operates.insn
        obtain ⟨arg0, arg1, _, _, goes, _⟩ := binop_run table operates insn
        obtain ⟨now, lines, lowered, out, noRet, given⟩ := ih readyBehind noneBehind
          (write_table (table.alloc operates.nonzero) (.binop insn _ arg0 arg1))
        rw [lowerTokens, handedOut, ccAsmTaken, if_pos (allocates_insn operates.insn),
          switch_insn type, goes _ notLast]
        refine ⟨now, .binop insn (ccAsmFindFree as .integer).1 arg0 arg1 :: lines, lowered, ?_, ?_, ?_⟩
        · rw [out, ccAsmWrite, alloc_asmOut, List.append_assoc]
          rfl
        · rintro (_ | ⟨_, member⟩)
          exact noRet member
        · intro reg member
          rcases List.mem_append.mp member with first | later
          · rw [List.mem_singleton.mp first]
            exact ⟨insn, arg0, arg1, List.mem_cons_self⟩
          · obtain ⟨other, left, right, inside⟩ := given reg later
            exact ⟨other, left, right, List.mem_cons_of_mem _ inside⟩

structure Simulates (meaning : SsaMeaning) (known : Set (BitVec 12)) (toks : List CcSsaToken)
    (as now : CcAsmState) (lines : List CcAsmLine) : Prop where
  out : now.asmOut = as.asmOut ++ lines
  noRet : CcAsmLine.ret ∉ lines
  named : ∀ line ∈ lines, line.text.isSome = true
  table : Table (definedAfter known toks) now
  physical : now.nRegInfo = ccAsmRegisterSpill
  runs : ∀ regs env, Carries as regs env → KnownValues known env →
    match ssaSteps meaning toks env with
    | .ok after => ∃ last, asmExec lines regs = some last ∧ Carries now last after ∧
        KnownValues (definedAfter known toks) after ∧
        ∀ reg, ccAsmRegisterT7 ≤ reg → last reg = regs reg
    | .error _ => asmExec lines regs = none

section Steps

variable {meaning : SsaMeaning} {known : Set (BitVec 12)} {tok : CcSsaToken}
  {rest : List CcSsaToken} {as now : CcAsmState} {lines : List CcAsmLine}

theorem Simulates.skip (simulates : Simulates meaning known rest as now lines)
    (none : tok.type = .none) : Simulates meaning known (tok :: rest) as now lines := by
  refine ⟨simulates.out, simulates.noRet, simulates.named, ?_, simulates.physical,
    fun regs env carries valued => ?_⟩
  · rw [definedAfter_plain (.inl none)]
    exact simulates.table
  · have skip : tok.effect meaning env = .skip := by
      rw [CcSsaToken.effect, none]
      rfl
    rw [ssaSteps, skip, definedAfter_plain (.inl none)]
    exact simulates.runs regs env carries valued

theorem Simulates.operation {insn : CcAsmInsn} {reg arg0 arg1 : Nat}
    (simulates : Simulates meaning (insert tok.result.id known) rest
      (ccAsmWrite (as.setReg reg tok.result) (.binop insn reg arg0 arg1)) now lines)
    (type : ccAsmInsn tok.type = some insn) (below : reg < ccAsmRegisterT7)
    (named : (CcAsmLine.binop insn reg arg0 arg1).text.isSome = true)
    (performs : Performs known as
      (ccAsmWrite (as.setReg reg tok.result) (.binop insn reg arg0 arg1)) tok insn reg
      (.binop insn reg arg0 arg1)) :
    Simulates meaning known (tok :: rest) as now (.binop insn reg arg0 arg1 :: lines) := by
  have behind : definedAfter known (tok :: rest) = definedAfter (insert tok.result.id known) rest :=
    definedAfter_insn (Option.isSome_iff_exists.mpr ⟨insn, type⟩) rest
  refine ⟨?_, ?_, List.forall_mem_cons.mpr ⟨named, simulates.named⟩, behind ▸ simulates.table,
    simulates.physical, fun regs env carries valued => ?_⟩
  · rw [simulates.out, ccAsmWrite, List.append_assoc]
    rfl
  · rintro (_ | ⟨_, member⟩)
    exact simulates.noRet member
  · obtain ⟨lhs, rhs, left, right, exec, carried⟩ := performs regs env carries valued
    rw [ssaSteps, effect_insn meaning type left right, behind, asmExec, exec]
    cases insn.apply lhs rhs with
    | none => rfl
    | some value =>
        have runs := simulates.runs _ _ (carried value) (valued.set tok.result.id value)
        simp only [SsaEffect.computed, Option.map_some, Option.bind_some]
        cases steps : ssaSteps meaning rest (env.set tok.result.id (some value)) with
        | error outcome =>
            rw [steps] at runs
            exact runs
        | ok after =>
            rw [steps] at runs
            obtain ⟨last, reached, carriedOn, values, kept⟩ := runs
            refine ⟨last, reached, carriedOn, values, fun other high => ?_⟩
            have apart : other ≠ reg := by
              rintro rfl
              exact absurd below (Nat.not_lt.mpr high)
            rw [kept other high, AsmRegs.set, if_neg apart]

end Steps

/-- The run lemma: as long as registers are physical and no `RETURN` is met, the lines do what
the tokens say. -/
theorem lowerTokens_simulates (meaning : SsaMeaning) {known : Set (BitVec 12)}
    {as now : CcAsmState} (toks back : List CcSsaToken) (ready : CodegenReady known toks)
    (noReturn : ∀ tok ∈ toks, tok.type ≠ .ret) (table : Table known as)
    (size : as.nRegInfo = ccAsmRegisterSpill)
    (physical : ∀ reg ∈ handedOut toks back as, reg < ccAsmRegisterSpill)
    (lowered : lowerTokens toks back as = .ok now) :
    ∃ lines, Simulates meaning known toks as now lines := by
  -- the register table after each token is again one of the invariant
  induction toks generalizing known as with
  | nil =>
      cases Except.ok.inj lowered
      refine ⟨[], (List.append_nil _).symm, List.not_mem_nil,
        fun _ member => absurd member List.not_mem_nil, table, size, ?_⟩
      intro regs env carries valued
      exact ⟨regs, rfl, carries, valued, fun _ _ => rfl⟩
  | cons tok rest ih =>
      rw [CodegenReady] at ready
      rw [lowerTokens] at lowered
      rw [handedOut] at physical
      have noneBehind := fun other member => noReturn other (List.mem_cons_of_mem tok member)
      by_cases plain : tok.type = .none ∨ tok.type = .ret
      · rw [if_pos plain] at ready
        have none := plain.resolve_right (noReturn tok List.mem_cons_self)
        have stays : ccAsmSwitch (lastUseIn (rest ++ back)) tok as = .ok as := by
          simp only [ccAsmSwitch, none]
          rfl
        rw [stays] at lowered physical
        obtain ⟨lines, simulates⟩ := ih ready noneBehind table size
          (fun reg member => physical reg (List.mem_append_right _ member)) lowered
        exact ⟨lines, simulates.skip none⟩
      · rw [if_neg plain] at ready
        obtain ⟨operates, readyBehind⟩ := ready
        obtain ⟨insn, type⟩ := Option.isSome_iff_exists.mp operates.insn
        -- an operation that is the last token fails the assertion of `cc_ssa_is_last_use`
        have notLast : rest ++ back ≠ [] := by
          rintro empty
          obtain ⟨_, _, _, _, _, stops⟩ := binop_run table operates insn
          rw [empty, switch_insn type, stops] at lowered
          cases lowered
        have first : (ccAsmFindFree as .integer).1 < ccAsmRegisterSpill := by
          refine physical _ (List.mem_append_left _ ?_)
          rw [ccAsmTaken, if_pos (allocates_insn operates.insn)]
          exact List.mem_singleton_self _
        obtain ⟨reg, arg0, arg1, bounds, named, goes, grown, performs⟩ :=
          step_simulates table operates type size first notLast
        rw [goes] at lowered physical
        obtain ⟨lines, simulates⟩ := ih readyBehind noneBehind grown size
          (fun reg member => physical reg (List.mem_append_right _ member)) lowered
        exact ⟨_, simulates.operation type bounds.2 named performs⟩

def Placed (params : Fin 4 → Word) (regs : AsmRegs) : Prop :=
  ∀ k : Fin 4, regs (ccAsmRegisterA0 + k) = params k

theorem start_known (params : Fin 4 → Word) :
    KnownValues (paramIds 4) (paramEnv (List.ofFn params)) := by
  intro id
  rw [paramEnv]
  constructor
  · rintro ⟨low, high⟩
    rw [if_pos low]
    exact ⟨_, List.getElem?_eq_getElem (by rw [List.length_ofFn]; omega)⟩
  · rintro ⟨value, found⟩
    by_cases low : 2 ≤ id.toNat
    · rw [if_pos low] at found
      have inside := (List.getElem?_eq_some_iff.mp found).1
      rw [List.length_ofFn] at inside
      exact ⟨low, by omega⟩
    · rw [if_neg low] at found
      cases found

theorem start_carries (state : CcState) (func : CcSsaFunction) (as : CcAsmState)
    {params : Fin 4 → Word} {regs : AsmRegs} (placed : Placed params regs) :
    Carries (ccAsmFuncHeader state func as.reset) regs (paramEnv (List.ofFn params)) := by
  refine ⟨rfl, fun reg below used => ?_⟩
  have entry : (ccAsmFuncHeader state func as.reset).regInfo reg =
      if 24 ≤ reg ∧ reg < 28 then ⟨ccSsaIdParam (reg - 24), ccSsaWidthSet 32⟩
      else if reg < 32 then ⟨0, 0⟩ else as.regInfo reg := rfl
  have low : reg < 32 := below
  rw [entry] at used ⊢
  by_cases param : 24 ≤ reg ∧ reg < 28
  · rw [if_pos param]
    have id : (ccSsaIdParam (reg - 24)).toNat = reg - 22 := by
      rw [ccSsaIdParam, BitVec.toNat_ofNat]
      omega
    have index : reg - 22 - 2 = reg - 24 := by omega
    have named := placed ⟨reg - 24, by omega⟩
    have same : ccAsmRegisterA0 + (reg - 24) = reg := Nat.add_sub_of_le param.1
    rw [same] at named
    simp only [paramEnv, id, index, if_pos (by omega : 2 ≤ reg - 22)]
    rw [named, List.getElem?_ofFn, dif_pos (by omega : reg - 24 < 4)]
  · rw [if_neg param, if_pos low] at used
    exact absurd rfl used

def noMeaning : SsaMeaning := ⟨fun _ _ => none, fun _ => none⟩

/-- All registers of the code have names (behind the last one `asm_regname` is read out of its
bounds), and whatever the arguments in `$a0` to `$a3` are, code that reaches its `ret` has the
value of the function in `$a0` there. -/
structure ResultInA0 (meaning : SsaMeaning) (toks : List CcSsaToken) (lines : List CcAsmLine) :
    Prop where
  printed : (asmText lines).isSome = true
  value : ∀ (params : Fin 4 → Word) (regs reached : AsmRegs), Placed params regs →
    asmRun lines regs = some reached →
    ssaCall meaning toks (List.ofFn params) = .returned (some (reached ccAsmRegisterA0))

theorem asmRun_function (name : List UInt8) {lines : List CcAsmLine} (noRet : CcAsmLine.ret ∉ lines)
    (regs : AsmRegs) :
    asmRun ([.section ".text", .label name] ++ (lines ++ [.ret, .section ".data"])) regs =
      asmExec lines regs := by
  change asmRun (lines ++ [.ret, .section ".data"]) regs = _
  rw [asmRun_append noRet]
  cases asmExec lines regs <;> rfl

theorem effect_stop (meaning : SsaMeaning) {env : SsaEnv} {tok : CcSsaToken} {outcome : SsaOutcome}
    (noReturn : tok.type ≠ .ret) (stop : tok.effect meaning env = .stop outcome) :
    outcome = .undefined := by
  rw [CcSsaToken.effect] at stop
  generalize tok.type = type at noReturn stop
  cases type with
  | ret => exact absurd rfl noReturn
  | _ =>
      simp only [ssaEffect] at stop
      grind

theorem steps_undefined (meaning : SsaMeaning) {toks : List CcSsaToken} {env : SsaEnv}
    {outcome : SsaOutcome} (noReturn : ∀ tok ∈ toks, tok.type ≠ .ret)
    (stopped : ssaSteps meaning toks env = .error outcome) : outcome = .undefined := by
  induction toks generalizing env with
  | nil => cases stopped
  | cons tok rest ih =>
      have noneBehind := fun other member => noReturn other (List.mem_cons_of_mem tok member)
      rw [ssaSteps] at stopped
      cases effect : tok.effect meaning env with
      | skip =>
          rw [effect] at stopped
          exact ih noneBehind stopped
      | stop early =>
          rw [effect] at stopped
          cases stopped
          exact effect_stop meaning (noReturn tok List.mem_cons_self) effect
      | define value =>
          rw [effect] at stopped
          exact ih noneBehind stopped

theorem run_return (meaning : SsaMeaning) {ret : CcSsaToken} (last : ret.type = .ret)
    (env : SsaEnv) : ssaRun meaning [ret] env = .returned (env (ret.arg 0).id) := by
  have stop : ret.effect meaning env = .stop (.returned (env (ret.arg 0).id)) := by
    rw [CcSsaToken.effect, last, ssaEffect, operandValues_get]
  rw [ssaRun, stop]

def placeParams (params : Fin 4 → Word) : AsmRegs := fun reg =>
  if inside : reg - ccAsmRegisterA0 < 4 then params ⟨reg - ccAsmRegisterA0, inside⟩ else 0

theorem placed_params (params : Fin 4 → Word) : Placed params (placeParams params) := by
  intro k
  simp [placeParams]

theorem CodegenReady.no_rawData {known : Set (BitVec 12)} {toks : List CcSsaToken}
    (ready : CodegenReady known toks) : ∀ tok ∈ toks, tok.type ≠ .rawData := by
  induction toks generalizing known with
  | nil => exact fun _ member => absurd member List.not_mem_nil
  | cons tok rest ih =>
      rw [CodegenReady] at ready
      rintro other (_ | ⟨_, behind⟩)
      · intro raw
        rw [if_neg (by rw [raw]; decide)] at ready
        have insn := ready.1.insn
        rw [raw] at insn
        cases insn
      · by_cases plain : tok.type = .none ∨ tok.type = .ret
        · rw [if_pos plain] at ready
          exact ih ready other behind
        · rw [if_neg plain] at ready
          exact ih ready.2 other behind

theorem lowerFunc_text {state : CcState} {func : CcSsaFunction} (inside : state.ViewInside func)
    (as : CcAsmState) {body : List CcSsaToken} {ret : CcSsaToken}
    (split : state.funcTokens func = body ++ [ret]) (ready : CodegenReady (paramIds 4) body)
    (noReturn : ∀ tok ∈ body, tok.type ≠ .ret) (last : ret.type = .ret) :
    ∃ now after lines,
      lowerTokens body [ret] (ccAsmFuncHeader state func as.reset) = .ok now ∧
      now.asmOut = (ccAsmFuncHeader state func as.reset).asmOut ++ lines ∧
      ccAsmLowerFunc state func as.reset = .ok after ∧
      after.asmOut = as.asmOut ++ ([.section ".text", .label (cString (ccStrviewGet state func.name))] ++
        (lines ++ [.ret, .section ".data"])) ∧
      CcAsmLine.ret ∉ lines ∧
      ∀ reg ∈ handedOut body [ret] (ccAsmFuncHeader state func as.reset),
        ∃ insn arg0 arg1, .binop insn reg arg0 arg1 ∈ lines := by
  obtain ⟨now, lines, lowered, out, noRet, given⟩ := lowerTokens_total body [ret] ready noReturn
    (start_table state func as) (List.cons_ne_nil _ _)
  have whole : state.funcTokens func = [] ++ ((body ++ [ret]) ++ []) := by
    rw [split, List.nil_append, List.append_nil]
  have size : func.tokens.len.toNat = (body ++ [ret]).length := by
    rw [← funcTokens_length inside, split]
  have plain : ∀ tok ∈ body ++ [ret], tok.type ≠ .rawData := by
    intro tok member
    rcases List.mem_append.mp member with front | back
    · exact ready.no_rawData tok front
    · rw [List.mem_singleton.mp back, last]
      decide
  -- the first loop emits the code, the second one looks for raw data and finds none
  have code := lowerAt_view inside [] (body ++ [ret]) [] whole (ccAsmFuncHeader state func as.reset)
  have data := dataAt_view inside [] (body ++ [ret]) [] whole plain
    (ccAsmWrite (ccAsmWrite now .ret) (.section ".data"))
  have final : ccAsmSwitch (lastUseIn []) ret now = .ok (ccAsmWrite now .ret) := by
    simp only [ccAsmSwitch, last]
    rfl
  have both : lowerTokens (body ++ [ret]) [] (ccAsmFuncHeader state func as.reset) =
      .ok (ccAsmWrite now .ret) := by
    rw [lowerTokens_append, List.append_nil, lowered]
    change lowerTokens [ret] [] now = _
    rw [lowerTokens, List.append_nil, final]
    rfl
  rw [both, ← size] at code
  rw [← size] at data
  refine ⟨now, ccAsmWrite (ccAsmWrite now .ret) (.section ".data"), lines, lowered, out, ?_, ?_,
    noRet, given⟩
  · rw [ccAsmLowerFunc]
    simp only [List.length_nil] at code data
    rw [code]
    exact congrArg Except.ok data
  · simp [ccAsmWrite, out, ccAsmFuncHeader, CcAsmState.reset]

theorem Simulates.result {meaning : SsaMeaning} {body : List CcSsaToken} {ret : CcSsaToken}
    {as now : CcAsmState} {lines : List CcAsmLine} {params : Fin 4 → Word} {regs : AsmRegs}
    (simulates : Simulates meaning (paramIds 4) body as now lines)
    (noReturn : ∀ tok ∈ body, tok.type ≠ .ret) (last : ret.type = .ret)
    (known : (ret.arg 0).id ∈ definedAfter (paramIds 4) body)
    (carries : Carries as regs (paramEnv (List.ofFn params))) :
    (∀ reached, asmExec lines regs = some reached →
      reached ccAsmRegisterA0 = regs ccAsmRegisterA0 ∧ ∃ value,
        ssaCall meaning (body ++ [ret]) (List.ofFn params) = .returned (some value)) ∧
    (asmExec lines regs = none → ∀ value,
      ssaCall meaning (body ++ [ret]) (List.ofFn params) ≠ .returned (some value)) := by
  have runs := simulates.runs regs _ carries (start_known params)
  rw [ssaCall, ssaRun_append]
  cases steps : ssaSteps meaning body (paramEnv (List.ofFn params)) with
  | error outcome =>
      rw [steps] at runs
      cases steps_undefined meaning noReturn steps
      refine ⟨fun reached exec => absurd (exec.symm.trans runs) (Option.some_ne_none _), ?_⟩
      exact fun _ value => SsaOutcome.noConfusion
  | ok env =>
      rw [steps] at runs
      obtain ⟨final, exec, _, valued, kept⟩ := runs
      obtain ⟨value, found⟩ := (valued _).mp known
      constructor
      · intro reached same
        cases exec.symm.trans same
        simp only [run_return meaning last, found]
        exact ⟨kept _ (by decide), value, rfl⟩
      · intro none
        exact absurd (exec.symm.trans none) (Option.some_ne_none _)

theorem functionText_isSome {name : List UInt8} {lines : List CcAsmLine}
    (named : ∀ line ∈ lines, line.text.isSome = true) :
    (asmText ([.section ".text", .label name] ++ (lines ++ [.ret, .section ".data"]))).isSome =
      true := by
  rw [asmText_isSome]
  simp only [List.mem_append, List.mem_cons, List.not_mem_nil, or_false]
  rintro line ((rfl | rfl) | inside | rfl | rfl)
  · rfl
  · rfl
  · exact named line inside
  · rfl
  · rfl

/-- `RETURN` becomes a bare `ret`, so the value is in `$a0` if and only if it always is the first
parameter; and only seven operations get registers that have names. -/
theorem lowerFunc_result_iff (meaning : SsaMeaning) {state : CcState} {func : CcSsaFunction}
    (inside : state.ViewInside func) (as : CcAsmState) {body : List CcSsaToken} {ret : CcSsaToken}
    (split : state.funcTokens func = body ++ [ret]) (ready : CodegenReady (paramIds 4) body)
    (noReturn : ∀ tok ∈ body, tok.type ≠ .ret) (last : ret.type = .ret)
    (known : (ret.arg 0).id ∈ definedAfter (paramIds 4) body) :
    ∃ after lines, ccAsmLowerFunc state func as.reset = .ok after ∧
      after.asmOut = as.asmOut ++ lines ∧
      (ResultInA0 meaning (body ++ [ret]) lines ↔
        (operations body).length ≤ 7 ∧ ∀ (params : Fin 4 → Word) (value : Word),
          ssaCall meaning (body ++ [ret]) (List.ofFn params) = .returned (some value) →
            value = params 0) := by
  obtain ⟨now, after, lines, lowered, out, function, text, noRet, given⟩ :=
    lowerFunc_text inside as split ready noReturn last
  refine ⟨after, _, function, text, ?_⟩
  have slots := handedOut_slots body [ret] ready (start_table state func as)
    (start_filled state func as)
  have run (regs : AsmRegs) := asmRun_function (cString (ccStrviewGet state func.name)) noRet regs
  by_cases many : 7 < (operations body).length
  · -- The eighth operation gets a spill, whose line has no text.
    refine iff_of_false (fun holds => ?_) (fun few => absurd few.1 (Nat.not_le.mpr many))
    have eighth : slot 7 ∈ handedOut body [ret] (ccAsmFuncHeader state func as.reset) := by
      rw [slots]
      exact List.mem_map.mpr ⟨7, List.mem_range.mpr many, rfl⟩
    obtain ⟨insn, arg0, arg1, member⟩ := given _ eighth
    have named := (asmText_isSome _).mp holds.printed _
      (List.mem_append_right _ (List.mem_append_left _ member))
    exact absurd ((binop_text_isSome _ _ _ _).mp named).1 (Nat.lt_irrefl _)
  · have few := Nat.not_lt.mp many
    have physical : ∀ reg ∈ handedOut body [ret] (ccAsmFuncHeader state func as.reset),
        reg < ccAsmRegisterSpill := by
      intro reg member
      rw [slots] at member
      obtain ⟨index, below, rfl⟩ := List.mem_map.mp member
      have early := List.mem_range.mp below
      rw [slot, if_pos (by omega)]
      simp only [ccAsmRegisterT0, ccAsmRegisterSpill]
      omega
    obtain ⟨same, simulates⟩ := lowerTokens_simulates meaning body [ret] ready noReturn
      (start_table state func as) rfl physical lowered
    cases List.append_cancel_left (out.symm.trans simulates.out)
    rw [and_iff_right few]
    constructor
    · intro holds params value returned
      have placed := placed_params params
      obtain ⟨done, stuck⟩ := simulates.result noReturn last known
        (start_carries state func as placed)
      cases exec : asmExec lines (placeParams params) with
      | none => exact absurd returned (stuck exec value)
      | some reached =>
          have there := holds.value params _ reached placed ((run _).trans exec)
          have first : placeParams params ccAsmRegisterA0 = params 0 := placed 0
          rw [returned, (done reached exec).1, first] at there
          exact Option.some.inj (SsaOutcome.returned.inj there)
    · intro first
      refine ⟨functionText_isSome simulates.named, fun params regs reached placed ran => ?_⟩
      obtain ⟨done, _⟩ := simulates.result noReturn last known (start_carries state func as placed)
      obtain ⟨kept, value, returned⟩ := done reached ((run regs).symm.trans ran)
      have zeroth : regs ccAsmRegisterA0 = params 0 := placed 0
      rw [returned, kept, zeroth, first params value returned]

theorem lowerFunc_result_doublings :
    ∃ after lines, ccAsmLowerFunc (singleState (doublings 2)) (singleFunc (doublings 2))
        CcAsmState.init.reset = .ok after ∧ after.asmOut = CcAsmState.init.asmOut ++ lines ∧
      (ResultInA0 noMeaning (doublings 2) lines ↔
        2 ≤ 7 ∧ ∀ (params : Fin 4 → Word) (value : Word),
          ssaCall noMeaning (doublings 2) (List.ofFn params) = .returned (some value) →
            value = params 0) := by
  have split : (singleState (doublings 2)).funcTokens (singleFunc (doublings 2)) =
      (doublings 2).take 2 ++ [returnToken ⟨34, ccSsaWidth32⟩ ⟨33, ccSsaWidth32⟩] := rfl
  exact lowerFunc_result_iff noMeaning (by decide) CcAsmState.init split (by decide) (by decide) rfl
    (mem_knownAfter.mpr (Or.inr ⟨_, List.mem_cons_of_mem _ List.mem_cons_self, rfl⟩))

def secondParam : List CcSsaToken := [returnToken ⟨33, ccSsaWidth32⟩ ⟨ccSsaIdParam 1, ccSsaWidth32⟩]

/-- The code of `int f(int a, int b) { return b; }` returns `a`. -/
theorem lowerFunc_result_lost :
    ∃ after, ccAsmLowerFunc (singleState secondParam) (singleFunc secondParam)
        CcAsmState.init.reset = .ok after ∧
      ccSsaIdParam 1 ∈ paramIds 4 ∧ (asmText after.asmOut).isSome = true ∧
      ¬ ResultInA0 noMeaning secondParam after.asmOut := by
  refine ⟨_, rfl, by decide, functionText_isSome (List.forall_mem_nil _), fun holds => ?_⟩
  have returned := holds.value ![1, 2, 0, 0] _ _ (placed_params _) rfl
  exact absurd returned (by decide +kernel)

end Estros
