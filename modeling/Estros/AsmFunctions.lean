import Estros.AsmIndependence
import Estros.AsmMachine

/-!
Whole programs of the code generator, assembled and run: from the label of a function on, with the
arguments in `$a0` to `$a3`, the simulator computes what the function returns, or stops where the
function is undefined.
-/

namespace Estros

/-- The register in which a function has the operand of its `RETURN`. -/
def resultRegister (toks : List CcSsaToken) : Nat :=
  match toks.getLast? with
  | some ret => registerOf (resultIds toks) (ret.arg 0).id
  | none => 0

structure Returning (toks body : List CcSsaToken) (ret : CcSsaToken) : Prop where
  split : toks = body ++ [ret]
  ready : CodegenReady (paramIds 4) body
  noReturn : ∀ tok ∈ body, tok.type ≠ .ret
  last : ret.type = .ret
  known : (ret.arg 0).id ∈ definedAfter (paramIds 4) body
  few : (operations body).length ≤ 7

structure Compilable (state : CcState) (func : CcSsaFunction) : Prop where
  inside : state.ViewInside func
  returning : ∃ body ret, Returning (state.funcTokens func) body ret
  label : IsLabel (cString (ccStrviewGet state func.name))

def functionLines (name : List UInt8) (code : List CcAsmLine) : List CcAsmLine :=
  [.section ".text", .label name] ++ (code ++ [.ret, .section ".data"])

structure Computing (toks : List CcSsaToken) (code : List CcAsmLine) : Prop where
  integers : ∀ line ∈ code, line.OnIntegers
  size : code.length = (operations toks).length
  result : ccAsmRegisterT0 ≤ resultRegister toks ∧ resultRegister toks < ccAsmRegisterSpill
  runs : ∀ (meaning : SsaMeaning) (params : Fin 4 → Word) (regs : AsmRegs), Placed params regs →
    match ssaCall meaning toks (List.ofFn params) with
    | .returned (some value) => ∃ last, asmExec code regs = some last ∧
        last (resultRegister toks) = value ∧ ∀ reg, ccAsmRegisterT7 ≤ reg → last reg = regs reg
    | _ => asmExec code regs = none

section Function

variable {toks body : List CcSsaToken} {ret : CcSsaToken}

theorem Returning.operations (returning : Returning toks body ret) :
    operations toks = operations body := by
  have none : Estros.operations [ret] = [] := operations_plain (Or.inr returning.last) []
  rw [returning.split, Estros.operations, List.filter_append]
  exact (congrArg (_ ++ ·) none).trans (List.append_nil _)

theorem Returning.resultRegister (returning : Returning toks body ret) :
    resultRegister toks = registerOf (resultIds body) (ret.arg 0).id := by
  have ids : resultIds toks = resultIds body := by rw [resultIds, returning.operations, resultIds]
  rw [Estros.resultRegister, ids, returning.split, List.getLast?_concat]

theorem mem_resultIds {id : BitVec 12} (known : id ∈ definedAfter (paramIds 4) body) :
    id ∈ resultIds body ∨ id ∈ paramIds 4 := by
  rcases mem_knownAfter.mp known with param | ⟨tok, member, same⟩
  · exact Or.inr param
  · exact Or.inl (List.mem_map.mpr ⟨tok, member, same⟩)

theorem Returning.computing (returning : Returning toks body ret) {as now : CcAsmState}
    {code : List CcAsmLine} {state : CcState} {func : CcSsaFunction}
    (lowered : lowerTokens body [ret] (ccAsmFuncHeader state func as.reset) = .ok now)
    (out : now.asmOut = (ccAsmFuncHeader state func as.reset).asmOut ++ code) :
    Computing toks code := by
  obtain ⟨split, ready, noReturn, last, known, few⟩ := returning
  have table := start_table state func as
  obtain ⟨assigned, lines, written, length, integers⟩ := lowerTokens_assigned body [ret] ready
    noReturn table (start_assigned state func as) ((Nat.zero_add _).symm ▸ few)
    (List.cons_ne_nil _ _) lowered
  cases List.append_cancel_left (out.symm.trans written)
  rw [List.nil_append] at assigned
  have physical : ∀ reg ∈ handedOut body [ret] (ccAsmFuncHeader state func as.reset),
      reg < ccAsmRegisterSpill := by
    intro reg member
    rw [handedOut_slots body [ret] ready table (start_filled state func as)] at member
    obtain ⟨index, below, rfl⟩ := List.mem_map.mp member
    have early := List.mem_range.mp below
    rw [slot, if_pos (by omega)]
    simp only [ccAsmRegisterT0, ccAsmRegisterSpill]
    omega
  have named := Returning.resultRegister ⟨split, ready, noReturn, last, known, few⟩
  refine ⟨integers, ?_, ?_, fun meaning params regs placed => ?_⟩
  · rw [length, Returning.operations ⟨split, ready, noReturn, last, known, few⟩]
  · rw [named]
    exact ⟨registerOf_integer _ _, (assigned.ids_registerOf (mem_resultIds known)).1⟩
  · obtain ⟨same, simulates⟩ := lowerTokens_simulates meaning body [ret] ready noReturn table rfl
      physical lowered
    cases List.append_cancel_left (out.symm.trans simulates.out)
    have runs := simulates.runs regs _ (start_carries state func as placed) (start_known params)
    rw [named, split, ssaCall, ssaRun_append]
    cases steps : ssaSteps meaning body (paramEnv (List.ofFn params)) with
    | error outcome =>
        rw [steps] at runs
        cases steps_undefined meaning noReturn steps
        exact runs
    | ok env =>
        rw [steps] at runs
        obtain ⟨final, exec, carries, valued, kept⟩ := runs
        obtain ⟨value, found⟩ := (valued _).mp known
        obtain ⟨below, holds⟩ := assigned.ids_registerOf (mem_resultIds known)
        have nonzero : (ret.arg 0).id ≠ 0 := simulates.table.named _ known
        have carried := carries.values _ below (holds.trans_ne nonzero)
        rw [holds, found] at carried
        simp only [run_return meaning last, found]
        exact ⟨final, exec, (Option.some.inj carried).symm, kept⟩

end Function

section Program

variable {state : CcState}

def CcState.functionName (state : CcState) (func : CcSsaFunction) : List UInt8 :=
  cString (ccStrviewGet state func.name)

def CcState.functionSize (state : CcState) (func : CcSsaFunction) : Nat :=
  (operations (state.funcTokens func)).length + 1

def unitLines (state : CcState) (funcs : List CcSsaFunction) (codes : List (List CcAsmLine)) :
    List CcAsmLine :=
  (List.zipWith (fun func code => functionLines (state.functionName func) code) funcs codes).flatten

theorem lowerFunc_lines {func : CcSsaFunction} (compilable : Compilable state func)
    (as : CcAsmState) :
    ∃ after code, ccAsmLowerFunc state func as.reset = .ok after ∧
      after.asmOut = as.asmOut ++ functionLines (state.functionName func) code ∧
      Computing (state.funcTokens func) code := by
  obtain ⟨inside, ⟨body, ret, returning⟩, _⟩ := compilable
  obtain ⟨now, after, code, lowered, out, function, text, _⟩ :=
    lowerFunc_text inside as returning.split returning.ready returning.noReturn returning.last
  exact ⟨after, code, function, text, returning.computing lowered out⟩

theorem lowerLoop_lines (todo : List CcSsaFunction) (done : List CcSsaFunction) (as : CcAsmState)
    (split : state.ssaFuncs = done ++ todo)
    (compilable : ∀ func ∈ todo, Compilable state func) :
    ∃ after codes,
      countedLoop (ccAsmLowerSsaAt state) todo.length done.length as = .ok after ∧
      after.asmOut = as.asmOut ++ unitLines state todo codes ∧
      List.Forall₂ (fun func code => Computing (state.funcTokens func) code) todo codes := by
  induction todo generalizing done as with
  | nil => exact ⟨as, [], rfl, (List.append_nil _).symm, .nil⟩
  | cons func rest ih =>
      have here : state.ssaFuncs.getD done.length default = func := by
        rw [split]
        simp
      obtain ⟨next, code, lowered, out, computing⟩ :=
        lowerFunc_lines (compilable func List.mem_cons_self) as
      obtain ⟨after, codes, looped, written, each⟩ := ih (done ++ [func]) next (by simp [split])
        fun other member => compilable other (List.mem_cons_of_mem func member)
      rw [List.length_append, List.length_singleton] at looped
      refine ⟨after, code :: codes, ?_, ?_, .cons computing each⟩
      · rw [List.length_cons, countedLoop, ccAsmLowerSsaAt, here, lowered]
        exact looped
      · rw [written, out, List.append_assoc]
        rfl

theorem lowerSsa_lines (compilable : ∀ func ∈ state.ssaFuncs, Compilable state func) :
    ∃ codes, ccAsmLowerSsa state = .ok (unitLines state state.ssaFuncs codes) ∧
      List.Forall₂ (fun func code => Computing (state.funcTokens func) code) state.ssaFuncs
        codes := by
  obtain ⟨after, codes, looped, written, each⟩ :=
    lowerLoop_lines state.ssaFuncs [] .init rfl compilable
  refine ⟨codes, ?_, each⟩
  have looped : countedLoop (ccAsmLowerSsaAt state) state.ssaFuncs.length 0 .init = .ok after := looped
  rw [ccAsmLowerSsa, looped]
  exact congrArg Except.ok written

theorem unitLines_assemble {funcs : List CcSsaFunction} {codes : List (List CcAsmLine)}
    (compilable : ∀ func ∈ funcs, Compilable state func)
    (each : List.Forall₂ (fun func code => Computing (state.funcTokens func) code) funcs codes) :
    ∀ line ∈ unitLines state funcs codes, line.Assembles := by
  induction each with
  | nil => exact fun _ member => absurd member List.not_mem_nil
  | @cons func code funcs codes computing _ ih =>
      have later := ih fun other member => compilable other (List.mem_cons_of_mem func member)
      intro line member
      rcases List.mem_append.mp member with here | behind
      · have label := (compilable func List.mem_cons_self).label
        simp only [functionLines, List.mem_append, List.mem_cons, List.not_mem_nil, or_false] at here
        rcases here with (rfl | rfl) | operation | rfl | rfl
        · exact Or.inl rfl
        · exact label
        · have integers := computing.integers line operation
          cases line with
          | binop insn res arg0 arg1 => exact integers
          | _ => exact absurd integers id
        · trivial
        · exact Or.inr rfl
      · exact later line behind

def retInst : XmInstTableEntry × AsmOperands := (retEntry, fun _ => .zero)

theorem functionLines_code (name : List UInt8) (code : List CcAsmLine) :
    linesCode (functionLines name code) = linesCode code ++ [retInst] := by
  change linesCode (code ++ _) = _
  rw [linesCode_append]
  rfl

theorem unitLines_cons (func : CcSsaFunction) (rest : List CcSsaFunction) (code : List CcAsmLine)
    (codes : List (List CcAsmLine)) : unitLines state (func :: rest) (code :: codes) =
      functionLines (state.functionName func) code ++ unitLines state rest codes := rfl

theorem unitLines_size {funcs : List CcSsaFunction} {codes : List (List CcAsmLine)}
    (each : List.Forall₂ (fun func code => Computing (state.funcTokens func) code) funcs codes) :
    (linesCode (unitLines state funcs codes)).length = (funcs.map state.functionSize).sum := by
  induction each with
  | nil => rfl
  | cons computing _ ih =>
      rw [unitLines_cons, linesCode_append, functionLines_code, List.length_append,
        List.length_append, linesCode_length computing.integers, computing.size, ih]
      rfl

def linesLabels (offset : Nat) (lines : List CcAsmLine) : List AsmLabel :=
  listingLabels offset (lines.filterMap CcAsmLine.statement)

theorem linesLabels_append (offset : Nat) (lines others : List CcAsmLine) :
    linesLabels offset (lines ++ others) =
      linesLabels offset lines ++ linesLabels (offset + 4 * (linesCode lines).length) others := by
  rw [linesLabels, List.filterMap_append, listingLabels_append]
  rfl

theorem functionLines_labels (offset : Nat) (name : List UInt8) {code : List CcAsmLine}
    (integers : ∀ line ∈ code, line.OnIntegers) :
    linesLabels offset (functionLines name code) = [⟨name, BitVec.ofNat 32 offset⟩] := by
  have none (offset : Nat) : linesLabels offset code = [] := by
    induction code generalizing offset with
    | nil => rfl
    | cons line rest ih =>
        have head := integers line List.mem_cons_self
        cases line with
        | binop insn res arg0 arg1 =>
            exact ih (fun other member => integers other (List.mem_cons_of_mem _ member)) _
        | _ => exact absurd head id
  change _ :: linesLabels offset (code ++ _) = _
  rw [linesLabels_append, none]
  rfl

theorem unitLines_labels {funcs : List CcSsaFunction} {codes : List (List CcAsmLine)}
    (each : List.Forall₂ (fun func code => Computing (state.funcTokens func) code) funcs codes)
    (offset : Nat) : (linesLabels offset (unitLines state funcs codes)).length = funcs.length := by
  induction each generalizing offset with
  | nil => rfl
  | cons computing _ ih =>
      rw [unitLines_cons, linesLabels_append, functionLines_labels _ _ computing.integers,
        List.length_append, ih, List.length_cons, Nat.add_comm]
      rfl

theorem unitLines_split {funcs : List CcSsaFunction} {codes : List (List CcAsmLine)}
    (each : List.Forall₂ (fun func code => Computing (state.funcTokens func) code) funcs codes)
    {i : Nat} {func : CcSsaFunction} (here : funcs[i]? = some func) :
    ∃ front code back, unitLines state funcs codes =
        front ++ (functionLines (state.functionName func) code ++ back) ∧
      Computing (state.funcTokens func) code ∧
      ∀ offset, (linesLabels offset (unitLines state funcs codes))[i]? =
        some ⟨state.functionName func, BitVec.ofNat 32 (offset + 4 * (linesCode front).length)⟩ := by
  induction each generalizing i with
  | nil => cases here
  | @cons head code funcs codes computing _ ih =>
      rw [unitLines_cons]
      cases i with
      | zero =>
          cases here
          refine ⟨[], code, _, rfl, computing, fun offset => ?_⟩
          rw [linesLabels_append, functionLines_labels _ _ computing.integers]
          rfl
      | succ i =>
          obtain ⟨front, found, back, split, computes, labels⟩ := ih here
          refine ⟨functionLines (state.functionName head) code ++ front, found, back, ?_, computes,
            fun offset => ?_⟩
          · rw [split, List.append_assoc]
          · rw [linesLabels_append, functionLines_labels _ _ computing.integers, linesCode_append,
              List.length_append, Nat.mul_add, ← Nat.add_assoc]
            exact labels _

end Program

/-! ### Calls -/

/-- The simulator has come back from a function: the result is in its register, and neither the
memory nor a register from `$t7` on has changed. -/
structure Returned (toks : List CcSsaToken) (value : Word) (sim now : SimState) : Prop where
  pc : now.pc = sim.r (xmRegister xmAbiRa)
  result : now.r (simRegister (resultRegister toks)) = value
  mem : now.mem = sim.mem
  kept : ∀ reg : Fin 16, xmAbiT7 ≤ reg.val → now.r reg = sim.r reg

def PassedIn (params : Fin 4 → Word) (sim : SimState) : Prop :=
  ∀ k : Fin 4, sim.r (xmRegister (xmAbiA0 + k)) = params k

section Calls

variable (fpu : FloatUnit) (fuel : Nat) {program : AsmProgram}

theorem simRegister_eq (reg : Fin 16) : simRegister (ccAsmRegisterT0 + reg.val) = reg := by
  rw [simRegister, registerNumber, Nat.add_sub_cancel_left]
  exact Fin.ext (Nat.mod_eq_of_lt reg.isLt)

theorem function_run (fits : 4 * program.code.length ≤ simRomSize) {toks : List CcSsaToken}
    {code : List CcAsmLine} (computing : Computing toks code) {k : Nat}
    (placed : program.HasAt k (linesCode code ++ [retInst])) {sim : SimState}
    (index : AtIndex k sim) {params : Fin 4 → Word} (passed : PassedIn params sim)
    (meaning : SsaMeaning) :
    match ssaCall meaning toks (List.ofFn params) with
    | .returned (some value) => ∃ now,
        Steps (program.Continues fpu fuel) ((operations toks).length + 1) sim now ∧
          Returned toks value sim now
    | _ => ∃ count < (operations toks).length, ∃ now,
        Steps (program.Continues fpu fuel) count sim now ∧
          program.step fpu fuel now = some (.error .undefined) := by
  let regs : AsmRegs := fun reg => sim.r (simRegister reg)
  have shown : Shows regs sim := fun _ _ _ => rfl
  have arguments : Placed params regs := fun k => by
    have same : simRegister (ccAsmRegisterA0 + k) = xmRegister (xmAbiA0 + k) := by
      rw [simRegister, registerNumber]
      simp only [ccAsmRegisterA0, ccAsmRegisterT0, xmAbiA0]
      congr 1
      omega
    exact (congrArg sim.r same).trans (passed k)
  obtain ⟨body, ending⟩ := placed.append
  have runs := computing.runs meaning params regs arguments
  have lines := lines_run fpu fuel fits computing.integers body index shown
  rw [computing.size] at lines
  -- a result means that all operations are defined, anything else that one is not
  have undefined (exec : asmExec code regs = none) : ∃ count < (operations toks).length, ∃ now,
      Steps (program.Continues fpu fuel) count sim now ∧
        program.step fpu fuel now = some (.error .undefined) := by
    rw [exec] at lines
    exact lines
  cases outcome : ssaCall meaning toks (List.ofFn params) with
  | returned result =>
      rw [outcome] at runs
      cases result with
      | none => exact undefined runs
      | some value =>
          obtain ⟨last, exec, result, kept⟩ := runs
          rw [exec] at lines
          obtain ⟨middle, run, showsLast, indexLast, mem⟩ := lines
          have link : middle.r (xmRegister xmAbiRa) = sim.r (xmRegister xmAbiRa) :=
            (showsLast ccAsmRegisterRa (by decide) (by decide)).trans (kept _ (by decide))
          have here : program.code[k + (operations toks).length]? = some retInst := by
            rw [← computing.size, ← linesCode_length computing.integers]
            exact ending 0 _ rfl
          have step := program_step fpu fuel fits indexLast here
          refine ⟨_, run.trans (.one ⟨step, fun _ => rfl⟩), link, ?_, mem, fun reg high => ?_⟩
          · exact (showsLast _ computing.result.1 computing.result.2).trans result
          · have same := simRegister_eq reg
            have shown := showsLast (ccAsmRegisterT0 + reg.val) (Nat.le_add_right _ _)
              (by have small := reg.isLt; change 16 + reg.val < 32; omega)
            have high : ccAsmRegisterT7 ≤ ccAsmRegisterT0 + reg.val := Nat.add_le_add_left high _
            rw [same, kept _ high] at shown
            exact shown.trans (congrArg sim.r same)
  | undefined =>
      rw [outcome] at runs
      exact undefined runs
  | fellThrough =>
      rw [outcome] at runs
      exact undefined runs

end Calls

theorem linesCode_mem {lines : List CcAsmLine} {inst : XmInstTableEntry × AsmOperands}
    (member : inst ∈ linesCode lines) :
    (∃ insn : CcAsmInsn, inst.1 = insn.entry) ∨ inst.1 = retEntry := by
  induction lines with
  | nil => cases member
  | cons line rest ih =>
      cases line with
      | binop insn res arg0 arg1 =>
          rcases List.mem_cons.mp member with rfl | behind
          · exact Or.inl ⟨insn, rfl⟩
          · exact ih behind
      | ret =>
          rcases List.mem_cons.mp member with rfl | behind
          · exact Or.inr rfl
          · exact ih behind
      | _ => exact ih member

theorem linesCode_plain {lines : List CcAsmLine} {inst : XmInstTableEntry × AsmOperands}
    (member : inst ∈ linesCode lines) :
    opcodeFree inst.1 = true ∧ ¬ RefersToLabel inst.1 inst.2 := by
  rcases linesCode_mem member with ⟨insn, same⟩ | same
  · rw [same]
    refine ⟨(insn_found insn).free, fun refers => ?_⟩
    have format : insn.entry.format = .r4r4i8o8Ifhbs := by cases insn <;> rfl
    rw [refers.1] at format
    cases format
  · rw [same]
    exact ⟨rfl, fun refers => nomatch refers.1⟩

theorem linesCode_executable (labels : List AsmLabel) (lines : List CcAsmLine) :
    AsmProgram.Executable ⟨labels, linesCode lines⟩ := by
  intro k entry op here
  obtain ⟨free, plain⟩ := linesCode_plain (List.mem_of_getElem? here)
  exact ⟨free, fun refers => absurd refers plain⟩

theorem linesCode_unlinked (lines : List CcAsmLine) :
    (linesCode lines).countP (fun inst => (asmTarget inst.1.format inst.2).isSome) = 0 := by
  refine List.countP_eq_zero.mpr fun inst member target => ?_
  refine (linesCode_plain member).2 ?_
  obtain ⟨name, found⟩ := Option.isSome_iff_exists.mp target
  exact refers_of_target found.symm

theorem unit_assembled {state : CcState} (compilable : ∀ func ∈ state.ssaFuncs, Compilable state func)
    (labels : state.ssaFuncs.length * asmLabelSize ≤ listMaxSize)
    (fits : 4 * (state.ssaFuncs.map state.functionSize).sum ≤ simRomSize) :
    ∃ codes text file,
      List.Forall₂ (fun func code => Computing (state.funcTokens func) code) state.ssaFuncs codes ∧
      ccAsmLowerSsa state = .ok (unitLines state state.ssaFuncs codes) ∧
      ccAsmFinish (unitLines state state.ssaFuncs codes) = some text ∧ asmMain text = .ok file ∧
      AsmProgram.ofText text = ⟨linesLabels 0 (unitLines state state.ssaFuncs codes),
        linesCode (unitLines state state.ssaFuncs codes)⟩ ∧
      (AsmProgram.ofText text).InFile file ∧
      4 * (AsmProgram.ofText text).code.length ≤ simRomSize := by
  obtain ⟨codes, lowered, each⟩ := lowerSsa_lines compilable
  obtain ⟨text, finished, listing, items, printed, read⟩ :=
    output_reads (unitLines_assemble compilable each)
  have program : AsmProgram.ofText text = ⟨linesLabels 0 (unitLines state state.ssaFuncs codes),
      linesCode (unitLines state state.ssaFuncs codes)⟩ := by
    rw [AsmProgram.ofText, listing]
    rfl
  have size : (AsmProgram.ofText text).code.length = (state.ssaFuncs.map state.functionSize).sum := by
    rw [program]
    exact unitLines_size each
  have count : (linesLabels 0 (unitLines state state.ssaFuncs codes)).length =
      state.ssaFuncs.length := unitLines_labels each 0
  have room : (AsmProgram.ofText text).Fits := by
    constructor
    · rw [size]
      exact fits.trans (by decide)
    · rw [program, count]
      exact labels
    · rw [program, linesCode_unlinked, Nat.zero_mul]
      exact Nat.zero_le _
  obtain ⟨after, assembled⟩ := text_assembled read room
  have executable : (AsmProgram.ofText text).Executable := program ▸ linesCode_executable _ _
  obtain ⟨file, main, written⟩ := program_assembled assembled executable
  exact ⟨codes, text, file, each, lowered, finished, main, program, written, size ▸ fits⟩

/-- What the simulator does when it is at the first instruction of a function: it returns what the
function does, after one step for each operation and one for the `ret`, or stops at an operation
that is not defined. -/
def RunsAsCalled (fpu : FloatUnit) (fuel : Nat) (toks : List CcSsaToken) (sim : SimState) :
    SsaOutcome → Prop
  | .returned (some value) => ∃ now,
      cpuRun fpu fuel ((operations toks).length + 1) sim = .ok (.continue, now) ∧
        Returned toks value sim now
  | _ => ∃ count ≤ (operations toks).length, cpuRun fpu fuel count sim = .error .undefined

def RunsFunction (fpu : FloatUnit) (fuel : Nat) (file : List UInt8) (start : Word)
    (toks : List CcSsaToken) (call : (Fin 4 → Word) → SsaOutcome) : Prop :=
  ∀ (params : Fin 4 → Word) (sim : SimState), RomHolds file sim.mem → sim.pc = start →
    PassedIn params sim → RunsAsCalled fpu fuel toks sim (call params)

theorem function_runs (fpu : FloatUnit) (fuel : Nat) {program : AsmProgram} {file : List UInt8}
    (written : program.InFile file) (executable : program.Executable)
    (fits : 4 * program.code.length ≤ simRomSize) {toks : List CcSsaToken} {code : List CcAsmLine}
    (computing : Computing toks code) {k : Nat}
    (placed : program.HasAt k (linesCode code ++ [retInst])) (meaning : SsaMeaning) :
    RunsFunction fpu fuel file (simRomBase + BitVec.ofNat 32 (4 * k)) toks
      fun params => ssaCall meaning toks (List.ofFn params) := by
  intro params sim loaded index passed
  have run := function_run fpu fuel fits computing placed index passed meaning
  have stops : (∃ count < (operations toks).length, ∃ now,
      Steps (program.Continues fpu fuel) count sim now ∧
        program.step fpu fuel now = some (.error .undefined)) →
      ∃ count ≤ (operations toks).length, cpuRun fpu fuel count sim = .error .undefined := by
    rintro ⟨count, fewer, now, steps, step⟩
    obtain ⟨cpu, holds⟩ := run_agrees written executable fits loaded steps
    have next := cpuRun_step (cpuRun_of_steps cpu)
    exact ⟨count + 1, fewer, next.trans (step_agrees written executable fits holds step)⟩
  change RunsAsCalled fpu fuel toks sim (ssaCall meaning toks (List.ofFn params))
  cases outcome : ssaCall meaning toks (List.ofFn params) with
  | returned result =>
      rw [outcome] at run
      cases result with
      | none => exact stops run
      | some value =>
          obtain ⟨now, steps, returned⟩ := run
          obtain ⟨cpu, _⟩ := run_agrees written executable fits loaded steps
          exact ⟨now, cpuRun_of_steps cpu, returned⟩
  | undefined =>
      rw [outcome] at run
      exact stops run
  | fellThrough =>
      rw [outcome] at run
      exact stops run

def UnitRuns (fpu : FloatUnit) (fuel : Nat) (state : CcState) (text file : List UInt8)
    (call : CcSsaFunction → (Fin 4 → Word) → SsaOutcome) : Prop :=
  ∀ (i : Nat) (func : CcSsaFunction), state.ssaFuncs[i]? = some func → ∃ label : AsmLabel,
    (AsmProgram.ofText text).labels[i]? = some label ∧ label.name = state.functionName func ∧
      RunsFunction fpu fuel file (simRomBase + label.pc) (state.funcTokens func) (call func)

theorem unit_runs (fpu : FloatUnit) (fuel : Nat) {state : CcState}
    (compilable : ∀ func ∈ state.ssaFuncs, Compilable state func)
    (labels : state.ssaFuncs.length * asmLabelSize ≤ listMaxSize)
    (fits : 4 * (state.ssaFuncs.map state.functionSize).sum ≤ simRomSize) :
    ∃ lines text file, ccAsmLowerSsa state = .ok lines ∧ ccAsmFinish lines = some text ∧
      asmMain text = .ok file ∧ ∀ meaning, UnitRuns fpu fuel state text file
        fun func params => ssaCall meaning (state.funcTokens func) (List.ofFn params) := by
  obtain ⟨codes, text, file, each, lowered, finished, main, program, written, small⟩ :=
    unit_assembled compilable labels fits
  refine ⟨_, text, file, lowered, finished, main, fun meaning i func here => ?_⟩
  obtain ⟨front, code, back, split, computing, label⟩ := unitLines_split each here
  have executable : (AsmProgram.ofText text).Executable := program ▸ linesCode_executable _ _
  have placed : (AsmProgram.ofText text).HasAt (linesCode front).length
      (linesCode code ++ [retInst]) := by
    intro j inst inside
    rw [program, split, linesCode_append, linesCode_append, functionLines_code,
      List.getElem?_append_right (Nat.le_add_right _ _), Nat.add_sub_cancel_left,
      List.getElem?_append_left (List.getElem?_eq_some_iff.mp inside).1]
    exact inside
  have named := label 0
  rw [Nat.zero_add] at named
  refine ⟨_, by rw [program]; exact named, rfl, ?_⟩
  exact function_runs fpu fuel written executable small computing placed meaning

end Estros
