import Estros.AsmOutput

/-!
The lines of the code generator on the simulator: each of them takes one step, and the integer
registers go on showing what the registers of the code generator hold.
-/

namespace Estros

def simRegister (reg : Nat) : Fin 16 := xmRegister (registerNumber reg)

def Shows (regs : AsmRegs) (sim : SimState) : Prop :=
  ∀ reg, ccAsmRegisterT0 ≤ reg → reg < ccAsmRegisterSpill → sim.r (simRegister reg) = regs reg

theorem simRegister_injective {reg other : Nat}
    (integer : ccAsmRegisterT0 ≤ reg ∧ reg < ccAsmRegisterSpill)
    (integerToo : ccAsmRegisterT0 ≤ other ∧ other < ccAsmRegisterSpill)
    (same : simRegister reg = simRegister other) : reg = other := by
  have numbers := congrArg Fin.val same
  simp only [simRegister, registerNumber, Fin.val_ofNat] at numbers
  simp only [ccAsmRegisterT0, ccAsmRegisterSpill] at integer integerToo numbers
  omega

theorem asmRegister_field (number : Nat) :
    (asmRegister number).field = xmRegister number := by
  apply Fin.ext
  simp only [AsmOperand.field, asmRegister, AsmOperand.i, BitVec.toNat_ofNat, Fin.val_ofNat]
  omega

theorem insn_action (insn : CcAsmInsn) : ∃ value, insn.entry.inst.action = some (.compute value) ∧
    ∀ lhs rhs, value lhs rhs = insn.apply lhs rhs := by
  cases insn with
  | div | rem =>
      refine ⟨_, rfl, fun lhs rhs => ?_⟩
      by_cases zero : rhs = 0 <;> simp [CcAsmInsn.apply, whenDefined, zero]
  | shl | shr =>
      refine ⟨_, rfl, fun lhs rhs => ?_⟩
      by_cases small : rhs.toNat < 32 <;> simp [CcAsmInsn.apply, whenDefined, small]
  | _ => exact ⟨_, rfl, fun _ _ => rfl⟩

theorem binop_performs (fpu : FloatUnit) (fuel : Nat) (labels : List AsmLabel) (insn : CcAsmInsn)
    (res arg0 arg1 : Nat) (sim : SimState) :
    insn.entry.perform fpu fuel labels (binopOperands res arg0 arg1) sim =
      match insn.apply (sim.r (simRegister arg0)) (sim.r (simRegister arg1)) with
      | some value => ((sim.setR (simRegister res) value).updateFlags value).next
      | none => .error .undefined := by
  obtain ⟨value, action, computes⟩ := insn_action insn
  have format : insn.entry.format = .r4r4i8o8Ifhbs := by cases insn <;> rfl
  have target : (binopOperands res arg0 arg1 0).field = simRegister res := asmRegister_field _
  have left : (binopOperands res arg0 arg1 1).field = simRegister arg0 := asmRegister_field _
  have right : (binopOperands res arg0 arg1 2).field = simRegister arg1 := asmRegister_field _
  have addend : (binopOperands res arg0 arg1).source.addend sim.r = sim.r (simRegister arg1) := by
    have register : (binopOperands res arg0 arg1).source =
        .reg (binopOperands res arg0 arg1 2).field 0 := rfl
    rw [register, right, StraightSource.addend]
    exact BitVec.add_zero _
  unfold XmInstTableEntry.perform
  cases result : insn.apply (sim.r (simRegister arg0)) (sim.r (simRegister arg1)) <;>
    simp only [format, action, XmAction.run, AsmOperands.ifhbs, target, left, addend, computes,
      result]

theorem Shows.computed {regs : AsmRegs} {sim : SimState} (shown : Shows regs sim) {res : Nat}
    (integer : ccAsmRegisterT0 ≤ res ∧ res < ccAsmRegisterSpill) (value : Word) :
    Shows (regs.set res value) (sim.setR (simRegister res) value) := by
  intro reg low high
  change Function.update sim.r (simRegister res) value (simRegister reg) = _
  rw [AsmRegs.set]
  by_cases same : reg = res
  · rw [same, if_pos rfl, Function.update_self]
  · have apart : simRegister reg ≠ simRegister res := fun clash =>
      same (simRegister_injective ⟨low, high⟩ integer clash)
    rw [if_neg same, Function.update_of_ne apart]
    exact shown reg low high

section Lines

variable (fpu : FloatUnit) (fuel : Nat) {program : AsmProgram}

def AsmProgram.HasAt (program : AsmProgram) (k : Nat)
    (code : List (XmInstTableEntry × AsmOperands)) : Prop :=
  ∀ i inst, code[i]? = some inst → program.code[k + i]? = some inst

theorem AsmProgram.HasAt.append {k : Nat} {code others : List (XmInstTableEntry × AsmOperands)}
    (placed : program.HasAt k (code ++ others)) :
    program.HasAt k code ∧ program.HasAt (k + code.length) others := by
  constructor
  · intro i inst here
    refine placed i inst ?_
    rw [List.getElem?_append_left (List.getElem?_eq_some_iff.mp here).1, here]
  · intro i inst here
    rw [Nat.add_assoc]
    refine placed _ inst ?_
    rw [List.getElem?_append_right (Nat.le_add_right _ _), Nat.add_sub_cancel_left, here]

def AtIndex (k : Nat) (sim : SimState) : Prop := sim.pc = simRomBase + BitVec.ofNat 32 (4 * k)

theorem AtIndex.next {k : Nat} {sim : SimState} (here : AtIndex k sim) :
    sim.pc + 4 = simRomBase + BitVec.ofNat 32 (4 * (k + 1)) := by
  rw [here, Nat.mul_add, BitVec.ofNat_add, BitVec.add_assoc]
  rfl

theorem binop_step (fits : 4 * program.code.length ≤ simRomSize) {insn : CcAsmInsn}
    {res arg0 arg1 k : Nat} (integers : (CcAsmLine.binop insn res arg0 arg1).OnIntegers)
    (here : program.code[k]? = some (insn.entry, binopOperands res arg0 arg1)) {sim : SimState}
    (index : AtIndex k sim) {regs : AsmRegs} (shown : Shows regs sim) :
    match insn.apply (regs arg0) (regs arg1) with
    | some value => ∃ next, program.Continues fpu fuel sim next ∧ Shows (regs.set res value) next ∧
        AtIndex (k + 1) next ∧ next.mem = sim.mem
    | none => program.step fpu fuel sim = some (.error .undefined) := by
  have integer {reg : Nat} (among : reg ∈ [res, arg0, arg1]) := integers reg among
  have step := program_step fpu fuel fits index here
  have first : sim.r (simRegister arg0) = regs arg0 :=
    shown arg0 (integer (by simp)).1 (integer (by simp)).2
  have second : sim.r (simRegister arg1) = regs arg1 :=
    shown arg1 (integer (by simp)).1 (integer (by simp)).2
  rw [binop_performs] at step
  simp only [first, second] at step
  cases result : insn.apply (regs arg0) (regs arg1) with
  | none =>
      rw [result] at step
      exact step
  | some value =>
      rw [result] at step
      refine ⟨_, ⟨step, fun _ => rfl⟩, ?_, index.next, rfl⟩
      exact shown.computed (integer (by simp)) value

def linesCode (lines : List CcAsmLine) : List (XmInstTableEntry × AsmOperands) :=
  listingCode (lines.filterMap CcAsmLine.statement)

theorem linesCode_append (lines others : List CcAsmLine) :
    linesCode (lines ++ others) = linesCode lines ++ linesCode others := by
  rw [linesCode, List.filterMap_append, listingCode_append]
  rfl

theorem linesCode_length {lines : List CcAsmLine} (integers : ∀ line ∈ lines, line.OnIntegers) :
    (linesCode lines).length = lines.length := by
  induction lines with
  | nil => rfl
  | cons line rest ih =>
      have head := integers line List.mem_cons_self
      have tail := ih fun other member => integers other (List.mem_cons_of_mem _ member)
      cases line with
      | binop insn res arg0 arg1 => exact congrArg (· + 1) tail
      | _ => exact absurd head id

/-- The run lemma: operations that are defined are gone through, and the registers go on showing
the values; the first one that is not defined stops the simulator. -/
theorem lines_run (fits : 4 * program.code.length ≤ simRomSize) {lines : List CcAsmLine}
    (integers : ∀ line ∈ lines, line.OnIntegers) {k : Nat} (placed : program.HasAt k (linesCode lines))
    {sim : SimState} (index : AtIndex k sim) {regs : AsmRegs} (shown : Shows regs sim) :
    match asmExec lines regs with
    | some last => ∃ now, Steps (program.Continues fpu fuel) lines.length sim now ∧
        Shows last now ∧ AtIndex (k + lines.length) now ∧ now.mem = sim.mem
    | none => ∃ count < lines.length, ∃ now, Steps (program.Continues fpu fuel) count sim now ∧
        program.step fpu fuel now = some (.error .undefined) := by
  induction lines generalizing k sim regs with
  | nil => exact ⟨sim, .refl sim, shown, index, rfl⟩
  | cons line rest ih =>
      have head := integers line List.mem_cons_self
      have tail := fun other member => integers other (List.mem_cons_of_mem line member)
      cases line with
      | binop insn res arg0 arg1 =>
          have first : program.code[k]? = some (insn.entry, binopOperands res arg0 arg1) :=
            placed 0 _ rfl
          have behind : program.HasAt (k + 1) (linesCode rest) := fun i inst here => by
            rw [Nat.add_assoc, Nat.add_comm 1]
            exact placed (i + 1) inst here
          have one := binop_step fpu fuel fits head first index shown
          have named : res < ccAsmRegisterSpill ∧ arg0 < ccAsmRegisterSpill ∧
              arg1 < ccAsmRegisterSpill :=
            ⟨(head res (by simp)).2, (head arg0 (by simp)).2, (head arg1 (by simp)).2⟩
          rw [asmExec, CcAsmLine.exec, if_pos named]
          cases result : insn.apply (regs arg0) (regs arg1) with
          | none =>
              rw [result] at one
              exact ⟨0, Nat.succ_pos _, sim, .refl sim, one⟩
          | some value =>
              rw [result] at one
              obtain ⟨next, continues, showsNext, indexNext, kept⟩ := one
              have later := ih tail behind indexNext showsNext
              simp only [Option.map_some, Option.bind_some]
              cases exec : asmExec rest (regs.set res value) with
              | none =>
                  rw [exec] at later
                  obtain ⟨count, fewer, now, run, stops⟩ := later
                  exact ⟨count + 1, Nat.succ_lt_succ fewer, now, .next continues run, stops⟩
              | some last =>
                  rw [exec] at later
                  obtain ⟨now, run, showsLast, indexLast, keptToo⟩ := later
                  refine ⟨now, .next continues run, showsLast, ?_, keptToo.trans kept⟩
                  rw [Nat.add_assoc, Nat.add_comm 1] at indexLast
                  exact indexLast
      | _ => exact absurd head id

end Lines

end Estros
