import Estros.IsaEncoding
import Estros.IsaSimulator

/-!
Which entry of the table the simulator finds for the bytes that the assembler wrote for an
entry. It compares the opcode but not the class in the first byte, so an entry can be
behind another one with the same opcode.
-/

namespace Estros

/-- The entries that `cpu_step` finds by the bytes that were written for them: those of an
integer format, without the second one of the two that share an opcode, and those of the
format `F4F4F4F4` whose opcode no integer instruction has. -/
def opcodeFree (entry : XmInstTableEntry) : Bool :=
  match entry.format with
  | .f4f4f4f4 =>
      (0x19 ≤ entry.op && entry.op ≤ 0x1f) || (0x22 ≤ entry.op && entry.op ≤ 0x2c) ||
        entry.op = 0x44
  | _ => entry.inst ≠ .chtreeunchk

theorem cpuFindInst_operands (id : InstBytes) :
    cpuFindInst id = cpuFindInst ⟨id.id0, 0, 0, id.id3⟩ := by
  simp only [cpuFindInst, cpuMatchInst]

def opcodeBytes (entry : XmInstTableEntry) : List UInt8 :=
  if entry.format = .r4r4i8o8Ifhbs then [toByte entry.op, toByte entry.op ||| 0x80]
  else [toByte entry.op]

theorem asmOpcode_mem (entry : XmInstTableEntry) (op : AsmOperands) :
    asmOpcode entry op ∈ opcodeBytes entry := by
  unfold asmOpcode opcodeBytes
  by_cases format : entry.format = .r4r4i8o8Ifhbs <;>
    by_cases immediate : (op 2).type = .imm <;> simp [format, immediate]

theorem found_by_opcode :
    (xmInstTable.all fun entry => !asmEncodes entry.format || (opcodeBytes entry).all fun id3 =>
      decide (cpuFindInst ⟨(xmGetCb0FromFormat entry.format).code, 0, 0, id3⟩ = some entry) ==
        opcodeFree entry) = true := by
  decide +kernel

theorem cpuFindInst_iff {entry : XmInstTableEntry} (member : entry ∈ xmInstTable)
    (encodes : asmEncodes entry.format = true) {id : InstBytes}
    (first : id.id0 = (xmGetCb0FromFormat entry.format).code)
    (last : id.id3 ∈ opcodeBytes entry) :
    cpuFindInst id = some entry ↔ opcodeFree entry = true := by
  have checked := List.all_eq_true.mp found_by_opcode entry member
  rw [encodes, Bool.not_true, Bool.false_or] at checked
  have agrees := beq_iff_eq.mp (List.all_eq_true.mp checked id.id3 last)
  rw [cpuFindInst_operands, first, ← agrees, decide_eq_true_iff]

/-- For the bytes that the assembler writes for an entry of the table, whatever the operands
are, `cpu_step` runs the handler of this entry exactly if no other one takes its opcode. -/
theorem assembled_entry_found_iff {entry : XmInstTableEntry} (member : entry ∈ xmInstTable)
    (encodes : asmEncodes entry.format = true) (op : AsmOperands) (state : AsmState)
    (room : state.HasRoom) :
    ∃ next id, asmFirstpass state (ascii entry.name) op = .ok (next, 4) ∧
      next.out = state.out ++ [id.id0, id.id1, id.id2, id.id3] ∧
      (cpuFindInst id = some entry ↔ opcodeFree entry = true) := by
  obtain ⟨ob1, ob2, bytes⟩ := asmBytes_shape encodes op
  obtain ⟨next, passed, written⟩ := asmFirstpass_writes member room bytes rfl
  refine ⟨next, ⟨_, ob1, ob2, asmOpcode entry op⟩, passed, written, ?_⟩
  exact cpuFindInst_iff member encodes rfl (asmOpcode_mem entry op)

def floatOperands : AsmOperands := fun k => ⟨.i (BitVec.ofNat 64 (k.val + 1)), .floatReg⟩

theorem start_hasRoom (input : List UInt8) : (AsmState.start input).HasRoom :=
  ⟨by simp only [AsmState.start]; decide, by simp only [AsmState.start]; decide⟩

theorem assembled_entry_found_sqrt :
    ∃ next id, asmFirstpass (.start []) (ascii "fsqrtcri") floatOperands = .ok (next, 4) ∧
      next.out = [] ++ [id.id0, id.id1, id.id2, id.id3] ∧
      (cpuFindInst id = some (.elem .fsqrtcri "fsqrtcri" .f4f4f4f4 0x44) ↔
        opcodeFree (.elem .fsqrtcri "fsqrtcri" .f4f4f4f4 0x44) = true) := by
  have member : .elem .fsqrtcri "fsqrtcri" .f4f4f4f4 0x44 ∈ xmInstTable := by decide +kernel
  exact assembled_entry_found_iff member rfl floatOperands (.start []) (start_hasRoom [])

/-- The bytes of `fadd3 $f1,$f2,$f3,$f4` are run by the handler of `add`. -/
theorem fadd3_runs_add :
    ¬ ∀ entry ∈ xmInstTable, asmEncodes entry.format = true → ∀ op : AsmOperands,
      asmOperandErrors entry.format op = [] → ∀ next id,
      asmFirstpass (.start []) (ascii entry.name) op = .ok (next, 4) →
      next.out = [id.id0, id.id1, id.id2, id.id3] → cpuFindInst id = some entry := by
  intro always
  have member : .elem .fadd3 "fadd3" .f4f4f4f4 0x00 ∈ xmInstTable := by decide +kernel
  have bytes : asmBytes (.elem .fadd3 "fadd3" .f4f4f4f4 0x00) floatOperands =
      some [1, 0x21, 0x43, 0] := rfl
  obtain ⟨next, passed, written⟩ := asmFirstpass_writes member (start_hasRoom []) bytes rfl
  have found := always _ member rfl floatOperands rfl next ⟨1, 0x21, 0x43, 0⟩ passed written
  have other : cpuFindInst ⟨1, 0x21, 0x43, 0⟩ = some (.elem .add "add" .r4r4i8o8Ifhbs 0x00) := rfl
  have same := Option.some.inj (other.symm.trans found)
  exact absurd (congrArg XmInstTableEntry.inst same) (by decide)

end Estros
