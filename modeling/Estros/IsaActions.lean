import Estros.IsaBranches
import Estros.IsaLiterals

/-!
What an instruction of a text does, said of its operands as they are written: registers, numbers
and labels instead of nibbles and displacements. The word that the assembler makes of the line
does the same on the simulator.
-/

namespace Estros

def AsmOperands.source (op : AsmOperands) : StraightSource :=
  if op.third.type = .imm then .imm ⟨op.third.i.toNat % 256, Nat.mod_lt _ (by decide)⟩
  else .reg op.third.field op.fourth.field

def AsmOperands.ifhbs (op : AsmOperands) (sim : SimState) : CpuDecodeR4x2i8Ifhbs where
  dp := op.first.field
  addr := sim.r op.second.field + op.source.offset sim.r
  a := sim.r op.second.field
  b := op.source.addend sim.r

def AsmOperands.four (op : AsmOperands) (sim : SimState) : CpuDecodeR4x4 where
  dp := op.first.field
  a := sim.r op.second.field
  b := sim.r op.third.field
  c := sim.r op.fourth.field

/-- How far from `pc` a branch or call goes: to its label, or by the number that is written. -/
def AsmOperands.displacement (op : AsmOperands) (labels : List AsmLabel) (pc : Word) : Word :=
  match (if op.second.type = .label then findLabel labels op.second.name else none) with
  | some label => simRomBase + label.pc - pc
  | none => ofSignedByte (toByte op.second.i)

inductive XmAction where
  | compute (value : Word → Word → Option Word)
  | store (write : Memory → Word → Word → Memory)
  | load (read : Memory → Word → Word)
  | compare (keep : Bool)

def XmInst.action : XmInst → Option XmAction
  | .add => some (.compute fun a b => some (a + b))
  | .sub => some (.compute fun a b => some (a - b))
  | .mul => some (.compute fun a b => some (a * b))
  | .div => some (.compute fun a b => if b = 0 then none else some (a / b))
  | .rem => some (.compute fun a b => if b = 0 then none else some (a % b))
  | .imul => some (.compute fun a b => some (BitVec.ofInt 32 (a.toInt * b.toInt)))
  | .and => some (.compute fun a b => some (a &&& b))
  | .xor => some (.compute fun a b => some (a ^^^ b))
  | .or => some (.compute fun a b => some (a ||| b))
  | .shl => some (.compute fun a b => if b.toNat < 32 then some (a <<< b.toNat) else none)
  | .shr => some (.compute fun a b => if b.toNat < 32 then some (a >>> b.toNat) else none)
  | .pcnt => some (.compute fun a b => some (cpuIPopcount (a + b)))
  | .clz => some (.compute fun a b => some (cpuIClz (a + b)))
  | .clo => some (.compute fun a b => some (cpuIClo (a + b)))
  | .bswap => some (.compute fun a b => some (cpuIBswap (a + b)))
  | .ipcnt => some (.compute fun a b => some (32 - cpuIPopcount (a + b)))
  | .stb => some (.store fun mem addr value => cpuWrite8 mem addr (toByte value))
  | .stw => some (.store fun mem addr value => cpuWrite16 mem addr (value.setWidth 16))
  | .stl | .stq => some (.store cpuWrite32)
  | .ldb => some (.load fun mem addr => ofByte (cpuRead8 mem addr))
  | .ldw => some (.load fun mem addr => (cpuRead16 mem addr).setWidth 32)
  | .ldl | .ldq => some (.load cpuRead32)
  | .lea => some (.load fun _ addr => addr)
  | .cmp => some (.compare false)
  | .cmpkp => some (.compare true)
  | _ => none

def SimState.compared (sim : SimState) (ds : CpuDecodeR4x2i8Ifhbs) : SimState :=
  let (r, flags) := cpuIAdd32 sim.flags ds.a ds.b
  let sim := { sim with flags := flags }.updateFlags r
  sim.setR ds.dp sim.flags

def XmAction.run (action : XmAction) (sim : SimState) (ds : CpuDecodeR4x2i8Ifhbs) : CpuResult :=
  match action with
  | .compute value =>
      match value ds.a ds.b with
      | some result => ((sim.setR ds.dp result).updateFlags result).next
      | none => .error .undefined
  | .store write => { sim with mem := write sim.mem ds.addr (sim.r ds.dp) : SimState }.next
  | .load read => (sim.setR ds.dp (read sim.mem ds.addr)).next
  | .compare false => (sim.compared ds).next
  | .compare true => { sim.compared ds with flags := sim.flags : SimState }.next

inductive XmBlockAction where
  | move (write : Nat → Memory → CpuDecodeR4x4 → Except CpuStop Memory)
  | find (read : Memory → CpuDecodeR4x4 → Word) (flags : Bool)
  | nothing
  | abort

def strcpyMemory (fuel : Nat) (mem : Memory) (ds : CpuDecodeR4x4) : Except CpuStop Memory :=
  let last := whileLoop (fun state => state.c ≠ 0) (strcpyRound ds.a ds.b) fuel
    (strcpyRound ds.a ds.b ⟨0, 0, mem⟩)
  if last.c = 0 then .ok last.mem else .error .unfinished

def XmInst.blockAction : XmInst → Option XmBlockAction
  | .memcpy => some (.move fun _ mem ds => .ok (ds.c.toNat.fold (fun i _ mem =>
      cpuCopy8 mem (ds.a + BitVec.ofNat 32 i) (ds.b + BitVec.ofNat 32 i)) mem))
  | .memmov => some (.move fun _ mem ds => .ok (
      if ds.b < ds.a then
        ds.c.toNat.fold (fun i _ mem =>
          cpuCopy8 mem (ds.a + BitVec.ofNat 32 i) (ds.b + BitVec.ofNat 32 i)) mem
      else
        ds.c.toNat.fold (fun i _ mem =>
          cpuCopy8 mem (ds.a + ds.c - BitVec.ofNat 32 i) (ds.b + ds.c - BitVec.ofNat 32 i)) mem))
  | .memset => some (.move fun _ mem ds => .ok (ds.c.toNat.fold (fun i _ mem =>
      cpuWrite8 mem (ds.a + BitVec.ofNat 32 i) (toByte ds.b)) mem))
  | .strcpy => some (.move strcpyMemory)
  | .strncpy => some (.move fun _ mem ds => .ok (strncpyLoop ds.a ds.b ds.c.toNat 0 mem))
  | .memchr => some (.find cpuMemchrResult false)
  | .memchrf => some (.find cpuMemchrResult true)
  | .indtab => some (.find (fun mem ds => cpuRead32 mem (ds.a + (ds.b + ds.c) * 4)) false)
  | .indtab8 => some (.find (fun mem ds => cpuRead32 mem (ds.a + (ds.b + ds.c) * 8)) false)
  | .chtree | .chtreeunchk => some .nothing
  | .strcat | .strpbrk | .strncat | .strchr | .strnchr => some .abort
  | _ => none

def XmBlockAction.run (action : XmBlockAction) (fuel : Nat) (sim : SimState) (ds : CpuDecodeR4x4) :
    CpuResult :=
  match action with
  | .move write =>
      match write fuel sim.mem ds with
      | .ok mem => ({ sim with mem := mem }.setR ds.dp ds.a).next
      | .error why => .error why
  | .find read false => (sim.setR ds.dp (read sim.mem ds)).next
  | .find read true =>
      ((sim.setR ds.dp (read sim.mem ds)).updateFlags (read sim.mem ds)).next
  | .nothing => sim.next
  | .abort => .error .abort

/-- `call` has a register and, from there, the distance that a branch would have from `pc`. -/
def AsmOperands.call (op : AsmOperands) (labels : List AsmLabel) (sim : SimState) : CpuResult :=
  if op.third.field.val = 0 then
    let pc := sim.r op.first.field + op.displacement labels sim.pc
    .ok (.continue, { sim with pc := pc }.setR (xmRegister xmAbiRa) (pc + 4))
  else .error .undefined

def AsmOperands.branch (op : AsmOperands) (inst : XmInst) (labels : List AsmLabel)
    (sim : SimState) : CpuResult :=
  let target := sim.pc + op.displacement labels sim.pc
  let taken := branchHolds inst sim (sim.r op.first.field) target op.third.field
  .ok (.continue, { sim with pc := if taken then target else sim.pc + 4 })

/-- What an instruction with these operands does where `labels` are defined. -/
def XmInstTableEntry.perform (entry : XmInstTableEntry) (fpu : FloatUnit) (fuel : Nat)
    (labels : List AsmLabel) (op : AsmOperands) (sim : SimState) : CpuResult :=
  match entry.format with
  | .r4r4i8o8Ifhbs =>
      match entry.inst.action with
      | some action => action.run sim (op.ifhbs sim)
      | none => .error .undefined
  | .r4r4r4r4 =>
      match entry.inst.blockAction with
      | some action => action.run fuel sim (op.four sim)
      | none => .error .undefined
  | .f4f4f4f4 =>
      (sim.setF op.first.field (fpu.value entry.inst (sim.f op.second.field) (sim.f op.third.field)
        (sim.f op.fourth.field))).next
  | .u16o8 => .ok (.continue, { sim with pc := sim.r (xmRegister xmAbiRa) })
  | .r4u4ra8o8 =>
      if entry.inst = .call then op.call labels sim else op.branch entry.inst labels sim
  | _ => .error .undefined

/-! ### Handlers are actions -/

variable {fpu : FloatUnit} {fuel : Nat}

theorem cpuExec_action {inst : XmInst} {action : XmAction} (meant : inst.action = some action)
    (fpu : FloatUnit) (fuel : Nat) (sim : SimState) (id : InstBytes) :
    cpuExec fpu fuel inst sim id = action.run sim (cpuDecodeR4x2i8Ifhbs sim id) := by
  cases inst <;> cases meant <;> rfl

theorem cpuExec_strcpy (fpu : FloatUnit) (fuel : Nat) (sim : SimState) (id : InstBytes) :
    cpuExec fpu fuel .strcpy sim id =
      (XmBlockAction.move strcpyMemory).run fuel sim (cpuDecodeR4x4 sim id) := by
  change cpuExecStrcpy fuel sim id = _
  simp only [cpuExecStrcpy, XmBlockAction.run, strcpyMemory]
  split <;> rfl

theorem cpuExec_blockAction {inst : XmInst} {action : XmBlockAction}
    (meant : inst.blockAction = some action) (fpu : FloatUnit) (fuel : Nat) (sim : SimState)
    (id : InstBytes) :
    cpuExec fpu fuel inst sim id = action.run fuel sim (cpuDecodeR4x4 sim id) := by
  cases inst with
  | strcpy =>
      cases meant
      exact cpuExec_strcpy fpu fuel sim id
  | _ => cases meant <;> rfl

/-- Every instruction of the table has the action that its format asks for. -/
theorem actions_listed : (xmInstTable.all fun entry =>
    match entry.format with
    | .r4r4i8o8Ifhbs => entry.inst.action.isSome
    | .r4r4r4r4 => entry.inst.blockAction.isSome
    | .u16o8 => entry.inst = .ret
    | .r4u4ra8o8 => entry.inst = .call || entry.inst.branchNumber.isSome
    | _ => true) = true := by
  decide +kernel

theorem floats_listed : (xmInstTable.all fun entry => entry.format ≠ .f4f4f4f4 ||
    entry.inst.action.isNone && entry.inst.blockAction.isNone && entry.inst.branchNumber.isNone &&
      entry.inst ∉ [.jmp, .jmprel, .call, .ret, .fcvti, .icvtf, .fcvtri, .icvtrf, .halt]) = true := by
  decide +kernel

theorem cpuExec_float {entry : XmInstTableEntry} (listed : entry ∈ xmInstTable)
    (format : entry.format = .f4f4f4f4) (fpu : FloatUnit) (fuel : Nat) (sim : SimState)
    (id : InstBytes) : cpuExec fpu fuel entry.inst sim id = cpuExecF4x4 fpu entry.inst sim id := by
  have checked := List.all_eq_true.mp floats_listed entry listed
  simp only [format, ne_eq, not_true_eq_false, decide_false, Bool.false_or] at checked
  generalize entry.inst = inst at checked
  cases inst <;> first | rfl | exact absurd checked (by decide)

theorem ofByte_toByte (value : BitVec 64) :
    ofByte (toByte value) = BitVec.ofNat 32 (value.toNat % 256) := by
  apply BitVec.eq_of_toNat_eq
  rw [ofByte_toNat, BitVec.toNat_ofNat]
  change value.toNat % 256 = _
  omega

theorem asmBytes_registers {entry : XmInstTableEntry} {op : AsmOperands} {id : InstBytes}
    (format : entry.format = .r4r4i8o8Ifhbs) (bytes : asmBytes entry op = some id.bytes) :
    lowNibble id.id1 = op.first.field ∧ highNibble id.id1 = op.second.field ∧
      (op.third.type ≠ .imm → lowNibble id.id2 = op.third.field) := by
  rw [asmBytes, format] at bytes
  cases id
  by_cases short : op.third.type = .imm
  · simp only [if_pos short, asmPair_mask] at bytes
    cases bytes
    exact ⟨Fin.ext (lowNibble_pair _ _), Fin.ext (highNibble_pair _ _),
      fun long => absurd short long⟩
  · simp only [if_neg short, asmPair_mask] at bytes
    cases bytes
    exact ⟨Fin.ext (lowNibble_pair _ _), Fin.ext (highNibble_pair _ _),
      fun _ => Fin.ext (lowNibble_pair _ _)⟩

theorem decode_ifhbs {entry : XmInstTableEntry} (listed : entry ∈ xmInstTable)
    (format : entry.format = .r4r4i8o8Ifhbs) {op : AsmOperands} {id : InstBytes}
    (bytes : asmBytes entry op = some id.bytes) (sim : SimState) :
    cpuDecodeR4x2i8Ifhbs sim id = op.ifhbs sim := by
  obtain ⟨immediate, register⟩ := asmBytes_ifhbs listed format bytes
  obtain ⟨rd, ra, rb⟩ := asmBytes_registers format bytes
  by_cases short : op.third.type = .imm
  · obtain ⟨form, byte⟩ := immediate short
    have source : op.source = .imm ⟨op.third.i.toNat % 256, Nat.mod_lt _ (by decide)⟩ := if_pos short
    rw [cpuDecodeR4x2i8Ifhbs, if_pos form, AsmOperands.ifhbs, source, byte, rd, ra, toByte_mask,
      ofByte_toByte]
    rfl
  · obtain ⟨form, number⟩ := register short
    have source : op.source = .reg op.third.field op.fourth.field := if_neg short
    rw [cpuDecodeR4x2i8Ifhbs, if_neg (not_not_intro form), AsmOperands.ifhbs, source, rd, ra,
      rb short, number]
    rfl

theorem asmBytes_four {entry : XmInstTableEntry} {op : AsmOperands} {id : InstBytes}
    (format : entry.format = .r4r4r4r4 ∨ entry.format = .f4f4f4f4)
    (bytes : asmBytes entry op = some id.bytes) :
    lowNibble id.id1 = op.first.field ∧ highNibble id.id1 = op.second.field ∧
      lowNibble id.id2 = op.third.field ∧ highNibble id.id2 = op.fourth.field := by
  cases id
  rcases format with format | format
  all_goals
    rw [asmBytes, format] at bytes
    cases bytes
    exact ⟨Fin.ext (lowNibble_pair _ _), Fin.ext (highNibble_pair _ _),
      Fin.ext (lowNibble_pair _ _), Fin.ext (highNibble_pair _ _)⟩

theorem decode_four {entry : XmInstTableEntry} (format : entry.format = .r4r4r4r4)
    {op : AsmOperands} {id : InstBytes} (bytes : asmBytes entry op = some id.bytes)
    (sim : SimState) : cpuDecodeR4x4 sim id = op.four sim := by
  obtain ⟨rd, ra, rb, rc⟩ := asmBytes_four (Or.inl format) bytes
  rw [cpuDecodeR4x4, AsmOperands.four, rd, ra, rb, rc]

/-- A label that the instruction refers to is defined and within the reach of a displacement. -/
def AsmOperands.InReach (op : AsmOperands) (entry : XmInstTableEntry) (labels : List AsmLabel)
    (offset : Nat) : Prop :=
  RefersToLabel entry op → ∃ label, findLabel labels op.second.name = some label ∧
    -128 ≤ (label.pc.toNat : Int) - offset ∧ (label.pc.toNat : Int) - offset ≤ 127

theorem linked_displacement {entry : XmInstTableEntry} {op : AsmOperands} {id : InstBytes}
    {labels : List AsmLabel} {offset : Nat} (format : entry.format = .r4u4ra8o8)
    (bytes : asmBytes entry op = some id.bytes) (reach : op.InReach entry labels offset) :
    ofSignedByte (id.link labels offset (asmTarget entry.format op)).id2 =
      op.displacement labels (simRomBase + BitVec.ofNat 32 offset) := by
  by_cases named : op.second.type = .label
  · obtain ⟨label, found, low, high⟩ := reach ⟨format, named⟩
    have lands := distance_lands low high
    rw [asmTarget_label ⟨format, named⟩, InstBytes.link, found, AsmOperands.displacement,
      if_pos named, found]
    simp only
    rw [← lands, BitVec.add_comm (simRomBase + _), BitVec.add_sub_cancel]
  · have target : asmTarget entry.format op = none := by simp [asmTarget, named]
    rw [target, InstBytes.link, AsmOperands.displacement, if_neg named]
    rw [asmBytes, format] at bytes
    cases id
    cases bytes
    exact congrArg ofSignedByte (toByte_mask _)

theorem link_others (id : InstBytes) (labels : List AsmLabel) (offset : Nat)
    (target : Option (List UInt8)) :
    (id.link labels offset target).id0 = id.id0 ∧ (id.link labels offset target).id1 = id.id1 ∧
      (id.link labels offset target).id3 = id.id3 := by
  cases target with
  | none => exact ⟨rfl, rfl, rfl⟩
  | some name =>
      rw [InstBytes.link]
      split <;> exact ⟨rfl, rfl, rfl⟩

theorem link_unlabelled {format : XmInstFormat} (other : format ≠ .r4u4ra8o8) (id : InstBytes)
    (labels : List AsmLabel) (offset : Nat) (op : AsmOperands) :
    id.link labels offset (asmTarget format op) = id := by
  have target : asmTarget format op = none := by simp [asmTarget, other]
  rw [target, InstBytes.link]

section Jumps

variable {entry : XmInstTableEntry} {op : AsmOperands} {word : InstBytes} {sim : SimState}
  {labels : List AsmLabel}

/-- The register number of `call` is the whole byte, the condition included. -/
theorem exec_call (ra : lowNibble word.id1 = op.first.field) (cc : highNibble word.id1 = op.third.field)
    (distance : ofSignedByte word.id2 = op.displacement labels sim.pc) :
    cpuExecCall sim word = op.call labels sim := by
  have number : word.id1.toNat = op.first.field.val + 16 * op.third.field.val := by
    have low := lowNibble_val word.id1
    have high := highNibble_val word.id1
    rw [ra] at low
    rw [cc] at high
    omega
  rw [cpuExecCall, AsmOperands.call, distance]
  by_cases plain : op.third.field.val = 0
  · have inside : word.id1.toNat < 16 := by
      have bound := op.first.field.isLt
      omega
    have register : (⟨word.id1.toNat, inside⟩ : Fin 16) = op.first.field := by
      apply Fin.ext
      change word.id1.toNat = _
      omega
    rw [dif_pos inside, if_pos plain, register]
  · have outside : ¬ word.id1.toNat < 16 := by omega
    rw [dif_neg outside, if_neg plain]

theorem exec_branch (listed : entry ∈ xmInstTable) {number : Nat}
    (branch : entry.inst.branchNumber = some number) (opcode : word.id3 = toByte entry.op)
    (ra : lowNibble word.id1 = op.first.field) (cc : highNibble word.id1 = op.third.field)
    (distance : ofSignedByte word.id2 = op.displacement labels sim.pc) :
    cpuExecCommonB sim word = op.branch entry.inst labels sim := by
  have checked := List.all_eq_true.mp branch_opcodes entry listed
  rw [branch, Option.all_some] at checked
  simp only [Bool.and_eq_true, decide_eq_true_eq] at checked
  rw [cpuExecCommonB, opcode, checked.2, cpuBranchTaken_eq branch, highNibble_byte word.id1, cc,
    cpuBranchCondition_eq, ra, distance, AsmOperands.branch]
  split <;> rfl

theorem exec_jump (listed : entry ∈ xmInstTable) (format : entry.format = .r4u4ra8o8)
    {id : InstBytes} (bytes : asmBytes entry op = some id.bytes) (registers : word.id1 = id.id1)
    (opcode : word.id3 = id.id3)
    (distance : ofSignedByte word.id2 = op.displacement labels sim.pc) :
    cpuExec fpu fuel entry.inst sim word = entry.perform fpu fuel labels op sim := by
  obtain ⟨_, ra, cc, last⟩ := asmBytes_branch format bytes
  rw [← registers] at ra cc
  have acts := List.all_eq_true.mp actions_listed entry listed
  simp only [format, Bool.or_eq_true, decide_eq_true_eq] at acts
  have meaning : entry.perform fpu fuel labels op sim =
      if entry.inst = .call then op.call labels sim else op.branch entry.inst labels sim := by
    rw [XmInstTableEntry.perform, format]
  rw [meaning]
  by_cases call : entry.inst = .call
  · rw [if_pos call, call]
    exact exec_call ra cc distance
  · obtain ⟨number, branch⟩ := Option.isSome_iff_exists.mp (acts.resolve_left call)
    rw [if_neg call, cpuExec_branch branch]
    exact exec_branch listed branch (opcode.trans last) ra cc distance

end Jumps

theorem exec_performs {entry : XmInstTableEntry} (listed : entry ∈ xmInstTable)
    (encodes : asmEncodes entry.format = true) {op : AsmOperands} {id : InstBytes}
    (bytes : asmBytes entry op = some id.bytes) {labels : List AsmLabel} {offset : Nat}
    (reach : op.InReach entry labels offset) {sim : SimState}
    (pc : sim.pc = simRomBase + BitVec.ofNat 32 offset) :
    cpuExec fpu fuel entry.inst sim (id.link labels offset (asmTarget entry.format op)) =
      entry.perform fpu fuel labels op sim := by
  have acts := List.all_eq_true.mp actions_listed entry listed
  cases format : entry.format with
  | r4r4i8o8Ifhbs =>
      simp only [format] at acts
      obtain ⟨action, meant⟩ := Option.isSome_iff_exists.mp acts
      rw [link_unlabelled (by decide), XmInstTableEntry.perform, format, cpuExec_action meant,
        decode_ifhbs listed format bytes, meant]
  | r4r4r4r4 =>
      simp only [format] at acts
      obtain ⟨action, meant⟩ := Option.isSome_iff_exists.mp acts
      rw [link_unlabelled (by decide), XmInstTableEntry.perform, format, cpuExec_blockAction meant,
        decode_four format bytes, meant]
  | f4f4f4f4 =>
      obtain ⟨rd, ra, rb, rc⟩ := asmBytes_four (Or.inr format) bytes
      rw [link_unlabelled (by decide), XmInstTableEntry.perform, format,
        cpuExec_float listed format, cpuExecF4x4]
      simp only [cpuDecodeR4f4x3, rd, ra, rb, rc]
  | u16o8 =>
      simp only [format, decide_eq_true_eq] at acts
      rw [XmInstTableEntry.perform, format, acts]
      rfl
  | r4u4ra8o8 =>
      obtain ⟨_, registers, opcode⟩ := link_others id labels offset (asmTarget entry.format op)
      have distance := linked_displacement format bytes reach
      rw [← pc] at distance
      rw [← format]
      exact exec_jump listed format bytes registers opcode distance
  | r4r4r4i4o8 | r4r4i8o8 | aa16o8 | ra16o8 | r8r8ra8o8 | r4f4f4f4 | d8 =>
      rw [format] at encodes
      cases encodes

/-- The word of an instruction does what its operands say. -/
theorem word_performs {entry : XmInstTableEntry} (listed : entry ∈ xmInstTable)
    (encodes : asmEncodes entry.format = true) (free : opcodeFree entry = true) {op : AsmOperands}
    {id : InstBytes} (bytes : asmBytes entry op = some id.bytes) {labels : List AsmLabel}
    {offset : Nat} (reach : op.InReach entry labels offset) {sim : SimState}
    (pc : sim.pc = simRomBase + BitVec.ofNat 32 offset)
    (fetched : cpuFetch sim = id.link labels offset (asmTarget entry.format op)) :
    cpuStep fpu fuel sim =
      entry.perform fpu fuel labels op { sim with ticks := sim.ticks + 1 } := by
  obtain ⟨ob1, ob2, shape⟩ := asmBytes_shape encodes op
  obtain ⟨class_, _, opcode⟩ := link_others id labels offset (asmTarget entry.format op)
  have whole := Option.some.inj (bytes.symm.trans shape)
  have first : id.id0 = (xmGetCb0FromFormat entry.format).code := congrArg (·.headD 0) whole
  have last : id.id3 = asmOpcode entry op := congrArg (·.getD 3 0) whole
  have found := (cpuFindInst_iff listed encodes (class_.trans first)
    (opcode.trans last ▸ asmOpcode_mem entry op)).mpr free
  rw [cpuStep_found fetched found]
  exact exec_performs listed encodes bytes reach pc

end Estros
