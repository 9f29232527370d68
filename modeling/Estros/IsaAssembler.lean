import Estros.IsaTable

/-!
The assembler isa/asm.c, on the bytes of a source file. Its tables and buffers have fixed
sizes; a write behind the end of one of them is undefined, and so is the rest of the run.
What `ASM_ERROR_IF` prints is kept, since it does nothing else.
-/

namespace Estros

def outMaxSize : Nat := 0x7fffffff
def listMaxSize : Nat := 65536
def labelNameSize : Nat := 16

def bufsiz : Nat := 8192

inductive AsmHalt where
  | overflow
  | abort
  deriving DecidableEq

inductive AsmOperandType where
  | invalid | reg | floatReg | vectorReg | controlReg | tileReg | imm | label | cond
  deriving DecidableEq

inductive AsmOperandData where
  | i (value : BitVec 64)
  | name (text : List UInt8)
  deriving DecidableEq

structure AsmOperand where
  data : AsmOperandData
  type : AsmOperandType
  deriving DecidableEq

def AsmOperand.zero : AsmOperand := ⟨.i 0, .invalid⟩

/-- `op.data.i`. Of a name it is the first eight bytes, the first of them the lowest. -/
def AsmOperand.i (op : AsmOperand) : BitVec 64 :=
  match op.data with
  | .i value => value
  | .name text =>
      BitVec.ofNat 64 ((text.take 8).foldr (fun byte value => byte.toNat + 256 * value) 0)

/-- `op.data.name`, which is read of a label only. -/
def AsmOperand.name (op : AsmOperand) : List UInt8 :=
  match op.data with
  | .i _ => []
  | .name text => text

abbrev AsmOperands := Fin 4 → AsmOperand

structure AsmLabel where
  name : List UInt8
  pc : Word
  deriving DecidableEq

inductive AsmFixupType where
  | none | relO16S8
  deriving DecidableEq

structure AsmFixup where
  name : List UInt8
  type : AsmFixupType
  pc : Word
  offset : Word
  deriving DecidableEq

/-- `asm_state_t`, and the lines on `stderr`. -/
structure AsmState where
  input : List UInt8
  out : List UInt8
  labels : List AsmLabel
  fixups : List AsmFixup
  pc : Word
  stderr : List (List UInt8)
  deriving DecidableEq

def AsmState.start (input : List UInt8) : AsmState where
  input := input
  out := []
  labels := []
  fixups := []
  pc := 0
  stderr := []

def asmErrorLine (text : List UInt8) : List UInt8 := ascii "asm.c: " ++ text ++ ascii "\n"

def asmErrorIf (condition : Bool) (text : String) : List (List UInt8) :=
  if condition then [asmErrorLine (ascii text ++ ascii " ")] else []

def AsmState.print (state : AsmState) (lines : List (List UInt8)) : AsmState :=
  { state with stderr := state.stderr ++ lines }

/-- The letters of a condition in the order in which they are looked for, with their bits. -/
def asmConditionLetters : List (UInt8 × BitVec 64) :=
  [(33, 0x01), (110, 0x02), (122, 0x04), (99, 0x08), (103, 0x0d), (108, 0x08), (101, 0x04)]

def asmCondition (p : List UInt8) : BitVec 64 :=
  (asmConditionLetters.foldl (fun (done : BitVec 64 × List UInt8) letter =>
    if done.2.head? = some letter.1 then (done.1 ||| letter.2, done.2.tail) else done) (0, p)).1

def asmNumber (p : List UInt8) : BitVec 64 := BitVec.ofInt 64 (atoll p)

def asmRegister (number : Nat) : AsmOperand := ⟨.i (BitVec.ofNat 64 number), .reg⟩

def asmOutside (i : BitVec 64) (first last : Nat) : Bool := i.toInt < first || last < i.toInt

def asmParseAsmOperand (p : List UInt8) : Except AsmHalt (AsmOperand × List (List UInt8)) :=
  if (ascii "$cr").isPrefixOf p then .ok (⟨.i (asmNumber (p.drop 3)), .controlReg⟩, [])
  else if (ascii "$tm").isPrefixOf p then .ok (⟨.i (asmNumber (p.drop 3)), .tileReg⟩, [])
  else if (ascii "?").isPrefixOf p then .ok (⟨.i (asmCondition (p.drop 1)), .cond⟩, [])
  else if (ascii "$sp").isPrefixOf p then .ok (asmRegister xmAbiSp, [])
  else if (ascii "$bp").isPrefixOf p then .ok (asmRegister xmAbiBp, [])
  else if (ascii "$tp").isPrefixOf p then .ok (asmRegister xmAbiTp, [])
  else if (ascii "$ra").isPrefixOf p then .ok (asmRegister xmAbiRa, [])
  else if (ascii "$t").isPrefixOf p then
    let i := asmNumber (p.drop 2) + BitVec.ofNat 64 xmAbiT0
    .ok (⟨.i i, .reg⟩, asmErrorIf (asmOutside i xmAbiT0 xmAbiT7)
      "op.data.i < XM_ABI_T0 || op.data.i > XM_ABI_T7")
  else if (ascii "$a").isPrefixOf p then
    let i := asmNumber (p.drop 2) + BitVec.ofNat 64 xmAbiA0
    .ok (⟨.i i, .reg⟩, asmErrorIf (asmOutside i xmAbiA0 xmAbiA3)
      "op.data.i < XM_ABI_A0 || op.data.i > XM_ABI_A3")
  else if (ascii "$r").isPrefixOf p then .ok (⟨.i (asmNumber (p.drop 2)), .reg⟩, [])
  else if (ascii "$v").isPrefixOf p then .ok (⟨.i (asmNumber (p.drop 2)), .vectorReg⟩, [])
  else if (ascii "$f").isPrefixOf p then .ok (⟨.i (asmNumber (p.drop 2)), .floatReg⟩, [])
  else if isdigit (p.headD 0) || (ascii "-").isPrefixOf p then
    .ok (⟨.i (asmNumber p), .imm⟩, [])
  else if p.length < labelNameSize then .ok (⟨.name p, .label⟩, [])
  else .error .overflow

/-- What the branch of `asm_firstpass` for a format prints about the operands. -/
def asmOperandErrors (format : XmInstFormat) (op : AsmOperands) : List (List UInt8) :=
  match format with
  | .r4r4i8o8Ifhbs =>
      asmErrorIf ((op 0).type ≠ .reg) "op[0].type != OP_REG" ++
      asmErrorIf ((op 1).type ≠ .reg) "op[1].type != OP_REG" ++
      asmErrorIf ((op 2).type ≠ .imm && (op 2).type ≠ .reg) "op[2].type != OP_REG"
  | .r4u4ra8o8 =>
      asmErrorIf ((op 0).type ≠ .reg) "op[0].type != OP_REG" ++
      asmErrorIf ((op 1).type ≠ .imm && (op 1).type ≠ .label)
        "op[1].type != OP_IMM && op[1].type != OP_LABEL" ++
      asmErrorIf ((op 2).type ≠ .cond) "op[2].type != OP_COND"
  | .r4r4r4r4 =>
      asmErrorIf ((op 0).type ≠ .reg) "op[0].type != OP_REG" ++
      asmErrorIf ((op 1).type ≠ .reg) "op[1].type != OP_REG" ++
      asmErrorIf ((op 2).type ≠ .reg) "op[2].type != OP_REG" ++
      asmErrorIf ((op 3).type ≠ .reg) "op[3].type != OP_REG"
  | .f4f4f4f4 =>
      asmErrorIf ((op 0).type ≠ .floatReg) "op[0].type != OP_FLOAT_REG" ++
      asmErrorIf ((op 1).type ≠ .floatReg) "op[1].type != OP_FLOAT_REG" ++
      asmErrorIf ((op 2).type ≠ .floatReg) "op[2].type != OP_FLOAT_REG" ++
      asmErrorIf ((op 3).type ≠ .floatReg) "op[3].type != OP_FLOAT_REG"
  | _ => []

def asmPair (low high : BitVec 64) : UInt8 := toByte ((low &&& 0x0f#64) ||| (high <<< 4))

/-- The bytes `ob` that the branch for a format fills in; an unhandled format has none. -/
def asmBytes (entry : XmInstTableEntry) (op : AsmOperands) : Option (List UInt8) :=
  match entry.format with
  | .r4r4i8o8Ifhbs =>
      let ob1 := asmPair (op 0).i ((op 1).i &&& 0x0f#64)
      let ob3 := toByte (entry.op &&& 0xff)
      if (op 2).type = .imm then
        some [XmCb0.integer.code, ob1, toByte ((op 2).i &&& 0xff#64), ob3 ||| 0x80]
      else
        some [XmCb0.integer.code, ob1, asmPair (op 2).i ((op 3).i &&& 0x0f#64), ob3]
  | .u16o8 => some [XmCb0.integer.code, 0, 0, toByte entry.op]
  | .r4u4ra8o8 =>
      some [XmCb0.integer.code, asmPair (op 0).i (op 2).i, toByte ((op 1).i &&& 0xff#64),
        toByte entry.op]
  | .r4r4r4r4 =>
      some [XmCb0.integer.code, asmPair (op 0).i (op 1).i, asmPair (op 2).i (op 3).i,
        toByte entry.op]
  | .f4f4f4f4 =>
      some [XmCb0.float.code, asmPair (op 0).i (op 1).i, asmPair (op 2).i (op 3).i,
        toByte entry.op]
  | _ => none

def asmOpcode (entry : XmInstTableEntry) (op : AsmOperands) : UInt8 :=
  if entry.format = .r4r4i8o8Ifhbs ∧ (op 2).type = .imm then toByte entry.op ||| 0x80
  else toByte entry.op

def asmLabelSize : Nat := 20
def asmFixupSize : Nat := 28

abbrev AsmOperands.first (op : AsmOperands) : AsmOperand := op 0

abbrev AsmOperands.second (op : AsmOperands) : AsmOperand := op 1

abbrev AsmOperands.third (op : AsmOperands) : AsmOperand := op 2

abbrev AsmOperands.fourth (op : AsmOperands) : AsmOperand := op 3

def RefersToLabel (entry : XmInstTableEntry) (op : AsmOperands) : Prop :=
  entry.format = .r4u4ra8o8 ∧ (op 1).type = .label

def asmTarget (format : XmInstFormat) (op : AsmOperands) : Option (List UInt8) :=
  if format = .r4u4ra8o8 && (op 1).type = .label then some (op 1).name else none

def asmRecordFixup (state : AsmState) (format : XmInstFormat) (op : AsmOperands) :
    Except AsmHalt AsmState :=
  if format = .r4u4ra8o8 && (op 1).type = .label then
    if (state.fixups.length + 1) * asmFixupSize ≤ listMaxSize then
      .ok { state with fixups := state.fixups ++
        [⟨(op 1).name, .relO16S8, state.pc, BitVec.ofNat 32 state.out.length⟩] }
    else .error .overflow
  else .ok state

/-- `asm_firstpass`. The names in the table are different, so the first that matches is the
only one. -/
def asmFirstpass (state : AsmState) (name : List UInt8) (op : AsmOperands) :
    Except AsmHalt (AsmState × Word) :=
  match xmInstTable.find? fun entry => ascii entry.name = name with
  | none =>
      .ok (state.print [asmErrorLine (ascii "true unhandled memmonic <" ++ name ++ ascii ">")], 0)
  | some entry => do
      let state := state.print (asmOperandErrors entry.format op)
      let state ← asmRecordFixup state entry.format op
      match asmBytes entry op with
      | none =>
          .ok (state.print [asmErrorLine (ascii "true unhandled type"),
            asmErrorLine (ascii "oc == 0 ")], 0)
      | some ob =>
          if state.out.length + ob.length ≤ outMaxSize then
            .ok ({ state with out := state.out ++ ob }, BitVec.ofNat 32 ob.length)
          else .error .overflow

/-- The operands between the commas; the loop that cuts them makes a bounded number of rounds. -/
def asmSplitOperands : Nat → List UInt8 → List (List UInt8)
  | 0, _ => []
  | rounds + 1, p =>
      match strchr 44 p with
      | some (operand, rest) => operand :: asmSplitOperands rounds rest
      | none => [p]

def asmAddLabel (state : AsmState) (name : List UInt8) : Except AsmHalt AsmState :=
  if name.length < labelNameSize ∧ (state.labels.length + 1) * asmLabelSize ≤ listMaxSize then
    .ok { state with labels := state.labels ++ [⟨name, state.pc⟩] }
  else .error .overflow

def asmInstruction (state : AsmState) (mem : List UInt8) (op : AsmOperands) :
    Except AsmHalt AsmState := do
  let (state, oc) ← asmFirstpass state mem op
  .ok { state with pc := state.pc + oc }

/-- `asm_process_line`. There is room for four operands. -/
def asmProcessLine (state : AsmState) (line : List UInt8) : Except AsmHalt AsmState :=
  let line := cString line
  let line := ((strpbrk (ascii "#\r\n") line).map Prod.fst).getD line
  let p := line.dropWhile isspace
  if p = [] then .ok state
  else if (strchr 58 p).isSome then
    asmAddLabel state (((strpbrk (ascii ": \t") p).map Prod.fst).getD p)
  else
    match strpbrk (ascii " \t") p with
    | some (mem, rest) => do
        let texts := asmSplitOperands 8 (rest.dropWhile isspace)
        if 4 < texts.length then .error .overflow
        else
          let parsed ← texts.mapM asmParseAsmOperand
          let finalOp : AsmOperands := fun k => (parsed.map Prod.fst).getD k .zero
          asmInstruction (state.print (parsed.flatMap Prod.snd)) mem finalOp
    | none => asmInstruction state p fun _ => .zero

def asmLines : List UInt8 → List (List UInt8)
  | [] => []
  | byte :: rest =>
      if byte = 10 then [byte] :: asmLines rest
      else
        match asmLines rest with
        | [] => [[byte]]
        | line :: lines => (byte :: line) :: lines

/-- The line fits into the buffer of `asm_assemble`; behind the last line of the input there
is a NUL, but not directly behind it. -/
def asmLineFits (line : List UInt8) : Bool :=
  if line.getLast? = some 10 then line.length ≤ bufsiz else line.length + 1 < bufsiz

def asmReadLine (state : AsmState) (line : List UInt8) : Except AsmHalt AsmState :=
  if asmLineFits line then asmProcessLine state line else .error .overflow

def asmAssemble (state : AsmState) : Except AsmHalt AsmState :=
  (asmLines state.input).foldlM asmReadLine state

def asmFindLabel (state : AsmState) (name : List UInt8) : Except AsmHalt AsmLabel :=
  match state.labels.find? fun label => label.name = name with
  | some label => .ok label
  | none => .error .abort

def asmFixupOne (state : AsmState) (fixup : AsmFixup) : Except AsmHalt AsmState := do
  let label ← asmFindLabel state fixup.name
  match fixup.type with
  | .relO16S8 =>
      let rela := label.pc - fixup.pc
      let state := state.print (asmErrorIf (rela.toInt < -128 || 127 < rela.toInt)
        "rela < INT8_MIN || rela > INT8_MAX")
      .ok { state with out := state.out.set (fixup.offset.toNat + 2) (toByte rela) }
  | .none => .error .abort

def asmFixup (state : AsmState) : Except AsmHalt AsmState :=
  state.fixups.foldlM asmFixupOne state

/-- `main` of asm.c, from the input file to the output file. -/
def asmMain (input : List UInt8) : Except AsmHalt (List UInt8) := do
  let state ← asmAssemble (.start input)
  let state ← asmFixup state
  .ok state.out

end Estros
