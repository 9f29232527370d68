import Mathlib.Data.Fin.Basic
import Estros.IsaLines
import Estros.IsaLinking

/-!
Straight-line programs: instructions that compute a register from registers and a number,
what they mean, how they are written in a source file, and the bytes of which the assembler
makes an output file.
-/

namespace Estros

inductive StraightOp where
  | add | sub | mul | imul | and | xor | or | pcnt | ipcnt | bswap | lea
  deriving DecidableEq

inductive StraightSource where
  | imm (value : Fin 256)
  | reg (rb : Fin 16) (number : Fin 16)

structure StraightInst where
  op : StraightOp
  rd : Fin 16
  ra : Fin 16
  source : StraightSource

def byteReverse (value : Word) : Word :=
  value.extractLsb' 0 8 ++ value.extractLsb' 8 8 ++ value.extractLsb' 16 8 ++ value.extractLsb' 24 8

def StraightSource.addend (r : Fin 16 → Word) : StraightSource → Word
  | .imm value => BitVec.ofNat 32 value.val
  | .reg rb number => r rb + BitVec.ofNat 32 number.val

def StraightSource.offset (r : Fin 16 → Word) : StraightSource → Word
  | .imm value => BitVec.ofNat 32 value.val * 4
  | .reg rb number => r rb * BitVec.ofNat 32 number.val * 4

def StraightInst.result (inst : StraightInst) (r : Fin 16 → Word) : Word :=
  let a := r inst.ra
  let b := inst.source.addend r
  match inst.op with
  | .add => a + b
  | .sub => a - b
  | .mul => a * b
  | .imul => BitVec.ofInt 32 (a.toInt * b.toInt)
  | .and => a &&& b
  | .xor => a ^^^ b
  | .or => a ||| b
  | .pcnt => (a + b).cpop
  | .ipcnt => 32 - (a + b).cpop
  | .bswap => byteReverse (a + b)
  | .lea => a + inst.source.offset r

/-- The registers, and the last result that the flags are about. -/
structure StraightState where
  r : Fin 16 → Word
  last : Option Word

def StraightInst.apply (state : StraightState) (inst : StraightInst) : StraightState where
  r := Function.update state.r inst.rd (inst.result state.r)
  last := if inst.op = .lea then state.last else some (inst.result state.r)

def straightRun (program : List StraightInst) (r : Fin 16 → Word) : StraightState :=
  program.foldl StraightInst.apply ⟨r, none⟩

/-- The flags `Z` and `N` are those of the last result, or else as they were. -/
def FlagsReflect (before flags : Word) : Option Word → Prop
  | none => flags = before
  | some value =>
      (flags &&& flagsBitZ ≠ 0 ↔ value = 0) ∧ (flags &&& flagsBitN ≠ 0 ↔ value.slt 0 = true)

def StraightOp.entry : StraightOp → XmInstTableEntry
  | .add => .elem .add "add" .r4r4i8o8Ifhbs 0x00
  | .sub => .elem .sub "sub" .r4r4i8o8Ifhbs 0x01
  | .mul => .elem .mul "mul" .r4r4i8o8Ifhbs 0x02
  | .imul => .elem .imul "imul" .r4r4i8o8Ifhbs 0x05
  | .and => .elem .and "and" .r4r4i8o8Ifhbs 0x06
  | .xor => .elem .xor "xor" .r4r4i8o8Ifhbs 0x07
  | .or => .elem .or "or" .r4r4i8o8Ifhbs 0x08
  | .pcnt => .elem .pcnt "pcnt" .r4r4i8o8Ifhbs 0x0b
  | .ipcnt => .elem .ipcnt "ipcnt" .r4r4i8o8Ifhbs 0x0f
  | .bswap => .elem .bswap "bswap" .r4r4i8o8Ifhbs 0x0e
  | .lea => .elem .lea "lea" .r4r4i8o8Ifhbs 0x18

def StraightSource.text : StraightSource → List UInt8
  | .imm value => decimal value.val
  | .reg rb number => registerText rb.val ++ ascii "," ++ decimal number.val

def StraightInst.text (inst : StraightInst) : List UInt8 :=
  ascii inst.op.entry.name ++ ascii " " ++ registerText inst.rd.val ++ ascii "," ++
    registerText inst.ra.val ++ ascii "," ++ inst.source.text

/-- One instruction on each line; the last line has a newline if the text is closed. -/
def programText (closed : Bool) : List StraightInst → List UInt8
  | [] => []
  | [inst] => inst.text ++ if closed then [10] else []
  | inst :: next :: rest => inst.text ++ 10 :: programText closed (next :: rest)

def StraightInst.id (inst : StraightInst) : InstBytes where
  id0 := XmCb0.integer.code
  id1 := asmPair (BitVec.ofNat 64 inst.rd.val) (BitVec.ofNat 64 inst.ra.val)
  id2 :=
    match inst.source with
    | .imm value => UInt8.ofNat value.val
    | .reg rb number => asmPair (BitVec.ofNat 64 rb.val) (BitVec.ofNat 64 number.val)
  id3 :=
    match inst.source with
    | .imm _ => toByte inst.op.entry.op ||| 0x80
    | .reg _ _ => toByte inst.op.entry.op

theorem entry_mem (op : StraightOp) : op.entry ∈ xmInstTable := by
  cases op <;> decide +kernel

theorem entry_format (op : StraightOp) : op.entry.format = .r4r4i8o8Ifhbs := by
  cases op <;> rfl

def StraightInst.texts (inst : StraightInst) : List (List UInt8) :=
  registerText inst.rd.val :: registerText inst.ra.val ::
    match inst.source with
    | .imm value => [decimal value.val]
    | .reg rb number => [registerText rb.val, decimal number.val]

def StraightInst.operands (inst : StraightInst) : List AsmOperand :=
  asmRegister inst.rd.val :: asmRegister inst.ra.val ::
    match inst.source with
    | .imm value => [⟨.i (BitVec.ofNat 64 value.val), .imm⟩]
    | .reg rb number => [asmRegister rb.val, ⟨.i (BitVec.ofNat 64 number.val), .imm⟩]

theorem text_eq (inst : StraightInst) :
    inst.text = [] ++ (ascii inst.op.entry.name ++ 32 :: ([] ++ [44].intercalate inst.texts)) := by
  cases same : inst.source <;>
    simp [StraightInst.text, StraightInst.texts, StraightSource.text, same, ascii]

theorem parse_texts (inst : StraightInst) :
    inst.texts.mapM asmParseAsmOperand = .ok (inst.operands.map fun operand => (operand, [])) := by
  cases same : inst.source <;>
    simp [StraightInst.texts, StraightInst.operands, same, List.mapM_cons, parse_registerText,
      parse_decimal, bind, Except.bind, pure, Except.pure]

theorem asmBytes_straight (inst : StraightInst) :
    asmBytes inst.op.entry (fun k => inst.operands.getD k .zero) = some inst.id.bytes := by
  rw [asmBytes, entry_format]
  cases same : inst.source <;>
    simp [StraightInst.operands, StraightInst.id, InstBytes.bytes, asmRegister, AsmOperand.i, same,
      asmPair_mask, toByte_mask, toByte_ofNat]

theorem operand_bytes (inst : StraightInst) {text : List UInt8} (member : text ∈ inst.texts) :
    ∀ byte ∈ text, IsOperandByte byte := by
  unfold StraightInst.texts at member
  cases same : inst.source with
  | imm value =>
      simp only [same, List.mem_cons, List.not_mem_nil, or_false] at member
      rcases member with rfl | rfl | rfl
      · exact registerText_bytes _
      · exact registerText_bytes _
      · exact decimal_bytes _
  | reg rb value =>
      simp only [same, List.mem_cons, List.not_mem_nil, or_false] at member
      rcases member with rfl | rfl | rfl | rfl
      · exact registerText_bytes _
      · exact registerText_bytes _
      · exact registerText_bytes _
      · exact decimal_bytes _

theorem mnemonic_word (op : StraightOp) :
    (∀ byte ∈ ascii op.entry.name, IsWord byte) ∧ ascii op.entry.name ≠ [] := by
  have word : (ascii op.entry.name).all
      (fun byte => decide (IsPlain byte) && !isspace byte) = true := by cases op <;> decide
  constructor
  · intro byte member
    have holds := List.all_eq_true.mp word byte member
    simpa [IsWord] using holds
  · cases op <;> decide

theorem texts_few (inst : StraightInst) : inst.texts.length ≤ 4 := by
  unfold StraightInst.texts
  cases inst.source <;> simp

theorem asmCutLine_straight (inst : StraightInst) {tail : List UInt8}
    (ending : tail = [] ∨ tail = [10]) :
    asmCutLine (inst.text ++ tail) = .instruction (ascii inst.op.entry.name) inst.texts := by
  obtain ⟨word, named⟩ := mnemonic_word inst.op
  have nonempty : inst.texts ≠ [] := List.cons_ne_nil _ _
  rw [text_eq, asmCutLine_operands [] [] 32 (fun _ member => absurd member List.not_mem_nil) word
    named (Or.inl rfl) (fun _ member => absurd member List.not_mem_nil) nonempty
    ((texts_few inst).trans (by decide)) (fun _ member => operand_bytes inst member) ending]

theorem asmLines_line {body : List UInt8} (inside : ∀ byte ∈ body, byte ≠ 10)
    (rest : List UInt8) : asmLines (body ++ 10 :: rest) = (body ++ [10]) :: asmLines rest := by
  induction body with
  | nil => simp [asmLines]
  | cons byte others ih =>
      have first := inside byte List.mem_cons_self
      have later := ih fun byte member => inside byte (List.mem_cons_of_mem _ member)
      simp [asmLines, first, later]

theorem asmLines_last {body : List UInt8} (nonempty : body ≠ [])
    (inside : ∀ byte ∈ body, byte ≠ 10) : asmLines body = [body] := by
  induction body with
  | nil => exact absurd rfl nonempty
  | cons byte others ih =>
      have first := inside byte List.mem_cons_self
      cases others with
      | nil => simp [asmLines, first]
      | cons next rest =>
          have later := ih (List.cons_ne_nil _ _) fun byte member =>
            inside byte (List.mem_cons_of_mem _ member)
          rw [asmLines, if_neg first, later]

theorem text_bytes (inst : StraightInst) : ∀ byte ∈ inst.text, byte ≠ 10 := by
  rintro byte member rfl
  rw [text_eq, List.nil_append, List.nil_append] at member
  rcases List.mem_append.mp member with inside | behind
  · exact ((mnemonic_word inst.op).1 10 inside).1 (by decide)
  · rcases List.mem_cons.mp behind with space | operand
    · cases space
    · exact (join_plain (fun _ among => operand_bytes inst among) 10 operand).1 (by decide)

theorem registerText_length (number : Fin 16) : (registerText number.val).length ≤ 4 := by
  have digits := decimal_length number.val 2 (by decide) (number.isLt.trans_le (by decide))
  rw [registerText, List.length_append]
  exact Nat.add_le_add (by decide : (ascii "$r").length ≤ 2) digits

theorem text_length (inst : StraightInst) : inst.text.length ≤ 30 := by
  have name : (ascii inst.op.entry.name).length ≤ 5 := by cases inst.op <;> decide
  have first := registerText_length inst.rd
  have second := registerText_length inst.ra
  have last : inst.source.text.length ≤ 10 := by
    cases inst.source with
    | imm value =>
        have digits := decimal_length value.val 3 (by decide) (value.isLt.trans_le (by decide))
        exact digits.trans (by decide)
    | reg rb number =>
        have register := registerText_length rb
        have digits := decimal_length number.val 2 (by decide) (number.isLt.trans_le (by decide))
        simp only [StraightSource.text, List.length_append]
        have comma : (ascii ",").length = 1 := rfl
        omega
  have space : (ascii " ").length = 1 := rfl
  have comma : (ascii ",").length = 1 := rfl
  simp only [StraightInst.text, List.length_append]
  omega

theorem addsWord_straight (inst : StraightInst) {tail : List UInt8}
    (ending : tail = [] ∨ tail = [10]) : AddsWord (inst.text ++ tail) inst.id := by
  have short : (inst.text ++ tail).length ≤ 31 := by
    have text := text_length inst
    have last : tail.length ≤ 1 := by rcases ending with rfl | rfl <;> decide
    rw [List.length_append]
    exact Nat.add_le_add text last
  have fits : asmLineFits (inst.text ++ tail) = true :=
    asmLineFits_short (short.trans (by decide))
  have instruction : IsInstruction (inst.text ++ tail) inst.op.entry
      (fun k => inst.operands.getD k .zero) :=
    ⟨entry_mem inst.op, _, _, asmCutLine_straight inst ending,
      asmReadOperands_quiet (texts_few inst) (parse_texts inst)⟩
  have format := entry_format inst.op
  exact instruction.addsWord (by rw [format]; rfl) (asmBytes_straight inst) (by rw [format]; rfl)
    fits

def programBytes (program : List StraightInst) : List UInt8 :=
  program.flatMap fun inst => inst.id.bytes

theorem programBytes_length (program : List StraightInst) :
    (programBytes program).length = 4 * program.length := by
  induction program with
  | nil => rfl
  | cons inst rest ih =>
      have whole : programBytes (inst :: rest) = inst.id.bytes ++ programBytes rest := rfl
      rw [whole, List.length_append, ih, List.length_cons]
      change 4 + _ = _
      omega

theorem asmLines_program (closed : Bool) (program : List StraightInst) :
    List.Forall₂ AddsWord (asmLines (programText closed program))
      (program.map StraightInst.id) := by
  induction program with
  | nil => exact .nil
  | cons inst rest ih =>
      cases rest with
      | nil =>
          cases closed with
          | true =>
              have line : asmLines (programText true [inst]) = [inst.text ++ [10]] :=
                asmLines_line (text_bytes inst) []
              rw [line]
              exact .cons (addsWord_straight inst (Or.inr rfl)) .nil
          | false =>
              have nonempty : inst.text ≠ [] := by simp [text_eq]
              have line : asmLines (programText false [inst]) = [inst.text ++ []] := by
                rw [programText, if_neg Bool.false_ne_true, List.append_nil,
                  asmLines_last nonempty (text_bytes inst)]
              rw [line]
              exact .cons (addsWord_straight inst (Or.inl rfl)) .nil
      | cons next others =>
          rw [programText, asmLines_line (text_bytes inst)]
          exact .cons (addsWord_straight inst (Or.inr rfl)) ih

theorem asmMain_program (closed : Bool) {program : List StraightInst}
    (fits : 4 * program.length ≤ outMaxSize) :
    asmMain (programText closed program) = .ok (programBytes program) := by
  have words := asmMain_words (asmLines_program closed program) (by rwa [List.length_map])
  rwa [List.flatMap_map] at words

end Estros
