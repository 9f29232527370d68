import Estros.AsmAllocation
import Estros.IsaPrograms

/-!
What the assembler reads in the text of the code generator. A section directive is to it an
instruction that it does not know, and adds nothing; the others are labels and instructions.
-/

namespace Estros

def CcAsmInsn.entry : CcAsmInsn → XmInstTableEntry
  | .add => .elem .add "add" .r4r4i8o8Ifhbs 0x00
  | .sub => .elem .sub "sub" .r4r4i8o8Ifhbs 0x01
  | .mul => .elem .mul "mul" .r4r4i8o8Ifhbs 0x02
  | .div => .elem .div "div" .r4r4i8o8Ifhbs 0x03
  | .rem => .elem .rem "rem" .r4r4i8o8Ifhbs 0x04
  | .shl => .elem .shl "shl" .r4r4i8o8Ifhbs 0x09
  | .shr => .elem .shr "shr" .r4r4i8o8Ifhbs 0x0a
  | .xor => .elem .xor "xor" .r4r4i8o8Ifhbs 0x07
  | .or => .elem .or "or" .r4r4i8o8Ifhbs 0x08
  | .and => .elem .and "and" .r4r4i8o8Ifhbs 0x06

def retEntry : XmInstTableEntry := .elem .ret "ret" .u16o8 0x43

def registerNumber (reg : Nat) : Nat := reg - ccAsmRegisterT0

def binopOperands (res arg0 arg1 : Nat) : AsmOperands := fun k =>
  [asmRegister (registerNumber res), asmRegister (registerNumber arg0),
    asmRegister (registerNumber arg1)].getD k .zero

def CcAsmLine.statement : CcAsmLine → Option AsmStatement
  | .label name => some (.label name)
  | .binop insn res arg0 arg1 => some (.inst insn.entry (binopOperands res arg0 arg1))
  | .ret => some (.inst retEntry fun _ => .zero)
  | _ => none

structure IsLabel (name : List UInt8) : Prop where
  word : ∀ byte ∈ name, IsWord byte
  named : name ≠ []
  fits : name.length < labelNameSize

def CcAsmLine.Assembles : CcAsmLine → Prop
  | .section name => name = ".text" ∨ name = ".data"
  | .label name => IsLabel name
  | .binop insn res arg0 arg1 => (CcAsmLine.binop insn res arg0 arg1).OnIntegers
  | .ret => True
  | _ => False

instance (byte : UInt8) : Decidable (IsWord byte) :=
  inferInstanceAs (Decidable (IsPlain byte ∧ isspace byte = false))

theorem registers_named : ((List.range' ccAsmRegisterT0 16).all fun reg =>
    match regnameText reg with
    | some text =>
        decide (asmParseAsmOperand text = .ok (asmRegister (registerNumber reg), [])) &&
          text.all (fun byte => decide (IsWord byte) && byte ≠ 44) && text.length = 3
    | none => false) = true := by
  decide

structure NamedRegister (reg : Nat) (text : List UInt8) : Prop where
  name : regnameText reg = some text
  parses : asmParseAsmOperand text = .ok (asmRegister (registerNumber reg), [])
  word : ∀ byte ∈ text, IsWord byte ∧ byte ≠ 44
  size : text.length = 3

theorem register_named {reg : Nat}
    (integer : ccAsmRegisterT0 ≤ reg ∧ reg < ccAsmRegisterSpill) :
    ∃ text, NamedRegister reg text := by
  have inside : reg ∈ List.range' ccAsmRegisterT0 16 := List.mem_range'_1.mpr integer
  have checked := List.all_eq_true.mp registers_named reg inside
  cases name : regnameText reg with
  | none =>
      rw [name] at checked
      cases checked
  | some text =>
      simp only [name, Bool.and_eq_true, decide_eq_true_eq, List.all_eq_true] at checked
      obtain ⟨⟨parses, word⟩, size⟩ := checked
      exact ⟨text, name, parses, word, size⟩

structure LineReads (text body : List UInt8) (statement : Option AsmStatement) : Prop where
  ended : text = body ++ [10]
  one : ∀ byte ∈ body, byte ≠ 10
  fits : asmLineFits text = true
  means : (asmCutLine text).statement = statement
  items : ∃ items printed, (asmCutLine text).items = .ok (items, printed)

theorem mnemonics_found : ([CcAsmInsn.add, .sub, .mul, .div, .rem, .shl, .shr, .xor, .or,
    .and].all fun insn => insn.entry.name = insn.mnemonic && insn.entry ∈ xmInstTable &&
      asmEncodes insn.entry.format && opcodeFree insn.entry &&
      (ascii insn.mnemonic).all (fun byte => decide (IsWord byte)) &&
      (ascii insn.mnemonic).length ≤ 3 && ascii insn.mnemonic ≠ []) = true := by
  decide +kernel

structure CcAsmInsn.Found (insn : CcAsmInsn) : Prop where
  name : insn.entry.name = insn.mnemonic
  listed : insn.entry ∈ xmInstTable
  encodes : asmEncodes insn.entry.format = true
  free : opcodeFree insn.entry = true
  word : ∀ byte ∈ ascii insn.mnemonic, IsWord byte
  short : (ascii insn.mnemonic).length ≤ 3
  nonempty : ascii insn.mnemonic ≠ []

theorem insn_found (insn : CcAsmInsn) : insn.Found := by
  have member : insn ∈ [CcAsmInsn.add, .sub, .mul, .div, .rem, .shl, .shr, .xor, .or, .and] := by
    cases insn <;> decide
  have checked := List.all_eq_true.mp mnemonics_found insn member
  simp only [Bool.and_eq_true, decide_eq_true_eq, List.all_eq_true, ne_eq, decide_not,
    Bool.not_eq_true', decide_eq_false_iff_not] at checked
  obtain ⟨⟨⟨⟨⟨⟨name, listed⟩, encodes⟩, free⟩, word⟩, short⟩, nonempty⟩ := checked
  exact ⟨name, listed, encodes, free, word, short, nonempty⟩

theorem no_newline {text : List UInt8} (plain : ∀ byte ∈ text, IsPlain byte) :
    ∀ byte ∈ text, byte ≠ 10 := by
  rintro byte member rfl
  exact plain 10 member (by decide)

theorem binop_reads (insn : CcAsmInsn) {res arg0 arg1 : Nat}
    (integers : (CcAsmLine.binop insn res arg0 arg1).OnIntegers) :
    ∃ text body, (CcAsmLine.binop insn res arg0 arg1).text = some text ∧
      LineReads text body (CcAsmLine.binop insn res arg0 arg1).statement := by
  obtain ⟨first, named⟩ := register_named (integers res (by simp))
  obtain ⟨second, named0⟩ := register_named (integers arg0 (by simp))
  obtain ⟨third, named1⟩ := register_named (integers arg1 (by simp))
  have found := insn_found insn
  let operands := [44].intercalate [first, second, third]
  let body := [9] ++ (ascii insn.mnemonic ++ 32 :: ([] ++ operands))
  have each : ∀ text ∈ [first, second, third], ∀ byte ∈ text, IsWord byte ∧ byte ≠ 44 := by
    intro text member
    simp only [List.mem_cons, List.not_mem_nil, or_false] at member
    rcases member with rfl | rfl | rfl
    · exact named.word
    · exact named0.word
    · exact named1.word
  have word : ∀ byte ∈ operands, IsWord byte := by
    intro byte member
    rcases join_bytes member with rfl | ⟨text, among, inside⟩
    · decide
    · exact (each text among byte inside).1
  have indent : ∀ byte ∈ ([9] : List UInt8), IsGap byte := by
    intro byte member
    exact Or.inr (List.mem_singleton.mp member)
  have plain : ∀ byte ∈ body, IsPlain byte := by
    intro byte member
    rcases List.mem_append.mp member with tab | behind
    · exact (indent byte tab).plain
    · rcases List.mem_append.mp behind with mnemonic | later
      · exact (found.word byte mnemonic).1
      · rcases List.mem_cons.mp later with rfl | operand
        · decide
        · exact (word byte operand).1
  have cut : asmCutLine (body ++ [10]) =
      .instruction (ascii insn.mnemonic) [first, second, third] := by
    rw [asmCutLine_instruction [9] [] 32 indent found.word found.nonempty (Or.inl rfl)
      (fun _ member => absurd member List.not_mem_nil) (fun byte member => (word byte member).1)
      (fun byte first => (word byte (List.mem_of_mem_head? first)).2) (Or.inr rfl),
      asmSplitOperands_join (List.cons_ne_nil _ _)
        (fun text among byte inside => (each text among byte inside).2) (Nat.le_of_ble_eq_true rfl)]
  have read : asmReadOperands [first, second, third] =
      .ok (binopOperands res arg0 arg1, []) := by
    have parsed : [first, second, third].mapM asmParseAsmOperand =
        .ok ([asmRegister (registerNumber res), asmRegister (registerNumber arg0),
          asmRegister (registerNumber arg1)].map fun operand => (operand, [])) := by
      simp [List.mapM_cons, named.parses, named0.parses, named1.parses, bind, Except.bind, pure,
        Except.pure]
    exact asmReadOperands_quiet (Nat.le_of_ble_eq_true rfl) parsed
  have listed : xmInstTable.find? (fun entry => ascii entry.name = ascii insn.mnemonic) =
      some insn.entry := by
    rw [← found.name]
    exact find_name found.listed
  refine ⟨body ++ [10], body, ?_, rfl, no_newline plain, ?_, ?_, ?_⟩
  · simp [CcAsmLine.text, named.name, named0.name, named1.name, body, operands, ascii]
  · have short := found.short
    refine asmLineFits_short ?_
    simp [body, operands, named.size, named0.size, named1.size]
    omega
  · rw [cut, AsmLine.statement, read, listed]
    simp only [found.encodes, if_true]
    rfl
  · obtain ⟨id, _, items⟩ := items_handled found.listed found.encodes (binopOperands res arg0 arg1)
    rw [found.name] at items
    rw [cut, AsmLine.items, read]
    simp only [bind, Except.bind, items]
    exact ⟨_, _, rfl⟩

theorem label_reads {name : List UInt8} (label : IsLabel name) :
    LineReads (name ++ ascii ":\n") (name ++ [58]) (some (.label name)) := by
  have split : name ++ ascii ":\n" = name ++ [58] ++ [10] := by simp [ascii]
  have plain : ∀ byte ∈ name, IsPlain byte := fun byte member => (label.word byte member).1
  have stops : ∀ byte ∈ name ++ [58], byte ∉ ascii "#\r\n" := by
    intro byte member stop
    rcases List.mem_append.mp member with inside | colon
    · refine plain byte inside ?_
      have among : byte = 35 ∨ byte = 13 ∨ byte = 10 := by simpa [ascii] using stop
      rcases among with rfl | rfl | rfl <;> decide
    · rw [List.mem_singleton.mp colon] at stop
      exact absurd stop (by decide)
  have nonzero : ∀ byte ∈ name ++ [58] ++ [10], byte ≠ 0 := by
    rintro byte member rfl
    simp only [List.mem_append, List.mem_singleton] at member
    rcases member with (inside | colon) | newline
    · exact plain 0 inside (by decide)
    · cases colon
    · cases newline
  have cut : asmCutLine (name ++ ascii ":\n") = .label name := by
    have body : (name ++ [58]).dropWhile isspace = name ++ [58] := by
      obtain ⟨first, rest, rfl⟩ := List.exists_cons_of_ne_nil label.named
      have visible := (label.word first List.mem_cons_self).2
      rw [List.cons_append, List.dropWhile_cons, visible]
      rfl
    have free : ∀ byte ∈ name, byte ∉ ascii ": \t" := by
      intro byte member stop
      have among : byte = 58 ∨ byte = 32 ∨ byte = 9 := by simpa [ascii] using stop
      have word := label.word byte member
      rcases among with rfl | rfl | rfl
      · exact word.1 (by decide)
      · exact absurd word.2 (by decide)
      · exact absurd word.2 (by decide)
    have colon : strchr 58 (name ++ [58]) = some (name, []) := by
      refine strpbrk_found (List.mem_singleton_self 58) (fun byte member other => ?_) []
      rw [List.mem_singleton.mp other] at member
      exact plain 58 member (by decide)
    rw [split, asmCutLine, cString_of_plain nonzero, strpbrk_found (by decide) stops []]
    simp only [Option.map_some, Option.getD_some, body, colon, Option.isSome_some, if_true,
      strpbrk_found (show (58 : UInt8) ∈ ascii ": \t" by decide) free []]
    rw [if_neg (by simp)]
  refine ⟨split, ?_, ?_, ?_, ?_⟩
  · rintro byte member rfl
    exact stops 10 member (by decide)
  · have short : name.length < 16 := label.fits
    refine asmLineFits_short ?_
    rw [split]
    simp
    omega
  · rw [cut]
    rfl
  · rw [cut, AsmLine.items, if_pos label.fits]
    exact ⟨_, _, rfl⟩

theorem section_reads {name : String} (known : name = ".text" ∨ name = ".data") :
    LineReads (ascii ".section " ++ ascii name ++ ascii "\n") (ascii ".section " ++ ascii name)
      none := by
  have unknown : (xmInstTable.find? fun entry => ascii entry.name = ascii ".section") = none := by
    decide
  have cut : asmCutLine (ascii ".section " ++ ascii name ++ ascii "\n") =
      .instruction (ascii ".section") [ascii name] := by
    rcases known with rfl | rfl <;> decide
  obtain ⟨op, read⟩ : ∃ op, asmReadOperands [ascii name] = .ok (op, []) := by
    rcases known with rfl | rfl <;> exact ⟨_, rfl⟩
  have visible : ((ascii ".section " ++ ascii name).all fun byte => byte ≠ 10) = true := by
    rcases known with rfl | rfl <;> decide
  refine ⟨rfl, fun byte member => of_decide_eq_true (List.all_eq_true.mp visible byte member), ?_, ?_,
    ?_⟩
  · refine asmLineFits_short ?_
    rcases known with rfl | rfl <;> exact Nat.le_of_ble_eq_true rfl
  · rw [cut, AsmLine.statement, read, unknown]
  · rw [cut, AsmLine.items, read]
    simp only [bind, Except.bind, asmInstructionItems, unknown]
    exact ⟨_, _, rfl⟩

theorem ret_reads : LineReads (ascii "\tret\n") (ascii "\tret")
    (some (.inst retEntry fun _ => .zero)) := by
  have listed : retEntry ∈ xmInstTable := by decide +kernel
  have cut : asmCutLine (ascii "\tret\n") = .instruction (ascii "ret") [] := by decide
  have found : xmInstTable.find? (fun entry => ascii entry.name = ascii "ret") = some retEntry :=
    find_name listed
  have read : asmReadOperands [] = .ok (fun _ => .zero, []) := rfl
  have visible : ((ascii "\tret").all fun byte => byte ≠ 10) = true := by decide
  refine ⟨rfl, fun byte member => of_decide_eq_true (List.all_eq_true.mp visible byte member),
    asmLineFits_short (Nat.le_of_ble_eq_true rfl), ?_, ?_⟩
  · rw [cut, AsmLine.statement, read, found]
    rfl
  · obtain ⟨id, _, items⟩ := items_handled listed rfl fun _ => .zero
    have same : asmInstructionItems (ascii "ret") (fun _ => .zero) = _ := items
    rw [cut, AsmLine.items, read]
    simp only [bind, Except.bind, same]
    exact ⟨_, _, rfl⟩

theorem line_reads {line : CcAsmLine} (assembles : line.Assembles) :
    ∃ text body, line.text = some text ∧ LineReads text body line.statement := by
  cases line with
  | «section» name => exact ⟨_, _, rfl, section_reads assembles⟩
  | label name => exact ⟨_, _, rfl, label_reads assembles⟩
  | binop insn res arg0 arg1 => exact binop_reads insn assembles
  | ret => exact ⟨_, _, rfl, ret_reads⟩
  | _ => exact absurd assembles id

/-- `printf("%s\n", as->asm_out)`, if all registers have names. -/
def ccAsmFinish (lines : List CcAsmLine) : Option (List UInt8) :=
  (asmText lines).map fun text => text ++ [10]

theorem output_reads {lines : List CcAsmLine} (assemble : ∀ line ∈ lines, line.Assembles) :
    ∃ text, ccAsmFinish lines = some text ∧
      asmListing (asmLines text) = lines.filterMap CcAsmLine.statement ∧
      ∃ items printed, asmItems (asmLines text) = .ok (items, printed) := by
  have body : ∃ text, asmText lines = some text ∧
      asmListing (asmLines (text ++ [10])) = lines.filterMap CcAsmLine.statement ∧
      ∃ items printed, asmItems (asmLines (text ++ [10])) = .ok (items, printed) := by
    induction lines with
    | nil => exact ⟨[], rfl, rfl, [], [], rfl⟩
    | cons line rest ih =>
        obtain ⟨text, body, written, ended, one, fits, means, items, printed, read⟩ :=
          line_reads (assemble line List.mem_cons_self)
        obtain ⟨behind, others, listing, later, more, reads⟩ :=
          ih fun other member => assemble other (List.mem_cons_of_mem _ member)
        obtain ⟨texts, each, rfl⟩ := Option.map_eq_some_iff.mp others
        have first : asmLines (text ++ texts.flatten ++ [10]) =
            text :: asmLines (texts.flatten ++ [10]) := by
          rw [ended, List.append_assoc, List.append_assoc]
          exact asmLines_line one _
        refine ⟨text ++ texts.flatten, ?_, ?_, ?_⟩
        · rw [asmText, List.mapM_cons, written, each]
          rfl
        · rw [first, asmListing, List.filterMap_cons, means, List.filterMap_cons]
          cases line.statement with
          | none => exact listing
          | some statement => exact congrArg (statement :: ·) listing
        · rw [first]
          exact ⟨_, _, asmItems_cons.mpr ⟨fits, _, _, _, _, read, reads, rfl, rfl⟩⟩
  obtain ⟨text, written, listing, items⟩ := body
  exact ⟨text ++ [10], by rw [ccAsmFinish, written]; rfl, listing, items⟩

end Estros
