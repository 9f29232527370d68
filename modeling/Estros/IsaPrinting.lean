import Estros.IsaDisassembler
import Estros.IsaLinking
import Estros.IsaStraightLine

/-!
The line that the disassembler prints for an instruction, and how the assembler cuts it: the
mnemonic is filled up to eight letters, and the operands stand behind it.
-/

namespace Estros

theorem signedDecimal_natCast (value : Nat) : signedDecimal value = decimal value := by
  simp [signedDecimal]

theorem leadingDigits_decimal (value : Nat) : leadingDigits (decimal value) = value :=
  Int.ofNat_inj.mp ((atoll_of_digits (decimal_digits value)).symm.trans (atoll_decimal value))

theorem parse_signedDecimal (value : Int) :
    asmParseAsmOperand (signedDecimal value) = .ok (⟨.i (BitVec.ofInt 64 value), .imm⟩, []) := by
  by_cases negative : value < 0
  · have number : asmNumber (45 :: decimal value.natAbs) = BitVec.ofInt 64 value := by
      have read : atoll (45 :: decimal value.natAbs) =
          -(leadingDigits (decimal value.natAbs) : Int) := rfl
      rw [asmNumber, read, leadingDigits_decimal, Int.ofNat_natAbs_of_nonpos (by omega), Int.neg_neg]
    rw [signedDecimal, if_pos negative]
    simp [asmParseAsmOperand, ascii, isdigit, number]
  · obtain ⟨absolute, rfl⟩ := Int.eq_ofNat_of_zero_le (Int.not_lt.mp negative)
    rw [signedDecimal_natCast, parse_decimal, BitVec.ofInt_natCast]

theorem disRegister_eq (number : Fin 16) : disRegister "$r" number = registerText number.val := by
  rw [disRegister, signedDecimal_natCast, registerText]

theorem signedDecimal_bytes (value : Int) :
    ∀ byte ∈ signedDecimal value, IsOperandByte byte := by
  intro byte inside
  unfold signedDecimal at inside
  split at inside
  · rcases List.mem_cons.mp inside with rfl | digit
    · exact Or.inr (Or.inr (Or.inl rfl))
    · exact decimal_bytes _ byte digit
  · exact decimal_bytes _ byte inside

theorem signedByte_length (byte : UInt8) : (disChar byte).length ≤ 4 := by
  have low := byte.toBitVec.le_toInt
  have high := byte.toBitVec.toInt_lt
  have digits := decimal_length byte.toBitVec.toInt.natAbs 3 (by decide)
    (show byte.toBitVec.toInt.natAbs < 1000 by omega)
  unfold disChar signedDecimal
  split
  · rw [List.length_cons]
    omega
  · omega

theorem IsPlain.ne_newline {byte : UInt8} (plain : IsPlain byte) : byte ≠ 10 := by
  rintro rfl
  exact absurd plain (by decide)

theorem signedDecimal_plain (value : Int) : ∀ byte ∈ signedDecimal value, IsPlain byte :=
  fun byte member => (signedDecimal_bytes value byte member).plain.1

theorem disLetter_plain (set : Bool) {letter : UInt8} (plain : IsPlain letter) :
    IsPlain (disLetter set letter) := by
  cases set
  · exact (by decide : IsPlain 32)
  · exact plain

theorem disRegister_plain {file : String} (sigil : ∀ byte ∈ ascii file, IsPlain byte)
    (number : Fin 16) : ∀ byte ∈ disRegister file number, IsPlain byte :=
  List.forall_mem_append.mpr ⟨sigil, signedDecimal_plain number.val⟩

theorem disOperands_plain (ob : InstBytes) (format : XmInstFormat) :
    ∀ byte ∈ disOperands ob format, IsPlain byte := by
  have comma : ∀ byte ∈ ascii ",", IsPlain byte := by simp [ascii, IsPlain]
  have mark : ∀ byte ∈ ascii "?", IsPlain byte := by simp [ascii, IsPlain]
  have invalid : ∀ byte ∈ ascii "<invalid>", IsPlain byte := by simp [ascii, IsPlain]
  have r := disRegister_plain (by simp [ascii, IsPlain] : ∀ byte ∈ ascii "$r", IsPlain byte)
  have f := disRegister_plain (by simp [ascii, IsPlain] : ∀ byte ∈ ascii "$f", IsPlain byte)
  have displacement : ∀ byte ∈ disChar ob.id2, IsPlain byte := signedDecimal_plain _
  have letters : ∀ one two three four : Bool, ∀ byte ∈ [disLetter one 33, disLetter two 110,
      disLetter three 122, disLetter four 99], IsPlain byte := by
    intro one two three four
    simp only [List.mem_cons, List.not_mem_nil, or_false, forall_eq_or_imp, forall_eq]
    exact ⟨disLetter_plain one (by decide), disLetter_plain two (by decide),
      disLetter_plain three (by decide), disLetter_plain four (by decide)⟩
  cases format with
  | r4r4i8o8Ifhbs =>
      by_cases short : ob.id3 &&& 0x80 ≠ 0
      · simp only [disOperands, if_pos short, List.forall_mem_append]
        exact ⟨⟨⟨⟨r _, comma⟩, r _⟩, comma⟩, displacement⟩
      · simp only [disOperands, if_neg short, List.forall_mem_append]
        exact ⟨⟨⟨⟨⟨⟨r _, comma⟩, r _⟩, comma⟩, r _⟩, comma⟩, signedDecimal_plain _⟩
  | r4u4ra8o8 =>
      simp only [disOperands, List.forall_mem_append]
      exact ⟨⟨⟨⟨⟨r _, comma⟩, displacement⟩, comma⟩, mark⟩, letters _ _ _ _⟩
  | r4r4r4r4 =>
      simp only [disOperands, List.forall_mem_append]
      exact ⟨⟨⟨⟨⟨⟨r _, comma⟩, r _⟩, comma⟩, r _⟩, comma⟩, r _⟩
  | f4f4f4f4 =>
      simp only [disOperands, List.forall_mem_append]
      exact ⟨⟨⟨⟨⟨⟨f _, comma⟩, f _⟩, comma⟩, f _⟩, comma⟩, f _⟩
  | u16o8 => exact fun byte member => absurd member List.not_mem_nil
  | r4r4r4i4o8 | r4r4i8o8 | aa16o8 | ra16o8 | r8r8ra8o8 | r4f4f4f4 | d8 => exact invalid

def isNameByte (byte : UInt8) : Bool := (97 ≤ byte && byte ≤ 122) || isdigit byte

theorem names_letters :
    (xmInstTable.all fun entry => (ascii entry.name).all isNameByte) = true := by
  decide +kernel

theorem name_byte {entry : XmInstTableEntry} (listed : entry ∈ xmInstTable) {byte : UInt8}
    (inside : byte ∈ ascii entry.name) : isNameByte byte = true :=
  List.all_eq_true.mp (List.all_eq_true.mp names_letters entry listed) byte inside

theorem plain_of_name {byte : UInt8} (letter : isNameByte byte = true) : IsPlain byte := by
  intro among
  have out : ([0, 35, 13, 10, 58] : List UInt8).all (fun stop => !isNameByte stop) = true := by
    decide
  have stop := List.all_eq_true.mp out byte among
  rw [letter] at stop
  cases stop

def namedShort (name : String) : Bool :=
  decide ((ascii name).length < 8) && !(ascii name).isEmpty &&
    (ascii name).all fun byte => decide (IsPlain byte) && !isspace byte

theorem named_word {name : String} (short : namedShort name = true) :
    (∀ byte ∈ ascii name, IsWord byte) ∧ ascii name ≠ [] := by
  simp only [namedShort, Bool.and_eq_true, Bool.not_eq_true', List.isEmpty_eq_false_iff,
    List.all_eq_true, decide_eq_true_eq] at short
  exact ⟨short.2, short.1.2⟩

theorem padded_eq {name : String} (short : namedShort name = true) :
    padded (ascii name) = ascii name ++ 32 :: List.replicate (7 - (ascii name).length) 32 := by
  simp only [namedShort, Bool.and_eq_true, decide_eq_true_eq] at short
  have some : 8 - (ascii name).length = 7 - (ascii name).length + 1 := by omega
  rw [padded, some, List.replicate_succ]

def IsTextLine (text : List UInt8) : Prop := ∃ body, text = body ++ [10] ∧ ∀ byte ∈ body, byte ≠ 10

theorem disPrintFormat_line {entry : XmInstTableEntry} (listed : entry ∈ xmInstTable)
    (ob : InstBytes) : IsTextLine (disPrintFormat ob entry.name entry.format) := by
  refine ⟨_, rfl, ?_⟩
  have tab : ∀ byte ∈ ascii "\t", IsPlain byte := by simp [ascii, IsPlain]
  have blanks : ∀ byte ∈ List.replicate (8 - (ascii entry.name).length) 32, IsPlain byte := by
    intro byte member
    rw [List.eq_of_mem_replicate member]
    decide
  have plain : ∀ byte ∈ ascii "\t" ++ padded (ascii entry.name) ++ disOperands ob entry.format,
      IsPlain byte := by
    simp only [padded, List.forall_mem_append]
    exact ⟨⟨tab, fun _ inside => plain_of_name (name_byte listed inside), blanks⟩,
      disOperands_plain ob entry.format⟩
  exact fun byte member => (plain byte member).ne_newline

theorem disPrintFormat_eq {name : String} (short : namedShort name = true) (id : InstBytes)
    (format : XmInstFormat) : disPrintFormat id name format = [9] ++ (ascii name ++ 32 ::
      (List.replicate (7 - (ascii name).length) 32 ++ disOperands id format)) ++ [10] := by
  have tab : ascii "\t" = [9] := rfl
  have newline : ascii "\n" = [10] := rfl
  simp only [disPrintFormat, padded_eq short, tab, newline, List.append_assoc, List.cons_append]

/-- The assembler cuts the line of a short mnemonic into it and the printed operands. -/
theorem asmCutLine_format {name : String} (short : namedShort name = true) {id : InstBytes}
    {format : XmInstFormat} {texts : List (List UInt8)}
    (printed : disOperands id format = [44].intercalate texts)
    (start : ∀ byte ∈ (disOperands id format).head?, isspace byte = false)
    (nonempty : texts ≠ []) (free : ∀ text ∈ texts, ∀ byte ∈ text, byte ≠ 44)
    (few : texts.length ≤ 8) :
    asmCutLine (disPrintFormat id name format) = .instruction (ascii name) texts := by
  have indent : ∀ byte ∈ ([9] : List UInt8), IsGap byte := fun byte member =>
    Or.inr (List.mem_singleton.mp member)
  have blanks : ∀ byte ∈ List.replicate (7 - (ascii name).length) (32 : UInt8), IsGap byte :=
    fun byte member => Or.inl (List.eq_of_mem_replicate member)
  obtain ⟨word, named⟩ := named_word short
  rw [disPrintFormat_eq short, asmCutLine_instruction [9] _ 32 indent word named (Or.inl rfl)
    blanks (disOperands_plain id format) start (Or.inr rfl), printed,
    asmSplitOperands_join nonempty free few]

theorem disPrintFormat_fits {name : String} (short : namedShort name = true) {id : InstBytes}
    {format : XmInstFormat} (few : (disOperands id format).length ≤ 19) :
    asmLineFits (disPrintFormat id name format) = true := by
  have letters : (ascii name).length < 8 := by
    simp only [namedShort, Bool.and_eq_true, decide_eq_true_eq] at short
    exact short.1.1
  -- a tab, the column of eight, the operands and a newline
  apply asmLineFits_short
  rw [disPrintFormat_eq short]
  simp only [List.length_append, List.length_cons, List.length_replicate, List.length_nil]
  omega

theorem asmLines_one {text : List UInt8} (line : IsTextLine text) : asmLines text = [text] := by
  obtain ⟨body, rfl, inside⟩ := line
  exact asmLines_line inside []

theorem asmMain_line {text : List UInt8} {id : InstBytes} (line : IsTextLine text)
    (adds : AddsWord text id) : asmMain text = .ok id.bytes := by
  have one : List.Forall₂ AddsWord (asmLines text) [id] := by
    rw [asmLines_one line]
    exact .cons adds .nil
  have fits : 4 * [id].length ≤ outMaxSize := by
    rw [List.length_singleton]
    decide
  exact (asmMain_words one fits).trans (congrArg Except.ok (List.append_nil _))

end Estros
