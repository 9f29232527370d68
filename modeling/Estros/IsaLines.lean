import Estros.IsaItems

/-!
What `asm_process_line` makes of a line with an instruction: it cuts out the mnemonic and the
operands between the commas. Numbers are read as they are written in decimal.
-/

namespace Estros

/-- The byte neither ends a line nor makes it the line of a label. -/
def IsPlain (byte : UInt8) : Prop := byte ∉ ([0, 35, 13, 10, 58] : List UInt8)

instance (byte : UInt8) : Decidable (IsPlain byte) :=
  inferInstanceAs (Decidable (byte ∉ ([0, 35, 13, 10, 58] : List UInt8)))

def IsWord (byte : UInt8) : Prop := IsPlain byte ∧ isspace byte = false

def IsGap (byte : UInt8) : Prop := byte = 32 ∨ byte = 9

theorem IsGap.plain {byte : UInt8} (gap : IsGap byte) : IsPlain byte := by
  rcases gap with rfl | rfl <;> decide

theorem IsGap.isspace {byte : UInt8} (gap : IsGap byte) : isspace byte = true := by
  rcases gap with rfl | rfl <;> rfl

theorem IsWord.not_gap {byte : UInt8} (word : IsWord byte) : byte ∉ ascii " \t" := by
  intro gap
  have blank : isspace byte = true := by
    have cases : byte = 32 ∨ byte = 9 := by simpa [ascii] using gap
    exact IsGap.isspace cases
  rw [word.2] at blank
  cases blank

theorem cString_of_plain {text : List UInt8} (plain : ∀ byte ∈ text, byte ≠ 0) :
    cString text = text :=
  List.takeWhile_eq_self_iff.mpr fun byte member => decide_eq_true (plain byte member)

theorem asmLineFits_short {line : List UInt8} (short : line.length ≤ 8190) :
    asmLineFits line = true := by
  have room : bufsiz = 8192 := rfl
  rw [asmLineFits]
  split <;> rw [decide_eq_true_eq, room] <;> omega

theorem cut_line {body tail : List UInt8} (plain : ∀ byte ∈ body, IsPlain byte)
    (ending : tail = [] ∨ tail = [10]) :
    ((strpbrk (ascii "#\r\n") (cString (body ++ tail))).map Prod.fst).getD
      (cString (body ++ tail)) = body := by
  have free : ∀ byte ∈ body, byte ∉ ascii "#\r\n" := by
    intro byte member stop
    have stops : byte = 35 ∨ byte = 13 ∨ byte = 10 := by simpa [ascii] using stop
    rcases stops with rfl | rfl | rfl <;> exact plain _ member (by decide)
  have nonzero : ∀ byte ∈ body, byte ≠ 0 := by
    rintro byte member rfl
    exact plain 0 member (by decide)
  rcases ending with rfl | rfl
  · rw [List.append_nil, cString_of_plain nonzero, strpbrk_none free]
    rfl
  · have whole : cString (body ++ [10]) = body ++ [10] := by
      apply cString_of_plain
      intro byte member
      rcases List.mem_append.mp member with inside | last
      · exact nonzero byte inside
      · rw [List.mem_singleton.mp last]
        decide
    rw [whole, strpbrk_found (by decide) free []]
    rfl

theorem skip_gap {gap text : List UInt8} (blanks : ∀ byte ∈ gap, IsGap byte)
    (start : ∀ byte ∈ text.head?, isspace byte = false) :
    (gap ++ text).dropWhile isspace = text := by
  rw [List.dropWhile_append_of_pos fun byte member => (blanks byte member).isspace]
  cases text with
  | nil => rfl
  | cons byte rest => rw [List.dropWhile_cons, start byte rfl]; rfl

theorem asmCutLine_instruction (lead gap : List UInt8) (sep : UInt8)
    {mem operands tail : List UInt8} (indent : ∀ byte ∈ lead, IsGap byte)
    (word : ∀ byte ∈ mem, IsWord byte) (named : mem ≠ []) (separated : IsGap sep)
    (spaces : ∀ byte ∈ gap, IsGap byte) (plain : ∀ byte ∈ operands, IsPlain byte)
    (start : ∀ byte ∈ operands.head?, isspace byte = false) (ending : tail = [] ∨ tail = [10]) :
    asmCutLine (lead ++ (mem ++ sep :: (gap ++ operands)) ++ tail) =
      .instruction mem (asmSplitOperands 8 operands) := by
  have text_plain : ∀ byte ∈ mem ++ sep :: (gap ++ operands), IsPlain byte := by
    intro byte member
    rcases List.mem_append.mp member with inside | behind
    · exact (word byte inside).1
    · rcases List.mem_cons.mp behind with rfl | later
      · exact separated.plain
      · rcases List.mem_append.mp later with blank | operand
        · exact (spaces byte blank).plain
        · exact plain byte operand
  have line_plain : ∀ byte ∈ lead ++ (mem ++ sep :: (gap ++ operands)), IsPlain byte := by
    intro byte member
    rcases List.mem_append.mp member with blank | inside
    · exact (indent byte blank).plain
    · exact text_plain byte inside
  have first : ∀ byte ∈ (mem ++ sep :: (gap ++ operands)).head?, isspace byte = false := by
    cases mem with
    | nil => exact absurd rfl named
    | cons head rest =>
        rintro byte ⟨rfl⟩
        exact (word head List.mem_cons_self).2
  have nonempty : mem ++ sep :: (gap ++ operands) ≠ [] := by simp
  have no_label : strchr 58 (mem ++ sep :: (gap ++ operands)) = none :=
    strpbrk_none fun byte member colon =>
      text_plain byte member (by rw [List.mem_singleton.mp colon]; decide)
  have split : strpbrk (ascii " \t") (mem ++ sep :: (gap ++ operands)) =
      some (mem, gap ++ operands) := by
    have stops : sep ∈ ascii " \t" := by rcases separated with rfl | rfl <;> decide
    exact strpbrk_found stops (fun byte member => (word byte member).not_gap) _
  rw [asmCutLine]
  simp only [cut_line line_plain ending, skip_gap indent first, if_neg nonempty, no_label,
    Option.isSome_none, Bool.false_eq_true, if_false, split, skip_gap spaces start]

theorem asmSplitOperands_join {texts : List (List UInt8)} (nonempty : texts ≠ [])
    (free : ∀ text ∈ texts, ∀ byte ∈ text, byte ≠ 44) {rounds : Nat}
    (enough : texts.length ≤ rounds) :
    asmSplitOperands rounds ([44].intercalate texts) = texts := by
  induction texts generalizing rounds with
  | nil => exact absurd rfl nonempty
  | cons text rest ih =>
      have no_comma : ∀ byte ∈ text, byte ∉ ([44] : List UInt8) := fun byte member comma =>
        free text List.mem_cons_self byte member (List.mem_singleton.mp comma)
      cases rounds with
      | zero => simp at enough
      | succ rounds =>
          cases rest with
          | nil =>
              rw [List.intercalate_singleton, asmSplitOperands, strchr, strpbrk_none no_comma]
          | cons next others =>
              have later := ih (List.cons_ne_nil _ _)
                (fun other member => free other (List.mem_cons_of_mem _ member))
                (Nat.le_of_succ_le_succ enough)
              have found : strchr 44 ([44].intercalate (text :: next :: others)) =
                  some (text, [44].intercalate (next :: others)) := by
                rw [List.intercalate_cons_cons, List.append_assoc]
                exact strpbrk_found (List.mem_singleton.mpr rfl) no_comma _
              rw [asmSplitOperands, found]
              exact congrArg (text :: ·) later

theorem digit_text {text : List UInt8} (nonempty : text ≠ [])
    (digits : ∀ byte ∈ text, isdigit byte = true) :
    ∃ byte rest, text = byte :: rest ∧ isdigit byte = true := by
  cases text with
  | nil => exact absurd rfl nonempty
  | cons byte rest => exact ⟨byte, rest, rfl, digits byte List.mem_cons_self⟩

theorem asmNumber_decimal (value : Nat) : asmNumber (decimal value) = BitVec.ofNat 64 value := by
  rw [asmNumber, atoll_decimal, BitVec.ofInt_natCast]

def registerText (number : Nat) : List UInt8 := ascii "$r" ++ decimal number

theorem parse_registerText (number : Nat) :
    asmParseAsmOperand (registerText number) = .ok (asmRegister number, []) := by
  obtain ⟨byte, rest, same, digit⟩ := digit_text (decimal_ne_nil number) (decimal_digits number)
  have not_a : (97 : UInt8) ≠ byte := by rintro rfl; cases digit
  have value := asmNumber_decimal number
  have text : registerText number = 36 :: 114 :: byte :: rest := by rw [registerText, same]; rfl
  rw [same] at value
  rw [text]
  simp [asmParseAsmOperand, ascii, not_a, value, asmRegister]

theorem parse_decimal (value : Nat) :
    asmParseAsmOperand (decimal value) = .ok (⟨.i (BitVec.ofNat 64 value), .imm⟩, []) := by
  obtain ⟨byte, rest, same, digit⟩ := digit_text (decimal_ne_nil value) (decimal_digits value)
  have not_dollar : (36 : UInt8) ≠ byte := by rintro rfl; cases digit
  have not_mark : (63 : UInt8) ≠ byte := by rintro rfl; cases digit
  have number := asmNumber_decimal value
  rw [same] at number
  rw [same]
  simp [asmParseAsmOperand, ascii, not_dollar, not_mark, number, digit]

def IsOperandByte (byte : UInt8) : Prop :=
  byte = 36 ∨ byte = 114 ∨ byte = 45 ∨ isdigit byte = true

theorem IsOperandByte.plain {byte : UInt8} (shape : IsOperandByte byte) :
    IsPlain byte ∧ isspace byte = false ∧ byte ≠ 44 := by
  rcases shape with rfl | rfl | rfl | digit
  · decide
  · decide
  · decide
  · refine ⟨?_, not_isspace_of_isdigit digit, ?_⟩
    · intro special
      simp only [List.mem_cons, List.not_mem_nil, or_false] at special
      rcases special with rfl | rfl | rfl | rfl | rfl <;> cases digit
    · rintro rfl
      cases digit

theorem decimal_bytes (value : Nat) : ∀ byte ∈ decimal value, IsOperandByte byte :=
  fun byte inside => Or.inr (Or.inr (Or.inr (decimal_digits value byte inside)))

theorem registerText_bytes (number : Nat) : ∀ byte ∈ registerText number, IsOperandByte byte := by
  intro byte inside
  rcases List.mem_append.mp inside with sigil | digit
  · have cases : byte = 36 ∨ byte = 114 := by simpa [ascii] using sigil
    exact cases.imp_right Or.inl
  · exact decimal_bytes number byte digit

theorem join_bytes {texts : List (List UInt8)} {byte : UInt8}
    (member : byte ∈ [44].intercalate texts) : byte = 44 ∨ ∃ text ∈ texts, byte ∈ text := by
  induction texts with
  | nil => cases member
  | cons text rest ih =>
      cases rest with
      | nil => exact Or.inr ⟨text, List.mem_cons_self, by simpa using member⟩
      | cons next others =>
          rw [List.intercalate_cons_cons, List.append_assoc] at member
          rcases List.mem_append.mp member with inside | behind
          · exact Or.inr ⟨text, List.mem_cons_self, inside⟩
          · rcases List.mem_cons.mp behind with comma | later
            · exact Or.inl comma
            · exact (ih later).imp_right fun ⟨other, among, inside⟩ =>
                ⟨other, List.mem_cons_of_mem _ among, inside⟩

theorem join_plain {texts : List (List UInt8)}
    (bytes : ∀ text ∈ texts, ∀ byte ∈ text, IsOperandByte byte) :
    ∀ byte ∈ [44].intercalate texts, IsPlain byte ∧ isspace byte = false := by
  intro byte member
  rcases join_bytes member with rfl | ⟨text, among, inside⟩
  · decide
  · have shape := (bytes text among byte inside).plain
    exact ⟨shape.1, shape.2.1⟩

theorem asmCutLine_operands (lead gap : List UInt8) (sep : UInt8) {mem tail : List UInt8}
    {texts : List (List UInt8)} (indent : ∀ byte ∈ lead, IsGap byte)
    (word : ∀ byte ∈ mem, IsWord byte) (named : mem ≠ []) (separated : IsGap sep)
    (spaces : ∀ byte ∈ gap, IsGap byte) (nonempty : texts ≠ []) (few : texts.length ≤ 8)
    (bytes : ∀ text ∈ texts, ∀ byte ∈ text, IsOperandByte byte)
    (ending : tail = [] ∨ tail = [10]) :
    asmCutLine (lead ++ (mem ++ sep :: (gap ++ [44].intercalate texts)) ++ tail) =
      .instruction mem texts := by
  have plain := join_plain bytes
  rw [asmCutLine_instruction lead gap sep indent word named separated spaces
    (fun byte member => (plain byte member).1)
    (fun byte first => (plain byte (List.mem_of_mem_head? first)).2) ending,
    asmSplitOperands_join nonempty
      (fun text among byte inside => (bytes text among byte inside).plain.2.2) few]

theorem asmReadOperands_quiet {texts : List (List UInt8)} {operands : List AsmOperand}
    (few : texts.length ≤ 4)
    (parsed : texts.mapM asmParseAsmOperand = .ok (operands.map fun operand => (operand, []))) :
    asmReadOperands texts = .ok (fun k => operands.getD k .zero, []) := by
  have nothing : (operands.map fun operand =>
      (operand, ([] : List (List UInt8)))).flatMap Prod.snd = [] := by
    rw [List.flatMap_map]
    exact List.flatMap_eq_nil_iff.mpr fun _ _ => rfl
  rw [asmReadOperands, if_neg (Nat.not_lt.mpr few), parsed]
  simp only [bind, Except.bind, nothing, List.map_map]
  simp [Function.comp_def]

end Estros
