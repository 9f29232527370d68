import Estros.IsaMatching
import Estros.IsaPrinting

/-!
What the disassembler prints for words of the integer formats without a displacement, the
assembler turns into the same words.
-/

namespace Estros

theorem asmPair_nibbles (byte : UInt8) :
    asmPair (BitVec.ofNat 64 (lowNibble byte).val) (BitVec.ofNat 64 (highNibble byte).val) =
      byte := by
  have bound := byte.toNat_lt
  rw [← UInt8.toNat_inj, asmPair_toNat, BitVec.toNat_ofNat, BitVec.toNat_ofNat, lowNibble_val,
    highNibble_val]
  omega

theorem toByte_signed (byte : UInt8) : toByte (BitVec.ofInt 64 byte.toBitVec.toInt) = byte := by
  have value : (BitVec.ofInt 64 byte.toBitVec.toInt).setWidth 8 = byte.toBitVec := by
    apply BitVec.eq_of_toInt_eq
    have low := byte.toBitVec.le_toInt
    have high := byte.toBitVec.toInt_lt
    rw [BitVec.toInt_setWidth, BitVec.toNat_ofInt, Int.bmod_def]
    split <;> omega
  exact congrArg UInt8.ofBitVec value

def disRestores : XmInstFormat → Bool
  | .r4r4i8o8Ifhbs | .r4r4r4r4 | .u16o8 => true
  | _ => false

def IsEmitted (id : InstBytes) : Prop :=
  ∃ entry ∈ xmInstTable, disRestores entry.format = true ∧
    ∃ op, asmBytes entry op = some id.bytes

theorem shown_entries : (xmInstTable.all fun entry => !disRestores entry.format ||
    (opcodeBytes entry).all fun id3 =>
      (xmInstTable.find? fun other => other.op = ofByte (id3 &&& 0x7f)).any fun shown =>
        shown.format = entry.format && shown.op = entry.op && namedShort shown.name &&
          (toByte entry.op &&& 0x80 = 0)) = true := by
  decide

/-- The entry that is printed has the format and the opcode of the one that was assembled, though
it may have another name. -/
theorem shown_entry {entry : XmInstTableEntry} (member : entry ∈ xmInstTable)
    (restores : disRestores entry.format = true) {id : InstBytes}
    (last : id.id3 ∈ opcodeBytes entry) :
    ∃ shown ∈ xmInstTable, disFindInst id = some shown ∧ shown.format = entry.format ∧
      shown.op = entry.op ∧ namedShort shown.name = true ∧ toByte entry.op &&& 0x80 = 0 := by
  have checked := List.all_eq_true.mp shown_entries entry member
  rw [restores, Bool.not_true, Bool.false_or] at checked
  have here := List.all_eq_true.mp checked id.id3 last
  cases found : xmInstTable.find? fun other => other.op = ofByte (id.id3 &&& 0x7f) with
  | none =>
      rw [found] at here
      cases here
  | some shown =>
      rw [found, Option.any_some] at here
      simp only [Bool.and_eq_true, decide_eq_true_eq] at here
      obtain ⟨⟨⟨format, op⟩, short⟩, low⟩ := here
      exact ⟨shown, List.mem_of_find?_eq_some found, found, format, op, short, low⟩

def disTexts (id : InstBytes) : XmInstFormat → List (List UInt8)
  | .r4r4i8o8Ifhbs =>
      if id.id3 &&& 0x80 ≠ 0 then
        [registerText (lowNibble id.id1).val, registerText (highNibble id.id1).val,
          disChar id.id2]
      else
        [registerText (lowNibble id.id1).val, registerText (highNibble id.id1).val,
          registerText (lowNibble id.id2).val, signedDecimal (highNibble id.id2).val]
  | .r4r4r4r4 =>
      [registerText (lowNibble id.id1).val, registerText (highNibble id.id1).val,
        registerText (lowNibble id.id2).val, registerText (highNibble id.id2).val]
  | _ => [[]]

def disParsed (id : InstBytes) : XmInstFormat → List AsmOperand
  | .r4r4i8o8Ifhbs =>
      if id.id3 &&& 0x80 ≠ 0 then
        [asmRegister (lowNibble id.id1).val, asmRegister (highNibble id.id1).val,
          ⟨.i (BitVec.ofInt 64 id.id2.toBitVec.toInt), .imm⟩]
      else
        [asmRegister (lowNibble id.id1).val, asmRegister (highNibble id.id1).val,
          asmRegister (lowNibble id.id2).val,
          ⟨.i (BitVec.ofNat 64 (highNibble id.id2).val), .imm⟩]
  | .r4r4r4r4 =>
      [asmRegister (lowNibble id.id1).val, asmRegister (highNibble id.id1).val,
        asmRegister (lowNibble id.id2).val, asmRegister (highNibble id.id2).val]
  | _ => [⟨.name [], .label⟩]

theorem disOperands_eq {format : XmInstFormat} (restores : disRestores format = true)
    (id : InstBytes) : disOperands id format = [44].intercalate (disTexts id format) := by
  have comma : ascii "," = [44] := rfl
  cases format with
  | r4r4i8o8Ifhbs =>
      simp only [disOperands, disTexts, disRegister_eq, comma]
      split <;> simp [List.intercalate_cons_cons]
  | r4r4r4r4 => simp [disOperands, disTexts, disRegister_eq, comma]
  | u16o8 => rfl
  | r4r4r4i4o8 | r4r4i8o8 | aa16o8 | ra16o8 | r4u4ra8o8 | r8r8ra8o8 | f4f4f4f4 | r4f4f4f4 | d8 =>
      cases restores

theorem disTexts_parsed {format : XmInstFormat} (restores : disRestores format = true)
    (id : InstBytes) : (disTexts id format).mapM asmParseAsmOperand =
      .ok ((disParsed id format).map fun operand => (operand, [])) := by
  have label : asmParseAsmOperand [] = .ok (⟨.name [], .label⟩, []) := rfl
  cases format with
  | r4r4i8o8Ifhbs =>
      simp only [disTexts, disParsed]
      split <;>
        simp [List.mapM_cons, disChar, parse_registerText, parse_signedDecimal, bind, Except.bind,
          pure, Except.pure]
  | r4r4r4r4 =>
      simp [disTexts, disParsed, List.mapM_cons, parse_registerText, bind, Except.bind, pure,
        Except.pure]
  | u16o8 => simp [disTexts, disParsed, List.mapM_cons, label, bind, Except.bind, pure, Except.pure]
  | r4r4r4i4o8 | r4r4i8o8 | aa16o8 | ra16o8 | r4u4ra8o8 | r8r8ra8o8 | f4f4f4f4 | r4f4f4f4 | d8 =>
      cases restores

theorem high_bit_of_or (byte : UInt8) : (byte ||| 0x80) &&& 0x80 ≠ 0 := by
  intro zero
  have bit := congrArg (fun value => value.toBitVec.getLsbD 7) zero
  simp at bit

theorem asmBytes_restored {entry shown : XmInstTableEntry} {op : AsmOperands} {id : InstBytes}
    (restores : disRestores entry.format = true) (bytes : asmBytes entry op = some id.bytes)
    (format : shown.format = entry.format) (same : shown.op = entry.op)
    (low : toByte entry.op &&& 0x80 = 0) :
    asmBytes shown (fun k => (disParsed id entry.format).getD k .zero) = some id.bytes := by
  obtain ⟨id0, id1, id2, id3⟩ := id
  unfold asmBytes at bytes ⊢
  rw [format, same]
  cases which : entry.format with
  | r4r4i8o8Ifhbs =>
      simp only [which, toByte_mask] at bytes
      by_cases immediate : (op 2).type = .imm
      · simp only [immediate, if_true, InstBytes.bytes, Option.some.injEq, List.cons.injEq] at bytes
        obtain ⟨rfl, -, -, rfl, -⟩ := bytes
        simp [disParsed, high_bit_of_or, asmRegister, AsmOperand.i, asmPair_mask, asmPair_nibbles,
          toByte_mask, toByte_signed, InstBytes.bytes]
      · simp only [immediate, if_false, InstBytes.bytes, Option.some.injEq, List.cons.injEq] at bytes
        obtain ⟨rfl, -, -, rfl, -⟩ := bytes
        simp [disParsed, low, asmRegister, AsmOperand.i, asmPair_mask, asmPair_nibbles,
          toByte_mask, InstBytes.bytes]
  | r4r4r4r4 =>
      simp only [which, InstBytes.bytes, Option.some.injEq, List.cons.injEq] at bytes
      obtain ⟨rfl, -, -, rfl, -⟩ := bytes
      simp [disParsed, asmRegister, AsmOperand.i, asmPair_nibbles, InstBytes.bytes]
  | u16o8 =>
      simp only [which] at bytes
      exact bytes
  | r4r4r4i4o8 | r4r4i8o8 | aa16o8 | ra16o8 | r4u4ra8o8 | r8r8ra8o8 | f4f4f4f4 | r4f4f4f4 | d8 =>
      rw [which] at restores
      cases restores

theorem disTexts_bytes (id : InstBytes) (format : XmInstFormat) :
    ∀ text ∈ disTexts id format, ∀ byte ∈ text, IsOperandByte byte := by
  unfold disTexts
  split
  · split <;>
      simp only [List.mem_cons, List.not_mem_nil, or_false, forall_eq_or_imp, forall_eq]
    · exact ⟨registerText_bytes _, registerText_bytes _, signedDecimal_bytes _⟩
    · exact ⟨registerText_bytes _, registerText_bytes _, registerText_bytes _,
        signedDecimal_bytes _⟩
  · simp only [List.mem_cons, List.not_mem_nil, or_false, forall_eq_or_imp, forall_eq]
    exact ⟨registerText_bytes _, registerText_bytes _, registerText_bytes _, registerText_bytes _⟩
  · simp

theorem disTexts_length (id : InstBytes) (format : XmInstFormat) :
    disTexts id format ≠ [] ∧ (disTexts id format).length ≤ 4 := by
  unfold disTexts
  split
  · split <;> simp
  · simp
  · simp

theorem disRead {format : XmInstFormat} (restores : disRestores format = true) (id : InstBytes) :
    asmReadOperands (disTexts id format) =
      .ok (fun k => (disParsed id format).getD k .zero, []) :=
  asmReadOperands_quiet (disTexts_length id format).2 (disTexts_parsed restores id)

theorem asmCutLine_printed {id : InstBytes} {shown : XmInstTableEntry}
    (found : disFindInst id = some shown) (restores : disRestores shown.format = true)
    (short : namedShort shown.name = true) :
    asmCutLine (disPrintInst id) =
      .instruction (ascii shown.name) (disTexts id shown.format) := by
  have printed := disOperands_eq restores id
  have bytes := disTexts_bytes id shown.format
  obtain ⟨nonempty, few⟩ := disTexts_length id shown.format
  rw [disPrintInst, found]
  refine asmCutLine_format short printed (fun byte first => ?_) nonempty
    (fun text among byte inside => (bytes text among byte inside).plain.2.2)
    (few.trans (by decide))
  rw [printed] at first
  exact (join_plain bytes byte (List.mem_of_mem_head? first)).2

theorem disTexts_short (id : InstBytes) (format : XmInstFormat) :
    ([44].intercalate (disTexts id format)).length ≤ 19 := by
  have registers : ∀ byte : UInt8, (registerText (lowNibble byte).val).length ≤ 4 ∧
      (registerText (highNibble byte).val).length ≤ 4 := fun byte =>
    ⟨registerText_length _, registerText_length _⟩
  have number : (signedDecimal (highNibble id.id2).val).length ≤ 2 := by
    rw [signedDecimal_natCast]
    exact decimal_length _ 2 (by decide) ((highNibble id.id2).isLt.trans_le (by decide))
  have first := registers id.id1
  have second := registers id.id2
  have immediate := signedByte_length id.id2
  unfold disTexts
  split
  · split <;>
      simp only [List.intercalate_cons_cons, List.intercalate_singleton, List.length_append,
        List.length_singleton] <;> omega
  · simp only [List.intercalate_cons_cons, List.intercalate_singleton, List.length_append,
      List.length_singleton]
    omega
  · simp

/-- The entry that is printed for an emitted word, with the operands that give it again. -/
theorem IsEmitted.shown {id : InstBytes} (emitted : IsEmitted id) :
    ∃ shown ∈ xmInstTable, disFindInst id = some shown ∧ disRestores shown.format = true ∧
      namedShort shown.name = true ∧ id.id0 = XmCb0.integer.code ∧
      asmBytes shown (fun k => (disParsed id shown.format).getD k .zero) = some id.bytes := by
  obtain ⟨entry, member, restores, op, bytes⟩ := emitted
  have encodes : asmEncodes entry.format = true := by
    cases format : entry.format <;> rw [format] at restores <;> first | rfl | cases restores
  have integer : xmGetCb0FromFormat entry.format = .integer := by
    cases format : entry.format <;> rw [format] at restores <;> first | rfl | cases restores
  obtain ⟨ob1, ob2, shape⟩ := asmBytes_shape encodes op
  have same := Option.some.inj (bytes.symm.trans shape)
  simp only [InstBytes.bytes, List.cons.injEq, and_true] at same
  obtain ⟨first, _, _, last⟩ := same
  have opcode : id.id3 ∈ opcodeBytes entry := last ▸ asmOpcode_mem entry op
  obtain ⟨shown, listed, found, format, again, short, low⟩ := shown_entry member restores opcode
  have restored := asmBytes_restored restores bytes format again low
  rw [← format] at restores restored
  exact ⟨shown, listed, found, restores, short, first.trans (by rw [integer]), restored⟩

theorem disRestores_target {format : XmInstFormat} (restores : disRestores format = true)
    (op : AsmOperands) : asmTarget format op = none := by
  cases format <;> first | rfl | cases restores

theorem IsEmitted.addsWord {id : InstBytes} (emitted : IsEmitted id) :
    AddsWord (disPrintInst id) id := by
  obtain ⟨shown, listed, found, restores, short, _, bytes⟩ := emitted.shown
  have instruction : IsInstruction (disPrintInst id) shown
      (fun k => (disParsed id shown.format).getD k .zero) :=
    ⟨listed, _, _, asmCutLine_printed found restores short, disRead restores id⟩
  have encodes : asmEncodes shown.format = true := by
    cases format : shown.format <;> rw [format] at restores <;> first | rfl | cases restores
  have fits : asmLineFits (disPrintInst id) = true := by
    rw [disPrintInst, found]
    exact disPrintFormat_fits short (disOperands_eq restores id ▸ disTexts_short id shown.format)
  exact instruction.addsWord encodes bytes (disRestores_target restores _) fits

theorem IsEmitted.line {id : InstBytes} (emitted : IsEmitted id) :
    IsTextLine (disPrintInst id) := by
  obtain ⟨shown, listed, found, _⟩ := emitted.shown
  rw [disPrintInst, found]
  exact disPrintFormat_line listed id

theorem asmLines_printed {words : List InstBytes} (emitted : ∀ id ∈ words, IsEmitted id) :
    asmLines (words.flatMap disPrintInst) = words.map disPrintInst := by
  induction words with
  | nil => rfl
  | cons id rest ih =>
      have later := ih fun word member => emitted word (List.mem_cons_of_mem _ member)
      obtain ⟨body, same, inside⟩ := (emitted id List.mem_cons_self).line
      rw [List.flatMap_cons, same, List.append_assoc, List.singleton_append,
        asmLines_line inside, later, List.map_cons, same]

theorem disDisassemble_words {words : List InstBytes} (emitted : ∀ id ∈ words, IsEmitted id) :
    disDisassemble (words.flatMap InstBytes.bytes) = some (words.flatMap disPrintInst) := by
  induction words with
  | nil => rfl
  | cons id rest ih =>
      have later := ih fun word member => emitted word (List.mem_cons_of_mem _ member)
      obtain ⟨_, _, _, _, _, integer, _⟩ := (emitted id List.mem_cons_self).shown
      obtain ⟨id0, id1, id2, id3⟩ := id
      cases integer
      simp only [List.flatMap_cons, InstBytes.bytes, List.cons_append, List.nil_append]
      rw [disDisassemble, if_neg (by decide), if_pos (by decide)]
      simp only [later, Option.map_some]

/-- Assembling what the disassembler prints for emitted words restores their bytes. -/
theorem disassembly_reassembles (words : List InstBytes) (emitted : ∀ id ∈ words, IsEmitted id)
    (fits : 4 * words.length ≤ outMaxSize) :
    ∃ text, disDisassemble (words.flatMap InstBytes.bytes) = some text ∧
      asmMain text = .ok (words.flatMap InstBytes.bytes) := by
  refine ⟨_, disDisassemble_words emitted, ?_⟩
  have each : List.Forall₂ AddsWord (asmLines (words.flatMap disPrintInst)) words := by
    rw [asmLines_printed emitted, List.forall₂_map_left_iff]
    exact List.forall₂_same.mpr fun id member => (emitted id member).addsWord
  exact asmMain_words each fits

/-- `add $r1,$r2,-1` and `ret`. -/
theorem addRet_reassembles :
    ∃ text, disDisassemble [0x00, 0x21, 0xff, 0x80, 0x00, 0x00, 0x00, 0x43] = some text ∧
      asmMain text = .ok [0x00, 0x21, 0xff, 0x80, 0x00, 0x00, 0x00, 0x43] := by
  have add : IsEmitted ⟨0x00, 0x21, 0xff, 0x80⟩ :=
    ⟨.elem .add "add" .r4r4i8o8Ifhbs 0x00, by decide, rfl,
      fun k => [asmRegister 1, asmRegister 2, ⟨.i 0xff, .imm⟩].getD k .zero, by decide⟩
  have ret : IsEmitted ⟨0x00, 0x00, 0x00, 0x43⟩ :=
    ⟨.elem .ret "ret" .u16o8 0x43, by decide, rfl, fun _ => .zero, by decide⟩
  have emitted : ∀ id ∈ [(⟨0x00, 0x21, 0xff, 0x80⟩ : InstBytes), ⟨0x00, 0x00, 0x00, 0x43⟩],
      IsEmitted id := by
    simp only [List.mem_cons, List.not_mem_nil, or_false, forall_eq_or_imp, forall_eq]
    exact ⟨add, ret⟩
  exact disassembly_reassembles _ emitted (by decide)

end Estros
