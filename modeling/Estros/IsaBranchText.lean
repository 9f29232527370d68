import Estros.IsaDiagnostics
import Estros.IsaStream

/-!
The lines that the disassembler prints for branches. A letter that a condition does not have is
printed as a blank, behind which the assembler finds no more letters, and the mnemonic
`bgpcrela` fills its column, so that no blank stands behind it.
-/

namespace Estros

def disCondition (cc : UInt8) : List UInt8 :=
  [disLetter (cc &&& 0x01 ≠ 0) 33, disLetter (cc &&& 0x02 ≠ 0) 110,
    disLetter (cc &&& 0x04 ≠ 0) 122, disLetter (cc &&& 0x08 ≠ 0) 99]

def branchTexts (id : InstBytes) : List (List UInt8) :=
  [registerText (lowNibble id.id1).val, disChar id.id2, 63 :: disCondition (id.id1 >>> 4)]

theorem disOperands_branch (id : InstBytes) :
    disOperands id .r4u4ra8o8 = [44].intercalate (branchTexts id) := by
  have comma : ascii "," = [44] := rfl
  have mark : ascii "?" = [63] := rfl
  simp [disOperands, branchTexts, disCondition, disRegister_eq, comma, mark,
    List.intercalate_cons_cons]

theorem branch_entries : (xmInstTable.all fun entry => entry.inst.branchNumber.isNone ||
    (entry.format = .r4u4ra8o8 &&
      (xmInstTable.find? fun other => other.op = ofByte (toByte entry.op &&& 0x7f)) = some entry &&
      if entry.inst = .bgpcrela then entry.name = "bgpcrela"
      else namedShort entry.name)) = true := by
  decide

theorem branch_entry {entry : XmInstTableEntry} (listed : entry ∈ xmInstTable)
    (branch : entry.inst.branchNumber.isSome) :
    entry.format = .r4u4ra8o8 ∧
      (∀ id : InstBytes, id.id3 = toByte entry.op → disFindInst id = some entry) ∧
      (entry.inst = .bgpcrela → entry.name = "bgpcrela") ∧
      (entry.inst ≠ .bgpcrela → namedShort entry.name = true) := by
  have checked := List.all_eq_true.mp branch_entries entry listed
  rw [Option.isNone_eq_false_iff.mpr branch, Bool.false_or] at checked
  simp only [Bool.and_eq_true, decide_eq_true_eq] at checked
  obtain ⟨⟨format, found⟩, name⟩ := checked
  refine ⟨format, fun id last => ?_, fun long => ?_, fun short => ?_⟩
  · rw [disFindInst, last]
    exact found
  · rw [if_pos long] at name
    exact of_decide_eq_true name
  · rwa [if_neg short] at name

theorem disDisassemble_branch {entry : XmInstTableEntry} (listed : entry ∈ xmInstTable)
    (branch : entry.inst.branchNumber.isSome) {op : AsmOperands} {id : InstBytes}
    (bytes : asmBytes entry op = some id.bytes) :
    disDisassemble id.bytes = some (disPrintFormat id entry.name entry.format) := by
  obtain ⟨format, found, -, -⟩ := branch_entry listed branch
  obtain ⟨integer, -, -, last⟩ := asmBytes_branch format bytes
  have rounds := disRounds_integer integer []
  rw [List.append_nil, disRounds, Option.map_some] at rounds
  rw [disDisassemble_rounds, rounds]
  simp [disPrintInst, found id last]

/-- The operands that are read from the texts. -/
def branchParsed (id : InstBytes) : List AsmOperand :=
  [asmRegister (lowNibble id.id1).val, ⟨.i (BitVec.ofInt 64 id.id2.toBitVec.toInt), .imm⟩,
    ⟨.i (asmCondition (disCondition (id.id1 >>> 4))), .cond⟩]

def branchReread (id : InstBytes) : InstBytes where
  id0 := id.id0
  id1 := asmPair (BitVec.ofNat 64 (lowNibble id.id1).val)
    (asmCondition (disCondition (id.id1 >>> 4)))
  id2 := id.id2
  id3 := id.id3

theorem parse_condition (letters : List UInt8) :
    asmParseAsmOperand (63 :: letters) = .ok (⟨.i (asmCondition letters), .cond⟩, []) := by
  simp [asmParseAsmOperand, ascii]

theorem branchTexts_read (id : InstBytes) :
    asmReadOperands (branchTexts id) = .ok (fun k => (branchParsed id).getD k .zero, []) := by
  have few : (branchTexts id).length ≤ 4 := Nat.le_succ 3
  apply asmReadOperands_quiet few
  simp [branchTexts, branchParsed, disChar, parse_registerText, parse_signedDecimal,
    parse_condition, List.mapM_cons, bind, Except.bind, pure, Except.pure]

theorem branchTexts_free (id : InstBytes) : ∀ text ∈ branchTexts id, ∀ byte ∈ text, byte ≠ 44 := by
  have blank : ∀ (set : Bool) (letter : UInt8), letter ≠ 44 → disLetter set letter ≠ 44 := by
    intro set letter other
    cases set
    · exact (by decide : (32 : UInt8) ≠ 44)
    · exact other
  simp only [branchTexts, disCondition, List.mem_cons, List.not_mem_nil, or_false,
    forall_eq_or_imp, forall_eq]
  exact ⟨fun byte inside => (registerText_bytes _ byte inside).plain.2.2,
    fun byte inside => (signedDecimal_bytes _ byte inside).plain.2.2, by decide,
    blank _ _ (by decide), blank _ _ (by decide), blank _ _ (by decide), blank _ _ (by decide)⟩

theorem disOperands_branch_head (id : InstBytes) :
    ∃ rest, disOperands id .r4u4ra8o8 = 36 :: rest ∧ ∀ byte ∈ rest, IsPlain byte := by
  have plain := disOperands_plain id .r4u4ra8o8
  exact ⟨_, rfl, fun byte member => plain byte (List.mem_cons_of_mem _ member)⟩

theorem asmCutLine_branch (id : InstBytes) {name : String} (short : namedShort name = true) :
    asmCutLine (disPrintFormat id name .r4u4ra8o8) =
      .instruction (ascii name) (branchTexts id) := by
  have start : ∀ byte ∈ (disOperands id .r4u4ra8o8).head?, isspace byte = false := by
    obtain ⟨rest, same, -⟩ := disOperands_branch_head id
    rw [same]
    rintro byte ⟨rfl⟩
    rfl
  exact asmCutLine_format short (disOperands_branch id) start (List.cons_ne_nil _ _)
    (branchTexts_free id) (Nat.le_add_right 3 5)

theorem disOperands_branch_length (id : InstBytes) : (disOperands id .r4u4ra8o8).length ≤ 15 := by
  have register := registerText_length (lowNibble id.id1)
  have displacement := signedByte_length id.id2
  rw [disOperands_branch]
  simp only [branchTexts, disCondition, List.intercalate_cons_cons, List.intercalate_singleton,
    List.length_append, List.length_cons, List.length_nil]
  omega

theorem asmMain_branch {entry : XmInstTableEntry} (listed : entry ∈ xmInstTable)
    (format : entry.format = .r4u4ra8o8) (short : namedShort entry.name = true) {id : InstBytes}
    (integer : id.id0 = XmCb0.integer.code) (last : id.id3 = toByte entry.op) :
    asmMain (disPrintFormat id entry.name entry.format) = .ok (branchReread id).bytes := by
  have line := disPrintFormat_line listed id
  rw [format] at line ⊢
  have instruction : IsInstruction (disPrintFormat id entry.name .r4u4ra8o8) entry
      (fun k => (branchParsed id).getD k .zero) :=
    ⟨listed, _, _, asmCutLine_branch id short, branchTexts_read id⟩
  have bytes : asmBytes entry (fun k => (branchParsed id).getD k .zero) =
      some (branchReread id).bytes := by
    rw [asmBytes, format]
    simp [branchParsed, branchReread, asmRegister, AsmOperand.i, InstBytes.bytes, integer, last,
      toByte_mask, toByte_signed]
  have unlabelled : asmTarget entry.format (fun k => (branchParsed id).getD k .zero) = none := by
    rw [asmTarget, format]
    rfl
  exact asmMain_line line (instruction.addsWord (by rw [format]; rfl) bytes unlabelled
    (disPrintFormat_fits short ((disOperands_branch_length id).trans (by decide))))

theorem reread_conditions : ∀ cc : Fin 16,
    (asmCondition (disCondition (UInt8.ofNat cc.val))).toNat % 16 = cc.val ↔
      cc.val ∈ [0, 1, 3, 7, 15] := by
  -- The conditions whose letters are printed before the blanks.
  decide

theorem branchReread_eq_iff (id : InstBytes) :
    branchReread id = id ↔ (highNibble id.id1).val ∈ [0, 1, 3, 7, 15] := by
  rw [← reread_conditions (highNibble id.id1), ← highNibble_byte]
  constructor
  · intro same
    have byte := congrArg (fun word : InstBytes => (highNibble word.id1).val) same
    simp only [branchReread, highNibble_pair] at byte
    exact byte
  · intro nibble
    -- only the condition is reread; the register is the low nibble of the same byte
    have byte : asmPair (BitVec.ofNat 64 (lowNibble id.id1).val)
        (asmCondition (disCondition (id.id1 >>> 4))) = id.id1 := by
      have bound := id.id1.toNat_lt
      rw [highNibble_val] at nibble
      rw [← UInt8.toNat_inj, asmPair_toNat, nibble, BitVec.toNat_ofNat, lowNibble_val]
      omega
    rw [branchReread, byte]

theorem strpbrk_append {accept before : List UInt8} (free : ∀ byte ∈ before, byte ∉ accept)
    (after : List UInt8) : strpbrk accept (before ++ after) =
      (strpbrk accept after).map fun parts => (before ++ parts.1, parts.2) := by
  induction before with
  | nil => exact Option.map_id'.symm
  | cons byte rest ih =>
      have first := free byte List.mem_cons_self
      have others := ih fun other member => free other (List.mem_cons_of_mem _ member)
      rw [List.cons_append, strpbrk, if_neg first, others, Option.map_map]
      rfl

/-- Without a blank behind it, a word is at most the beginning of the mnemonic. -/
theorem asmCutLine_joined {lead word rest : List UInt8} (indent : ∀ byte ∈ lead, IsGap byte)
    (letters : ∀ byte ∈ word, IsWord byte) (nonempty : word ≠ [])
    (plain : ∀ byte ∈ rest, IsPlain byte) :
    ∃ more texts,
      asmCutLine (lead ++ (word ++ rest) ++ [10]) = .instruction (word ++ more) texts := by
  have text_plain : ∀ byte ∈ word ++ rest, IsPlain byte :=
    List.forall_mem_append.mpr ⟨fun byte member => (letters byte member).1, plain⟩
  have line_plain : ∀ byte ∈ lead ++ (word ++ rest), IsPlain byte :=
    List.forall_mem_append.mpr ⟨fun byte member => (indent byte member).plain, text_plain⟩
  have first : ∀ byte ∈ (word ++ rest).head?, isspace byte = false := by
    cases word with
    | nil => exact absurd rfl nonempty
    | cons head others =>
        rintro byte ⟨rfl⟩
        exact (letters head List.mem_cons_self).2
  have some_text : word ++ rest ≠ [] := by simp [nonempty]
  have no_label : strchr 58 (word ++ rest) = none := strpbrk_none fun byte member colon =>
    text_plain byte member (by rw [List.mem_singleton.mp colon]; decide)
  -- the word ends at the first blank of `rest`, or with the line
  have split := strpbrk_append (fun byte member => (letters byte member).not_gap) rest
  rw [asmCutLine]
  simp only [cut_line line_plain (Or.inr rfl), skip_gap indent first, if_neg some_text, no_label,
    Option.isSome_none, Bool.false_eq_true, if_false, split]
  cases strpbrk (ascii " \t") rest with
  | none => exact ⟨rest, [], rfl⟩
  | some parts => exact ⟨parts.1, _, rfl⟩

theorem unhandled_items {mem : List UInt8} {texts : List (List UInt8)} {items : List AsmItem}
    {printed : List (List UInt8)} (unhandled : ¬ IsHandled mem)
    (read : (AsmLine.instruction mem texts).items = .ok (items, printed)) : items = [] := by
  rw [AsmLine.items] at read
  cases operands : asmReadOperands texts with
  | error why =>
      rw [operands] at read
      cases read
  | ok parsed =>
      rw [operands] at read
      cases read
      exact items_unhandled unhandled parsed.1

theorem asmMain_unhandled {text mem : List UInt8} {texts : List (List UInt8)}
    (line : IsTextLine text) (cut : asmCutLine text = .instruction mem texts)
    (unhandled : ¬ IsHandled mem) {out : List UInt8} (run : asmMain text = .ok out) : out = [] := by
  cases assembled : asmAssemble (.start text) with
  | error why =>
      rw [asmMain, assembled] at run
      cases run
  | ok state =>
      obtain ⟨items, printed, read, holds⟩ := assemble_holds assembled
      rw [asmLines_one line] at read
      obtain ⟨_, here, _, behind, _, first, last, rfl, _⟩ := asmItems_cons.mp read
      cases last
      rw [cut] at first
      cases unhandled_items unhandled first
      have defined : LabelsDefined state.labels [] :=
        fun _ _ member => absurd member List.not_mem_nil
      exact (Except.ok.inj ((asmMain_holds assembled holds defined).symm.trans run)).symm

theorem unhandled_sigil {mem : List UInt8} (sigil : 36 ∈ mem) : ¬ IsHandled mem := by
  rintro ⟨entry, listed, rfl, -⟩
  exact absurd (name_byte listed sigil) (by decide)

theorem asmMain_bgpcrela {entry : XmInstTableEntry} (listed : entry ∈ xmInstTable)
    (format : entry.format = .r4u4ra8o8) (name : entry.name = "bgpcrela") (id : InstBytes) :
    asmMain (disPrintFormat id entry.name entry.format) ≠ .ok id.bytes := by
  intro run
  have line := disPrintFormat_line listed id
  rw [format] at run line
  rw [name] at run line
  obtain ⟨rest, operands, plain⟩ := disOperands_branch_head id
  -- eight letters fill the column: the `$` of the register comes directly behind the mnemonic
  have shape : disPrintFormat id "bgpcrela" .r4u4ra8o8 =
      [9] ++ ((ascii "bgpcrela" ++ [36]) ++ rest) ++ [10] := by
    rw [disPrintFormat, operands]
    rfl
  have indent : ∀ byte ∈ ([9] : List UInt8), IsGap byte := fun byte member =>
    Or.inr (List.mem_singleton.mp member)
  have letters : ∀ byte ∈ ascii "bgpcrela" ++ [36], IsPlain byte ∧ isspace byte = false := by
    simp [ascii, IsPlain, isspace]
  obtain ⟨more, texts, cut⟩ := asmCutLine_joined indent letters (by decide) plain
  rw [← shape] at cut
  have sigil : 36 ∈ ascii "bgpcrela" ++ [36] ++ more :=
    List.mem_append_left _ (List.mem_append_right _ (List.mem_singleton.mpr rfl))
  exact List.cons_ne_nil _ _ (asmMain_unhandled line cut (unhandled_sigil sigil) run)

/-- What is printed for a word of a branch is assembled to this word again exactly if the
mnemonic is not `bgpcrela` and the letters of the condition, in the order `!nzc`, are those up to
some letter. -/
theorem branch_reassembles_iff {entry : XmInstTableEntry} (listed : entry ∈ xmInstTable)
    (branch : entry.inst.branchNumber.isSome) {op : AsmOperands} {id : InstBytes}
    (bytes : asmBytes entry op = some id.bytes) :
    disDisassemble id.bytes = some (disPrintFormat id entry.name entry.format) ∧
      (asmMain (disPrintFormat id entry.name entry.format) = .ok id.bytes ↔
        entry.inst ≠ .bgpcrela ∧ (op 2).field.val ∈ [0, 1, 3, 7, 15]) := by
  refine ⟨disDisassemble_branch listed branch bytes, ?_⟩
  obtain ⟨format, -, long, short⟩ := branch_entry listed branch
  obtain ⟨integer, -, cc, last⟩ := asmBytes_branch format bytes
  by_cases bgpcrela : entry.inst = .bgpcrela
  · exact iff_of_false (asmMain_bgpcrela listed format (long bgpcrela) id)
      fun both => both.1 bgpcrela
  · rw [asmMain_branch listed format (short bgpcrela) integer last, ← cc, ← branchReread_eq_iff,
      and_iff_right bgpcrela]
    constructor
    · intro same
      have words := congrArg InstBytes.ofBytes (Except.ok.inj same)
      exact Option.some.inj words
    · intro same
      rw [same]

theorem branch_notNegative_reassembles :
    asmMain (disPrintFormat ⟨0x00, 0x31, 0xf8, 0x51⟩ "b" .r4u4ra8o8) =
      .ok [0x00, 0x31, 0xf8, 0x51] := by
  have listed : .elem .b "b" .r4u4ra8o8 0x51 ∈ xmInstTable := by decide
  have bytes : asmBytes (.elem .b "b" .r4u4ra8o8 0x51)
      (fun k => [asmRegister 1, ⟨.i (BitVec.ofInt 64 (-8)), .imm⟩, ⟨.i 3, .cond⟩].getD k .zero) =
        some (InstBytes.bytes ⟨0x00, 0x31, 0xf8, 0x51⟩) := by decide
  exact (branch_reassembles_iff listed (by decide) bytes).2.mpr ⟨by decide, by decide⟩

/-- `b $r1,-8,?n`, printed with the condition `? n  `, loses its condition. -/
theorem branch_negative_lost :
    asmBytes (.elem .b "b" .r4u4ra8o8 0x51)
        (fun k => [asmRegister 1, ⟨.i (BitVec.ofInt 64 (-8)), .imm⟩, ⟨.i 2, .cond⟩].getD k .zero) =
      some (InstBytes.bytes ⟨0x00, 0x21, 0xf8, 0x51⟩) ∧
    disDisassemble [0x00, 0x21, 0xf8, 0x51] = some (ascii "\tb       $r1,-8,? n  \n") ∧
    asmMain (ascii "\tb       $r1,-8,? n  \n") = .ok [0x00, 0x01, 0xf8, 0x51] ∧
    asmMain (ascii "\tb       $r1,-8,? n  \n") ≠ .ok [0x00, 0x21, 0xf8, 0x51] := by
  have reread : asmMain (ascii "\tb       $r1,-8,? n  \n") = .ok [0x00, 0x01, 0xf8, 0x51] := by
    decide
  refine ⟨by decide, by decide, reread, ?_⟩
  rw [reread]
  decide

end Estros
