import Estros.IsaBranchText

/-!
How faithfully the assembler encodes what it accepts: a literal is cut to the bits of its field,
and the letters of a condition are looked for once each and in one order.
-/

namespace Estros

section Letters

variable {α β : Type} [DecidableEq α]

/-- The entries whose letters a text begins with, if each is looked for once and in order, and
what is left of the text. -/
def takeLetters : List (α × β) → List α → List (α × β) × List α
  | [], text => ([], text)
  | entry :: table, text =>
      if text.head? = some entry.1 then
        (entry :: (takeLetters table text.tail).1, (takeLetters table text.tail).2)
      else takeLetters table text

theorem takeLetters_sublist (table : List (α × β)) (text : List α) :
    (takeLetters table text).1.Sublist table := by
  induction table generalizing text with
  | nil => exact List.Sublist.slnil
  | cons entry rest ih =>
      unfold takeLetters
      split
      · exact (ih text.tail).cons_cons entry
      · exact (ih text).cons entry

theorem takeLetters_text (table : List (α × β)) (text : List α) :
    (takeLetters table text).1.map Prod.fst ++ (takeLetters table text).2 = text := by
  induction table generalizing text with
  | nil => rfl
  | cons entry rest ih =>
      unfold takeLetters
      split
      · next first =>
          obtain ⟨others, rfl⟩ := List.head?_eq_some_iff.mp first
          exact congrArg (entry.1 :: ·) (ih others)
      · exact ih text

/-- A text whose letters stand in the order is taken to its end. -/
theorem takeLetters_ordered {table : List (α × β)} {text : List α}
    (ordered : text.Sublist (table.map Prod.fst)) : (takeLetters table text).2 = [] := by
  induction table generalizing text with
  | nil => exact List.eq_nil_of_sublist_nil ordered
  | cons entry rest ih =>
      unfold takeLetters
      cases ordered with
      | cons _ later =>
          split
          · exact ih (text.tail_sublist.trans later)
          · exact ih later
      | cons_cons _ later =>
          rw [List.head?_cons, if_pos rfl]
          exact ih later

end Letters

def conditionLetters : List UInt8 := [33, 110, 122, 99]

theorem asmCondition_eq (text : List UInt8) :
    asmCondition text =
      (takeLetters asmConditionLetters text).1.foldl (fun bits entry => bits ||| entry.2) 0 := by
  have fold : ∀ (table : List (UInt8 × BitVec 64)) (bits : BitVec 64) (text : List UInt8),
      table.foldl (fun (done : BitVec 64 × List UInt8) letter =>
        if done.2.head? = some letter.1 then (done.1 ||| letter.2, done.2.tail) else done)
          (bits, text) =
        ((takeLetters table text).1.foldl (fun bits entry => bits ||| entry.2) bits,
          (takeLetters table text).2) := by
    intro table
    induction table with
    | nil => exact fun bits text => rfl
    | cons entry rest ih =>
        intro bits text
        rw [List.foldl_cons, takeLetters]
        split
        · exact ih _ _
        · exact ih _ _
  exact congrArg Prod.fst (fold asmConditionLetters 0 text)

theorem foldl_or_bit (entries : List (UInt8 × BitVec 64)) (bits : BitVec 64) (i : Nat) :
    (entries.foldl (fun bits entry => bits ||| entry.2) bits).getLsbD i = true ↔
      bits.getLsbD i = true ∨ ∃ entry ∈ entries, entry.2.getLsbD i = true := by
  induction entries generalizing bits with
  | nil => simp
  | cons entry rest ih => simp [ih, or_assoc]

theorem condition_entries : (asmConditionLetters.all fun entry =>
    !conditionLetters.contains entry.1 || (List.range 4).all fun i =>
      entry.2.getLsbD i == (conditionLetters[i]? == some entry.1)) = true := by
  decide

variable {letters : List UInt8}

theorem asmCondition_bit (known : ∀ letter ∈ letters, letter ∈ conditionLetters) {i : Nat}
    {letter : UInt8} (place : conditionLetters[i]? = some letter) :
    (asmCondition letters).getLsbD i = true ↔
      letter ∈ (takeLetters asmConditionLetters letters).1.map Prod.fst := by
  -- A bit is set exactly if its letter is among those that are taken.
  have small : i < 4 := (List.getElem?_eq_some_iff.mp place).1
  have text := takeLetters_text asmConditionLetters letters
  have own : ∀ entry ∈ (takeLetters asmConditionLetters letters).1,
      entry.2.getLsbD i = true ↔ letter = entry.1 := by
    intro entry taken
    have listed := (takeLetters_sublist asmConditionLetters letters).subset taken
    have written : entry.1 ∈ letters := by
      rw [← text]
      exact List.mem_append_left _ (List.mem_map_of_mem taken)
    have bits := List.all_eq_true.mp condition_entries entry listed
    rw [List.contains_iff_mem.mpr (known entry.1 written), Bool.not_true, Bool.false_or] at bits
    have bit := List.all_eq_true.mp bits i (List.mem_range.mpr small)
    rw [beq_iff_eq.mp bit, place, beq_iff_eq, Option.some.injEq]
  rw [asmCondition_eq, foldl_or_bit, List.mem_map]
  constructor
  · rintro (none | ⟨entry, taken, bit⟩)
    · simp at none
    · exact ⟨entry, taken, ((own entry taken).mp bit).symm⟩
  · rintro ⟨entry, taken, rfl⟩
    exact Or.inr ⟨entry, taken, (own entry taken).mpr rfl⟩

/-- The bits are those of the letters that are written exactly if these stand in order. -/
theorem asmCondition_bits_iff (distinct : letters.Nodup)
    (known : ∀ letter ∈ letters, letter ∈ conditionLetters) :
    (∀ i letter, conditionLetters[i]? = some letter →
      ((asmCondition letters).getLsbD i = true ↔ letter ∈ letters)) ↔
      letters.Sublist conditionLetters := by
  have text := takeLetters_text asmConditionLetters letters
  constructor
  · intro bits
    -- a letter that is left over would have to be among those that are taken too
    have nothing : (takeLetters asmConditionLetters letters).2 = [] := by
      apply List.eq_nil_iff_forall_not_mem.mpr
      intro letter left
      have written : letter ∈ letters := by
        rw [← text]
        exact List.mem_append_right _ left
      obtain ⟨i, place⟩ := List.getElem?_of_mem (known letter written)
      have taken := (asmCondition_bit known place).mp ((bits i letter place).mpr written)
      rw [← text] at distinct
      exact (List.nodup_append.mp distinct).2.2 letter taken letter left rfl
    rw [nothing, List.append_nil] at text
    have ordered := (takeLetters_sublist asmConditionLetters letters).map Prod.fst
    rw [text] at ordered
    -- the table goes on with the letters `gle`, which are not written
    have kept := ordered.filter fun letter => decide (letter ∈ conditionLetters)
    rwa [List.filter_eq_self.mpr fun letter member => decide_eq_true (known letter member)] at kept
  · intro ordered i letter place
    have whole : letters.Sublist (asmConditionLetters.map Prod.fst) :=
      ordered.trans (List.sublist_append_left conditionLetters [103, 108, 101])
    rw [takeLetters_ordered whole, List.append_nil] at text
    rw [asmCondition_bit known place, text]

def isLiteral (text : List UInt8) : Bool := isdigit (text.headD 0) || (ascii "-").isPrefixOf text

/-- The operand that a format has for an immediate, with the least and the greatest value of its
field. -/
def immediateField (entry : XmInstTableEntry) (op : AsmOperands) : Option (Fin 4 × Int × Int) :=
  match entry.format with
  | .r4r4i8o8Ifhbs =>
      let third := (Fin.last 2).castSucc
      if (op third).type = .imm then some (third, 0, 255) else some (Fin.last 3, 0, 15)
  | .r4u4ra8o8 => some ((Fin.last 1).castSucc.castSucc, -128, 127)
  | _ => none

theorem immediateField_ifhbs {entry : XmInstTableEntry} (format : entry.format = .r4r4i8o8Ifhbs)
    (op : AsmOperands) : immediateField entry op =
      if (op 2).type = .imm then some (2, 0, 255) else some (3, 0, 15) := by
  rw [immediateField, format]
  rfl

theorem immediateField_branch {entry : XmInstTableEntry} (format : entry.format = .r4u4ra8o8)
    (op : AsmOperands) : immediateField entry op = some (1, -128, 127) := by
  rw [immediateField, format]
  rfl

def simImmediate (format : XmInstFormat) (id : InstBytes) : Option Int :=
  match format with
  | .r4r4i8o8Ifhbs =>
      if id.id3 &&& 0x80 ≠ 0 then some (ofByte id.id2).toNat
      else some (BitVec.ofNat 32 (highNibble id.id2).val).toNat
  | .r4u4ra8o8 => some (ofSignedByte id.id2).toInt
  | _ => none

theorem isLiteral_head {text : List UInt8} (literal : isLiteral text = true) :
    ∃ byte rest, text = byte :: rest ∧ (36 : UInt8) ≠ byte ∧ (63 : UInt8) ≠ byte := by
  cases text with
  | nil => cases literal
  | cons byte rest =>
      refine ⟨byte, rest, rfl, ?_, ?_⟩
      · rintro rfl
        cases literal
      · rintro rfl
        cases literal

theorem parse_literal {text : List UInt8} (literal : isLiteral text = true) :
    asmParseAsmOperand text = .ok (⟨.i (asmNumber text), .imm⟩, []) := by
  obtain ⟨byte, rest, rfl, not_dollar, not_mark⟩ := isLiteral_head literal
  unfold isLiteral at literal
  unfold asmParseAsmOperand
  rw [if_pos literal]
  simp [ascii, not_dollar, not_mark]

/-- The immediate is what the decoders of sim.c read from the word. -/
theorem simImmediate_decoded (sim : SimState) (id : InstBytes) :
    (id.id3 &&& 0x80 ≠ 0 → ∃ value, simImmediate .r4r4i8o8Ifhbs id = some value ∧
      (cpuDecodeR4x2i8Ifhbs sim id).b = BitVec.ofInt 32 value) ∧
    (id.id3 &&& 0x80 = 0 → ∃ value, simImmediate .r4r4i8o8Ifhbs id = some value ∧
      (cpuDecodeR4x2i8Ifhbs sim id).b = sim.r (lowNibble id.id2) + BitVec.ofInt 32 value) ∧
    ∃ value, simImmediate .r4u4ra8o8 id = some value ∧
      ofSignedByte id.id2 = BitVec.ofInt 32 value := by
  refine ⟨fun short => ?_, fun long => ?_, ?_⟩
  · refine ⟨_, if_pos short, ?_⟩
    rw [cpuDecodeR4x2i8Ifhbs, if_pos short, BitVec.ofInt_natCast, BitVec.ofNat_toNat,
      BitVec.setWidth_eq]
  · have short : ¬ id.id3 &&& 0x80 ≠ 0 := not_not_intro long
    refine ⟨_, if_neg short, ?_⟩
    rw [cpuDecodeR4x2i8Ifhbs, if_neg short, BitVec.ofInt_natCast, BitVec.ofNat_toNat,
      BitVec.setWidth_eq]
  · exact ⟨_, rfl, (BitVec.ofInt_toInt).symm⟩

theorem asmNumber_mod (value : Int) :
    ((BitVec.ofInt 64 value).toNat : Int) % 256 = value % 256 ∧
      ((BitVec.ofInt 64 value).toNat : Int) % 16 = value % 16 := by
  rw [BitVec.toNat_ofInt]
  omega

theorem literal_byte (value : Int) :
    ((toByte (BitVec.ofInt 64 value &&& 0xff#64)).toNat : Int) = value % 256 := by
  have byte : (toByte (BitVec.ofInt 64 value)).toNat = (BitVec.ofInt 64 value).toNat % 256 := rfl
  rw [toByte_mask, byte]
  exact (asmNumber_mod value).1

theorem signed_byte_iff (byte : UInt8) {value : Int} (same : (byte.toNat : Int) = value % 256) :
    (ofSignedByte byte).toInt = value ↔ -128 ≤ value ∧ value ≤ 127 := by
  have extended : (ofSignedByte byte).toInt = byte.toBitVec.toInt :=
    BitVec.toInt_signExtend_of_le (by decide)
  have bits : byte.toBitVec.toNat = byte.toNat := rfl
  rw [extended, BitVec.toInt_eq_toNat_cond, bits]
  split <;> omega

theorem ifhbs_opcodes : (xmInstTable.all fun entry => entry.format ≠ .r4r4i8o8Ifhbs ||
    (toByte (entry.op &&& 0xff) &&& 0x80 = 0)) = true := by
  -- The high bit of an opcode is free for the form of the immediate.
  decide

theorem asmBytes_ifhbs {entry : XmInstTableEntry} (listed : entry ∈ xmInstTable)
    (format : entry.format = .r4r4i8o8Ifhbs) {op : AsmOperands} {id : InstBytes}
    (bytes : asmBytes entry op = some id.bytes) :
    ((op 2).type = .imm → id.id3 &&& 0x80 ≠ 0 ∧ id.id2 = toByte ((op 2).i &&& 0xff#64)) ∧
      ((op 2).type ≠ .imm → id.id3 &&& 0x80 = 0 ∧ highNibble id.id2 = (op 3).field) := by
  have checked := List.all_eq_true.mp ifhbs_opcodes entry listed
  simp only [format, ne_eq, not_true_eq_false, decide_false, Bool.false_or,
    decide_eq_true_eq] at checked
  rw [asmBytes, format] at bytes
  constructor
  · intro short
    simp only [if_pos short] at bytes
    cases id
    cases bytes
    exact ⟨high_bit_of_or _, rfl⟩
  · intro long
    simp only [if_neg long, asmPair_mask] at bytes
    cases id
    cases bytes
    exact ⟨checked, Fin.ext (highNibble_pair (op 2).i (op 3).i)⟩

theorem literal_read_iff {entry : XmInstTableEntry} (listed : entry ∈ xmInstTable)
    {op : AsmOperands} {id : InstBytes} (bytes : asmBytes entry op = some id.bytes) {k : Fin 4}
    {low high value : Int} (field : immediateField entry op = some (k, low, high))
    (written : op k = ⟨.i (BitVec.ofInt 64 value), .imm⟩) :
    simImmediate entry.format id = some value ↔ low ≤ value ∧ value ≤ high := by
  have number : (op k).i = BitVec.ofInt 64 value := by rw [written]; rfl
  have third := literal_byte value
  cases format : entry.format with
  | r4r4i8o8Ifhbs =>
      obtain ⟨immediate, register⟩ := asmBytes_ifhbs listed format bytes
      rw [immediateField_ifhbs format] at field
      -- the form with eight bits, and the one with a register and four
      by_cases short : (op 2).type = .imm
      · simp only [if_pos short, Option.some.injEq, Prod.mk.injEq] at field
        obtain ⟨rfl, rfl, rfl⟩ := field
        obtain ⟨form, byte⟩ := immediate short
        rw [number] at byte
        rw [simImmediate, if_pos form, Option.some.injEq, ofByte_toNat, byte, third]
        omega
      · simp only [if_neg short, Option.some.injEq, Prod.mk.injEq] at field
        obtain ⟨rfl, rfl, rfl⟩ := field
        obtain ⟨form, nibble⟩ := register short
        have bits : ((highNibble id.id2).val : Int) = value % 16 := by
          rw [nibble]
          change (((op 3).i.toNat % 16 : Nat) : Int) = value % 16
          rw [number]
          exact (asmNumber_mod value).2
        rw [simImmediate, if_neg (not_not_intro form), Option.some.injEq, BitVec.toNat_ofNat]
        omega
  | r4u4ra8o8 =>
      rw [immediateField_branch format] at field
      simp only [Option.some.injEq, Prod.mk.injEq] at field
      obtain ⟨rfl, rfl, rfl⟩ := field
      rw [asmBytes, format] at bytes
      cases id
      cases bytes
      rw [simImmediate, Option.some.injEq]
      apply signed_byte_iff
      rw [number]
      exact third
  | u16o8 | r4r4r4r4 | r4r4r4i4o8 | r4r4i8o8 | aa16o8 | ra16o8 | r8r8ra8o8 | f4f4f4f4 | r4f4f4f4
  | d8 =>
      rw [immediateField, format] at field
      cases field

/-! ### Accepted lines -/

/-- Every literal of an instruction is the immediate that the simulator reads from its word, and
the condition of a branch has exactly the bits of its letters. -/
structure LineFaithful (entry : XmInstTableEntry) (texts : List (List UInt8)) (op : AsmOperands)
    (id : InstBytes) : Prop where
  literals : ∀ (k : Fin 4) text, texts[k.val]? = some text → isLiteral text = true →
    (∃ low high, immediateField entry op = some (k, low, high)) ∧
      simImmediate entry.format id = some (atoll text)
  condition : entry.inst.branchNumber.isSome → ∀ letters, texts[2]? = some (63 :: letters) →
    letters.Nodup → (∀ letter ∈ letters, letter ∈ conditionLetters) →
    ∀ i letter, conditionLetters[i]? = some letter →
      ((highNibble id.id1).val.testBit i = true ↔ letter ∈ letters)

/-- Every literal stands where its format has an immediate and is within the bounds of its field,
and the letters of the condition of a branch stand in the order `!nzc`. -/
structure LineEncodable (entry : XmInstTableEntry) (texts : List (List UInt8))
    (op : AsmOperands) : Prop where
  literals : ∀ (k : Fin 4) text, texts[k.val]? = some text → isLiteral text = true →
    ∃ low high, immediateField entry op = some (k, low, high) ∧ low ≤ atoll text ∧
      atoll text ≤ high
  condition : entry.inst.branchNumber.isSome → ∀ letters, texts[2]? = some (63 :: letters) →
    letters.Nodup → (∀ letter ∈ letters, letter ∈ conditionLetters) →
    letters.Sublist conditionLetters

theorem mapM_place {α β ε : Type} {f : α → Except ε β} {xs : List α} {ys : List β}
    (all : xs.mapM f = .ok ys) {k : Nat} {x : α} (place : xs[k]? = some x) :
    ∃ y, f x = .ok y ∧ ys[k]? = some y := by
  induction xs generalizing ys k with
  | nil => cases place
  | cons head tail ih =>
      rw [List.mapM_cons] at all
      cases first : f head with
      | error why =>
          rw [first] at all
          cases all
      | ok value =>
          cases rest : tail.mapM f with
          | error why =>
              rw [first, rest] at all
              cases all
          | ok values =>
              rw [first, rest] at all
              cases all
              cases k with
              | zero =>
                  cases place
                  exact ⟨value, first, rfl⟩
              | succ k => exact ih rest place

theorem asmReadOperands_place {texts printed : List (List UInt8)} {op : AsmOperands}
    (read : asmReadOperands texts = .ok (op, printed)) {k : Fin 4} {text : List UInt8}
    (place : texts[k.val]? = some text) :
    ∃ lines, asmParseAsmOperand text = .ok (op k, lines) := by
  rw [asmReadOperands] at read
  split at read
  · cases read
  · cases all : texts.mapM asmParseAsmOperand with
    | error why =>
        rw [all] at read
        cases read
    | ok parsed =>
        rw [all] at read
        cases read
        obtain ⟨⟨operand, lines⟩, one, here⟩ := mapM_place all place
        refine ⟨lines, one.trans ?_⟩
        have same : (parsed.map Prod.fst)[k.val]? = some operand := by
          rw [List.getElem?_map, here]
          rfl
        have op : (parsed.map Prod.fst).getD k.val .zero = operand := by
          rw [List.getD_eq_getElem?_getD, same]
          rfl
        exact congrArg (fun operand => Except.ok (operand, lines)) op.symm

theorem lineFaithful_iff {entry : XmInstTableEntry} (listed : entry ∈ xmInstTable)
    {texts printed : List (List UInt8)} {op : AsmOperands} {id : InstBytes}
    (read : asmReadOperands texts = .ok (op, printed))
    (bytes : asmBytes entry op = some id.bytes) :
    LineFaithful entry texts op id ↔ LineEncodable entry texts op := by
  have literal : ∀ (k : Fin 4) text, texts[k.val]? = some text → isLiteral text = true →
      op k = ⟨.i (BitVec.ofInt 64 (atoll text)), .imm⟩ := by
    intro k text place written
    obtain ⟨lines, one⟩ := asmReadOperands_place read place
    rw [parse_literal written] at one
    exact (congrArg Prod.fst (Except.ok.inj one)).symm
  have bit : entry.inst.branchNumber.isSome → ∀ letters, texts[2]? = some (63 :: letters) →
      ∀ i < 4, (highNibble id.id1).val.testBit i = (asmCondition letters).getLsbD i := by
    intro branch letters place i small
    obtain ⟨lines, one⟩ := @asmReadOperands_place texts printed op read 2 _ place
    rw [parse_condition] at one
    have operand := congrArg Prod.fst (Except.ok.inj one)
    have value : (op 2).i = asmCondition letters := congrArg AsmOperand.i operand.symm
    rw [(asmBytes_branch (branch_entry listed branch).1 bytes).2.2.1]
    change ((op 2).i.toNat % 2 ^ 4).testBit i = _
    rw [Nat.testBit_mod_two_pow, decide_eq_true small, Bool.true_and, value]
    rfl
  constructor
  · intro faithful
    constructor
    · intro k text place written
      obtain ⟨⟨low, high, field⟩, read⟩ := faithful.literals k text place written
      have bounds := literal_read_iff listed bytes field (literal k text place written)
      exact ⟨low, high, field, bounds.mp read⟩
    · intro branch letters place distinct known
      apply (asmCondition_bits_iff distinct known).mp
      intro i letter listed
      have small : i < 4 := (List.getElem?_eq_some_iff.mp listed).1
      rw [← bit branch letters place i small]
      exact faithful.condition branch letters place distinct known i letter listed
  · intro encodable
    constructor
    · intro k text place written
      obtain ⟨low, high, field, bounds⟩ := encodable.literals k text place written
      have reads := literal_read_iff listed bytes field (literal k text place written)
      exact ⟨⟨low, high, field⟩, reads.mpr bounds⟩
    · intro branch letters place distinct known i letter listed
      have small : i < 4 := (List.getElem?_eq_some_iff.mp listed).1
      have ordered := encodable.condition branch letters place distinct known
      rw [bit branch letters place i small]
      exact (asmCondition_bits_iff distinct known).mpr ordered i letter listed

theorem quiet_items {mem : List UInt8} {op : AsmOperands}
    (quiet : (asmInstructionItems mem op).2 = []) :
    ∃ entry ∈ xmInstTable, ascii entry.name = mem ∧ ∃ id : InstBytes,
      asmBytes entry op = some id.bytes ∧
      (asmInstructionItems mem op).1 = [.word id (asmTarget entry.format op)] := by
  unfold asmInstructionItems at quiet ⊢
  cases found : xmInstTable.find? fun entry => ascii entry.name = mem with
  | none =>
      rw [found] at quiet
      cases quiet
  | some entry =>
      have named : ascii entry.name = mem := by simpa using List.find?_some found
      refine ⟨entry, List.mem_of_find?_eq_some found, named, ?_⟩
      rcases asmBytes_cases entry op with ⟨-, id, bytes⟩ | ⟨-, bytes⟩
      · exact ⟨id, bytes, by simp only [bytes, Option.bind_some, InstBytes.ofBytes_bytes]⟩
      · simp only [found, bytes, Option.bind_none] at quiet
        exact absurd (List.append_eq_nil_iff.mp quiet).2 (List.cons_ne_nil _ _)

theorem quiet_line {state next : AsmState} {line mem : List UInt8} {texts : List (List UInt8)}
    (cut : asmCutLine line = .instruction mem texts) (run : asmProcessLine state line = .ok next)
    (quiet : next.stderr = state.stderr) :
    ∃ entry ∈ xmInstTable, ∃ (op : AsmOperands) (id : InstBytes), ascii entry.name = mem ∧
      asmReadOperands texts = .ok (op, []) ∧ asmBytes entry op = some id.bytes ∧
      next.out = state.out ++ id.bytes := by
  rw [asmProcessLine_cut, cut] at run
  obtain ⟨items, printed, read, -, rfl⟩ := processLine_iff.mp run
  rw [addAll_stderr] at quiet
  have silent : printed = [] := List.append_cancel_left (quiet.trans (List.append_nil _).symm)
  rw [AsmLine.items] at read
  cases operands : asmReadOperands texts with
  | error why =>
      rw [operands] at read
      cases read
  | ok parsed =>
      obtain ⟨op, lines⟩ := parsed
      rw [operands] at read
      simp only [bind, Except.bind, Except.ok.injEq, Prod.mk.injEq] at read
      obtain ⟨items, both⟩ := read
      rw [silent] at both
      obtain ⟨rfl, complaints⟩ := List.append_eq_nil_iff.mp both
      obtain ⟨entry, listed, named, id, bytes, word⟩ := quiet_items complaints
      refine ⟨entry, listed, op, id, named, rfl, bytes, ?_⟩
      rw [← items, word]
      rfl

/-- The word of an instruction line about which the assembler prints nothing has the literals and
the condition of the line exactly if these fit into its fields and the letters stand in order. -/
theorem accepted_faithful_iff {state next : AsmState} {line mem : List UInt8}
    {texts : List (List UInt8)} (cut : asmCutLine line = .instruction mem texts)
    (run : asmProcessLine state line = .ok next) (quiet : next.stderr = state.stderr) :
    ∃ entry ∈ xmInstTable, ∃ (op : AsmOperands) (id : InstBytes), ascii entry.name = mem ∧
      asmReadOperands texts = .ok (op, []) ∧ next.out = state.out ++ id.bytes ∧
      (LineFaithful entry texts op id ↔ LineEncodable entry texts op) := by
  obtain ⟨entry, listed, op, id, named, read, bytes, out⟩ := quiet_line cut run quiet
  exact ⟨entry, listed, op, id, named, read, out, lineFaithful_iff listed read bytes⟩

theorem branchLine_accepted :
    ∃ entry ∈ xmInstTable, ∃ (op : AsmOperands) (id : InstBytes), ascii entry.name = ascii "b" ∧
      asmReadOperands [ascii "$r1", ascii "-8", ascii "?nc"] = .ok (op, []) ∧
      [0x00, 0xa1, 0xf8, 0x51] = [] ++ id.bytes ∧
      (LineFaithful entry [ascii "$r1", ascii "-8", ascii "?nc"] op id ↔
        LineEncodable entry [ascii "$r1", ascii "-8", ascii "?nc"] op) := by
  have run : asmProcessLine (.start []) (ascii "b $r1,-8,?nc") =
      .ok ⟨[], [0x00, 0xa1, 0xf8, 0x51], [], [], 4, []⟩ := by decide
  have cut : asmCutLine (ascii "b $r1,-8,?nc") =
      .instruction (ascii "b") [ascii "$r1", ascii "-8", ascii "?nc"] := rfl
  exact accepted_faithful_iff cut run rfl

/-- `add $r1,$r2,300` is encoded as `add $r1,$r2,44`, and `b $r1,4,?zn` as `b $r1,4,?z`, both
without a word. -/
theorem literal_cut :
    asmProcessLine (.start []) (ascii "add $r1,$r2,300") =
      .ok ⟨[], [0x00, 0x21, 44, 0x80], [], [], 4, []⟩ ∧
    simImmediate .r4r4i8o8Ifhbs ⟨0x00, 0x21, 44, 0x80⟩ = some 44 ∧ atoll (ascii "300") = 300 ∧
    ¬ LineFaithful (.elem .add "add" .r4r4i8o8Ifhbs 0x00)
      [ascii "$r1", ascii "$r2", ascii "300"]
      (fun k => [asmRegister 1, asmRegister 2, ⟨.i 300, .imm⟩].getD k .zero)
      ⟨0x00, 0x21, 44, 0x80⟩ ∧
    asmProcessLine (.start []) (ascii "b $r1,4,?zn") =
      .ok ⟨[], [0x00, 0x41, 4, 0x51], [], [], 4, []⟩ := by
  refine ⟨by decide, by decide, by decide, ?_, by decide⟩
  intro faithful
  have read := (faithful.literals 2 (ascii "300") rfl rfl).2
  exact absurd read (by decide)

end Estros
