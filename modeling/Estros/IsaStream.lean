import Estros.IsaRoundTrip

/-!
The loop of the disassembler over a file: which bytes each of its rounds reads and what it
prints. It stays in step with the words of the file exactly as long as none of them is of a float
format, since of those it reads only the first byte.
-/

namespace Estros

structure DisRound where
  read : List UInt8
  printed : List UInt8
  deriving DecidableEq

def disRounds : List UInt8 → Option (List DisRound)
  | [] => some []
  | ob0 :: rest =>
      if ob0 = 0xff then some []
      else if ob0 &&& 0x0f = XmCb0.integer.code then
        match rest with
        | ob1 :: ob2 :: ob3 :: behind =>
            (disRounds behind).map
              (⟨[ob0, ob1, ob2, ob3], disPrintInst ⟨ob0, ob1, ob2, ob3⟩⟩ :: ·)
        | short =>
            some [⟨ob0 :: short, disPrintInst ⟨ob0, short.getD 0 0xff, short.getD 1 0xff, 0xff⟩⟩]
      else if disSkips ob0 then (disRounds rest).map (⟨[ob0], []⟩ :: ·)
      else none

theorem disDisassemble_rounds (file : List UInt8) :
    disDisassemble file = (disRounds file).map (·.flatMap DisRound.printed) := by
  induction file using disRounds.induct with
  | case1 => rfl
  | case2 rest => simp [disDisassemble.eq_def, disRounds.eq_def]
  | case3 ob0 stop integer ob1 ob2 ob3 behind ih =>
      simp [disDisassemble, disRounds, stop, integer, ih, Function.comp_def]
  | case4 ob0 stop integer short few =>
      simp [disDisassemble, disRounds, stop, integer]
  | case5 ob0 rest stop integer skips ih =>
      simp [disDisassemble.eq_def (ob0 :: rest), disRounds.eq_def (ob0 :: rest), stop, integer,
        skips, ih, Function.comp_def]
  | case6 ob0 rest stop integer skips =>
      simp [disDisassemble.eq_def (ob0 :: rest), disRounds.eq_def (ob0 :: rest), stop, integer,
        skips]

/-- The rounds read the words one after the other and print a line for each. -/
def DisInStep (words : List InstBytes) : Prop :=
  ∃ rounds, disRounds (words.flatMap InstBytes.bytes) = some rounds ∧
    List.Forall₂ (fun round id => round.read = id.bytes ∧ IsTextLine round.printed) rounds words

def IsWordOf (entry : XmInstTableEntry) (id : InstBytes) : Prop :=
  entry ∈ xmInstTable ∧ ∃ op, asmBytes entry op = some id.bytes

theorem integer_opcodes : (xmInstTable.all fun entry => !asmEncodes entry.format ||
    (xmGetCb0FromFormat entry.format).code = XmCb0.float.code ||
      ((xmGetCb0FromFormat entry.format).code = XmCb0.integer.code &&
        (opcodeBytes entry).all fun id3 =>
          (xmInstTable.find? fun other => other.op = ofByte (id3 &&& 0x7f)).isSome)) = true := by
  decide

theorem asmEncodes_of_bytes {entry : XmInstTableEntry} {op : AsmOperands} {id : InstBytes}
    (bytes : asmBytes entry op = some id.bytes) : asmEncodes entry.format = true := by
  rcases asmBytes_cases entry op with ⟨encodes, _⟩ | ⟨_, none⟩
  · exact encodes
  · rw [none] at bytes
    cases bytes

theorem IsWordOf.cases {entry : XmInstTableEntry} {id : InstBytes} (word : IsWordOf entry id) :
    id.id0 = XmCb0.float.code ∨
      (id.id0 = XmCb0.integer.code ∧ IsTextLine (disPrintInst id)) := by
  obtain ⟨listed, op, bytes⟩ := word
  have encodes := asmEncodes_of_bytes bytes
  obtain ⟨ob1, ob2, shape⟩ := asmBytes_shape encodes op
  have same := Option.some.inj (bytes.symm.trans shape)
  simp only [InstBytes.bytes, List.cons.injEq, and_true] at same
  obtain ⟨first, -, -, last⟩ := same
  have checked := List.all_eq_true.mp integer_opcodes entry listed
  simp only [encodes, Bool.not_true, Bool.false_or, Bool.or_eq_true, Bool.and_eq_true,
    decide_eq_true_eq] at checked
  rcases checked with float | ⟨integer, found⟩
  · exact Or.inl (first.trans float)
  · refine Or.inr ⟨first.trans integer, ?_⟩
    have here := List.all_eq_true.mp found id.id3 (last ▸ asmOpcode_mem entry op)
    obtain ⟨shown, find⟩ := Option.isSome_iff_exists.mp here
    rw [disPrintInst, show disFindInst id = some shown from find]
    exact disPrintFormat_line (List.mem_of_find?_eq_some find) id

theorem disRounds_integer {id : InstBytes} (integer : id.id0 = XmCb0.integer.code)
    (behind : List UInt8) : disRounds (id.bytes ++ behind) =
      (disRounds behind).map (⟨id.bytes, disPrintInst id⟩ :: ·) := by
  obtain ⟨id0, id1, id2, id3⟩ := id
  cases integer
  simp only [InstBytes.bytes, List.cons_append, List.nil_append]
  rw [disRounds, if_neg (by decide), if_pos (by decide)]

/-- Of a word of a float format the loop reads the first byte. -/
theorem disRounds_float {id : InstBytes} (float : id.id0 = XmCb0.float.code)
    (behind : List UInt8) : disRounds (id.bytes ++ behind) =
      (disRounds (id.bytes.tail ++ behind)).map (⟨[id.id0], []⟩ :: ·) := by
  have stop : id.id0 ≠ 0xff := by rw [float]; decide
  have integer : id.id0 &&& 0x0f ≠ XmCb0.integer.code := by rw [float]; decide
  have skips : disSkips id.id0 = true := by rw [float]; decide
  rw [show id.bytes ++ behind = id.id0 :: (id.bytes.tail ++ behind) from rfl,
    disRounds.eq_def (id.id0 :: _)]
  simp only [if_neg stop, if_neg integer, if_pos skips]

theorem disInStep_cons {entry : XmInstTableEntry} {id : InstBytes} (word : IsWordOf entry id)
    (rest : List InstBytes) :
    DisInStep (id :: rest) ↔ id.id0 = XmCb0.integer.code ∧ DisInStep rest := by
  rcases word.cases with float | ⟨integer, line⟩
  · have other : id.id0 ≠ XmCb0.integer.code := by
      rw [float]
      decide
    refine iff_of_false ?_ fun both => other both.1
    -- the first round has read one byte, not four
    rintro ⟨rounds, run, same⟩
    rw [List.flatMap_cons, disRounds_float float] at run
    obtain ⟨behind, -, rfl⟩ := Option.map_eq_some_iff.mp run
    cases same with
    | cons first _ =>
        have lengths : 1 = 4 := congrArg List.length first.1
        exact absurd lengths (by decide)
  · rw [and_iff_right integer, DisInStep, List.flatMap_cons, disRounds_integer integer]
    constructor
    · rintro ⟨rounds, run, same⟩
      obtain ⟨behind, later, rfl⟩ := Option.map_eq_some_iff.mp run
      cases same with
      | cons _ others => exact ⟨behind, later, others⟩
    · rintro ⟨behind, later, others⟩
      exact ⟨_, by rw [later]; rfl, .cons ⟨rfl, line⟩ others⟩

/-- On a file of words that `asm_firstpass` emits, the disassembler reads four bytes and prints a
line for each word exactly if no word is of a float format. -/
theorem disInStep_iff (words : List InstBytes)
    (emitted : ∀ id ∈ words, ∃ entry, IsWordOf entry id) :
    DisInStep words ↔ ∀ id ∈ words, id.id0 = XmCb0.integer.code := by
  induction words with
  | nil => exact ⟨fun _ id member => absurd member List.not_mem_nil, fun _ => ⟨[], rfl, .nil⟩⟩
  | cons id rest ih =>
      obtain ⟨entry, word⟩ := emitted id List.mem_cons_self
      rw [disInStep_cons word, ih fun other member => emitted other (List.mem_cons_of_mem _ member),
        List.forall_mem_cons]

theorem addBranch_inStep : DisInStep [⟨0x00, 0x21, 0xff, 0x80⟩, ⟨0x00, 0x10, 0xf8, 0x51⟩] := by
  have add : IsWordOf (.elem .add "add" .r4r4i8o8Ifhbs 0x00) ⟨0x00, 0x21, 0xff, 0x80⟩ :=
    ⟨by decide, fun k => [asmRegister 1, asmRegister 2, ⟨.i 0xff, .imm⟩].getD k .zero, by decide⟩
  have b : IsWordOf (.elem .b "b" .r4u4ra8o8 0x51) ⟨0x00, 0x10, 0xf8, 0x51⟩ :=
    ⟨by decide, fun k => [asmRegister 0, ⟨.i 0xf8, .imm⟩, ⟨.i 1, .cond⟩].getD k .zero, by decide⟩
  refine (disInStep_iff _ ?_).mpr (by decide)
  simp only [List.mem_cons, List.not_mem_nil, or_false, forall_eq_or_imp, forall_eq]
  exact ⟨⟨_, add⟩, ⟨_, b⟩⟩

/-- `fadd3 $f2,$f0,$f0,$f0`: its second byte is taken for a control byte, of a class that makes
the disassembler abort. -/
theorem fadd3_out_of_step :
    IsWordOf (.elem .fadd3 "fadd3" .f4f4f4f4 0x00) ⟨0x01, 0x02, 0x00, 0x00⟩ ∧
      disRounds [0x01, 0x02, 0x00, 0x00] = none ∧ disDisassemble [0x01, 0x02, 0x00, 0x00] = none ∧
      ¬ DisInStep [⟨0x01, 0x02, 0x00, 0x00⟩] := by
  have aborts : disRounds [0x01, 0x02, 0x00, 0x00] = none := rfl
  refine ⟨⟨by decide, fun k => ⟨.i (if k = 0 then 2 else 0), .floatReg⟩, by decide⟩,
    aborts, by rw [disDisassemble_rounds, aborts]; rfl, ?_⟩
  rintro ⟨rounds, run, -⟩
  exact absurd (aborts.symm.trans run) (by simp)

end Estros
