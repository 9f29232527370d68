import Estros.IsaEncoding
import Estros.IsaSimulator

/-!
What a source text is to the assembler: each of its lines adds nothing, a label, or a word,
which depends on the line alone. The state behind the first pass is that of the items.
-/

namespace Estros

/-- A line as `asm_process_line` cuts it; the texts of an instruction are those between the
commas. -/
inductive AsmLine where
  | blank
  | label (name : List UInt8)
  | instruction (mem : List UInt8) (texts : List (List UInt8))
  deriving DecidableEq

def asmCutLine (line : List UInt8) : AsmLine :=
  let line := cString line
  let line := ((strpbrk (ascii "#\r\n") line).map Prod.fst).getD line
  let p := line.dropWhile isspace
  if p = [] then .blank
  else if (strchr 58 p).isSome then .label (((strpbrk (ascii ": \t") p).map Prod.fst).getD p)
  else
    match strpbrk (ascii " \t") p with
    | some (mem, rest) => .instruction mem (asmSplitOperands 8 (rest.dropWhile isspace))
    | none => .instruction p []

def asmReadOperands (texts : List (List UInt8)) :
    Except AsmHalt (AsmOperands × List (List UInt8)) :=
  if 4 < texts.length then .error .overflow
  else do
    let parsed ← texts.mapM asmParseAsmOperand
    .ok (fun k => (parsed.map Prod.fst).getD k .zero, parsed.flatMap Prod.snd)

def AsmState.processLine (state : AsmState) : AsmLine → Except AsmHalt AsmState
  | .blank => .ok state
  | .label name => asmAddLabel state name
  | .instruction mem texts => do
      let (op, lines) ← asmReadOperands texts
      asmInstruction (state.print lines) mem op

theorem asmProcessLine_cut (state : AsmState) (line : List UInt8) :
    asmProcessLine state line = state.processLine (asmCutLine line) := by
  have unprinted : state.print [] = state := by simp [AsmState.print]
  simp only [asmProcessLine, asmCutLine]
  generalize (((strpbrk (ascii "#\r\n") (cString line)).map Prod.fst).getD
    (cString line)).dropWhile isspace = p
  by_cases blank : p = []
  · rw [if_pos blank, if_pos blank]
    rfl
  · rw [if_neg blank, if_neg blank]
    cases colon : (strchr 58 p).isSome with
    | true => rfl
    | false =>
        cases split : strpbrk (ascii " \t") p with
        | none =>
            change _ = asmInstruction (state.print []) p _
            rw [unprinted]
            rfl
        | some parts =>
            simp only [Bool.false_eq_true, if_false, AsmState.processLine, asmReadOperands]
            split
            · rfl
            · cases (asmSplitOperands 8 (parts.2.dropWhile isspace)).mapM asmParseAsmOperand <;> rfl

/-- What a line adds: a label, or a word with the label that its third byte depends on. -/
inductive AsmItem where
  | label (name : List UInt8)
  | word (id : InstBytes) (target : Option (List UInt8))
  deriving DecidableEq

def InstBytes.ofBytes : List UInt8 → Option InstBytes
  | [id0, id1, id2, id3] => some ⟨id0, id1, id2, id3⟩
  | _ => none

theorem InstBytes.ofBytes_bytes (id : InstBytes) : ofBytes id.bytes = some id := rfl

def asmInstructionItems (mem : List UInt8) (op : AsmOperands) :
    List AsmItem × List (List UInt8) :=
  match xmInstTable.find? fun entry => ascii entry.name = mem with
  | none => ([], [asmErrorLine (ascii "true unhandled memmonic <" ++ mem ++ ascii ">")])
  | some entry =>
      match (asmBytes entry op).bind InstBytes.ofBytes with
      | some id => ([.word id (asmTarget entry.format op)], asmOperandErrors entry.format op)
      | none =>
          ([], asmOperandErrors entry.format op ++
            [asmErrorLine (ascii "true unhandled type"), asmErrorLine (ascii "oc == 0 ")])

def AsmLine.items : AsmLine → Except AsmHalt (List AsmItem × List (List UInt8))
  | .blank => .ok ([], [])
  | .label name =>
      if name.length < labelNameSize then .ok ([.label name], []) else .error .overflow
  | .instruction mem texts => do
      let (op, lines) ← asmReadOperands texts
      let (items, complaints) := asmInstructionItems mem op
      .ok (items, lines ++ complaints)

def asmItems : List (List UInt8) → Except AsmHalt (List AsmItem × List (List UInt8))
  | [] => .ok ([], [])
  | line :: rest => do
      if asmLineFits line then
        let (items, lines) ← (asmCutLine line).items
        let (others, later) ← asmItems rest
        .ok (items ++ others, lines ++ later)
      else .error .overflow

def AsmState.add (state : AsmState) : AsmItem → AsmState
  | .label name => { state with labels := state.labels ++ [⟨name, state.pc⟩] }
  | .word id target =>
      { state with
        out := state.out ++ id.bytes
        fixups := state.fixups ++ (target.map fun name =>
          ⟨name, .relO16S8, state.pc, BitVec.ofNat 32 state.out.length⟩).toList
        pc := state.pc + 4 }

/-- There is room for the item in the output and in the tables. -/
def AsmState.Fits (state : AsmState) : AsmItem → Prop
  | .label _ => (state.labels.length + 1) * asmLabelSize ≤ listMaxSize
  | .word _ target => state.out.length + 4 ≤ outMaxSize ∧
      (target.isSome → (state.fixups.length + 1) * asmFixupSize ≤ listMaxSize)

def AsmState.addAll (state : AsmState) (items : List AsmItem) : AsmState :=
  items.foldl AsmState.add state

def AsmState.FitsAll (state : AsmState) : List AsmItem → Prop
  | [] => True
  | item :: rest => state.Fits item ∧ (state.add item).FitsAll rest

def itemBytes : List AsmItem → List UInt8
  | [] => []
  | .label _ :: rest => itemBytes rest
  | .word id _ :: rest => id.bytes ++ itemBytes rest

def labelTable (offset : Nat) : List AsmItem → List AsmLabel
  | [] => []
  | .label name :: rest => ⟨name, BitVec.ofNat 32 offset⟩ :: labelTable offset rest
  | .word _ _ :: rest => labelTable (offset + 4) rest

def fixupTable (offset : Nat) : List AsmItem → List AsmFixup
  | [] => []
  | .label _ :: rest => fixupTable offset rest
  | .word _ none :: rest => fixupTable (offset + 4) rest
  | .word _ (some name) :: rest =>
      ⟨name, .relO16S8, BitVec.ofNat 32 offset, BitVec.ofNat 32 offset⟩ ::
        fixupTable (offset + 4) rest

theorem AsmState.print_print (state : AsmState) (lines later : List (List UInt8)) :
    (state.print lines).print later = state.print (lines ++ later) := by
  simp [AsmState.print]

theorem AsmState.add_print (state : AsmState) (lines : List (List UInt8)) (item : AsmItem) :
    (state.print lines).add item = (state.add item).print lines := by
  cases item <;> rfl

theorem AsmState.addAll_print (state : AsmState) (lines : List (List UInt8))
    (items : List AsmItem) : (state.print lines).addAll items = (state.addAll items).print lines := by
  induction items generalizing state with
  | nil => rfl
  | cons item rest ih =>
      change ((state.print lines).add item).addAll rest = _
      rw [add_print]
      exact ih (state.add item)

theorem AsmState.addAll_append (state : AsmState) (items others : List AsmItem) :
    state.addAll (items ++ others) = (state.addAll items).addAll others :=
  List.foldl_append

theorem AsmState.fitsAll_print (state : AsmState) (lines : List (List UInt8))
    (items : List AsmItem) : (state.print lines).FitsAll items ↔ state.FitsAll items := by
  induction items generalizing state with
  | nil => rfl
  | cons item rest ih =>
      have here : (state.print lines).Fits item ↔ state.Fits item := by cases item <;> rfl
      have later := ih (state.add item)
      rw [← add_print] at later
      exact and_congr here later

theorem AsmState.fitsAll_append (state : AsmState) (items others : List AsmItem) :
    state.FitsAll (items ++ others) ↔
      state.FitsAll items ∧ (state.addAll items).FitsAll others := by
  induction items generalizing state with
  | nil => exact ⟨fun fits => ⟨trivial, fits⟩, And.right⟩
  | cons item rest ih =>
      have later := ih (state.add item)
      exact (and_congr_right fun _ => later).trans and_assoc.symm

theorem itemBytes_append (items others : List AsmItem) :
    itemBytes (items ++ others) = itemBytes items ++ itemBytes others := by
  induction items with
  | nil => rfl
  | cons item rest ih =>
      cases item with
      | label name => exact ih
      | word id target =>
          rw [List.cons_append, itemBytes, itemBytes, ih, List.append_assoc]

theorem addAll_eq {state : AsmState} (items : List AsmItem)
    (counted : state.pc = BitVec.ofNat 32 state.out.length) :
    state.addAll items =
      { state with
        out := state.out ++ itemBytes items
        labels := state.labels ++ labelTable state.out.length items
        fixups := state.fixups ++ fixupTable state.out.length items
        pc := BitVec.ofNat 32 (state.out.length + (itemBytes items).length) } := by
  -- The counter of the first pass follows the output.
  induction items generalizing state with
  | nil => simp [AsmState.addAll, itemBytes, labelTable, fixupTable, ← counted]
  | cons item rest ih =>
      change (state.add item).addAll rest = _
      cases item with
      | label name =>
          have later := @ih (state.add (.label name)) counted
          rw [later]
          simp [AsmState.add, itemBytes, labelTable, fixupTable, counted]
      | word id target =>
          have length : (state.out ++ id.bytes).length = state.out.length + 4 :=
            List.length_append
          have next : (state.add (.word id target)).pc =
              BitVec.ofNat 32 (state.add (.word id target)).out.length := by
            change state.pc + 4 = BitVec.ofNat 32 (state.out ++ id.bytes).length
            rw [length, BitVec.ofNat_add, counted]
            rfl
          rw [ih next]
          cases target <;>
            simp [AsmState.add, itemBytes, labelTable, fixupTable, counted, Nat.add_assoc,
              InstBytes.bytes, Nat.add_comm 4]

theorem asmBytes_cases (entry : XmInstTableEntry) (op : AsmOperands) :
    (asmEncodes entry.format = true ∧ ∃ id : InstBytes, asmBytes entry op = some id.bytes) ∨
      (asmEncodes entry.format = false ∧ asmBytes entry op = none) := by
  cases encodes : asmEncodes entry.format with
  | true =>
      obtain ⟨ob1, ob2, bytes⟩ := asmBytes_shape encodes op
      exact Or.inl ⟨rfl, ⟨_, ob1, ob2, asmOpcode entry op⟩, bytes⟩
  | false =>
      refine Or.inr ⟨rfl, ?_⟩
      unfold asmBytes
      cases format : entry.format <;> rw [format] at encodes <;> first | rfl | cases encodes

theorem asmRecordFixup_iff {state middle : AsmState} {format : XmInstFormat} {op : AsmOperands} :
    asmRecordFixup state format op = .ok middle ↔
      ((asmTarget format op).isSome → (state.fixups.length + 1) * asmFixupSize ≤ listMaxSize) ∧
        middle = { state with
          fixups := state.fixups ++ ((asmTarget format op).map fun name =>
            ⟨name, .relO16S8, state.pc, BitVec.ofNat 32 state.out.length⟩).toList } := by
  unfold asmRecordFixup asmTarget
  split
  · split
    · next room => simp [room, eq_comm]
    · next full => simp [full]
  · simp only [Option.isSome_none, Bool.false_eq_true, false_implies, true_and, Option.map_none,
      Option.toList_none, List.append_nil, Except.ok.injEq]
    exact eq_comm

theorem asmTarget_none {format : XmInstFormat} (encodes : asmEncodes format = false)
    (op : AsmOperands) : asmTarget format op = none := by
  unfold asmTarget
  cases format <;> first | rfl | cases encodes

theorem asmInstruction_iff {state next : AsmState} {mem : List UInt8} {op : AsmOperands} :
    asmInstruction state mem op = .ok next ↔
      state.FitsAll (asmInstructionItems mem op).1 ∧
        next = (state.print (asmInstructionItems mem op).2).addAll
          (asmInstructionItems mem op).1 := by
  unfold asmInstruction asmFirstpass asmInstructionItems
  cases found : xmInstTable.find? fun entry => ascii entry.name = mem with
  | none =>
      simp only [bind, Except.bind, BitVec.ofNat_eq_ofNat, BitVec.add_zero, Except.ok.injEq]
      exact ⟨fun same => ⟨trivial, same.symm⟩, fun both => both.2.symm⟩
  | some entry =>
      -- the fixup is recorded before the format is looked at, which may emit no word
      cases recorded : asmRecordFixup (state.print (asmOperandErrors entry.format op))
        entry.format op with
      | error why =>
          have full : ¬((asmTarget entry.format op).isSome →
              (state.fixups.length + 1) * asmFixupSize ≤ listMaxSize) := fun room =>
            nomatch recorded.symm.trans (asmRecordFixup_iff.mpr ⟨room, rfl⟩)
          rcases asmBytes_cases entry op with ⟨_, id, bytes⟩ | ⟨encodes, bytes⟩
          · simp only [bind, Except.bind, recorded, bytes, Option.bind_some, InstBytes.ofBytes_bytes]
            constructor
            · intro same
              cases same
            · rintro ⟨⟨⟨_, room⟩, _⟩, _⟩
              exact absurd room full
          · refine absurd (fun branch => ?_) full
            rw [asmTarget_none encodes] at branch
            cases branch
      | ok middle =>
          obtain ⟨room, rfl⟩ := asmRecordFixup_iff.mp recorded
          rcases asmBytes_cases entry op with ⟨_, id, bytes⟩ | ⟨encodes, bytes⟩
          · simp only [bind, Except.bind, bytes, Option.bind_some, InstBytes.ofBytes_bytes, recorded]
            by_cases fits : (state.print (asmOperandErrors entry.format op)).out.length +
              id.bytes.length ≤ outMaxSize
            · rw [if_pos fits]
              constructor
              · intro same
                exact ⟨⟨⟨fits, room⟩, trivial⟩, (Except.ok.inj same).symm⟩
              · rintro ⟨_, rfl⟩
                rfl
            · rw [if_neg fits]
              constructor
              · intro same
                cases same
              · rintro ⟨⟨⟨room, _⟩, _⟩, _⟩
                exact absurd room fits
          · simp only [bind, Except.bind, bytes, Option.bind_none, recorded,
              asmTarget_none encodes, Option.map_none, Option.toList_none, List.append_nil,
              BitVec.ofNat_eq_ofNat]
            constructor
            · intro same
              refine ⟨trivial, (Except.ok.inj same).symm.trans ?_⟩
              simp [AsmState.print, AsmState.addAll]
            · rintro ⟨_, rfl⟩
              simp [AsmState.print, AsmState.addAll]

theorem processLine_iff {state next : AsmState} {line : AsmLine} :
    state.processLine line = .ok next ↔ ∃ items lines, line.items = .ok (items, lines) ∧
      state.FitsAll items ∧ next = (state.print lines).addAll items := by
  cases line with
  | blank =>
      constructor
      · intro same
        cases same
        exact ⟨[], [], rfl, trivial, by simp [AsmState.print, AsmState.addAll]⟩
      · rintro ⟨items, lines, same, _, rfl⟩
        cases same
        simp [AsmState.processLine, AsmState.print, AsmState.addAll]
  | label name =>
      simp only [AsmState.processLine, asmAddLabel, AsmLine.items]
      by_cases short : name.length < labelNameSize
      · by_cases room : (state.labels.length + 1) * asmLabelSize ≤ listMaxSize
        · rw [if_pos ⟨short, room⟩, if_pos short]
          constructor
          · intro same
            cases same
            refine ⟨_, _, rfl, ⟨room, trivial⟩, ?_⟩
            simp [AsmState.print, AsmState.addAll, AsmState.add]
          · rintro ⟨items, lines, same, _, rfl⟩
            cases same
            simp [AsmState.print, AsmState.addAll, AsmState.add]
        · rw [if_neg fun both => room both.2, if_pos short]
          constructor
          · intro same
            cases same
          · rintro ⟨items, lines, same, fits, _⟩
            cases same
            exact absurd fits.1 room
      · rw [if_neg fun both => short both.1, if_neg short]
        constructor
        · intro same
          cases same
        · rintro ⟨items, lines, same, _⟩
          cases same
  | instruction mem texts =>
      simp only [AsmState.processLine, AsmLine.items]
      cases read : asmReadOperands texts with
      | error why =>
          constructor
          · intro same
            cases same
          · rintro ⟨items, lines, same, _⟩
            cases same
      | ok operands =>
          obtain ⟨op, lines⟩ := operands
          change asmInstruction (state.print lines) mem op = .ok next ↔ _
          rw [asmInstruction_iff, AsmState.fitsAll_print, AsmState.print_print]
          constructor
          · rintro ⟨fits, same⟩
            exact ⟨_, _, rfl, fits, same⟩
          · rintro ⟨items, printed, same, fits, rfl⟩
            cases same
            exact ⟨fits, rfl⟩

/-! ### All lines -/

theorem asmItems_cons {line : List UInt8} {rest : List (List UInt8)} {all : List AsmItem}
    {printed : List (List UInt8)} :
    asmItems (line :: rest) = .ok (all, printed) ↔ asmLineFits line = true ∧
      ∃ here complaints behind later, (asmCutLine line).items = .ok (here, complaints) ∧
        asmItems rest = .ok (behind, later) ∧ all = here ++ behind ∧
        printed = complaints ++ later := by
  rw [asmItems]
  constructor
  · intro read
    cases fits : asmLineFits line with
    | false =>
        rw [fits] at read
        cases read
    | true =>
        rw [fits, if_pos rfl] at read
        cases first : (asmCutLine line).items with
        | error why =>
            rw [first] at read
            cases read
        | ok here =>
            cases second : asmItems rest with
            | error why =>
                rw [first, second] at read
                cases read
            | ok behind =>
                rw [first, second] at read
                cases read
                exact ⟨rfl, here.1, here.2, behind.1, behind.2, rfl, rfl, rfl, rfl⟩
  · rintro ⟨fits, here, complaints, behind, later, first, second, rfl, rfl⟩
    rw [fits, if_pos rfl, first, second]
    rfl

theorem asmItems_append {lines others : List (List UInt8)} {items later : List AsmItem}
    {printed complaints : List (List UInt8)} (first : asmItems lines = .ok (items, printed))
    (second : asmItems others = .ok (later, complaints)) :
    asmItems (lines ++ others) = .ok (items ++ later, printed ++ complaints) := by
  induction lines generalizing items printed with
  | nil =>
      cases first
      exact second
  | cons line rest ih =>
      obtain ⟨fits, here, printed, behind, lines, read, reads, rfl, rfl⟩ := asmItems_cons.mp first
      rw [List.append_assoc, List.append_assoc]
      exact asmItems_cons.mpr ⟨fits, here, printed, _, _, read, ih reads, rfl, rfl⟩

theorem asmItems_split {before after : List (List UInt8)} {line : List UInt8}
    {all : List AsmItem} {printed : List (List UInt8)}
    (read : asmItems (before ++ line :: after) = .ok (all, printed)) :
    ∃ items lines here complaints behind later, asmItems before = .ok (items, lines) ∧
      (asmCutLine line).items = .ok (here, complaints) ∧ asmItems after = .ok (behind, later) ∧
      all = items ++ (here ++ behind) := by
  induction before generalizing all printed with
  | nil =>
      obtain ⟨_, here, complaints, behind, later, first, second, rfl, rfl⟩ := asmItems_cons.mp read
      exact ⟨[], [], here, complaints, behind, later, rfl, first, second, rfl⟩
  | cons other rest ih =>
      obtain ⟨fits, start, words, others, more, first, second, rfl, rfl⟩ := asmItems_cons.mp read
      obtain ⟨items, lines, here, complaints, behind, later, readRest, readLine, readAfter, rfl⟩ :=
        ih second
      refine ⟨start ++ items, words ++ lines, here, complaints, behind, later, ?_, readLine,
        readAfter, (List.append_assoc _ _ _).symm⟩
      exact asmItems_cons.mpr ⟨fits, start, words, items, lines, first, readRest, rfl, rfl⟩

/-- The first pass succeeds exactly if the text has items and there is room for them; then its
state is that of the items. -/
theorem readLines_iff {lines : List (List UInt8)} {state next : AsmState} :
    lines.foldlM asmReadLine state = .ok next ↔ ∃ items printed,
      asmItems lines = .ok (items, printed) ∧ state.FitsAll items ∧
        next = (state.print printed).addAll items := by
  induction lines generalizing state with
  | nil =>
      constructor
      · intro same
        cases same
        exact ⟨[], [], rfl, trivial, by simp [AsmState.print, AsmState.addAll]⟩
      · rintro ⟨items, printed, same, _, rfl⟩
        cases same
        simp [AsmState.print, AsmState.addAll, pure, Except.pure]
  | cons line rest ih =>
      rw [List.foldlM_cons, asmReadLine, asmProcessLine_cut]
      constructor
      · intro same
        cases fits : asmLineFits line with
        | false =>
            rw [fits] at same
            cases same
        | true =>
            rw [fits, if_pos rfl] at same
            cases processed : state.processLine (asmCutLine line) with
            | error why =>
                rw [processed] at same
                cases same
            | ok middle =>
                rw [processed] at same
                obtain ⟨items, printed, read, room, rfl⟩ := processLine_iff.mp processed
                obtain ⟨others, later, reads, rooms, rfl⟩ := ih.mp same
                rw [AsmState.addAll_print, AsmState.fitsAll_print] at rooms
                refine ⟨items ++ others, printed ++ later,
                  asmItems_cons.mpr ⟨fits, _, _, _, _, read, reads, rfl, rfl⟩,
                  (AsmState.fitsAll_append _ _ _).mpr ⟨room, rooms⟩, ?_⟩
                simp only [AsmState.addAll_print, AsmState.print_print, AsmState.addAll_append]
      · rintro ⟨all, printed, read, room, rfl⟩
        obtain ⟨fits, items, lines, others, later, first, second, rfl, rfl⟩ :=
          asmItems_cons.mp read
        obtain ⟨roomHere, roomLater⟩ := (AsmState.fitsAll_append _ _ _).mp room
        rw [fits, if_pos rfl, processLine_iff.mpr ⟨items, lines, first, roomHere, rfl⟩]
        refine ih.mpr ⟨others, later, second, ?_, ?_⟩
        · rw [AsmState.addAll_print, AsmState.fitsAll_print]
          exact roomLater
        · simp only [AsmState.addAll_print, AsmState.print_print, AsmState.addAll_append]

theorem readLines_prefix {before after : List (List UInt8)} {state next : AsmState}
    (read : (before ++ after).foldlM asmReadLine state = .ok next) :
    ∃ middle, before.foldlM asmReadLine state = .ok middle := by
  rw [List.foldlM_append] at read
  cases first : before.foldlM asmReadLine state with
  | error why =>
      rw [first] at read
      cases read
  | ok middle => exact ⟨middle, rfl⟩

theorem items_handled {entry : XmInstTableEntry} (member : entry ∈ xmInstTable)
    (encodes : asmEncodes entry.format = true) (op : AsmOperands) :
    ∃ id : InstBytes, asmBytes entry op = some id.bytes ∧ asmInstructionItems (ascii entry.name) op =
      ([.word id (asmTarget entry.format op)], asmOperandErrors entry.format op) := by
  rcases asmBytes_cases entry op with ⟨_, id, bytes⟩ | ⟨other, _⟩
  · refine ⟨id, bytes, ?_⟩
    rw [asmInstructionItems, find_name member]
    simp only [bytes, Option.bind_some, InstBytes.ofBytes_bytes]
  · rw [encodes] at other
    cases other

structure IsInstruction (line : List UInt8) (entry : XmInstTableEntry) (op : AsmOperands) :
    Prop where
  listed : entry ∈ xmInstTable
  written : ∃ texts printed, asmCutLine line = .instruction (ascii entry.name) texts ∧
    asmReadOperands texts = .ok (op, printed)

theorem IsInstruction.word {line : List UInt8} {entry : XmInstTableEntry} {op : AsmOperands}
    (instruction : IsInstruction line entry op) (encodes : asmEncodes entry.format = true) :
    ∃ id printed, asmBytes entry op = some id.bytes ∧
      (asmCutLine line).items = .ok ([.word id (asmTarget entry.format op)], printed) := by
  obtain ⟨texts, printed, cut, read⟩ := instruction.written
  obtain ⟨id, bytes, items⟩ := items_handled instruction.listed encodes op
  refine ⟨id, printed ++ asmOperandErrors entry.format op, bytes, ?_⟩
  rw [cut, AsmLine.items, read]
  simp only [bind, Except.bind, items]

theorem instruction_of_word {line : List UInt8} {items : List AsmItem}
    {printed : List (List UInt8)} {id : InstBytes} {target : Option (List UInt8)}
    (read : (asmCutLine line).items = .ok (items, printed)) (member : .word id target ∈ items) :
    ∃ entry op, IsInstruction line entry op ∧ asmEncodes entry.format = true ∧
      asmBytes entry op = some id.bytes ∧ target = asmTarget entry.format op ∧
      items = [.word id target] := by
  cases cut : asmCutLine line with
  | blank =>
      rw [cut] at read
      cases read
      cases member
  | label name =>
      rw [cut, AsmLine.items] at read
      split at read
      · cases read
        cases List.mem_singleton.mp member
      · cases read
  | instruction mem texts =>
      rw [cut, AsmLine.items] at read
      cases operands : asmReadOperands texts with
      | error why =>
          rw [operands] at read
          cases read
      | ok parsed =>
          obtain ⟨op, lines⟩ := parsed
          rw [operands] at read
          cases found : xmInstTable.find? fun entry => ascii entry.name = mem with
          | none =>
              simp only [bind, Except.bind, asmInstructionItems, found] at read
              cases read
              cases member
          | some entry =>
              have named : ascii entry.name = mem := by simpa using List.find?_some found
              rcases asmBytes_cases entry op with ⟨encodes, word, bytes⟩ | ⟨_, bytes⟩
              · simp only [bind, Except.bind, asmInstructionItems, found, bytes, Option.bind_some,
                  InstBytes.ofBytes_bytes] at read
                cases read
                cases List.mem_singleton.mp member
                exact ⟨entry, op, ⟨List.mem_of_find?_eq_some found, texts, lines,
                  named ▸ cut, operands⟩, encodes, bytes, rfl, rfl⟩
              · simp only [bind, Except.bind, asmInstructionItems, found, bytes,
                  Option.bind_none] at read
                cases read
                cases member

theorem items_few {line : AsmLine} {items : List AsmItem} {printed : List (List UInt8)}
    (read : line.items = .ok (items, printed)) : items = [] ∨ ∃ item, items = [item] := by
  cases line with
  | blank =>
      cases read
      exact Or.inl rfl
  | label name =>
      rw [AsmLine.items] at read
      split at read
      · cases read
        exact Or.inr ⟨_, rfl⟩
      · cases read
  | instruction mem texts =>
      rw [AsmLine.items] at read
      cases operands : asmReadOperands texts with
      | error why =>
          rw [operands] at read
          cases read
      | ok parsed =>
          rw [operands] at read
          simp only [bind, Except.bind, Except.ok.injEq, Prod.mk.injEq] at read
          obtain ⟨rfl, _⟩ := read
          unfold asmInstructionItems
          split
          · exact Or.inl rfl
          · split
            · exact Or.inr ⟨_, rfl⟩
            · exact Or.inl rfl

theorem line_of_item {lines : List (List UInt8)} {before after : List AsmItem} {item : AsmItem}
    {printed : List (List UInt8)} (read : asmItems lines = .ok (before ++ item :: after, printed)) :
    ∃ first line last done complaints, lines = first ++ line :: last ∧
      asmItems first = .ok (before, done) ∧
      (asmCutLine line).items = .ok ([item], complaints) := by
  induction lines generalizing before printed with
  | nil =>
      have none : [] = before ++ item :: after := congrArg Prod.fst (Except.ok.inj read)
      exact absurd none.symm (by simp)
  | cons line rest ih =>
      obtain ⟨fits, here, complaints, behind, later, first, second, same, rfl⟩ :=
        asmItems_cons.mp read
      rcases items_few first with rfl | ⟨only, rfl⟩
      · rw [List.nil_append] at same
        subst same
        obtain ⟨lines, found, last, done, more, rfl, reads, word⟩ := ih second
        exact ⟨line :: lines, found, last, _, more, rfl,
          asmItems_cons.mpr ⟨fits, [], complaints, before, done, first, reads, rfl, rfl⟩, word⟩
      · cases before with
        | nil =>
            cases same
            exact ⟨[], line, rest, [], complaints, rfl, rfl, first⟩
        | cons start others =>
            cases same
            obtain ⟨lines, found, last, done, more, rfl, reads, word⟩ := ih second
            exact ⟨line :: lines, found, last, _, more, rfl,
              asmItems_cons.mpr ⟨fits, [only], complaints, others, done, first, reads, rfl, rfl⟩,
              word⟩

end Estros
