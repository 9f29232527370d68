import Estros.IsaBranches

/-!
What the assembler does about errors: `ASM_ERROR_IF` prints, and nothing else happens. A line
adds no word only if its mnemonic is unknown or its format is not handled.
-/

namespace Estros

def asmFixupErrors (labels : List AsmLabel) (fixup : AsmFixup) : List (List UInt8) :=
  match findLabel labels fixup.name with
  | some label => asmDistanceErrors (label.pc - fixup.pc)
  | none => []

theorem asmFixupOne_prints {state next : AsmState} {fixup : AsmFixup}
    (run : asmFixupOne state fixup = .ok next) :
    next.stderr = state.stderr ++ asmFixupErrors state.labels fixup ∧
      next.labels = state.labels := by
  obtain ⟨name, type, pc, offset⟩ := fixup
  cases found : findLabel state.labels name with
  | none =>
      have absent : asmFindLabel state name = .error .abort := by
        unfold findLabel at found
        rw [asmFindLabel, found]
      rw [asmFixupOne] at run
      simp only [absent] at run
      cases run
  | some label =>
      cases type with
      | none =>
          have read : asmFindLabel state name = .ok label := by
            unfold findLabel at found
            rw [asmFindLabel, found]
          rw [asmFixupOne] at run
          simp only [read] at run
          cases run
      | relO16S8 =>
          rw [asmFixupOne_eq found] at run
          cases run
          simp only [asmFixupErrors, found]
          exact ⟨rfl, rfl⟩

theorem fixups_print {fixups : List AsmFixup} {state fixed : AsmState}
    (run : fixups.foldlM asmFixupOne state = .ok fixed) :
    fixed.stderr = state.stderr ++ fixups.flatMap (asmFixupErrors state.labels) := by
  induction fixups generalizing state with
  | nil =>
      cases run
      exact (List.append_nil _).symm
  | cons fixup rest ih =>
      rw [List.foldlM_cons] at run
      cases first : asmFixupOne state fixup with
      | error why =>
          rw [first] at run
          cases run
      | ok next =>
          rw [first] at run
          obtain ⟨printed, labels⟩ := asmFixupOne_prints first
          rw [ih run, printed, labels, List.append_assoc, List.flatMap_cons]

def IsHandled (mem : List UInt8) : Prop :=
  ∃ entry ∈ xmInstTable, ascii entry.name = mem ∧ asmEncodes entry.format = true

theorem items_unhandled {mem : List UInt8} (unhandled : ¬ IsHandled mem) (op : AsmOperands) :
    (asmInstructionItems mem op).1 = [] := by
  unfold asmInstructionItems
  cases found : xmInstTable.find? fun entry => ascii entry.name = mem with
  | none => rfl
  | some entry =>
      have named : ascii entry.name = mem := by simpa using List.find?_some found
      rcases asmBytes_cases entry op with ⟨encodes, _⟩ | ⟨_, bytes⟩
      · exact absurd ⟨entry, List.mem_of_find?_eq_some found, named, encodes⟩ unhandled
      · simp only [bytes, Option.bind_none]

theorem readLine_instruction {line mem : List UInt8} {texts printed : List (List UInt8)}
    {op : AsmOperands} {state next : AsmState} (cut : asmCutLine line = .instruction mem texts)
    (read : asmReadOperands texts = .ok (op, printed)) (run : asmReadLine state line = .ok next) :
    next = (state.print (printed ++ (asmInstructionItems mem op).2)).addAll
      (asmInstructionItems mem op).1 := by
  rw [asmReadLine] at run
  split at run
  · rw [asmProcessLine_cut] at run
    obtain ⟨items, lines, same, _, rfl⟩ := processLine_iff.mp run
    rw [cut, AsmLine.items, read] at same
    cases same
    rfl
  · cases run

theorem addAll_stderr (state : AsmState) (items : List AsmItem) :
    (state.addAll items).stderr = state.stderr := by
  induction items generalizing state with
  | nil => rfl
  | cons item rest ih =>
      refine (ih (state.add item)).trans ?_
      cases item <;> rfl

theorem linkedBytes_place (labels : List AsmLabel) (before after : List AsmItem) (id : InstBytes)
    (target : Option (List UInt8)) :
    ((linkedBytes labels 0 (before ++ .word id target :: after)).drop
        (itemBytes before).length).take 4 =
      (id.link labels (itemBytes before).length target).bytes := by
  rw [linkedBytes_append, List.drop_left' (linkedBytes_length labels 0 before), linkedBytes,
    Nat.zero_add]
  rfl

/-- In a text within the limits of the assembler that defines the labels it refers to, every
condition that holds is printed. Only a line whose mnemonic is unknown or has a format that is
not handled is as if it were absent; every other instruction adds the word of the operands that
were read, with the low byte of the distance to its label, whatever was printed about it. -/
theorem diagnosed_lines (input : List UInt8) {state : AsmState}
    (assembled : asmAssemble (.start input) = .ok state) (defined : state.Defined) :
    ∃ fixed, asmFixup state = .ok fixed ∧ asmMain input = .ok fixed.out ∧
      fixed.stderr = state.stderr ++ state.fixups.flatMap (asmFixupErrors state.labels) ∧
      ∀ before line after mem texts op printed, asmLines input = before ++ line :: after →
        asmCutLine line = .instruction mem texts → asmReadOperands texts = .ok (op, printed) →
        ∃ middle next, before.foldlM asmReadLine (.start input) = .ok middle ∧
          asmReadLine middle line = .ok next ∧
          next.stderr = middle.stderr ++ (printed ++ (asmInstructionItems mem op).2) ∧
          (¬ IsHandled mem →
            next = middle.print (printed ++ (asmInstructionItems mem op).2)) ∧
          ∀ entry ∈ xmInstTable, ascii entry.name = mem → asmEncodes entry.format = true →
            (asmInstructionItems mem op).2 = asmOperandErrors entry.format op ∧
            ∃ id : InstBytes, asmBytes entry op = some id.bytes ∧ next.out = middle.out ++ id.bytes ∧
              (fixed.out.drop middle.out.length).take 4 =
                (id.link state.labels middle.out.length (asmTarget entry.format op)).bytes := by
  obtain ⟨items, lines, read, holds⟩ := assemble_holds assembled
  have links := holds.defined defined
  obtain ⟨fixed, run, out⟩ := asmFixup_holds holds links
  refine ⟨fixed, run, ?_, fixups_print run, ?_⟩
  · rw [asmMain_holds assembled holds links, out]
  · intro before line after mem texts op printed split cut operands
    have whole : (before ++ [line] ++ after).foldlM asmReadLine (.start input) = .ok state := by
      rw [List.append_assoc, List.singleton_append, ← split]
      exact assembled
    -- the states before and behind the line, from the run over the whole text
    obtain ⟨next, upTo⟩ := readLines_prefix whole
    obtain ⟨middle, reached⟩ := readLines_prefix upTo
    rw [List.foldlM_append, reached] at upTo
    have step : asmReadLine middle line = .ok next := by
      cases result : asmReadLine middle line with
      | error why =>
          simp [bind, Except.bind, result] at upTo
      | ok other =>
          simpa [bind, Except.bind, result, pure, Except.pure] using upTo
    have same := readLine_instruction cut operands step
    refine ⟨middle, next, reached, step, ?_, ?_, ?_⟩
    · rw [same, addAll_stderr]
      rfl
    · intro unhandled
      rw [same, items_unhandled unhandled]
      rfl
    · rintro entry member rfl encodes
      obtain ⟨id, bytes, added⟩ := items_handled member encodes op
      rw [added] at same ⊢
      refine ⟨rfl, id, bytes, by rw [same]; rfl, ?_⟩
      rw [split] at read
      obtain ⟨done, _, here, _, rest, _, reads, word, _, rfl⟩ := asmItems_split read
      obtain ⟨others, _, again, _, stands⟩ := readLines_holds reached
      rw [reads] at again
      cases again
      rw [cut, AsmLine.items, operands] at word
      simp only [bind, Except.bind, added] at word
      cases word
      rw [out, stands.out]
      exact linkedBytes_place _ _ _ _ _

def wrongText : List UInt8 := ascii "add 1,$r2,3\n"

def wrongState : AsmState where
  input := wrongText
  out := [0, 0x21, 3, 0x80]
  labels := []
  fixups := []
  pc := 4
  stderr := [asmErrorLine (ascii "op[0].type != OP_REG ")]

theorem wrongText_diagnosed :
    ∃ middle next, asmReadLine middle wrongText = .ok next ∧
      next.stderr = middle.stderr ++ [asmErrorLine (ascii "op[0].type != OP_REG ")] ∧
      next.out = middle.out ++ [0, 0x21, 3, 0x80] := by
  have defined : wrongState.Defined := fun fixup member => absurd member List.not_mem_nil
  obtain ⟨fixed, _, _, _, lines⟩ := diagnosed_lines wrongText
    (show asmAssemble (.start wrongText) = .ok wrongState from rfl) defined
  have member : .elem .add "add" .r4r4i8o8Ifhbs 0x00 ∈ xmInstTable := by decide +kernel
  obtain ⟨middle, next, _, step, printed, _, words⟩ := lines [] wrongText [] (ascii "add")
    [ascii "1", ascii "$r2", ascii "3"] _ [] rfl rfl rfl
  obtain ⟨_, id, bytes, out, _⟩ := words _ member rfl rfl
  exact ⟨middle, next, step, printed, out.trans (congrArg _ (Option.some.inj bytes).symm)⟩

/-- The word of the line is written although its first operand is no register. -/
theorem diagnosed_line_yields_word :
    ¬ ∀ (input : List UInt8) (before after : List (List UInt8)) (line : List UInt8)
      (middle next : AsmState), asmLines input = before ++ line :: after →
      before.foldlM asmReadLine (.start input) = .ok middle →
      asmReadLine middle line = .ok next → next.stderr ≠ middle.stderr →
      next.out = middle.out := by
  intro always
  have silent := always wrongText [] [] wrongText (.start wrongText) wrongState rfl rfl rfl
    (List.cons_ne_nil _ _)
  cases silent

end Estros
