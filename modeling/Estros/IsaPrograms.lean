import Estros.IsaActions
import Estros.Runs

/-!
A source text as a program: its labels and instructions, and the machine that runs them as they
are written. The simulator, on what the assembler makes of the text, goes through the same states.
-/

namespace Estros

inductive AsmStatement where
  | label (name : List UInt8)
  | inst (entry : XmInstTableEntry) (op : AsmOperands)

/-- An instruction that is unknown or has no encoding leaves nothing behind. -/
def AsmLine.statement : AsmLine → Option AsmStatement
  | .blank => none
  | .label name => some (.label name)
  | .instruction mem texts =>
      match asmReadOperands texts, xmInstTable.find? fun entry => ascii entry.name = mem with
      | .ok (op, _), some entry => if asmEncodes entry.format then some (.inst entry op) else none
      | _, _ => none

def asmListing (lines : List (List UInt8)) : List AsmStatement :=
  lines.filterMap fun line => (asmCutLine line).statement

def listingLabels (offset : Nat) : List AsmStatement → List AsmLabel
  | [] => []
  | .label name :: rest => ⟨name, BitVec.ofNat 32 offset⟩ :: listingLabels offset rest
  | .inst _ _ :: rest => listingLabels (offset + 4) rest

def listingCode : List AsmStatement → List (XmInstTableEntry × AsmOperands)
  | [] => []
  | .label _ :: rest => listingCode rest
  | .inst entry op :: rest => (entry, op) :: listingCode rest

theorem listingCode_append (listing others : List AsmStatement) :
    listingCode (listing ++ others) = listingCode listing ++ listingCode others := by
  induction listing with
  | nil => rfl
  | cons statement rest ih =>
      cases statement with
      | label name => exact ih
      | inst entry op => exact congrArg ((entry, op) :: ·) ih

theorem listingLabels_append (offset : Nat) (listing others : List AsmStatement) :
    listingLabels offset (listing ++ others) =
      listingLabels offset listing ++
        listingLabels (offset + 4 * (listingCode listing).length) others := by
  induction listing generalizing offset with
  | nil => rfl
  | cons statement rest ih =>
      cases statement with
      | label name => exact congrArg (_ :: ·) (ih offset)
      | inst entry op =>
          have place : offset + 4 + 4 * (listingCode rest).length =
              offset + 4 * ((listingCode rest).length + 1) := by omega
          exact (ih (offset + 4)).trans (place ▸ rfl)

inductive Assembles : AsmStatement → AsmItem → Prop where
  | label (name : List UInt8) : Assembles (.label name) (.label name)
  | inst {entry : XmInstTableEntry} {op : AsmOperands} {id : InstBytes}
      (listed : entry ∈ xmInstTable) (encodes : asmEncodes entry.format = true)
      (bytes : asmBytes entry op = some id.bytes) :
      Assembles (.inst entry op) (.word id (asmTarget entry.format op))

theorem line_assembles {line : AsmLine} {items : List AsmItem} {printed : List (List UInt8)}
    (read : line.items = .ok (items, printed)) :
    List.Forall₂ Assembles line.statement.toList items := by
  cases line with
  | blank =>
      cases read
      exact .nil
  | label name =>
      rw [AsmLine.items] at read
      split at read
      · cases read
        exact .cons (.label name) .nil
      · cases read
  | instruction mem texts =>
      rw [AsmLine.items] at read
      cases operands : asmReadOperands texts with
      | error why =>
          rw [operands] at read
          cases read
      | ok parsed =>
          obtain ⟨op, lines⟩ := parsed
          rw [operands] at read
          cases found : xmInstTable.find? fun entry => ascii entry.name = mem with
          | none =>
              simp only [bind, Except.bind, asmInstructionItems, found] at read
              cases read
              simp only [AsmLine.statement, operands, found]
              exact .nil
          | some entry =>
              have listed := List.mem_of_find?_eq_some found
              rcases asmBytes_cases entry op with ⟨encodes, word, bytes⟩ | ⟨other, bytes⟩
              · simp only [bind, Except.bind, asmInstructionItems, found, bytes, Option.bind_some,
                  InstBytes.ofBytes_bytes] at read
                cases read
                simp only [AsmLine.statement, operands, found, encodes, if_true]
                exact .cons (.inst listed encodes bytes) .nil
              · simp only [bind, Except.bind, asmInstructionItems, found, bytes,
                  Option.bind_none] at read
                cases read
                simp only [AsmLine.statement, operands, found, other, Bool.false_eq_true, if_false]
                exact .nil

theorem listing_assembles {lines : List (List UInt8)} {items : List AsmItem}
    {printed : List (List UInt8)} (read : asmItems lines = .ok (items, printed)) :
    List.Forall₂ Assembles (asmListing lines) items := by
  induction lines generalizing items printed with
  | nil =>
      cases read
      exact .nil
  | cons line rest ih =>
      obtain ⟨_, here, _, behind, _, first, second, rfl, rfl⟩ := asmItems_cons.mp read
      have head := line_assembles first
      have whole : asmListing (line :: rest) =
          (asmCutLine line).statement.toList ++ asmListing rest := by
        rw [asmListing, List.filterMap_cons]
        cases (asmCutLine line).statement <;> rfl
      rw [whole]
      exact List.rel_append head (ih second)

section Assembled

variable {listing : List AsmStatement} {items : List AsmItem}

theorem labels_assembled (each : List.Forall₂ Assembles listing items) (offset : Nat) :
    labelTable offset items = listingLabels offset listing := by
  induction each generalizing offset with
  | nil => rfl
  | cons first _ ih =>
      cases first with
      | label name => exact congrArg (_ :: ·) (ih offset)
      | inst => exact ih (offset + 4)

theorem bytes_assembled (each : List.Forall₂ Assembles listing items) :
    (itemBytes items).length = 4 * (listingCode listing).length := by
  induction each with
  | nil => rfl
  | cons first _ ih =>
      cases first with
      | label name => exact ih
      | inst =>
          rw [itemBytes, listingCode, List.length_append, ih, List.length_cons]
          change 4 + _ = _
          omega

theorem word_assembled (each : List.Forall₂ Assembles listing items) {k : Nat}
    {entry : XmInstTableEntry} {op : AsmOperands}
    (here : (listingCode listing)[k]? = some (entry, op)) :
    ∃ before id after, items = before ++ .word id (asmTarget entry.format op) :: after ∧
      (itemBytes before).length = 4 * k ∧ entry ∈ xmInstTable ∧
      asmEncodes entry.format = true ∧ asmBytes entry op = some id.bytes := by
  induction each generalizing k with
  | nil => cases here
  | @cons statement item rest others first _ ih =>
      cases first with
      | label name =>
          obtain ⟨before, id, after, rfl, length, facts⟩ := ih here
          exact ⟨.label name :: before, id, after, rfl, length, facts⟩
      | @inst head operands id listed encodes bytes =>
          rw [listingCode] at here
          cases k with
          | zero =>
              cases here
              exact ⟨[], id, others, rfl, rfl, listed, encodes, bytes⟩
          | succ k =>
              obtain ⟨before, word, after, rfl, length, facts⟩ := ih here
              refine ⟨.word id _ :: before, word, after, rfl, ?_, facts⟩
              rw [itemBytes, List.length_append, length]
              change 4 + _ = _
              omega

end Assembled

/-! ### Programs -/

structure AsmProgram where
  labels : List AsmLabel
  code : List (XmInstTableEntry × AsmOperands)

def AsmProgram.ofText (input : List UInt8) : AsmProgram where
  labels := listingLabels 0 (asmListing (asmLines input))
  code := listingCode (asmListing (asmLines input))

/-- How far behind the start of the ROM an address is. -/
def romOffset (pc : Word) : Nat := (pc - simRomBase).toNat

/-- One step of a program as it is written. Behind its last instruction there is `halt`, up to the
end of the ROM; at other places between its instructions and outside of the ROM it has no step. -/
def AsmProgram.step (fpu : FloatUnit) (fuel : Nat) (program : AsmProgram) (sim : SimState) :
    Option CpuResult :=
  let ticked := { sim with ticks := sim.ticks + 1 }
  let offset := romOffset sim.pc
  if offset < 4 * program.code.length then
    if offset % 4 = 0 then
      program.code[offset / 4]?.map fun inst =>
        inst.1.perform fpu fuel program.labels inst.2 ticked
    else none
  else if offset + 3 < simRomSize then some (.ok (.halt, ticked))
  else none

/-- Each instruction has an opcode of its own, and its label is in reach. -/
def AsmProgram.Executable (program : AsmProgram) : Prop :=
  ∀ (k : Nat) (entry : XmInstTableEntry) (op : AsmOperands),
    program.code[k]? = some (entry, op) →
      opcodeFree entry = true ∧ op.InReach entry program.labels (4 * k)

instance (entry : XmInstTableEntry) (op : AsmOperands) : Decidable (RefersToLabel entry op) :=
  inferInstanceAs (Decidable (entry.format = .r4u4ra8o8 ∧ op.second.type = .label))

instance (op : AsmOperands) (entry : XmInstTableEntry) (labels : List AsmLabel) (offset : Nat) :
    Decidable (op.InReach entry labels offset) :=
  decidable_of_iff (RefersToLabel entry op → (findLabel labels op.second.name).any fun label =>
      -128 ≤ (label.pc.toNat : Int) - offset ∧ (label.pc.toNat : Int) - offset ≤ 127)
    (imp_congr_right fun _ => by simp [Option.any_eq_true])

instance (program : AsmProgram) : Decidable program.Executable :=
  decidable_of_iff (∀ k : Fin program.code.length, opcodeFree program.code[k].1 = true ∧
      program.code[k].2.InReach program.code[k].1 program.labels (4 * k.val))
    ⟨fun all k entry op here => by
      obtain ⟨inside, same⟩ := List.getElem?_eq_some_iff.mp here
      have holds := all ⟨k, inside⟩
      simp only [Fin.getElem_fin, same] at holds
      exact holds,
    fun all k => all k.val _ _ (List.getElem?_eq_getElem k.isLt)⟩

def RomHolds (file : List UInt8) (mem : Memory) : Prop := ∃ other, mem = simLoadRom file other

def KeepsRom (before after : Memory) : Prop := ∀ offset, after (.rom offset) = before (.rom offset)

theorem RomHolds.kept {file : List UInt8} {before after : Memory} (holds : RomHolds file before)
    (keeps : KeepsRom before after) : RomHolds file after := by
  obtain ⟨other, rfl⟩ := holds
  refine ⟨after, funext fun cell => ?_⟩
  cases cell with
  | rom offset => exact keeps offset
  | ram offset => rfl
  | trapPage offset => rfl

theorem romOffset_pc (pc : Word) : pc = simRomBase + BitVec.ofNat 32 (romOffset pc) := by
  rw [romOffset, BitVec.ofNat_toNat, BitVec.setWidth_eq, BitVec.add_comm, BitVec.sub_add_cancel]

theorem romOffset_add {offset : Nat} (inside : offset < simRomSize) :
    romOffset (simRomBase + BitVec.ofNat 32 offset) = offset := by
  have bound : offset < 131072 := inside
  rw [romOffset, BitVec.add_comm, BitVec.add_sub_cancel, BitVec.toNat_ofNat]
  omega

theorem program_step (fpu : FloatUnit) (fuel : Nat) {program : AsmProgram}
    (fits : 4 * program.code.length ≤ simRomSize) {sim : SimState} {k : Nat}
    (pc : sim.pc = simRomBase + BitVec.ofNat 32 (4 * k)) {entry : XmInstTableEntry}
    {op : AsmOperands} (here : program.code[k]? = some (entry, op)) :
    program.step fpu fuel sim = some
      (entry.perform fpu fuel program.labels op { sim with ticks := sim.ticks + 1 }) := by
  obtain ⟨inside, _⟩ := List.getElem?_eq_some_iff.mp here
  have offset : romOffset sim.pc = 4 * k := by
    rw [pc]
    exact romOffset_add (by omega)
  have index : 4 * k / 4 = k := Nat.mul_div_cancel_left k (by decide)
  rw [AsmProgram.step, offset]
  simp only [if_pos (show 4 * k < 4 * program.code.length by omega),
    if_pos (Nat.mul_mod_right 4 k), index, here, Option.map_some]

structure AsmProgram.InFile (program : AsmProgram) (file : List UInt8) : Prop where
  size : file.length = 4 * program.code.length
  word : ∀ (k : Nat) (entry : XmInstTableEntry) (op : AsmOperands),
    program.code[k]? = some (entry, op) → entry ∈ xmInstTable ∧
    asmEncodes entry.format = true ∧ ∃ id : InstBytes, asmBytes entry op = some id.bytes ∧
      ∀ i < 4, file.getD (4 * k + i) 0xff =
        (id.link program.labels (4 * k) (asmTarget entry.format op)).bytes.getD i 0xff

theorem fetch_file {file : List UInt8} {sim : SimState} {offset : Nat} {id : InstBytes}
    (loaded : RomHolds file sim.mem) (pc : sim.pc = simRomBase + BitVec.ofNat 32 offset)
    (inside : offset + 3 < simRomSize)
    (bytes : ∀ i < 4, file.getD (offset + i) 0xff = id.bytes.getD i 0xff) : cpuFetch sim = id := by
  obtain ⟨other, memory⟩ := loaded
  have first := bytes 0 (by decide)
  rw [Nat.add_zero] at first
  rw [cpuFetch_rom memory pc inside, first, bytes 1 (by decide), bytes 2 (by decide),
    bytes 3 (by decide)]
  rfl

variable {fpu : FloatUnit} {fuel : Nat} {program : AsmProgram} {file : List UInt8}

theorem step_behind {sim : SimState} (written : program.InFile file)
    (loaded : RomHolds file sim.mem) (behind : 4 * program.code.length ≤ romOffset sim.pc)
    (inside : romOffset sim.pc + 3 < simRomSize) :
    cpuStep fpu fuel sim = .ok (.halt, { sim with ticks := sim.ticks + 1 }) := by
  have fetched : cpuFetch sim = ⟨0xff, 0xff, 0xff, 0xff⟩ := by
    refine fetch_file loaded (romOffset_pc sim.pc) inside fun i small => ?_
    rw [List.getD_eq_default _ _ (by rw [written.size]; omega)]
    have place : i = 0 ∨ i = 1 ∨ i = 2 ∨ i = 3 := by omega
    rcases place with rfl | rfl | rfl | rfl <;> rfl
  have found : cpuFindInst ⟨0xff, 0xff, 0xff, 0xff⟩ = some (.elem .halt "halt" .d8 0x0f) := rfl
  exact cpuStep_found fetched found

theorem step_agrees (written : program.InFile file) (executable : program.Executable)
    (fits : 4 * program.code.length ≤ simRomSize) {sim : SimState} (loaded : RomHolds file sim.mem)
    {result : CpuResult} (step : program.step fpu fuel sim = some result) :
    cpuStep fpu fuel sim = result := by
  simp only [AsmProgram.step] at step
  split at step
  · next before =>
    split at step
    · next aligned =>
      obtain ⟨⟨entry, op⟩, here, same⟩ := Option.map_eq_some_iff.mp step
      obtain ⟨free, reach⟩ := executable _ entry op here
      obtain ⟨listed, encodes, id, bytes, words⟩ := written.word _ entry op here
      have offset : 4 * (romOffset sim.pc / 4) = romOffset sim.pc := by omega
      rw [offset] at reach words
      have pc := romOffset_pc sim.pc
      have fetched := fetch_file loaded pc (by omega) words
      exact (word_performs listed encodes free bytes reach pc fetched).trans same
    · cases step
  · split at step
    · next behind inside =>
      cases step
      exact step_behind written loaded (Nat.not_lt.mp behind) inside
    · cases step

/-- One step of the program that goes on and leaves the ROM alone. -/
def AsmProgram.Continues (fpu : FloatUnit) (fuel : Nat) (program : AsmProgram)
    (sim next : SimState) : Prop :=
  program.step fpu fuel sim = some (.ok (.continue, next)) ∧ KeepsRom sim.mem next.mem

def CpuContinues (fpu : FloatUnit) (fuel : Nat) (sim next : SimState) : Prop :=
  cpuStep fpu fuel sim = .ok (.continue, next)

theorem cpuRun_of_steps {count : Nat} {sim now : SimState}
    (run : Steps (CpuContinues fpu fuel) count sim now) :
    cpuRun fpu fuel count sim = .ok (.continue, now) := by
  induction run with
  | refl => rfl
  | next one _ ih =>
      rw [cpuRun, one]
      exact ih

/-- The simulator follows the program, in the same number of steps. -/
theorem run_agrees (written : program.InFile file) (executable : program.Executable)
    (fits : 4 * program.code.length ≤ simRomSize) {count : Nat} {sim now : SimState}
    (loaded : RomHolds file sim.mem) (run : Steps (program.Continues fpu fuel) count sim now) :
    Steps (CpuContinues fpu fuel) count sim now ∧ RomHolds file now.mem := by
  have follows : ∀ {before after reached : SimState},
      before = reached ∧ RomHolds file before.mem → program.Continues fpu fuel before after →
        ∃ next, CpuContinues fpu fuel reached next ∧ after = next ∧ RomHolds file after.mem := by
    rintro before after _ ⟨rfl, holds⟩ ⟨one, keeps⟩
    exact ⟨after, step_agrees written executable fits holds one, rfl, holds.kept keeps⟩
  obtain ⟨reached, also, rfl, holds⟩ := run.simulate
    (fun before reached => before = reached ∧ RomHolds file before.mem) follows ⟨rfl, loaded⟩
  exact ⟨also, holds⟩

/-! ### Assembled texts -/

theorem defined_of_executable {listing : List AsmStatement} {items : List AsmItem}
    (each : List.Forall₂ Assembles listing items)
    {labels : List AsmLabel} (executable : AsmProgram.Executable ⟨labels, listingCode listing⟩) :
    LabelsDefined labels items := by
  intro id name member
  have found : ∃ (k : Nat) (entry : XmInstTableEntry) (op : AsmOperands),
      (listingCode listing)[k]? = some (entry, op) ∧ asmTarget entry.format op = some name := by
    clear executable
    induction each with
    | nil => cases member
    | cons first _ ih =>
        cases first with
        | label other =>
            rcases List.mem_cons.mp member with same | later
            · cases same
            · exact ih later
        | @inst entry op word =>
            rcases List.mem_cons.mp member with same | later
            · obtain ⟨_, target⟩ := AsmItem.word.inj same
              exact ⟨0, entry, op, rfl, target.symm⟩
            · obtain ⟨k, entry, op, here, target⟩ := ih later
              exact ⟨k + 1, entry, op, here, target⟩
  obtain ⟨k, entry, op, here, target⟩ := found
  have refers := refers_of_target target.symm
  obtain ⟨label, defined, _⟩ := (executable k entry op here).2 refers
  rw [asmTarget_label refers] at target
  rw [← Option.some.inj target, defined]
  rfl

structure AsmProgram.Fits (program : AsmProgram) : Prop where
  out : 4 * program.code.length ≤ outMaxSize
  labels : program.labels.length * asmLabelSize ≤ listMaxSize
  fixups : (program.code.countP fun inst => (asmTarget inst.1.format inst.2).isSome) *
    asmFixupSize ≤ listMaxSize

theorem fitsAll_listing {listing : List AsmStatement} {items : List AsmItem}
    (each : List.Forall₂ Assembles listing items) {state : AsmState}
    (out : state.out.length + 4 * (listingCode listing).length ≤ outMaxSize) (offset : Nat)
    (labels : (state.labels.length + (listingLabels offset listing).length) * asmLabelSize ≤
      listMaxSize)
    (fixups : (state.fixups.length + (listingCode listing).countP fun inst =>
      (asmTarget inst.1.format inst.2).isSome) * asmFixupSize ≤ listMaxSize) :
    state.FitsAll items := by
  induction each generalizing state offset with
  | nil => trivial
  | cons first _ ih =>
      cases first with
      | label name =>
          rw [listingLabels, List.length_cons] at labels
          simp only [asmLabelSize, listMaxSize] at labels
          refine ⟨?_, ih out offset ?_ fixups⟩
          · simp only [AsmState.Fits, asmLabelSize, listMaxSize]
            omega
          · simp only [AsmState.add, List.length_append, List.length_singleton, asmLabelSize,
              listMaxSize]
            omega
      | @inst entry op id listed encodes bytes =>
          rw [listingCode, List.length_cons] at out
          rw [listingCode, List.countP_cons] at fixups
          simp only [asmFixupSize, listMaxSize] at fixups
          have length : (state.out ++ id.bytes).length = state.out.length + 4 := List.length_append
          refine ⟨⟨by omega, fun refers => ?_⟩, ih ?_ (offset + 4) labels ?_⟩
          · rw [if_pos refers] at fixups
            simp only [asmFixupSize, listMaxSize]
            omega
          · change (state.out ++ id.bytes).length + _ ≤ _
            omega
          · cases target : asmTarget entry.format op with
            | none =>
                simp only [target, Option.isSome_none, Bool.false_eq_true, if_false] at fixups
                simp only [AsmState.add, Option.map_none, Option.toList_none, List.append_nil,
                  asmFixupSize, listMaxSize]
                exact fixups
            | some name =>
                simp only [target, Option.isSome_some, if_true] at fixups
                simp only [AsmState.add, Option.map_some, Option.toList_some, List.length_append,
                  List.length_singleton, asmFixupSize, listMaxSize]
                omega

theorem text_assembled {input : List UInt8} {items : List AsmItem} {printed : List (List UInt8)}
    (read : asmItems (asmLines input) = .ok (items, printed))
    (fits : (AsmProgram.ofText input).Fits) : ∃ state, asmAssemble (.start input) = .ok state := by
  have room : (AsmState.start input).FitsAll items := by
    refine fitsAll_listing (listing_assembles read) ?_ 0 ?_ ?_
    · exact (Nat.zero_add _).symm ▸ fits.out
    · exact (Nat.zero_add _).symm ▸ fits.labels
    · exact (Nat.zero_add _).symm ▸ fits.fixups
  exact ⟨_, readLines_iff.mpr ⟨items, printed, read, room, rfl⟩⟩

theorem program_assembled {input : List UInt8} {state : AsmState}
    (assembled : asmAssemble (.start input) = .ok state)
    (executable : (AsmProgram.ofText input).Executable) :
    ∃ file, asmMain input = .ok file ∧ (AsmProgram.ofText input).InFile file := by
  obtain ⟨items, printed, read, holds⟩ := assemble_holds assembled
  have each := listing_assembles read
  have labels : state.labels = (AsmProgram.ofText input).labels :=
    holds.labels.trans (labels_assembled each 0)
  have defined := defined_of_executable each executable
  refine ⟨_, asmMain_holds assembled holds (labels ▸ defined), ?_, ?_⟩
  · rw [linkedBytes_length]
    exact bytes_assembled each
  · intro k entry op here
    obtain ⟨before, id, after, rfl, length, listed, encodes, bytes⟩ := word_assembled each here
    refine ⟨listed, encodes, id, bytes, fun i small => ?_⟩
    rw [← length, ← labels, linkedBytes_word small]

/-- The simulator runs an assembled text as it is written: it goes through the states of the
program, as long as the program does not write into the ROM, and then does what the program does. -/
theorem assembled_program_runs (fpu : FloatUnit) (fuel : Nat) (input : List UInt8)
    {state : AsmState} (assembled : asmAssemble (.start input) = .ok state)
    (executable : (AsmProgram.ofText input).Executable)
    (fits : 4 * (AsmProgram.ofText input).code.length ≤ simRomSize) :
    ∃ file, asmMain input = .ok file ∧ ∀ (sim now : SimState) (count : Nat),
      RomHolds file sim.mem →
      Steps ((AsmProgram.ofText input).Continues fpu fuel) count sim now →
      cpuRun fpu fuel count sim = .ok (.continue, now) ∧
        ∀ result, (AsmProgram.ofText input).step fpu fuel now = some result →
          cpuRun fpu fuel (count + 1) sim = result := by
  obtain ⟨file, main, written⟩ := program_assembled assembled executable
  refine ⟨file, main, fun sim now count loaded run => ?_⟩
  obtain ⟨steps, holds⟩ := run_agrees written executable fits loaded run
  have reached := cpuRun_of_steps steps
  refine ⟨reached, fun result step => ?_⟩
  exact (cpuRun_step reached).trans (step_agrees written executable fits holds step)

theorem loopText_program : AsmProgram.ofText loopText =
    ⟨[⟨ascii "x", 0⟩], [(.elem .b "b" .r4u4ra8o8 0x51, loopOperands)]⟩ := rfl

theorem loopText_round {sim : SimState} (pc : sim.pc = simRomBase) :
    ∃ after, (AsmProgram.ofText loopText).Continues noFloats 0 sim after ∧
      after.pc = simRomBase := by
  have fits : 4 * (AsmProgram.ofText loopText).code.length ≤ simRomSize := by decide
  have code : (AsmProgram.ofText loopText).code[0]? =
      some (.elem .b "b" .r4u4ra8o8 0x51, loopOperands) := by
    rw [loopText_program]
    rfl
  refine ⟨_, ⟨program_step noFloats 0 fits pc code, fun _ => rfl⟩, ?_⟩
  rw [loopText_program]
  change sim.pc + (simRomBase + 0 - sim.pc) = simRomBase
  rw [pc]
  rfl

theorem loop_program_runs : ∃ file, asmMain loopText = .ok file ∧
    ∀ (sim : SimState) (count : Nat), RomHolds file sim.mem → sim.pc = simRomBase →
      ∃ now, cpuRun noFloats 0 count sim = .ok (.continue, now) ∧ now.pc = simRomBase := by
  obtain ⟨file, main, runs⟩ := assembled_program_runs noFloats 0 loopText
    (show asmAssemble (.start loopText) = .ok loopState from rfl) (by decide) (by decide)
  refine ⟨file, main, fun sim count loaded pc => ?_⟩
  have round : ∀ {left : Nat} {state : SimState}, state.pc = simRomBase →
      ∃ after, Steps ((AsmProgram.ofText loopText).Continues noFloats 0) 1 state after ∧
        after.pc = simRomBase := by
    intro _ state here
    obtain ⟨after, one, there⟩ := loopText_round here
    exact ⟨after, .one one, there⟩
  obtain ⟨now, run, there⟩ := Steps.rounds
    (fun _ (state : SimState) => state.pc = simRomBase) (@round) count pc
  rw [Nat.mul_one] at run
  exact ⟨now, (runs sim now count loaded run).1, there⟩

def XmAction.writes : XmAction → Bool
  | .store _ => true
  | _ => false

def XmBlockAction.writes : XmBlockAction → Bool
  | .move _ => true
  | _ => false

def XmInst.writesMemory (inst : XmInst) : Bool :=
  inst.action.any XmAction.writes || inst.blockAction.any XmBlockAction.writes

theorem action_mem {action : XmAction} (reads : action.writes = false) {sim after : SimState}
    {ds : CpuDecodeR4x2i8Ifhbs} {cer : CpuExecuteResult}
    (done : action.run sim ds = .ok (cer, after)) : after.mem = sim.mem := by
  cases action with
  | compute value =>
      simp only [XmAction.run] at done
      split at done
      · cases done
        rfl
      · cases done
  | store write => cases reads
  | load read =>
      cases done
      rfl
  | compare keep =>
      cases keep <;>
        · cases done
          rfl

theorem blockAction_mem {action : XmBlockAction} (reads : action.writes = false)
    {sim after : SimState} {ds : CpuDecodeR4x4} {cer : CpuExecuteResult}
    (done : action.run fuel sim ds = .ok (cer, after)) : after.mem = sim.mem := by
  cases action with
  | move write => cases reads
  | find read flags =>
      cases flags <;>
        · cases done
          rfl
  | nothing =>
      cases done
      rfl
  | abort => cases done

theorem perform_mem {entry : XmInstTableEntry} (reads : entry.inst.writesMemory = false)
    {labels : List AsmLabel} {op : AsmOperands} {sim after : SimState} {cer : CpuExecuteResult}
    (done : entry.perform fpu fuel labels op sim = .ok (cer, after)) : after.mem = sim.mem := by
  obtain ⟨plain, block⟩ := Bool.or_eq_false_iff.mp reads
  unfold XmInstTableEntry.perform at done
  cases format : entry.format <;> simp only [format] at done
  case r4r4i8o8Ifhbs =>
    cases meant : entry.inst.action with
    | none =>
        rw [meant] at done
        cases done
    | some action =>
        rw [meant] at done plain
        exact action_mem plain done
  case r4r4r4r4 =>
    cases meant : entry.inst.blockAction with
    | none =>
        rw [meant] at done
        cases done
    | some action =>
        rw [meant] at done block
        exact blockAction_mem block done
  case r4u4ra8o8 =>
    split at done
    · unfold AsmOperands.call at done
      split at done
      · cases done
        rfl
      · cases done
    · cases done
      rfl
  all_goals
    cases done
    try rfl

theorem readOnly_continues {sim next : SimState}
    (reads : ∀ inst ∈ program.code, inst.1.inst.writesMemory = false)
    (step : program.step fpu fuel sim = some (.ok (.continue, next))) : next.mem = sim.mem := by
  simp only [AsmProgram.step] at step
  split at step
  · split at step
    · obtain ⟨inst, here, same⟩ := Option.map_eq_some_iff.mp step
      have kept := perform_mem (reads inst (List.mem_of_getElem? here)) same
      exact kept
    · cases step
  · split at step <;> cases step

/-- A program without instructions that write memory changes none, and the simulator goes through
the same states for as long as the program runs. -/
theorem readOnly_program_runs (fpu : FloatUnit) (fuel : Nat) (input : List UInt8)
    {state : AsmState} (assembled : asmAssemble (.start input) = .ok state)
    (executable : (AsmProgram.ofText input).Executable)
    (fits : 4 * (AsmProgram.ofText input).code.length ≤ simRomSize)
    (reads : ∀ inst ∈ (AsmProgram.ofText input).code, inst.1.inst.writesMemory = false) :
    ∃ file, asmMain input = .ok file ∧ ∀ (sim now : SimState) (count : Nat),
      RomHolds file sim.mem →
      Steps (fun before after => (AsmProgram.ofText input).step fpu fuel before =
        some (.ok (.continue, after))) count sim now →
      cpuRun fpu fuel count sim = .ok (.continue, now) ∧ now.mem = sim.mem := by
  obtain ⟨file, main, written⟩ := program_assembled assembled executable
  refine ⟨file, main, fun sim now count loaded run => ?_⟩
  have follows : ∀ {before after reached : SimState},
      before = reached ∧ before.mem = sim.mem →
        (AsmProgram.ofText input).step fpu fuel before = some (.ok (.continue, after)) →
        ∃ next, CpuContinues fpu fuel reached next ∧ after = next ∧ after.mem = sim.mem := by
    rintro before after _ ⟨rfl, same⟩ step
    have unchanged := (readOnly_continues reads step).trans same
    exact ⟨after, step_agrees written executable fits (same ▸ loaded) step, rfl, unchanged⟩
  obtain ⟨reached, also, rfl, memory⟩ := run.simulate
    (fun before reached => before = reached ∧ before.mem = sim.mem) follows ⟨rfl, rfl⟩
  exact ⟨cpuRun_of_steps also, memory⟩

theorem loop_reads_only : ∃ file, asmMain loopText = .ok file ∧
    ∀ sim, RomHolds file sim.mem → sim.pc = simRomBase →
      ∃ now, cpuRun noFloats 0 1 sim = .ok (.continue, now) ∧ now.mem = sim.mem := by
  obtain ⟨file, main, runs⟩ := readOnly_program_runs noFloats 0 loopText
    (show asmAssemble (.start loopText) = .ok loopState from rfl) (by decide) (by decide)
    (by rw [loopText_program]; decide)
  refine ⟨file, main, fun sim loaded pc => ?_⟩
  obtain ⟨now, one, _⟩ := loopText_round pc
  exact ⟨now, runs sim now 1 loaded (.one one.1)⟩

end Estros
