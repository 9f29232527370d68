import Estros.IsaExecution
import Estros.IsaLinking
import Estros.IsaMatching

/-!
Branches to labels: the second pass changes only their third bytes, and the simulator takes
them to where their labels stand.
-/

namespace Estros

/-- The place of a branch among the sixteen. -/
def XmInst.branchNumber : XmInst → Option Nat
  | .bz => some 0
  | .b => some 1
  | .bgzs => some 2
  | .bgpc => some 3
  | .bgpcrela => some 4
  | .bo => some 5
  | .bgoz => some 6
  | .bemax => some 7
  | .bet0 => some 8
  | .bet1 => some 9
  | .bet2 => some 10
  | .bet3 => some 11
  | .bet4 => some 12
  | .bet5 => some 13
  | .bet6 => some 14
  | .bet7 => some 15
  | _ => none

def XmInst.branchTest (inst : XmInst) (sim : SimState) (value target : Word) : Bool :=
  match inst with
  | .bz => value = 0
  | .b => true
  | .bgzs => 0 < value.toInt
  | .bgpc => sim.pc < value
  | .bgpcrela => target < value
  | .bo => value = 1
  | .bgoz => 1 < value.toInt
  | .bemax => value = 0xffffffff
  | .bet0 => value = sim.r ⟨xmAbiT0, by decide⟩
  | .bet1 => value = sim.r ⟨xmAbiT1, by decide⟩
  | .bet2 => value = sim.r ⟨xmAbiT2, by decide⟩
  | .bet3 => value = sim.r ⟨xmAbiT3, by decide⟩
  | .bet4 => value = sim.r ⟨xmAbiT4, by decide⟩
  | .bet5 => value = sim.r ⟨xmAbiT5, by decide⟩
  | .bet6 => value = sim.r ⟨xmAbiT6, by decide⟩
  | .bet7 => value = sim.r ⟨xmAbiT7, by decide⟩
  | _ => false

/-- The bits of a condition are its letters `!`, `n`, `z` and `c`; the first negates the whole. -/
def branchHolds (inst : XmInst) (sim : SimState) (value target : Word) (cc : Fin 16) : Bool :=
  let asked := inst.branchTest sim value target &&
    (!cc.val.testBit 1 || sim.flags &&& flagsBitN ≠ 0) &&
    (!cc.val.testBit 2 || sim.flags &&& flagsBitZ ≠ 0) &&
    (!cc.val.testBit 3 || sim.flags &&& flagsBitC ≠ 0)
  if cc.val.testBit 0 then !asked else asked

theorem condition_bits : ∀ cc : Fin 16,
    ((UInt8.ofNat cc.val &&& 0x01 ≠ 0) ↔ cc.val.testBit 0 = true) ∧
      ((UInt8.ofNat cc.val &&& 0x02 ≠ 0) ↔ cc.val.testBit 1 = true) ∧
      ((UInt8.ofNat cc.val &&& 0x04 ≠ 0) ↔ cc.val.testBit 2 = true) ∧
      ((UInt8.ofNat cc.val &&& 0x08 ≠ 0) ↔ cc.val.testBit 3 = true) := by
  decide

theorem cpuBranchCondition_eq (inst : XmInst) (sim : SimState) (value target : Word)
    (cc : Fin 16) :
    cpuBranchCondition sim.flags (UInt8.ofNat cc.val) (inst.branchTest sim value target) =
      branchHolds inst sim value target cc := by
  obtain ⟨negated, n, z, c⟩ := condition_bits cc
  simp only [cpuBranchCondition, branchHolds, negated, n, z, c]
  cases cc.val.testBit 1 <;> cases cc.val.testBit 2 <;> cases cc.val.testBit 3 <;> simp

theorem cpuBranchTaken_eq {inst : XmInst} {number : Nat}
    (branch : inst.branchNumber = some number) (sim : SimState) (ra : Fin 16) (rela : Word) :
    cpuBranchTaken sim ra rela number = inst.branchTest sim (sim.r ra) (sim.pc + rela) := by
  cases inst <;> cases branch <;> rfl

theorem cpuExec_branch {inst : XmInst} {number : Nat} (branch : inst.branchNumber = some number)
    (fpu : FloatUnit) (fuel : Nat) (sim : SimState) (id : InstBytes) :
    cpuExec fpu fuel inst sim id = cpuExecCommonB sim id := by
  cases inst <;> cases branch <;> rfl

theorem branch_opcodes : (xmInstTable.all fun entry => entry.inst.branchNumber.all fun number =>
    entry.format = .r4u4ra8o8 && number < 16 && toByte entry.op = UInt8.ofNat (0x50 + number) &&
      ((toByte entry.op - 0x50) &&& 0x0f).toNat = number) = true := by
  decide +kernel

theorem highNibble_byte (byte : UInt8) : byte >>> 4 = UInt8.ofNat (highNibble byte).val := by
  have bound := byte.toNat_lt
  have shifted : (byte >>> 4).toNat = byte.toNat / 16 := Nat.shiftRight_eq_div_pow byte.toNat 4
  rw [← UInt8.toNat_inj, shifted, highNibble_val, UInt8.toNat_ofNat']
  omega

theorem branch_step {entry : XmInstTableEntry} (member : entry ∈ xmInstTable) {number : Nat}
    (branch : entry.inst.branchNumber = some number) {sim : SimState} {id : InstBytes}
    (fetched : cpuFetch sim = id) (first : id.id0 = XmCb0.integer.code)
    (last : id.id3 = toByte entry.op) (fpu : FloatUnit) (fuel : Nat) :
    cpuStep fpu fuel sim = .ok (.continue, { sim with
      pc := sim.pc +
        if branchHolds entry.inst sim (sim.r (lowNibble id.id1)) (sim.pc + ofSignedByte id.id2)
          (highNibble id.id1) then ofSignedByte id.id2 else 4
      ticks := sim.ticks + 1 }) := by
  have checked := List.all_eq_true.mp branch_opcodes entry member
  rw [branch, Option.all_some] at checked
  simp only [Bool.and_eq_true, decide_eq_true_eq] at checked
  obtain ⟨⟨⟨format, _⟩, _⟩, digit⟩ := checked
  have encodes : asmEncodes entry.format = true := by rw [format]; rfl
  have class_ : id.id0 = (xmGetCb0FromFormat entry.format).code := by rw [format, first]; rfl
  have opcode : id.id3 ∈ opcodeBytes entry := by
    rw [last, opcodeBytes, format]
    exact List.mem_singleton.mpr rfl
  have free : opcodeFree entry = true := by
    rw [opcodeFree, format]
    cases inst : entry.inst <;> rw [inst] at branch <;> first | rfl | cases branch
  have found := (cpuFindInst_iff member encodes class_ opcode).mpr free
  rw [cpuStep_found fetched found, cpuExec_branch branch, cpuExecCommonB, last, digit,
    cpuBranchTaken_eq branch, highNibble_byte id.id1]
  exact congrArg (fun taken => Except.ok (CpuExecuteResult.continue, { sim with
    pc := sim.pc + if taken then ofSignedByte id.id2 else 4
    ticks := sim.ticks + 1 : SimState }))
    (cpuBranchCondition_eq entry.inst sim _ (sim.pc + ofSignedByte id.id2) (highNibble id.id1))

def AsmOperand.field (op : AsmOperand) : Fin 16 := ⟨op.i.toNat % 16, Nat.mod_lt _ (by decide)⟩

theorem lowNibble_pair (low high : BitVec 64) :
    (lowNibble (asmPair low high)).val = low.toNat % 16 := by
  rw [lowNibble_val, asmPair_toNat]
  omega

theorem highNibble_pair (low high : BitVec 64) :
    (highNibble (asmPair low high)).val = high.toNat % 16 := by
  rw [highNibble_val, asmPair_toNat]
  omega

theorem asmBytes_branch {entry : XmInstTableEntry} {op : AsmOperands} {id : InstBytes}
    (format : entry.format = .r4u4ra8o8) (bytes : asmBytes entry op = some id.bytes) :
    id.id0 = XmCb0.integer.code ∧ lowNibble id.id1 = (op 0).field ∧
      highNibble id.id1 = (op 2).field ∧ id.id3 = toByte entry.op := by
  rw [asmBytes, format] at bytes
  cases id
  cases bytes
  exact ⟨rfl, Fin.ext (lowNibble_pair (op 0).i (op 2).i),
    Fin.ext (highNibble_pair (op 0).i (op 2).i), rfl⟩

/-- The second pass changes only the third byte of words that refer to a label. -/
theorem linkedBytes_differs {labels : List AsmLabel} {items : List AsmItem} {offset i : Nat}
    (other : (linkedBytes labels offset items)[i]? ≠ (itemBytes items)[i]?) :
    ∃ before id name after, items = before ++ .word id (some name) :: after ∧
      i = (itemBytes before).length + 2 := by
  induction items generalizing offset i with
  | nil => exact absurd rfl other
  | cons item rest ih =>
      cases item with
      | label name =>
          obtain ⟨before, id, target, after, rfl, rfl⟩ := ih other
          exact ⟨.label name :: before, id, target, after, rfl, rfl⟩
      | word id target =>
          by_cases here : i < 4
          · cases target with
            | none =>
                refine absurd ?_ other
                rw [linkedBytes, itemBytes, List.getElem?_append_left here,
                  List.getElem?_append_left here]
                rfl
            | some name =>
                refine ⟨[], id, name, rest, rfl, ?_⟩
                by_contra elsewhere
                refine other ?_
                rw [linkedBytes, itemBytes, List.getElem?_append_left here,
                  List.getElem?_append_left here, InstBytes.link]
                have place : i = 0 ∨ i = 1 ∨ i = 3 := by
                  change i ≠ 0 + 2 at elsewhere
                  omega
                rcases place with rfl | rfl | rfl <;> split <;> rfl
          · have behind : 4 ≤ i := Nat.not_lt.mp here
            have later : (linkedBytes labels (offset + 4) rest)[i - 4]? ≠
                (itemBytes rest)[i - 4]? := by
              rw [linkedBytes, itemBytes, List.getElem?_append_right behind,
                List.getElem?_append_right behind] at other
              exact other
            obtain ⟨before, word, name, after, rfl, same⟩ := ih later
            refine ⟨.word id target :: before, word, name, after, rfl, ?_⟩
            have length : (itemBytes (.word id target :: before)).length =
                4 + (itemBytes before).length := List.length_append
            omega

theorem linkedBytes_word {labels : List AsmLabel} {before after : List AsmItem} {id : InstBytes}
    {target : Option (List UInt8)} {k : Nat} (small : k < 4) (filler : UInt8) :
    (linkedBytes labels 0 (before ++ .word id target :: after)).getD
        ((itemBytes before).length + k) filler =
      (id.link labels (itemBytes before).length target).bytes.getD k filler := by
  have length := linkedBytes_length labels 0 before
  rw [linkedBytes_append, List.getD_append_right _ _ _ _ (by omega), length,
    Nat.add_sub_cancel_left, linkedBytes, List.getD_append _ _ _ _ small, Nat.zero_add]

theorem fetch_word {labels : List AsmLabel} {before after : List AsmItem} {id : InstBytes}
    {target : Option (List UInt8)} {file : List UInt8} {mem : Memory} {sim : SimState}
    (written : file = linkedBytes labels 0 (before ++ .word id target :: after))
    (loaded : sim.mem = simLoadRom file mem)
    (pc : sim.pc = simRomBase + BitVec.ofNat 32 (itemBytes before).length)
    (inside : (itemBytes before).length + 3 < simRomSize) :
    cpuFetch sim = id.link labels (itemBytes before).length target := by
  have bytes : ∀ k < 4, file.getD ((itemBytes before).length + k) 0xff =
      (id.link labels (itemBytes before).length target).bytes.getD k 0xff := by
    intro k small
    rw [written, linkedBytes_word small]
  have first := bytes 0 (by decide)
  rw [Nat.add_zero] at first
  rw [cpuFetch_rom loaded pc inside, first, bytes 1 (by decide), bytes 2 (by decide),
    bytes 3 (by decide)]
  rfl

theorem ofSignedByte_ofInt {distance : Int} (low : -128 ≤ distance) (high : distance ≤ 127) :
    ofSignedByte (toByte (BitVec.ofInt 32 distance)) = BitVec.ofInt 32 distance := by
  have kept : ((BitVec.ofInt 32 distance).setWidth 8).toInt = distance := by
    rw [BitVec.toInt_setWidth, BitVec.toNat_ofInt, Int.bmod_def]
    split <;> omega
  change BitVec.ofInt 32 ((BitVec.ofInt 32 distance).setWidth 8).toInt = _
  rw [kept]

theorem sub_ofNat (label : Word) (offset : Nat) :
    label - BitVec.ofNat 32 offset = BitVec.ofInt 32 (label.toNat - offset) := by
  rw [Int.sub_eq_add_neg, BitVec.ofInt_add, BitVec.ofInt_neg, BitVec.ofInt_natCast,
    BitVec.ofInt_natCast, BitVec.ofNat_toNat, BitVec.setWidth_eq, BitVec.sub_eq_add_neg]

theorem distance_lands {label : AsmLabel} {offset : Nat}
    (low : -128 ≤ (label.pc.toNat : Int) - offset) (high : (label.pc.toNat : Int) - offset ≤ 127) :
    simRomBase + BitVec.ofNat 32 offset +
      ofSignedByte (toByte (label.pc - BitVec.ofNat 32 offset)) = simRomBase + label.pc := by
  rw [sub_ofNat, ofSignedByte_ofInt low high, ← sub_ofNat]
  generalize simRomBase = base
  bv_omega

theorem asmTarget_label {entry : XmInstTableEntry} {op : AsmOperands}
    (refers : RefersToLabel entry op) : asmTarget entry.format op = some (op 1).name := by
  rw [asmTarget, refers.1, refers.2]
  rfl

theorem refers_of_target {entry : XmInstTableEntry} {op : AsmOperands} {name : List UInt8}
    (target : some name = asmTarget entry.format op) : RefersToLabel entry op := by
  unfold asmTarget at target
  split at target
  · next both =>
      obtain ⟨format, label⟩ := Bool.and_eq_true_iff.mp both
      exact ⟨of_decide_eq_true format, of_decide_eq_true label⟩
  · cases target

theorem branch_lands {file : List UInt8}
    {before after : List AsmItem} {entry : XmInstTableEntry} {op : AsmOperands} {id : InstBytes}
    (member : entry ∈ xmInstTable) (refers : RefersToLabel entry op)
    (branch : entry.inst.branchNumber.isSome) (bytes : asmBytes entry op = some id.bytes)
    {label : AsmLabel} {labels : List AsmLabel}
    (found : findLabel labels (op 1).name = some label)
    (written : file = linkedBytes labels 0 (before ++ .word id (some (op 1).name) :: after))
    (inside : (itemBytes before).length + 3 < simRomSize)
    (low : -128 ≤ (label.pc.toNat : Int) - (itemBytes before).length)
    (high : (label.pc.toNat : Int) - (itemBytes before).length ≤ 127)
    {sim : SimState} {mem : Memory} (loaded : sim.mem = simLoadRom file mem)
    (pc : sim.pc = simRomBase + BitVec.ofNat 32 (itemBytes before).length)
    (fpu : FloatUnit) (fuel : Nat) :
    cpuStep fpu fuel sim = .ok (.continue, { sim with
      pc := if branchHolds entry.inst sim (sim.r (op 0).field) (simRomBase + label.pc) (op 2).field
        then simRomBase + label.pc else sim.pc + 4
      ticks := sim.ticks + 1 }) := by
  obtain ⟨number, numbered⟩ := Option.isSome_iff_exists.mp branch
  obtain ⟨class_, ra, cc, opcode⟩ := asmBytes_branch refers.1 bytes
  have fetched := fetch_word written loaded pc inside
  have linked : id.link labels (itemBytes before).length (some (op 1).name) =
      { id with id2 := toByte (label.pc - BitVec.ofNat 32 (itemBytes before).length) } := by
    rw [InstBytes.link, found]
  rw [linked] at fetched
  have step := branch_step member numbered fetched class_ opcode fpu fuel
  have target := distance_lands low high
  rw [← pc] at target
  rw [step]
  simp only [ra, cc, target]
  split <;> simp only [target]

/-- For a text within the limits of the assembler that defines the labels it refers to, the
second pass changes at most the third byte of the words that refer to a label. A branch among
them whose label is near enough goes there if its condition holds, else to the next word. -/
theorem branches_land (fpu : FloatUnit) (fuel : Nat) (input : List UInt8) {state : AsmState}
    (assembled : asmAssemble (.start input) = .ok state) (defined : state.Defined)
    (rom : state.out.length ≤ simRomSize) :
    ∃ fixed, asmFixup state = .ok fixed ∧ fixed.out.length = state.out.length ∧
      (∀ i, fixed.out[i]? ≠ state.out[i]? → ∃ before line after entry op middle,
        asmLines input = before ++ line :: after ∧ IsInstruction line entry op ∧
        RefersToLabel entry op ∧ before.foldlM asmReadLine (.start input) = .ok middle ∧
        i = middle.out.length + 2) ∧
      ∀ before line after entry op middle, asmLines input = before ++ line :: after →
        IsInstruction line entry op → RefersToLabel entry op → entry.inst.branchNumber.isSome →
        before.foldlM asmReadLine (.start input) = .ok middle →
        ∃ label, findLabel state.labels (op 1).name = some label ∧
          (-128 ≤ (label.pc.toNat : Int) - middle.out.length →
            (label.pc.toNat : Int) - middle.out.length ≤ 127 →
            ∀ (sim : SimState) (mem : Memory), sim.mem = simLoadRom fixed.out mem →
              sim.pc = simRomBase + BitVec.ofNat 32 middle.out.length →
              cpuStep fpu fuel sim = .ok (.continue, { sim with
                pc := if branchHolds entry.inst sim (sim.r (op 0).field)
                    (simRomBase + label.pc) (op 2).field
                  then simRomBase + label.pc else sim.pc + 4
                ticks := sim.ticks + 1 })) := by
  obtain ⟨items, printed, read, holds⟩ := assemble_holds assembled
  have links := holds.defined defined
  obtain ⟨fixed, run, out⟩ := asmFixup_holds holds links
  refine ⟨fixed, run, ?_, ?_, ?_⟩
  · rw [out, holds.out, linkedBytes_length]
  · -- a byte that differs lies in a word that an item with a target added
    intro i other
    rw [out, holds.out] at other
    obtain ⟨done, id, name, rest, rfl, rfl⟩ := linkedBytes_differs other
    obtain ⟨before, line, after, lines, complaints, split, reads, word⟩ := line_of_item read
    obtain ⟨entry, op, instruction, _, _, target, _⟩ :=
      instruction_of_word word List.mem_cons_self
    have whole : (before ++ line :: after).foldlM asmReadLine (.start input) = .ok state :=
      split ▸ assembled
    obtain ⟨middle, reached⟩ := readLines_prefix whole
    obtain ⟨others, _, same, _, stands⟩ := readLines_holds reached
    rw [reads] at same
    cases same
    exact ⟨before, line, after, entry, op, middle, split, instruction, refers_of_target target,
      reached, by rw [stands.out]⟩
  · intro before line after entry op middle split instruction refers branch reached
    rw [split] at read
    obtain ⟨done, _, here, _, rest, _, reads, word, _, rfl⟩ := asmItems_split read
    obtain ⟨others, _, same, _, stands⟩ := readLines_holds reached
    rw [reads] at same
    cases same
    have encodes : asmEncodes entry.format = true := by rw [refers.1]; rfl
    obtain ⟨id, _, bytes, added⟩ := instruction.word encodes
    rw [asmTarget_label refers, word] at added
    cases added
    -- the word stands behind those of the lines before it, at their length
    obtain ⟨label, found⟩ := Option.isSome_iff_exists.mp
      (links id (op 1).name (List.mem_append_right _ List.mem_cons_self))
    refine ⟨label, found, fun low high sim mem loaded pc => ?_⟩
    rw [stands.out] at low high pc
    have inside : (itemBytes done).length + 3 < simRomSize := by
      have length := congrArg List.length holds.out
      rw [itemBytes_append, List.length_append] at length
      have word : (itemBytes ([.word id (some (op 1).name)] ++ rest)).length =
          4 + (itemBytes rest).length := List.length_append
      omega
    exact branch_lands instruction.listed refers branch bytes found out inside low high loaded pc
      fpu fuel

def loopOperands : AsmOperands := fun k =>
  [asmRegister 0, ⟨.name (ascii "x"), .label⟩, ⟨.i 0, .cond⟩].getD k.val .zero

theorem loop_lands :
    ∃ fixed, asmFixup loopState = .ok fixed ∧
      ∀ (sim : SimState) (mem : Memory), sim.mem = simLoadRom fixed.out mem →
        sim.pc = simRomBase + BitVec.ofNat 32 0 →
        ∃ next, cpuStep noFloats 0 sim = .ok (.continue, next) ∧
          next.pc = simRomBase + BitVec.ofNat 32 0 := by
  have defined : ∀ fixup ∈ loopState.fixups, ∃ label ∈ loopState.labels,
      label.name = fixup.name := by decide
  obtain ⟨fixed, run, _, _, lands⟩ :=
    branches_land noFloats 0 loopText (show asmAssemble (.start loopText) = .ok loopState from rfl)
      defined (by decide)
  have member : .elem .b "b" .r4u4ra8o8 0x51 ∈ xmInstTable := by decide +kernel
  have instruction : IsInstruction (ascii "b $r0,x,?\n") (.elem .b "b" .r4u4ra8o8 0x51)
      loopOperands := ⟨member, [ascii "$r0", ascii "x", ascii "?"], [], rfl, rfl⟩
  obtain ⟨label, found, step⟩ := lands [ascii "x:\n"] _ [] _ _
    { AsmState.start loopText with labels := [⟨ascii "x", 0⟩] } rfl instruction ⟨rfl, rfl⟩ rfl rfl
  cases found
  refine ⟨fixed, run, fun sim mem loaded pc => ⟨_, step ?_ ?_ sim mem loaded pc, rfl⟩⟩
  · decide
  · decide

end Estros
