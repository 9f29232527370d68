import Mathlib.Data.List.GetD
import Mathlib.Data.List.Induction
import Estros.IsaMatching
import Estros.IsaStraightLine

/-!
Straight-line programs on the simulator: what the handlers compute on the bytes of an
instruction, what is in the ROM after a file was loaded, and the states that the simulator
goes through.
-/

namespace Estros

theorem and_bit_ne_zero (value : Word) {i : Nat} (small : i < 32) :
    value &&& (1#32 <<< i) ≠ 0 ↔ value.getLsbD i = true := by
  rw [← BitVec.twoPow_eq, BitVec.and_twoPow]
  cases value.getLsbD i with
  | false => simp
  | true =>
      have power : (BitVec.twoPow 32 i).toNat ≠ 0 := by
        rw [BitVec.toNat_twoPow_of_lt small]
        exact Nat.pos_iff_ne_zero.mp (Nat.two_pow_pos i)
      have nonzero : BitVec.twoPow 32 i ≠ 0 := fun zero => power (by rw [zero]; rfl)
      simpa using nonzero

theorem cpuIPopcount_eq (value : Word) : cpuIPopcount value = value.cpop := by
  have counted : ∀ rounds ≤ 32,
      Nat.fold rounds (fun i _ c => if value &&& (1#32 <<< i) ≠ 0 then c + 1 else c) 0 =
        BitVec.ofNat 32 (value.cpopNatRec rounds 0) := by
    intro rounds
    induction rounds with
    | zero => exact fun _ => rfl
    | succ i ih =>
        intro bound
        rw [Nat.fold_succ, ih (Nat.le_of_succ_le bound), BitVec.cpopNatRec_succ, Nat.zero_add,
          BitVec.cpopNatRec_eq (value.getLsbD i).toNat, BitVec.ofNat_add]
        cases bit : value.getLsbD i with
        | false =>
            have clear : ¬ value &&& (1#32 <<< i) ≠ 0 := by
              rw [and_bit_ne_zero value bound, bit]
              decide
            rw [if_neg clear]
            simp
        | true =>
            rw [if_pos ((and_bit_ne_zero value bound).mpr bit)]
            rfl
  exact counted 32 (Nat.le_refl 32)

theorem byte_field (value : Word) (shift : Nat) :
    (value >>> shift) &&& 0xff#32 = (value.extractLsb' shift 8).setWidth 32 := by
  apply BitVec.eq_of_getLsbD_eq
  intro i small
  have mask : (0xff#32).getLsbD i = decide (i < 8) := by
    rw [BitVec.getLsbD_ofNat, show 0xff = 2 ^ 8 - 1 from rfl, Nat.testBit_two_pow_sub_one,
      decide_eq_true small, Bool.true_and]
  rw [BitVec.getLsbD_and, BitVec.getLsbD_ushiftRight, mask, BitVec.getLsbD_setWidth,
    BitVec.getLsbD_extractLsb', decide_eq_true small, Bool.true_and, Bool.and_comm]

theorem cpuIBswap_eq (value : Word) : cpuIBswap value = byteReverse value := by
  unfold cpuIBswap byteReverse
  simp only [byte_field]
  generalize value.extractLsb' 0 8 = a
  generalize value.extractLsb' 8 8 = b
  generalize value.extractLsb' 16 8 = c
  generalize value.extractLsb' 24 8 = d
  apply BitVec.eq_of_getLsbD_eq
  intro i small
  simp only [BitVec.getLsbD_or, BitVec.getLsbD_shiftLeft, BitVec.getLsbD_append,
    BitVec.getLsbD_setWidth]
  -- the byte that the bit lies in
  rcases Nat.lt_or_ge i 8 with first | first
  · simp [first, small, show i < 16 by omega, show i < 24 by omega]
  · rcases Nat.lt_or_ge i 16 with second | second
    · simp (disch := omega) [second, small, Nat.not_lt.mpr first, show i - 8 < 8 by omega,
        show i < 24 by omega, show i - 8 < 32 by omega]
    · rcases Nat.lt_or_ge i 24 with third | third
      · have same : i - 8 - 8 = i - 16 := by omega
        simp (disch := omega) [small, Nat.not_lt.mpr first, Nat.not_lt.mpr second, third,
          show ¬ i - 8 < 8 by omega, show i - 16 < 8 by omega, show i - 16 < 32 by omega, same]
      · have same : i - 8 - 8 - 8 = i - 24 := by omega
        simp (disch := omega) [small, Nat.not_lt.mpr first, Nat.not_lt.mpr second,
          Nat.not_lt.mpr third, show ¬ i - 8 < 8 by omega, show ¬ i - 8 - 8 < 8 by omega,
          show i - 24 < 32 by omega, same]

theorem lowNibble_asmPair (low high : Fin 16) :
    lowNibble (asmPair (BitVec.ofNat 64 low.val) (BitVec.ofNat 64 high.val)) = low := by
  apply Fin.ext
  rw [lowNibble_val, asmPair_toNat, BitVec.toNat_ofNat, BitVec.toNat_ofNat]
  omega

theorem highNibble_asmPair (low high : Fin 16) :
    highNibble (asmPair (BitVec.ofNat 64 low.val) (BitVec.ofNat 64 high.val)) = high := by
  apply Fin.ext
  rw [highNibble_val, asmPair_toNat, BitVec.toNat_ofNat, BitVec.toNat_ofNat]
  omega

theorem ofByte_ofNat (value : Fin 256) :
    ofByte (UInt8.ofNat value.val) = BitVec.ofNat 32 value.val := by
  apply BitVec.eq_of_toNat_eq
  rw [ofByte_toNat, UInt8.toNat_ofNat', BitVec.toNat_ofNat]
  omega

theorem decode_straight (sim : SimState) (inst : StraightInst) :
    cpuDecodeR4x2i8Ifhbs sim inst.id =
      { addr := sim.r inst.ra + inst.source.offset sim.r, dp := inst.rd, a := sim.r inst.ra,
        b := inst.source.addend sim.r } := by
  have high : ∀ op : StraightOp, (toByte op.entry.op ||| 0x80) &&& 0x80 ≠ 0 := by
    intro op
    cases op <;> decide
  have low : ∀ op : StraightOp, ¬ toByte op.entry.op &&& 0x80 ≠ 0 := by
    intro op
    cases op <;> decide
  unfold cpuDecodeR4x2i8Ifhbs
  cases same : inst.source with
  | imm value =>
      simp only [StraightInst.id, same, if_pos (high inst.op), lowNibble_asmPair,
        highNibble_asmPair, ofByte_ofNat, StraightSource.offset, StraightSource.addend]
  | reg rb number =>
      simp only [StraightInst.id, same, if_neg (low inst.op), lowNibble_asmPair,
        highNibble_asmPair, StraightSource.offset, StraightSource.addend]

theorem found_straight (inst : StraightInst) : cpuFindInst inst.id = some inst.op.entry := by
  have encodes : asmEncodes inst.op.entry.format = true := by
    rw [entry_format]
    rfl
  have free : opcodeFree inst.op.entry = true := by cases inst.op <;> rfl
  have first : inst.id.id0 = (xmGetCb0FromFormat inst.op.entry.format).code := by
    rw [entry_format]
    rfl
  have last : inst.id.id3 ∈ opcodeBytes inst.op.entry := by
    rw [opcodeBytes, if_pos (entry_format inst.op)]
    unfold StraightInst.id
    cases inst.source <;> simp
  exact (cpuFindInst_iff (entry_mem inst.op) encodes first last).mpr free

def StraightInst.exec (inst : StraightInst) (sim : SimState) : SimState :=
  let result := inst.result sim.r
  let sim := sim.setR inst.rd result
  if inst.op = .lea then sim else sim.updateFlags result

theorem alu_straight (value : Word → Word → Word) (sim : SimState) (inst : StraightInst) :
    cpuExecAlu (fun a b => some (value a b)) sim inst.id =
      ((sim.setR inst.rd (value (sim.r inst.ra) (inst.source.addend sim.r))).updateFlags
        (value (sim.r inst.ra) (inst.source.addend sim.r))).next := by
  simp only [cpuExecAlu, decode_straight]

theorem exec_straight (fpu : FloatUnit) (fuel : Nat) (sim : SimState) (inst : StraightInst) :
    cpuExec fpu fuel inst.op.entry.inst sim inst.id = (inst.exec sim).next := by
  unfold StraightInst.exec StraightInst.result
  cases same : inst.op with
  | add => exact alu_straight (fun a b => a + b) sim inst
  | sub => exact alu_straight (fun a b => a - b) sim inst
  | mul => exact alu_straight (fun a b => a * b) sim inst
  | imul => exact alu_straight (fun a b => BitVec.ofInt 32 (a.toInt * b.toInt)) sim inst
  | and => exact alu_straight (fun a b => a &&& b) sim inst
  | xor => exact alu_straight (fun a b => a ^^^ b) sim inst
  | or => exact alu_straight (fun a b => a ||| b) sim inst
  | pcnt =>
      have handled := alu_straight (fun a b => cpuIPopcount (a + b)) sim inst
      rw [cpuIPopcount_eq] at handled
      exact handled
  | ipcnt =>
      have handled := alu_straight (fun a b => 32 - cpuIPopcount (a + b)) sim inst
      rw [cpuIPopcount_eq] at handled
      exact handled
  | bswap =>
      have handled := alu_straight (fun a b => cpuIBswap (a + b)) sim inst
      rw [cpuIBswap_eq] at handled
      exact handled
  | lea =>
      change cpuExecLoad (fun _ addr => addr) sim inst.id = _
      simp only [cpuExecLoad, decode_straight]
      rfl

theorem flag_bit (condition : Prop) [Decidable condition] (flag : Word) (i : Nat) :
    (if condition then flag else 0).getLsbD i = (decide condition && flag.getLsbD i) := by
  by_cases holds : condition <;> simp [holds]

theorem updateFlags_reflect (before : Word) (sim : SimState) (value : Word) :
    FlagsReflect before (sim.updateFlags value).flags (some value) := by
  have zero : flagsBitZ = 1#32 <<< 1 := by decide
  have negative : flagsBitN = 1#32 <<< 0 := by decide
  have cleared : (~~~(flagsBitZ ||| flagsBitN)).getLsbD 1 = false ∧
      (~~~(flagsBitZ ||| flagsBitN)).getLsbD 0 = false := by decide
  have bits : flagsBitZ.getLsbD 1 = true ∧ flagsBitZ.getLsbD 0 = false ∧
      flagsBitN.getLsbD 1 = false ∧ flagsBitN.getLsbD 0 = true := by decide
  constructor
  · rw [zero, and_bit_ne_zero _ (by decide)]
    simp only [SimState.updateFlags, BitVec.getLsbD_or, BitVec.getLsbD_and, cleared.1, flag_bit,
      bits.1, bits.2.2.1, Bool.and_false, Bool.false_or, Bool.or_false, Bool.and_true,
      decide_eq_true_eq]
  · rw [negative, and_bit_ne_zero _ (by decide)]
    simp only [SimState.updateFlags, BitVec.getLsbD_or, BitVec.getLsbD_and, cleared.2, flag_bit,
      bits.2.1, bits.2.2.2, Bool.and_false, Bool.false_or, Bool.and_true, decide_eq_true_eq]

theorem cpuTranslate_rom {offset : Nat} (inside : offset < simRomSize) :
    cpuTranslate (simRomBase + BitVec.ofNat 32 offset) = .rom ⟨offset, inside⟩ := by
  have bound : offset < 131072 := inside
  have base : simRomBase.toNat = 32768 := rfl
  have size : (BitVec.ofNat 32 simRomSize).toNat = 131072 := rfl
  have address : (simRomBase + BitVec.ofNat 32 offset).toNat = 32768 + offset := by
    rw [BitVec.toNat_add, BitVec.toNat_ofNat, base]
    omega
  have window : simRomBase ≤ simRomBase + BitVec.ofNat 32 offset ∧
      simRomBase + BitVec.ofNat 32 offset < simRomBase + BitVec.ofNat 32 simRomSize := by
    rw [BitVec.le_def, BitVec.lt_def, address, BitVec.toNat_add, base, size]
    omega
  have distance : (simRomBase + BitVec.ofNat 32 offset - simRomBase).toNat = offset := by
    rw [BitVec.add_comm, BitVec.add_sub_cancel, BitVec.toNat_ofNat]
    omega
  rw [cpuTranslate, if_pos window]
  apply congrArg Cell.rom
  apply Fin.ext
  change (simRomBase + BitVec.ofNat 32 offset - simRomBase).toNat % simRomSize = offset
  rw [distance, Nat.mod_eq_of_lt inside]

theorem cpuRead8_rom (file : List UInt8) (mem : Memory) {offset : Nat}
    (inside : offset < simRomSize) :
    cpuRead8 (simLoadRom file mem) (simRomBase + BitVec.ofNat 32 offset) =
      file.getD offset 0xff := by
  rw [cpuRead8, cpuTranslate_rom inside]
  rfl

theorem cpuFetch_rom {file : List UInt8} {mem : Memory} {sim : SimState} {offset : Nat}
    (loaded : sim.mem = simLoadRom file mem)
    (pc : sim.pc = simRomBase + BitVec.ofNat 32 offset) (inside : offset + 3 < simRomSize) :
    cpuFetch sim =
      ⟨file.getD offset 0xff, file.getD (offset + 1) 0xff, file.getD (offset + 2) 0xff,
        file.getD (offset + 3) 0xff⟩ := by
  have next : ∀ k, simRomBase + BitVec.ofNat 32 offset + BitVec.ofNat 32 k =
      simRomBase + BitVec.ofNat 32 (offset + k) := by
    intro k
    rw [BitVec.add_assoc, BitVec.ofNat_add]
  rw [cpuFetch, loaded, pc, cpuRead8_rom file mem (by omega)]
  change InstBytes.mk _ (cpuRead8 _ (_ + BitVec.ofNat 32 1)) (cpuRead8 _ (_ + BitVec.ofNat 32 2))
    (cpuRead8 _ (_ + BitVec.ofNat 32 3)) = _
  rw [next, next, next, cpuRead8_rom file mem (by omega), cpuRead8_rom file mem (by omega),
    cpuRead8_rom file mem inside]

theorem fetch_inst {mem : Memory} {sim : SimState} {done rest : List StraightInst}
    {inst : StraightInst} (loaded : sim.mem = simLoadRom (programBytes (done ++ inst :: rest)) mem)
    (pc : sim.pc = simRomBase + BitVec.ofNat 32 (4 * done.length))
    (inside : 4 * done.length + 3 < simRomSize) : cpuFetch sim = inst.id := by
  have bytes : programBytes (done ++ inst :: rest) =
      programBytes done ++ (inst.id.bytes ++ programBytes rest) := by
    simp [programBytes]
  have word : ∀ k < 4, (programBytes (done ++ inst :: rest)).getD (4 * done.length + k) 0xff =
      inst.id.bytes.getD k 0xff := by
    intro k small
    have length := programBytes_length done
    have start : 4 * done.length + k - (programBytes done).length = k := by omega
    rw [bytes, List.getD_append_right _ _ _ _ (by omega), start,
      List.getD_append _ _ _ _ small]
  rw [cpuFetch_rom loaded pc inside, word 1 (by decide), word 2 (by decide), word 3 (by decide)]
  have first := word 0 (by decide)
  rw [Nat.add_zero] at first
  rw [first]
  rfl

theorem fetch_filler {mem : Memory} {sim : SimState} {program : List StraightInst}
    (loaded : sim.mem = simLoadRom (programBytes program) mem)
    (pc : sim.pc = simRomBase + BitVec.ofNat 32 (4 * program.length))
    (inside : 4 * program.length + 3 < simRomSize) : cpuFetch sim = ⟨0xff, 0xff, 0xff, 0xff⟩ := by
  have behind : ∀ k, (programBytes program).getD (4 * program.length + k) 0xff = 0xff := by
    intro k
    apply List.getD_eq_default
    rw [programBytes_length]
    omega
  have first := behind 0
  rw [Nat.add_zero] at first
  rw [cpuFetch_rom loaded pc inside, behind 1, behind 2, behind 3, first]

/-! ### Runs -/

variable {fpu : FloatUnit} {fuel : Nat}

theorem cpuRun_step {count : Nat} {start now : SimState}
    (run : cpuRun fpu fuel count start = .ok (.continue, now)) :
    cpuRun fpu fuel (count + 1) start = cpuStep fpu fuel now := by
  induction count generalizing start with
  | zero =>
      cases run
      change (cpuStep fpu fuel now >>= _) = _
      cases result : cpuStep fpu fuel now with
      | error why => rfl
      | ok reached =>
          obtain ⟨cer, next⟩ := reached
          cases cer <;> rfl
  | succ count ih =>
      rw [cpuRun] at run ⊢
      cases result : cpuStep fpu fuel start with
      | error why =>
          rw [result] at run
          cases run
      | ok reached =>
          obtain ⟨cer, next⟩ := reached
          rw [result] at run
          cases cer with
          | «continue» => exact ih run
          | halt => cases run

structure Reached (start : SimState) (done : List StraightInst) (now : SimState) : Prop where
  pc : now.pc = simRomBase + BitVec.ofNat 32 (4 * done.length)
  mem : now.mem = start.mem
  r : now.r = (straightRun done start.r).r
  flags : FlagsReflect start.flags now.flags (straightRun done start.r).last

theorem straightRun_snoc (done : List StraightInst) (inst : StraightInst) (r : Fin 16 → Word) :
    straightRun (done ++ [inst]) r = inst.apply (straightRun done r) := by
  rw [straightRun, List.foldl_append]
  rfl

theorem exec_frame (inst : StraightInst) (sim : SimState) :
    (inst.exec sim).pc = sim.pc ∧ (inst.exec sim).mem = sim.mem ∧
      (inst.exec sim).r = Function.update sim.r inst.rd (inst.result sim.r) := by
  unfold StraightInst.exec
  by_cases lea : inst.op = .lea <;> simp [lea, SimState.setR, SimState.updateFlags]

theorem Reached.exec {start now : SimState} {done : List StraightInst}
    (reached : Reached start done now) (inst : StraightInst) :
    Reached start (done ++ [inst]) { inst.exec now with pc := now.pc + 4 } := by
  obtain ⟨_, mem, r⟩ := exec_frame inst now
  refine ⟨?_, mem.trans reached.mem, ?_, ?_⟩
  · change now.pc + BitVec.ofNat 32 4 = _
    rw [reached.pc, List.length_append, Nat.mul_add, BitVec.ofNat_add, BitVec.add_assoc]
    rfl
  · rw [straightRun_snoc, StraightInst.apply, ← reached.r]
    exact r
  · rw [straightRun_snoc, StraightInst.apply, ← reached.r]
    by_cases lea : inst.op = .lea
    · have kept : (inst.exec now).flags = now.flags := by
        simp [StraightInst.exec, lea, SimState.setR]
      rw [if_pos lea, kept]
      exact reached.flags
    · have updated : inst.exec now = (now.setR inst.rd (inst.result now.r)).updateFlags
          (inst.result now.r) := by simp [StraightInst.exec, lea]
      rw [if_neg lea, updated]
      exact updateFlags_reflect _ _ _

theorem Reached.step {start now : SimState} {mem : Memory} {done rest : List StraightInst}
    {inst : StraightInst} (reached : Reached start done now)
    (loaded : start.mem = simLoadRom (programBytes (done ++ inst :: rest)) mem)
    (inside : 4 * done.length + 3 < simRomSize) :
    ∃ next, cpuStep fpu fuel now = .ok (.continue, next) ∧ Reached start (done ++ [inst]) next := by
  let ticked : SimState := { now with ticks := now.ticks + 1 }
  have here : Reached start done ticked := ⟨reached.pc, reached.mem, reached.r, reached.flags⟩
  have fetched : cpuFetch now = inst.id :=
    fetch_inst (reached.mem.trans loaded) reached.pc inside
  refine ⟨_, ?_, here.exec inst⟩
  rw [cpuStep_found fetched (found_straight inst), exec_straight, SimState.next,
    (exec_frame inst ticked).1]

theorem Reached.halt {start now : SimState} {mem : Memory} {program : List StraightInst}
    (reached : Reached start program now)
    (loaded : start.mem = simLoadRom (programBytes program) mem)
    (inside : 4 * program.length + 3 < simRomSize) :
    ∃ last, cpuStep fpu fuel now = .ok (.halt, last) := by
  have fetched : cpuFetch now = ⟨0xff, 0xff, 0xff, 0xff⟩ :=
    fetch_filler (reached.mem.trans loaded) reached.pc inside
  have found : cpuFindInst ⟨0xff, 0xff, 0xff, 0xff⟩ = some (.elem .halt "halt" .d8 0x0f) := rfl
  exact ⟨_, cpuStep_found fetched found⟩

theorem run_reaches {start : SimState} {mem : Memory} {done rest : List StraightInst}
    (pc : start.pc = simRomBase)
    (loaded : start.mem = simLoadRom (programBytes (done ++ rest)) mem)
    (inside : 4 * done.length < simRomSize) :
    ∃ now, cpuRun fpu fuel done.length start = .ok (.continue, now) ∧ Reached start done now := by
  induction done using List.reverseRecOn generalizing rest with
  | nil =>
      refine ⟨start, rfl, ?_, rfl, rfl, rfl⟩
      rw [pc]
      rfl
  | append_singleton done inst ih =>
      rw [List.append_assoc] at loaded
      rw [List.length_append, List.length_singleton] at inside
      obtain ⟨now, run, reached⟩ := ih loaded (by omega)
      obtain ⟨next, step, further⟩ := reached.step loaded (by omega)
      refine ⟨next, ?_, further⟩
      rw [List.length_append, List.length_singleton, cpuRun_step run, step]

/-- A straight-line program that is assembled and loaded: in each of its steps the simulator
executes one instruction as it is meant, and behind the last one it halts. -/
theorem straight_line_runs (fpu : FloatUnit) (fuel : Nat) (closed : Bool)
    (program : List StraightInst) (short : program.length < 32768) (start : SimState)
    (pc : start.pc = simRomBase) :
    ∃ file, asmMain (programText closed program) = .ok file ∧
      let loaded := { start with mem := simLoadRom file start.mem }
      (∀ k ≤ program.length, ∃ now,
        cpuRun fpu fuel k loaded = .ok (.continue, now) ∧
        now.pc = simRomBase + BitVec.ofNat 32 (4 * k) ∧ now.mem = loaded.mem ∧
        now.r = (straightRun (program.take k) start.r).r ∧
        FlagsReflect start.flags now.flags (straightRun (program.take k) start.r).last) ∧
      ∃ last, cpuRun fpu fuel (program.length + 1) loaded = .ok (.halt, last) := by
  have size : simRomSize = 131072 := rfl
  have fits : 4 * program.length ≤ outMaxSize := by
    rw [outMaxSize]
    omega
  let loaded : SimState := { start with mem := simLoadRom (programBytes program) start.mem }
  -- the run lemma for the first `k` instructions, with the others behind them in the ROM
  have reaches : ∀ k ≤ program.length, ∃ now, cpuRun fpu fuel k loaded = .ok (.continue, now) ∧
      Reached loaded (program.take k) now := by
    intro k small
    have length : (program.take k).length = k := List.length_take_of_le small
    have rom : loaded.mem =
        simLoadRom (programBytes (program.take k ++ program.drop k)) start.mem := by
      rw [List.take_append_drop]
    have inside : 4 * (program.take k).length < simRomSize := by
      rw [length, size]
      omega
    have run :=
      @run_reaches fpu fuel loaded start.mem (program.take k) (program.drop k) pc rom inside
    rw [length] at run
    exact run
  refine ⟨programBytes program, asmMain_program closed fits, ?_, ?_⟩
  · intro k small
    obtain ⟨now, run, reached⟩ := reaches k small
    have place := reached.pc
    rw [List.length_take_of_le small] at place
    exact ⟨now, run, place, reached.mem, reached.r, reached.flags⟩
  · obtain ⟨now, run, reached⟩ := reaches program.length (Nat.le_refl _)
    rw [List.take_length] at reached
    have inside : 4 * program.length + 3 < simRomSize := by
      rw [size]
      omega
    obtain ⟨last, halted⟩ := @Reached.halt fpu fuel loaded now start.mem program reached rfl inside
    refine ⟨last, ?_⟩
    exact (cpuRun_step run).trans halted

def noFloats : FloatUnit where
  value _ _ _ _ := 0
  sum _ _ _ := 0
  toUint32 _ := none
  ofUint32 _ := 0

def clearedSim : SimState where
  pc := simRomBase
  flags := 0
  r _ := 0
  f _ := 0
  ticks := 0
  mem _ := 0

def sampleProgram : List StraightInst :=
  [⟨.add, ⟨1, by decide⟩, ⟨2, by decide⟩, .imm ⟨7, by decide⟩⟩,
    ⟨.lea, ⟨3, by decide⟩, ⟨1, by decide⟩, .reg ⟨1, by decide⟩ ⟨2, by decide⟩⟩]

theorem sample_runs : ∃ file now last, asmMain (programText true sampleProgram) = .ok file ∧
    cpuRun noFloats 0 2 { clearedSim with mem := simLoadRom file clearedSim.mem } =
      .ok (.continue, now) ∧
    now.r 3 = 63 ∧
    cpuRun noFloats 0 3 { clearedSim with mem := simLoadRom file clearedSim.mem } =
      .ok (.halt, last) := by
  obtain ⟨file, assembled, steps, last, halted⟩ :=
    straight_line_runs noFloats 0 true sampleProgram (by decide) clearedSim rfl
  obtain ⟨now, run, _, _, registers, _⟩ := steps 2 (by decide)
  have value : (straightRun (sampleProgram.take 2) clearedSim.r).r 3 = 63 := by decide
  exact ⟨file, now, last, assembled, run, (congrFun registers 3).trans value, halted⟩

end Estros
