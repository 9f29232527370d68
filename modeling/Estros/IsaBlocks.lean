import Estros.CellWrites
import Estros.IsaMemory

/-!
The instructions that copy and fill blocks of memory. `memcpy` and `memset` write exactly their
range. `memmov` copies from below where it has to copy from above, and the loop that copies from
above is off by one.
-/

namespace Estros

/-- The cell of the byte with the given index in a block. -/
def cellFrom (start : Word) (i : Nat) : Cell := cpuTranslate (start + BitVec.ofNat 32 i)

def CellsDistinct (start : Word) (count : Nat) : Prop :=
  ∀ i < count, ∀ j < count, cellFrom start i = cellFrom start j → i = j

def CellsApart (one two : Word) (count : Nat) : Prop :=
  ∀ i < count, ∀ j < count, cellFrom one i ≠ cellFrom two j

def SimState.blockDone (sim : SimState) (ds : CpuDecodeR4x4) (mem : Memory) : SimState :=
  { { sim with mem := mem }.setR ds.dp ds.a with pc := sim.pc + 4 }

structure BlockWritten (sim after : SimState) (ds : CpuDecodeR4x4) (count : Nat)
    (value : Nat → UInt8) : Prop where
  written : ∀ i < count, cpuRead8 after.mem (ds.a + BitVec.ofNat 32 i) = value i
  kept : ∀ cell, (∀ i < count, cellFrom ds.a i ≠ cell) → after.mem cell = sim.mem cell
  registers : ∀ k ≠ ds.dp, after.r k = sim.r k
  result : after.r ds.dp = ds.a
  floats : after.f = sim.f
  flags : after.flags = sim.flags
  pc : after.pc = sim.pc + 4

section Blocks

variable {sim : SimState} {ds : CpuDecodeR4x4} {count : Nat} {value : Nat → UInt8} {mem : Memory}

theorem blockDone_result (mem : Memory) : (sim.blockDone ds mem).r ds.dp = ds.a := by
  change Function.update sim.r ds.dp ds.a ds.dp = ds.a
  rw [Function.update_self]

theorem blockDone_written
    (written : ∀ i < count, mem (cellFrom ds.a i) = value i)
    (kept : ∀ cell, (∀ i < count, cellFrom ds.a i ≠ cell) → mem cell = sim.mem cell) :
    BlockWritten sim (sim.blockDone ds mem) ds count value where
  written := written
  kept := kept
  registers k other := by
    change Function.update sim.r ds.dp ds.a k = sim.r k
    rw [Function.update_of_ne other]
  result := blockDone_result mem
  floats := rfl
  flags := rfl
  pc := rfl

theorem copyRounds_written (distinct : CellsDistinct ds.a count)
    (apart : CellsApart ds.a ds.b count) :
    BlockWritten sim
      (sim.blockDone ds (copyRounds (cellFrom ds.a) (cellFrom ds.b) count sim.mem)) ds count
      fun i => cpuRead8 sim.mem (ds.b + BitVec.ofNat 32 i) := by
  refine blockDone_written (fun i below => ?_) fun cell other => writeRounds_other other
  exact copyRounds_apart distinct below fun j earlier =>
    apart j (Nat.lt_trans earlier below) i below

end Blocks

theorem cpuExecMemcpy_eq (sim : SimState) (id : InstBytes) :
    cpuExecMemcpy sim id = .ok (.continue, sim.blockDone (cpuDecodeR4x4 sim id)
      (copyRounds (cellFrom (cpuDecodeR4x4 sim id).a) (cellFrom (cpuDecodeR4x4 sim id).b)
        (cpuDecodeR4x4 sim id).c.toNat sim.mem)) := by
  rw [copyRounds, ← fold_eq_writeRounds]
  rfl

theorem cpuExecMemset_eq (sim : SimState) (id : InstBytes) :
    cpuExecMemset sim id = .ok (.continue, sim.blockDone (cpuDecodeR4x4 sim id)
      (writeRounds (cellFrom (cpuDecodeR4x4 sim id).a)
        (fun _ _ => toByte (cpuDecodeR4x4 sim id).b) (cpuDecodeR4x4 sim id).c.toNat sim.mem)) := by
  rw [← fold_eq_writeRounds]
  rfl

/-- `memset` writes its range if the cells of it are distinct, and so does `memcpy` if none of them
is a cell of the source. -/
theorem blocks_written (sim : SimState) (id : InstBytes)
    (distinct : CellsDistinct (cpuDecodeR4x4 sim id).a (cpuDecodeR4x4 sim id).c.toNat) :
    (∃ after, cpuExecMemset sim id = .ok (.continue, after) ∧
      BlockWritten sim after (cpuDecodeR4x4 sim id) (cpuDecodeR4x4 sim id).c.toNat
        fun _ => toByte (cpuDecodeR4x4 sim id).b) ∧
    (CellsApart (cpuDecodeR4x4 sim id).a (cpuDecodeR4x4 sim id).b
        (cpuDecodeR4x4 sim id).c.toNat →
      ∃ after, cpuExecMemcpy sim id = .ok (.continue, after) ∧
        BlockWritten sim after (cpuDecodeR4x4 sim id) (cpuDecodeR4x4 sim id).c.toNat
          fun i => cpuRead8 sim.mem ((cpuDecodeR4x4 sim id).b + BitVec.ofNat 32 i)) := by
  constructor
  · refine ⟨_, cpuExecMemset_eq sim id, blockDone_written (fun i below => ?_) ?_⟩
    · exact writeRounds_written distinct below
    · exact fun cell other => writeRounds_other other
  · intro apart
    exact ⟨_, cpuExecMemcpy_eq sim id, copyRounds_written distinct apart⟩

def blockSim (a b c : Word) : SimState where
  pc := simRomBase
  flags := 0
  r k := if k.val = 1 then a else if k.val = 2 then b else if k.val = 3 then c else 0
  f _ := 0
  ticks := 0
  mem cell :=
    match cell with
    | .ram offset => UInt8.ofNat offset.val
    | _ => 0

def blockId (opcode : UInt8) : InstBytes := ⟨0x00, 0x10, 0x32, opcode⟩

theorem blockSim_decode (a b c : Word) (opcode : UInt8) :
    cpuDecodeR4x4 (blockSim a b c) (blockId opcode) = ⟨0, a, b, c⟩ := by
  have rd : lowNibble 0x10 = 0 := by decide
  have ra : highNibble 0x10 = 1 := by decide
  have rb : lowNibble 0x32 = 2 := by decide
  have rc : highNibble 0x32 = 3 := by decide
  rw [cpuDecodeR4x4, blockId, rd, ra, rb, rc]
  rfl

theorem blockSim_written :
    (∃ after, cpuExecMemset (blockSim simRamBase (simRamBase + 3) 3) (blockId 0x32) =
        .ok (.continue, after) ∧
      BlockWritten (blockSim simRamBase (simRamBase + 3) 3) after
        ⟨0, simRamBase, simRamBase + 3, 3⟩ 3 fun _ => toByte (simRamBase + 3)) ∧
    ∃ after, cpuExecMemcpy (blockSim simRamBase (simRamBase + 3) 3) (blockId 0x30) =
        .ok (.continue, after) ∧
      BlockWritten (blockSim simRamBase (simRamBase + 3) 3) after
        ⟨0, simRamBase, simRamBase + 3, 3⟩ 3
        fun i => cpuRead8 (blockSim simRamBase (simRamBase + 3) 3).mem
          (simRamBase + 3 + BitVec.ofNat 32 i) := by
  have distinct : CellsDistinct simRamBase 3 := by
    unfold CellsDistinct
    decide +kernel
  have apart : CellsApart simRamBase (simRamBase + 3) 3 := by
    unfold CellsApart
    decide +kernel
  have fills := (blocks_written (blockSim simRamBase (simRamBase + 3) 3) (blockId 0x32) distinct).1
  have copies := (blocks_written (blockSim simRamBase (simRamBase + 3) 3) (blockId 0x30)
    distinct).2 apart
  rw [blockSim_decode] at fills copies
  exact ⟨fills, copies⟩

/-! ### memmov -/

def RangeInRam (start : Word) (count : Nat) : Prop :=
  ∀ i < count, InRam (start + BitVec.ofNat 32 i)

/-- The block is copied to `a`, the rest of the RAM is left alone, and `$rD` is `a`. -/
structure MemmovCopies (sim after : SimState) (ds : CpuDecodeR4x4) : Prop where
  copied : ∀ i < ds.c.toNat, cpuRead8 after.mem (ds.a + BitVec.ofNat 32 i) =
    cpuRead8 sim.mem (ds.b + BitVec.ofNat 32 i)
  kept : ∀ addr, InRam addr → (∀ i < ds.c.toNat, addr ≠ ds.a + BitVec.ofNat 32 i) →
    cpuRead8 after.mem addr = cpuRead8 sim.mem addr
  result : after.r ds.dp = ds.a

/-- The bytes that the loops get wrong are the same at both places: where the blocks overlap if
`a > b`, and else at index 0, at the index `c`, and at those between where the blocks overlap. -/
def MemmovAgrees (mem : Memory) (ds : CpuDecodeR4x4) : Prop :=
  if ds.b < ds.a then
    ∀ i, ds.a.toNat - ds.b.toNat + i < ds.c.toNat →
      cpuRead8 mem (ds.a + BitVec.ofNat 32 i) = cpuRead8 mem (ds.b + BitVec.ofNat 32 i)
  else
    0 < ds.c.toNat → ∀ i ≤ ds.c.toNat,
      (i = 0 ∨ i = ds.c.toNat ∨ ds.b.toNat - ds.a.toNat < i) →
        cpuRead8 mem (ds.a + BitVec.ofNat 32 i) = cpuRead8 mem (ds.b + BitVec.ofNat 32 i)

section Ranges

variable {start addr : Word} {count : Nat}

theorem offset_toNat {i : Nat} (fits : start.toNat + i < 4294967296) :
    (start + BitVec.ofNat 32 i).toNat = start.toNat + i := by
  rw [BitVec.toNat_add, BitVec.toNat_ofNat]
  omega

theorem RangeInRam.bounds (area : RangeInRam start count) (some : 0 < count) :
    4026531840 ≤ start.toNat ∧ start.toNat + count ≤ 4030726144 := by
  have value : ∀ i < count, start.toNat + i < 4030726144 := by
    intro i
    induction i with
    | zero =>
        intro below
        have first := (area 0 below).2
        rwa [BitVec.add_zero] at first
    | succ i ih =>
        intro below
        have before := ih (Nat.lt_of_succ_lt below)
        have here := (area (i + 1) below).2
        rwa [offset_toNat (by omega)] at here
  have low := (area 0 some).1
  rw [BitVec.add_zero] at low
  have last := value (count - 1) (by omega)
  exact ⟨low, by omega⟩

theorem cellFrom_inj (low : 4026531840 ≤ start.toNat) (high : start.toNat + count ≤ 4030726144) :
    ∀ i ≤ count, ∀ j ≤ count, cellFrom start i = cellFrom start j → i = j := by
  intro i left j right same
  rcases (cpuTranslate_eq_iff _ _).mp same with equal | ⟨trap, trap', _⟩
  · have numbers := congrArg BitVec.toNat equal
    rw [offset_toNat (by omega), offset_toNat (by omega)] at numbers
    omega
  · have one := trap.2
    have two := trap'.2
    simp only [InRam] at one two
    rw [offset_toNat (by omega)] at one two
    omega

theorem cellFrom_ne (ram : InRam addr) {i : Nat} (differ : addr ≠ start + BitVec.ofNat 32 i) :
    cellFrom start i ≠ cpuTranslate addr := by
  intro same
  rcases (cpuTranslate_eq_iff _ _).mp same with equal | ⟨_, trap, _⟩
  · exact differ equal.symm
  · exact trap.2 ram

theorem cellFrom_sub {one two : Word} (above : one.toNat ≤ two.toNat) (i : Nat) :
    cellFrom two i = cellFrom one (two.toNat - one.toNat + i) := by
  have moved : one + BitVec.ofNat 32 (two.toNat - one.toNat) = two := by
    apply BitVec.eq_of_toNat_eq
    rw [offset_toNat (by omega)]
    omega
  rw [cellFrom, cellFrom, ← offset_add, moved]

end Ranges

section Memmov

variable {sim : SimState} {ds : CpuDecodeR4x4}

def copiedUp (mem : Memory) (ds : CpuDecodeR4x4) : Memory :=
  copyRounds (cellFrom ds.a) (cellFrom ds.b) ds.c.toNat mem
def copiedDown (mem : Memory) (ds : CpuDecodeR4x4) : Memory :=
  copyRounds (fun i => cellFrom ds.a (ds.c.toNat - i)) (fun i => cellFrom ds.b (ds.c.toNat - i))
    ds.c.toNat mem

theorem offset_sub (start count : Word) {i : Nat} (inside : i < count.toNat) :
    start + count - BitVec.ofNat 32 i = start + BitVec.ofNat 32 (count.toNat - i) := by
  have low : (BitVec.ofNat 32 i).toNat = i := Nat.mod_eq_of_lt (Nat.lt_trans inside count.isLt)
  have rest : count - BitVec.ofNat 32 i = BitVec.ofNat 32 (count.toNat - i) := by
    apply BitVec.eq_of_toNat_eq
    rw [sub_toNat (by omega), low, BitVec.toNat_ofNat, Nat.mod_eq_of_lt (by omega)]
  rw [← rest, BitVec.sub_eq_add_neg, BitVec.sub_eq_add_neg, BitVec.add_assoc]

theorem cpuExecMemmov_eq (sim : SimState) (id : InstBytes) :
    cpuExecMemmov sim id = .ok (.continue, sim.blockDone (cpuDecodeR4x4 sim id)
      (if (cpuDecodeR4x4 sim id).b < (cpuDecodeR4x4 sim id).a then
        copiedUp sim.mem (cpuDecodeR4x4 sim id)
      else copiedDown sim.mem (cpuDecodeR4x4 sim id))) := by
  have down : copiedDown sim.mem (cpuDecodeR4x4 sim id) =
      copyRounds
        (fun i => cpuTranslate ((cpuDecodeR4x4 sim id).a + (cpuDecodeR4x4 sim id).c -
          BitVec.ofNat 32 i))
        (fun i => cpuTranslate ((cpuDecodeR4x4 sim id).b + (cpuDecodeR4x4 sim id).c -
          BitVec.ofNat 32 i)) (cpuDecodeR4x4 sim id).c.toNat sim.mem :=
    copyRounds_congr (fun i below => congrArg cpuTranslate (offset_sub _ _ below).symm)
      fun i below => congrArg cpuTranslate (offset_sub _ _ below).symm
  rw [down, copiedUp, copyRounds, copyRounds, ← fold_eq_writeRounds, ← fold_eq_writeRounds]
  rfl

theorem copiedUp_kept {addr : Word} (ram : InRam addr)
    (outside : ∀ i < ds.c.toNat, addr ≠ ds.a + BitVec.ofNat 32 i) (mem : Memory) :
    cpuRead8 (copiedUp mem ds) addr = cpuRead8 mem addr :=
  writeRounds_other fun i below => cellFrom_ne ram (outside i below)

theorem copiedDown_kept {addr : Word} (ram : InRam addr)
    (outside : ∀ i ≤ ds.c.toNat, addr ≠ ds.a + BitVec.ofNat 32 i) (mem : Memory) :
    cpuRead8 (copiedDown mem ds) addr = cpuRead8 mem addr :=
  writeRounds_other fun i _ => cellFrom_ne ram (outside _ (Nat.sub_le _ i))

theorem memmovUp_iff (below : ds.b < ds.a) (target : RangeInRam ds.a ds.c.toNat)
    (source : RangeInRam ds.b ds.c.toNat) :
    MemmovCopies sim (sim.blockDone ds (copiedUp sim.mem ds)) ds ↔ MemmovAgrees sim.mem ds := by
  have lower : ds.b.toNat < ds.a.toNat := below
  have distance : ∀ i, cellFrom ds.a i = cellFrom ds.b (ds.a.toNat - ds.b.toNat + i) :=
    cellFrom_sub (Nat.le_of_lt lower)
  have split : MemmovCopies sim (sim.blockDone ds (copiedUp sim.mem ds)) ds ↔
      ∀ i < ds.c.toNat, copiedUp sim.mem ds (cellFrom ds.a i) = sim.mem (cellFrom ds.b i) := by
    constructor
    · exact fun copies => copies.copied
    · intro copied
      exact ⟨copied, fun addr ram outside => copiedUp_kept ram outside sim.mem,
        blockDone_result _⟩
  rw [split, MemmovAgrees, if_pos below]
  simp only [cpuRead8]
  rcases Nat.eq_zero_or_pos ds.c.toNat with none | some
  · rw [none]
    exact ⟨fun _ i inside => absurd inside (Nat.not_lt_zero _),
      fun _ i inside => absurd inside (Nat.not_lt_zero _)⟩
  · have first := source.bounds some
    have last := target.bounds some
    have distinct := @cellFrom_inj ds.b (ds.a.toNat - ds.b.toNat + ds.c.toNat) first.1 (by omega)
    have overlap := @copyUp_iff Cell UInt8 _ (cellFrom ds.b) (ds.a.toNat - ds.b.toNat) ds.c.toNat
      sim.mem (fun i left j right => distinct i (Nat.le_of_lt left) j (Nat.le_of_lt right))
      (Nat.sub_pos_of_lt lower)
    simp only [← distance] at overlap
    exact overlap

theorem memmovDown_iff (above : ¬ ds.b < ds.a) (target : RangeInRam ds.a ds.c.toNat)
    (source : RangeInRam ds.b ds.c.toNat) :
    MemmovCopies sim (sim.blockDone ds (copiedDown sim.mem ds)) ds ↔ MemmovAgrees sim.mem ds := by
  have order : ds.a.toNat ≤ ds.b.toNat := Nat.not_lt.mp above
  have distance : ∀ i, cellFrom ds.b i = cellFrom ds.a (ds.b.toNat - ds.a.toNat + i) :=
    cellFrom_sub order
  rw [MemmovAgrees, if_neg above]
  rcases Nat.eq_zero_or_pos ds.c.toNat with none | some
  · have nothing : copiedDown sim.mem ds = sim.mem := by rw [copiedDown, none]; rfl
    rw [none, nothing]
    refine ⟨fun _ some => absurd some (Nat.lt_irrefl 0), fun _ => ⟨?_, fun _ _ _ => rfl, ?_⟩⟩
    · exact fun i below => absurd below (none ▸ Nat.not_lt_zero i)
    · exact blockDone_result _
  · rcases Nat.eq_or_lt_of_le order with same | lower
    · -- Every round copies a byte to where it is.
      have equal : ds.a = ds.b := BitVec.eq_of_toNat_eq same
      have nothing : copiedDown sim.mem ds = sim.mem :=
        writeRounds_same fun i now => by rw [equal]
      rw [nothing, equal]
      exact ⟨fun _ _ _ _ _ => rfl, fun _ => ⟨fun i _ => by rw [equal]; rfl, fun _ _ _ => rfl,
        blockDone_result _⟩⟩
    · -- the loop writes the byte behind the block too, which has to stay as it is
      have first := target.bounds some
      have last := source.bounds some
      have distinct := @cellFrom_inj ds.a (ds.b.toNat - ds.a.toNat + ds.c.toNat) first.1 (by omega)
      have overlap := @copyDown_iff Cell UInt8 _ (cellFrom ds.a) (ds.b.toNat - ds.a.toNat)
        ds.c.toNat sim.mem distinct (Nat.sub_pos_of_lt lower)
      simp only [← distance] at overlap
      have behind : InRam (ds.a + BitVec.ofNat 32 ds.c.toNat) := by
        rw [InRam, offset_toNat (by omega)]
        omega
      refine Iff.trans ?_ overlap
      constructor
      · intro copies
        refine ⟨copies.copied, copies.kept _ behind fun i below same => ?_⟩
        have numbers := congrArg BitVec.toNat same
        rw [offset_toNat (by omega), offset_toNat (by omega)] at numbers
        omega
      · rintro ⟨copied, kept⟩
        refine ⟨copied, fun addr ram outside => ?_, blockDone_result _⟩
        by_cases next : addr = ds.a + BitVec.ofNat 32 ds.c.toNat
        · rw [next]
          exact kept
        · refine copiedDown_kept ram (fun i inside => ?_) sim.mem
          rcases Nat.lt_or_eq_of_le inside with before | rfl
          · exact outside i before
          · exact next

end Memmov

/-- Between blocks in the RAM, overlapping or not, `memmov` does what it should exactly if the bytes
that its loops get wrong are the same at both places. -/
theorem memmov_copies_iff (sim : SimState) (id : InstBytes)
    (target : RangeInRam (cpuDecodeR4x4 sim id).a (cpuDecodeR4x4 sim id).c.toNat)
    (source : RangeInRam (cpuDecodeR4x4 sim id).b (cpuDecodeR4x4 sim id).c.toNat) :
    ∃ after, cpuExecMemmov sim id = .ok (.continue, after) ∧
      (MemmovCopies sim after (cpuDecodeR4x4 sim id) ↔
        MemmovAgrees sim.mem (cpuDecodeR4x4 sim id)) := by
  refine ⟨_, cpuExecMemmov_eq sim id, ?_⟩
  by_cases below : (cpuDecodeR4x4 sim id).b < (cpuDecodeR4x4 sim id).a
  · rw [if_pos below]
    exact memmovUp_iff below target source
  · rw [if_neg below]
    exact memmovDown_iff below target source

theorem blockSim_ranges : RangeInRam simRamBase 3 ∧ RangeInRam (simRamBase + 1) 3 ∧
    RangeInRam (simRamBase + 8) 2 := by
  unfold RangeInRam InRam
  decide +kernel

theorem blockSim_moves :
    ∃ after, cpuExecMemmov (blockSim (simRamBase + 1) simRamBase 3) (blockId 0x31) =
        .ok (.continue, after) ∧
      (MemmovCopies (blockSim (simRamBase + 1) simRamBase 3) after
          ⟨0, simRamBase + 1, simRamBase, 3⟩ ↔
        MemmovAgrees (blockSim (simRamBase + 1) simRamBase 3).mem
          ⟨0, simRamBase + 1, simRamBase, 3⟩) := by
  have moves := memmov_copies_iff (blockSim (simRamBase + 1) simRamBase 3) (blockId 0x31)
    blockSim_ranges.2.1 blockSim_ranges.1
  rw [blockSim_decode] at moves
  exact moves

/-- Downwards the first byte is not copied; upwards the first byte is copied to all three places. -/
theorem blockSim_moves_wrong :
    (RangeInRam simRamBase 2 ∧ RangeInRam (simRamBase + 8) 2 ∧
      ∃ after, cpuExecMemmov (blockSim simRamBase (simRamBase + 8) 2) (blockId 0x31) =
          .ok (.continue, after) ∧
        cpuRead8 after.mem simRamBase = 0 ∧
        cpuRead8 (blockSim simRamBase (simRamBase + 8) 2).mem (simRamBase + 8) = 8 ∧
        ¬ MemmovCopies (blockSim simRamBase (simRamBase + 8) 2) after
          ⟨0, simRamBase, simRamBase + 8, 2⟩) ∧
    RangeInRam (simRamBase + 1) 3 ∧ RangeInRam simRamBase 3 ∧
      ∃ after, cpuExecMemmov (blockSim (simRamBase + 1) simRamBase 3) (blockId 0x31) =
          .ok (.continue, after) ∧
        ¬ MemmovCopies (blockSim (simRamBase + 1) simRamBase 3) after
          ⟨0, simRamBase + 1, simRamBase, 3⟩ := by
  obtain ⟨low, high, other⟩ := blockSim_ranges
  have first : RangeInRam simRamBase 2 := fun i below => low i (Nat.lt_succ_of_lt below)
  refine ⟨⟨first, other, _, cpuExecMemmov_eq _ _, by decide +kernel, by decide +kernel, fun copies => ?_⟩,
    high, low, _, cpuExecMemmov_eq _ _, fun copies => ?_⟩
  · exact absurd (copies.copied 0 (by decide)) (by decide +kernel)
  · exact absurd (copies.copied 1 (by decide)) (by decide +kernel)

end Estros
