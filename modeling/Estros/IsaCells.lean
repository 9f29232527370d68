import Mathlib.Logic.ExistsUnique
import Estros.IsaBlocks

/-!
The memory of the simulator as it lies in `sim_state_t`: every address is translated to a pointer
into exactly one of the three arrays, and a store writes the cells of its bytes and no other.
-/

namespace Estros

/-- The arrays of `sim_state_t` that emulate memory, in the order in which they lie there. -/
inductive SimArray where
  | trapPage | ram | rom
  deriving DecidableEq

def SimArray.size : SimArray → Nat
  | .trapPage => pageSize
  | .ram => simRamSize
  | .rom => simRomSize

def SimArray.base : SimArray → Nat
  | .trapPage => 0
  | .ram => pageSize
  | .rom => pageSize + simRamSize

def SimArray.Holds (array : SimArray) (pointer : Nat) : Prop :=
  array.base ≤ pointer ∧ pointer < array.base + array.size

def cpuTranslatePointer (a : Word) : Nat :=
  if simRomBase ≤ a ∧ a < simRomBase + BitVec.ofNat 32 simRomSize then
    SimArray.rom.base + a.toNat - simRomBase.toNat
  else if simRamBase ≤ a ∧ a < simRamBase + BitVec.ofNat 32 simRamSize then
    SimArray.ram.base + a.toNat - simRamBase.toNat
  else SimArray.trapPage.base + a.toNat % pageSize

def Cell.pointer : Cell → Nat
  | .rom offset => SimArray.rom.base + offset.val
  | .ram offset => SimArray.ram.base + offset.val
  | .trapPage offset => SimArray.trapPage.base + offset.val

def Cell.array : Cell → SimArray
  | .rom _ => .rom
  | .ram _ => .ram
  | .trapPage _ => .trapPage

theorem cpuTranslatePointer_eq (a : Word) : cpuTranslatePointer a = (cpuTranslate a).pointer := by
  rcases window_cases a with rom | ram | trap
  · obtain ⟨_, cell⟩ := cpuTranslate_inRom rom
    rw [cell]
    exact (if_pos rom).trans (Nat.add_sub_assoc rom.1 _)
  · obtain ⟨_, cell⟩ := cpuTranslate_inRam ram
    have outside : ¬ InRom a := fun rom => rom.not_inRam ram
    rw [cell]
    exact (if_neg outside).trans ((if_pos ram).trans (Nat.add_sub_assoc ram.1 _))
  · rw [cpuTranslate_outside trap.1 trap.2]
    exact (if_neg trap.1).trans (if_neg trap.2)

theorem Cell.array_holds (cell : Cell) : cell.array.Holds cell.pointer := by
  cases cell with
  | rom offset => exact ⟨Nat.le_add_right _ _, Nat.add_lt_add_left offset.isLt _⟩
  | ram offset => exact ⟨Nat.le_add_right _ _, Nat.add_lt_add_left offset.isLt _⟩
  | trapPage offset => exact ⟨Nat.le_add_right _ _, Nat.add_lt_add_left offset.isLt _⟩

theorem holds_unique {one two : SimArray} {pointer : Nat} (first : one.Holds pointer)
    (second : two.Holds pointer) : one = two := by
  have page : pageSize = 8192 := rfl
  have ram : simRamSize = 4194304 := rfl
  have rom : simRomSize = 131072 := rfl
  cases one <;> cases two <;>
    simp only [SimArray.Holds, SimArray.base, SimArray.size, reduceCtorEq] at first second ⊢ <;>
      omega

theorem Cell.pointer_inj {one two : Cell} (same : one.pointer = two.pointer) : one = two := by
  have arrays := holds_unique one.array_holds (same ▸ two.array_holds)
  cases one <;> cases two <;> simp only [Cell.array, reduceCtorEq] at arrays
  · exact congrArg Cell.rom (Fin.ext (Nat.add_left_cancel same))
  · exact congrArg Cell.ram (Fin.ext (Nat.add_left_cancel same))
  · exact congrArg Cell.trapPage (Fin.ext (Nat.add_left_cancel same))

/-- What a store of the given width does: the cells of its bytes are distinct and get the bytes of
the value, the lowest first, and every other one keeps its byte, also for the reads through other
addresses. -/
structure StoreWrites (width : Nat) (sim after : SimState) (addr value : Word) : Prop where
  distinct : ∀ i < width, ∀ j < width, i ≠ j →
    cpuTranslatePointer (addr + BitVec.ofNat 32 i) ≠ cpuTranslatePointer (addr + BitVec.ofNat 32 j)
  stored : ∀ i < width, cpuRead8 after.mem (addr + BitVec.ofNat 32 i) = toByte (value >>> (8 * i))
  kept : ∀ cell : Cell,
    (∀ i < width, cpuTranslatePointer (addr + BitVec.ofNat 32 i) ≠ cell.pointer) →
      after.mem cell = sim.mem cell
  reads : ∀ other,
    (∀ i < width, cpuTranslatePointer (addr + BitVec.ofNat 32 i) ≠ cpuTranslatePointer other) →
      cpuRead8 after.mem other = cpuRead8 sim.mem other

structure WritesBytes (width : Nat) (write : Memory → Word → Word → Memory) : Prop where
  stored : ∀ mem addr value, ∀ i < width,
    cpuRead8 (write mem addr value) (addr + BitVec.ofNat 32 i) = toByte (value >>> (8 * i))
  kept : ∀ mem addr value cell, (∀ i < width, cellFrom addr i ≠ cell) →
    write mem addr value cell = mem cell

theorem cpuWrite8_kept (mem : Memory) {addr : Word} (v : UInt8) {cell : Cell}
    (apart : cpuTranslate addr ≠ cell) : cpuWrite8 mem addr v cell = mem cell := by
  rw [cpuWrite8, Function.update_of_ne (Ne.symm apart)]

theorem cpuWrite16_kept (mem : Memory) {addr : Word} (v : BitVec 16) {cell : Cell}
    (apart : ∀ i < 2, cellFrom addr i ≠ cell) : cpuWrite16 mem addr v cell = mem cell :=
  (cpuWrite8_kept _ _ (apart 1 (by decide))).trans (cpuWrite8_kept _ _ (apart 0 (by decide)))

theorem writes_byte : WritesBytes 1 fun mem addr value => cpuWrite8 mem addr (toByte value) := by
  constructor
  · intro mem addr value i inside
    cases Nat.lt_one_iff.mp inside
    rw [BitVec.add_zero]
    exact cpuRead8_write8_self mem addr _
  · intro mem addr value cell apart
    have first := apart 0 (by decide)
    rw [cellFrom, BitVec.add_zero] at first
    exact cpuWrite8_kept mem _ first

theorem writes_half :
    WritesBytes 2 fun mem addr value => cpuWrite16 mem addr (value.setWidth 16) :=
  ⟨fun mem addr value _ inside => cpuRead8_write16_word mem addr value inside,
    fun mem _ _ _ apart => cpuWrite16_kept mem _ apart⟩

theorem writes_word : WritesBytes 4 cpuWrite32 := by
  constructor
  · intro mem addr value i inside
    rw [cpuRead8_write32 mem addr value (Nat.lt_trans inside (by decide)), if_pos inside]
  · intro mem addr value cell apart
    have upper : ∀ i < 2, cellFrom (addr + 2) i ≠ cell := by
      intro i below
      have moved : cellFrom (addr + 2) i = cellFrom addr (2 + i) :=
        congrArg cpuTranslate (offset_add addr 2 i)
      rw [moved]
      exact apart (2 + i) (by omega)
    exact (cpuWrite16_kept _ _ upper).trans
      (cpuWrite16_kept mem _ fun i below => apart i (by omega))

theorem cpuExecStore_writes {width : Nat} {write : Memory → Word → Word → Memory}
    (small : width ≤ pageSize) (writes : WritesBytes width write) (sim : SimState)
    (id : InstBytes) :
    ∃ after, cpuExecStore write sim id = .ok (.continue, after) ∧
      StoreWrites width sim after (cpuDecodeR4x2i8Ifhbs sim id).addr
        (sim.r (cpuDecodeR4x2i8Ifhbs sim id).dp) := by
  refine ⟨_, rfl, ?_⟩
  have kept : ∀ cell : Cell, (∀ i < width,
      cpuTranslatePointer ((cpuDecodeR4x2i8Ifhbs sim id).addr + BitVec.ofNat 32 i) ≠ cell.pointer) →
      write sim.mem (cpuDecodeR4x2i8Ifhbs sim id).addr
        (sim.r (cpuDecodeR4x2i8Ifhbs sim id).dp) cell = sim.mem cell :=
    fun cell apart => writes.kept _ _ _ _ fun i below same =>
      apart i below ((cpuTranslatePointer_eq _).trans (congrArg Cell.pointer same))
  refine ⟨fun i left j right differ same => ?_, writes.stored _ _ _, kept,
    fun other apart => kept _ ?_⟩
  · rw [cpuTranslatePointer_eq, cpuTranslatePointer_eq] at same
    exact cells_apart _ differ (Nat.lt_of_lt_of_le left small) (Nat.lt_of_lt_of_le right small)
      (Cell.pointer_inj same)
  · exact fun i below same => apart i below (same.trans (cpuTranslatePointer_eq other).symm)

/-- Every address has its cell in exactly one array, two addresses share one exactly if they are
equal or meet in the trap page, and the stores of 1, 2 and 4 bytes write these bytes of the register
to the cells from the address on and no other cell. -/
theorem memory_is_map :
    (∀ x, ∃! array : SimArray, array.Holds (cpuTranslatePointer x)) ∧
    (∀ x y, cpuTranslatePointer x = cpuTranslatePointer y ↔
      x = y ∨ InTrap x ∧ InTrap y ∧ x.toNat % pageSize = y.toNat % pageSize) ∧
    ∀ sim id,
      (∃ after, cpuExecStb sim id = .ok (.continue, after) ∧
        StoreWrites 1 sim after (cpuDecodeR4x2i8Ifhbs sim id).addr
          (sim.r (cpuDecodeR4x2i8Ifhbs sim id).dp)) ∧
      (∃ after, cpuExecStw sim id = .ok (.continue, after) ∧
        StoreWrites 2 sim after (cpuDecodeR4x2i8Ifhbs sim id).addr
          (sim.r (cpuDecodeR4x2i8Ifhbs sim id).dp)) ∧
      ∃ after, cpuExecStl sim id = .ok (.continue, after) ∧
        StoreWrites 4 sim after (cpuDecodeR4x2i8Ifhbs sim id).addr
          (sim.r (cpuDecodeR4x2i8Ifhbs sim id).dp) := by
  refine ⟨fun x => ?_, fun x y => ?_, fun sim id => ⟨?_, ?_, ?_⟩⟩
  · refine ⟨(cpuTranslate x).array, ?_, fun array holds => ?_⟩
    · rw [cpuTranslatePointer_eq]
      exact (cpuTranslate x).array_holds
    · rw [cpuTranslatePointer_eq] at holds
      exact holds_unique holds (cpuTranslate x).array_holds
  · rw [← cpuTranslate_eq_iff, cpuTranslatePointer_eq, cpuTranslatePointer_eq]
    exact ⟨Cell.pointer_inj, congrArg Cell.pointer⟩
  · exact cpuExecStore_writes (by decide) writes_byte sim id
  · exact cpuExecStore_writes (by decide) writes_half sim id
  · exact cpuExecStore_writes (by decide) writes_word sim id

end Estros
