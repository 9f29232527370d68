import Estros.IsaBlocks
import Estros.IsaExecution

/-!
`memchr` and `memchrf`. They store where the area begins instead of where the byte was found, and
compare bytes with a whole register.
-/

namespace Estros

/-- The address of the first byte of the area that is `u8(b)`, or 0. -/
def MemchrFinds (mem : Memory) (ds : CpuDecodeR4x4) (result : Word) : Prop :=
  (∃ i < ds.c.toNat, cpuRead8 mem (ds.a + BitVec.ofNat 32 i) = toByte ds.b ∧
    (∀ j < i, cpuRead8 mem (ds.a + BitVec.ofNat 32 j) ≠ toByte ds.b) ∧
    result = ds.a + BitVec.ofNat 32 i) ∨
  ((∀ i < ds.c.toNat, cpuRead8 mem (ds.a + BitVec.ofNat 32 i) ≠ toByte ds.b) ∧ result = 0)

structure MemchrRight (sim after : SimState) (ds : CpuDecodeR4x4) : Prop where
  finds : MemchrFinds sim.mem ds (after.r ds.dp)
  memory : after.mem = sim.mem

structure MemchrFlags (after : SimState) (ds : CpuDecodeR4x4) : Prop where
  zero : after.flags &&& flagsBitZ ≠ 0 ↔ after.r ds.dp = 0
  negative : after.flags &&& flagsBitN ≠ 0 ↔ (after.r ds.dp).getLsbD 31 = true

/-- No byte of the area is `u8(b)`, or `b` is a byte and the first one. -/
def MemchrMeets (mem : Memory) (ds : CpuDecodeR4x4) : Prop :=
  (∀ i < ds.c.toNat, cpuRead8 mem (ds.a + BitVec.ofNat 32 i) ≠ toByte ds.b) ∨
    0 < ds.c.toNat ∧ ds.b.toNat < 256 ∧ cpuRead8 mem ds.a = toByte ds.b

theorem updateFlags_bits (sim : SimState) (value : Word) :
    ((sim.updateFlags value).flags &&& flagsBitZ ≠ 0 ↔ value = 0) ∧
      ((sim.updateFlags value).flags &&& flagsBitN ≠ 0 ↔ value.getLsbD 31 = true) := by
  have reflect := updateFlags_reflect sim.flags sim value
  have sign : value.slt 0 = value.getLsbD 31 := BitVec.slt_zero_eq_msb
  exact ⟨reflect.1, sign ▸ reflect.2⟩

section Search

variable {mem : Memory} {sim : SimState} {ds : CpuDecodeR4x4}

theorem ofByte_eq_iff (byte : UInt8) (value : Word) :
    ofByte byte = value ↔ value.toNat < 256 ∧ byte = toByte value := by
  have small := byte.toNat_lt
  have low : (toByte value).toNat = value.toNat % 256 := rfl
  rw [← BitVec.toNat_inj, ← UInt8.toNat_inj, ofByte_toNat, low]
  omega

/-- The loop of both stops if some byte is the register `b`. -/
theorem memchrResult_eq_iff (mem : Memory) (ds : CpuDecodeR4x4) :
    cpuMemchrResult mem ds = ds.a ∧ ds.b.toNat < 256 ∧
        (∃ i < ds.c.toNat, cpuRead8 mem (ds.a + BitVec.ofNat 32 i) = toByte ds.b) ∨
      cpuMemchrResult mem ds = 0 ∧ ¬ (ds.b.toNat < 256 ∧
        ∃ i < ds.c.toNat, cpuRead8 mem (ds.a + BitVec.ofNat 32 i) = toByte ds.b) := by
  have stops : ((List.range ds.c.toNat).any fun i =>
      ofByte (cpuRead8 mem (ds.a + BitVec.ofNat 32 i)) = ds.b) = true ↔ ds.b.toNat < 256 ∧
        ∃ i < ds.c.toNat, cpuRead8 mem (ds.a + BitVec.ofNat 32 i) = toByte ds.b := by
    simp only [List.any_eq_true, List.mem_range, decide_eq_true_eq, ofByte_eq_iff]
    constructor
    · rintro ⟨i, inside, small, found⟩
      exact ⟨small, i, inside, found⟩
    · rintro ⟨small, i, inside, found⟩
      exact ⟨i, inside, small, found⟩
  rw [cpuMemchrResult]
  by_cases found : ds.b.toNat < 256 ∧
      ∃ i < ds.c.toNat, cpuRead8 mem (ds.a + BitVec.ofNat 32 i) = toByte ds.b
  · exact Or.inl ⟨if_pos (stops.mpr found), found.1, found.2⟩
  · exact Or.inr ⟨if_neg fun stopped => found (stops.mp stopped), found⟩

theorem memchrResult_finds_iff (area : RangeInRam ds.a ds.c.toNat) :
    MemchrFinds mem ds (cpuMemchrResult mem ds) ↔ MemchrMeets mem ds := by
  have start : ds.a + BitVec.ofNat 32 0 = ds.a := BitVec.add_zero ds.a
  -- An address of the area is not null, and equal to `a` only at index 0.
  have nonzero : ∀ i < ds.c.toNat, (0 : Word) ≠ ds.a + BitVec.ofNat 32 i := by
    intro i inside null
    have ram := area i inside
    rw [← null] at ram
    exact absurd ram.1 (by decide)
  have first : ∀ i < ds.c.toNat, ds.a = ds.a + BitVec.ofNat 32 i → i = 0 := by
    intro i inside same
    have bounds := area.bounds (Nat.lt_of_le_of_lt (Nat.zero_le i) inside)
    have numbers := congrArg BitVec.toNat same
    rw [offset_toNat (by omega)] at numbers
    omega
  rcases memchrResult_eq_iff mem ds with ⟨result, small, found⟩ | ⟨result, missed⟩
  · rw [result]
    constructor
    · rintro (⟨i, inside, here, _, same⟩ | ⟨nowhere, _⟩)
      · have index := first i inside same
        rw [index, start] at here
        exact Or.inr ⟨by omega, small, here⟩
      · exact Or.inl nowhere
    · rintro (nowhere | ⟨some, _, here⟩)
      · obtain ⟨i, inside, here⟩ := found
        exact absurd here (nowhere i inside)
      · exact Or.inl ⟨0, some, by rw [start]; exact here,
          fun j before => absurd before (Nat.not_lt_zero j), start.symm⟩
  · rw [result]
    constructor
    · rintro (⟨i, inside, _, _, null⟩ | ⟨nowhere, _⟩)
      · exact absurd null (nonzero i inside)
      · exact Or.inl nowhere
    · rintro (nowhere | ⟨some, small, here⟩)
      · exact Or.inr ⟨nowhere, rfl⟩
      · exact absurd ⟨small, 0, some, by rw [start]; exact here⟩ missed

end Search

/-- On an area in the RAM `memchr` and `memchrf` find the first occurrence exactly if there is none,
or `b` is a byte and the first of the area. -/
theorem memchr_right_iff (sim : SimState) (id : InstBytes)
    (area : RangeInRam (cpuDecodeR4x4 sim id).a (cpuDecodeR4x4 sim id).c.toNat) :
    ∃ found foundf, cpuExecMemchr sim id = .ok (.continue, found) ∧
      cpuExecMemchrf sim id = .ok (.continue, foundf) ∧
      (MemchrRight sim found (cpuDecodeR4x4 sim id) ∧
          MemchrRight sim foundf (cpuDecodeR4x4 sim id) ∧
          MemchrFlags foundf (cpuDecodeR4x4 sim id) ↔
        MemchrMeets sim.mem (cpuDecodeR4x4 sim id)) := by
  let ds := cpuDecodeR4x4 sim id
  refine ⟨_, _, rfl, rfl, ?_⟩
  have finds := @memchrResult_finds_iff sim.mem ds area
  have stored : Function.update sim.r ds.dp (cpuMemchrResult sim.mem ds) ds.dp =
      cpuMemchrResult sim.mem ds := Function.update_self _ _ _
  constructor
  · rintro ⟨⟨right, _⟩, _, _⟩
    change MemchrFinds sim.mem ds (Function.update sim.r ds.dp (cpuMemchrResult sim.mem ds) ds.dp)
      at right
    rw [stored] at right
    exact finds.mp right
  · intro meets
    have right : MemchrFinds sim.mem ds
        (Function.update sim.r ds.dp (cpuMemchrResult sim.mem ds) ds.dp) := by
      rw [stored]
      exact finds.mpr meets
    have bits := updateFlags_bits (sim.setR ds.dp (cpuMemchrResult sim.mem ds))
      (cpuMemchrResult sim.mem ds)
    refine ⟨⟨right, rfl⟩, ⟨right, rfl⟩, ?_, ?_⟩
    · change _ ↔ Function.update sim.r ds.dp (cpuMemchrResult sim.mem ds) ds.dp = 0
      rw [stored]
      exact bits.1
    · change _ ↔ (Function.update sim.r ds.dp (cpuMemchrResult sim.mem ds) ds.dp).getLsbD 31 = true
      rw [stored]
      exact bits.2

theorem blockSim_searches :
    ∃ found foundf, cpuExecMemchr (blockSim simRamBase 1 2) (blockId 0x33) =
        .ok (.continue, found) ∧
      cpuExecMemchrf (blockSim simRamBase 1 2) (blockId 0x33) = .ok (.continue, foundf) ∧
      (MemchrRight (blockSim simRamBase 1 2) found ⟨0, simRamBase, 1, 2⟩ ∧
          MemchrRight (blockSim simRamBase 1 2) foundf ⟨0, simRamBase, 1, 2⟩ ∧
          MemchrFlags foundf ⟨0, simRamBase, 1, 2⟩ ↔
        MemchrMeets (blockSim simRamBase 1 2).mem ⟨0, simRamBase, 1, 2⟩) := by
  have area : RangeInRam simRamBase 2 := by
    unfold RangeInRam InRam
    decide
  have searches := memchr_right_iff (blockSim simRamBase 1 2) (blockId 0x33) area
  rw [blockSim_decode] at searches
  exact searches

/-- A byte that is found at index 1 of the RAM: the result is the address of index 0. -/
theorem blockSim_searches_wrong :
    RangeInRam simRamBase 2 ∧
      ∃ found, cpuExecMemchr (blockSim simRamBase 1 2) (blockId 0x33) = .ok (.continue, found) ∧
        found.r 0 = simRamBase ∧ ¬ MemchrFinds (blockSim simRamBase 1 2).mem
          ⟨0, simRamBase, 1, 2⟩ (found.r 0) := by
  have area : RangeInRam simRamBase 2 := by
    unfold RangeInRam InRam
    decide
  have stored : cpuMemchrResult (blockSim simRamBase 1 2).mem ⟨0, simRamBase, 1, 2⟩ =
      simRamBase := by decide
  have bytes : cpuRead8 (blockSim simRamBase 1 2).mem simRamBase = 0 ∧
      cpuRead8 (blockSim simRamBase 1 2).mem (simRamBase + BitVec.ofNat 32 1) = 1 := by
    decide
  have unmet : ¬ MemchrMeets (blockSim simRamBase 1 2).mem ⟨0, simRamBase, 1, 2⟩ := by
    rintro (nowhere | ⟨_, _, here⟩)
    · exact nowhere 1 (by decide) bytes.2
    · exact absurd (bytes.1.symm.trans here) (by decide)
  refine ⟨area, _, rfl, ?_, ?_⟩
  · rw [blockSim_decode]
    exact stored
  · rw [blockSim_decode]
    exact fun finds => unmet ((memchrResult_finds_iff area).mp finds)

end Estros
