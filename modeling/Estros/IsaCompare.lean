import Estros.IsaFlags

/-!
The comparisons: which flags `cmp` and `cmpkp` compute of the sum of a register and of what the
decoder adds up. `cpu_i_add32` tests the upper half of the sum against a mask of 32 bits, of which
none is set there.
-/

namespace Estros

def cmpSum (sim : SimState) (id : InstBytes) : Nat :=
  (sim.r (highNibble id.id1)).toNat +
    if id.id3 &&& 0x80 ≠ 0 then id.id2.toNat
    else (sim.r (lowNibble id.id2)).toNat + (highNibble id.id2).val

/-- The flags are those of a sum. -/
structure FlagsOfSum (sum : Nat) (flags : Word) : Prop where
  c : flags &&& flagsBitC ≠ 0 ↔ 4294967296 ≤ sum
  z : flags &&& flagsBitZ ≠ 0 ↔ sum % 4294967296 = 0
  n : flags &&& flagsBitN ≠ 0 ↔ (sum % 4294967296).testBit 31 = true

structure Stores (sim after : SimState) (rd : Fin 16) (value : Word) : Prop where
  stored : after.r rd = value
  others : ∀ r, r ≠ rd → after.r r = sim.r r
  floats : after.f = sim.f

/-- What `cmp` and `cmpkp` are for, on one state and one instruction. -/
def CmpMeets (sim : SimState) (id : InstBytes) : Prop :=
  ∃ after kept, cpuExecCmp sim id = .ok (.continue, after) ∧
    cpuExecCmpkp sim id = .ok (.continue, kept) ∧
    FlagsOfSum (cmpSum sim id) after.flags ∧
    Stores sim after (lowNibble id.id1) after.flags ∧
    Stores sim kept (lowNibble id.id1) after.flags ∧ kept.flags = sim.flags

theorem cmpSum_operands (sim : SimState) (id : InstBytes) :
    ((cpuDecodeR4x2i8Ifhbs sim id).a + (cpuDecodeR4x2i8Ifhbs sim id).b).toNat =
      cmpSum sim id % 4294967296 := by
  unfold cpuDecodeR4x2i8Ifhbs cmpSum
  by_cases short : id.id3 &&& 0x80 ≠ 0
  · simp only [if_pos short, BitVec.toNat_add, ofByte_toNat]
  · simp only [if_neg short, BitVec.toNat_add, BitVec.toNat_ofNat]
    omega

theorem cpuIAdd32_sum (flags a b : Word) : (cpuIAdd32 flags a b).1 = a + b := by
  apply BitVec.eq_of_toNat_eq
  simp only [cpuIAdd32, BitVec.toNat_setWidth, BitVec.toNat_add]
  omega

theorem cpuIAdd32_flags (flags a b : Word) : (cpuIAdd32 flags a b).2 = flags &&& ~~~flagsBitC := by
  -- `~UINT32_MAX` is an unsigned 0 of 32 bits; widened for the test of the carry it stays 0
  have above : (~~~0xffffffff#32).setWidth 64 = 0#64 := by decide
  simp only [cpuIAdd32, above, BitVec.and_zero]
  simp

theorem compare_flags (sim : SimState) (id : InstBytes) :
    (cpuCompare sim id).flags =
      resultFlags (sim.flags &&& ~~~flagsBitC)
        ((cpuDecodeR4x2i8Ifhbs sim id).a + (cpuDecodeR4x2i8Ifhbs sim id).b) := by
  rw [← cpuIAdd32_flags _ (cpuDecodeR4x2i8Ifhbs sim id).a (cpuDecodeR4x2i8Ifhbs sim id).b,
    ← cpuIAdd32_sum sim.flags]
  rfl

/-- `C` is never set by a comparison. -/
theorem compare_carry (sim : SimState) (id : InstBytes) :
    (cpuCompare sim id).flags &&& flagsBitC = 0 := by
  have bit : (cpuCompare sim id).flags.getLsbD 2 = false := by
    rw [compare_flags, resultFlags_above _ _ (by decide) (by decide), BitVec.getLsbD_and,
      show (~~~flagsBitC).getLsbD 2 = false from rfl, Bool.and_false]
  exact (and_bit_eq_zero _ (i := 2) (by decide)).mpr bit

theorem compare_zero (sim : SimState) (id : InstBytes) :
    (cpuCompare sim id).flags &&& flagsBitZ ≠ 0 ↔ cmpSum sim id % 4294967296 = 0 := by
  rw [compare_flags, (resultFlags_reflect _ _).1, ← cmpSum_operands, ← BitVec.toNat_inj]
  rfl

theorem compare_negative (sim : SimState) (id : InstBytes) :
    (cpuCompare sim id).flags &&& flagsBitN ≠ 0 ↔
      (cmpSum sim id % 4294967296).testBit 31 = true := by
  rw [compare_flags, (resultFlags_reflect _ _).2, ← cmpSum_operands]
  rw [show (0 : Word) = 0#32 from rfl, BitVec.slt_zero_eq_msb, BitVec.msb_eq_getLsbD_last]
  rfl

theorem compare_stores (sim : SimState) (id : InstBytes) :
    Stores sim (cpuCompare sim id) (lowNibble id.id1) (cpuCompare sim id).flags where
  -- the operands are read before `$rD` is written, so `$rD` may be one of them
  stored := by
    unfold cpuCompare cpuDecodeR4x2i8Ifhbs
    split <;> exact Function.update_self ..
  others r other := by
    unfold cpuCompare cpuDecodeR4x2i8Ifhbs
    split <;> exact Function.update_of_ne other ..
  floats := rfl

/-- Without a carry `cmp` and `cmpkp` do what they are for; with one `C` is missing. -/
theorem cmpMeets_iff (sim : SimState) (id : InstBytes) :
    CmpMeets sim id ↔ cmpSum sim id < 4294967296 := by
  have stores := compare_stores sim id
  constructor
  · rintro ⟨after, kept, cmp, -, flags, -⟩
    apply Nat.lt_of_not_le
    intro carry
    cases cmp
    exact flags.c.mpr carry (compare_carry sim id)
  · intro small
    have clear : ¬ (cpuCompare sim id).flags &&& flagsBitC ≠ 0 :=
      not_not_intro (compare_carry sim id)
    have flags : FlagsOfSum (cmpSum sim id) (cpuCompare sim id).flags :=
      ⟨iff_of_false clear (Nat.not_le_of_lt small), compare_zero sim id, compare_negative sim id⟩
    exact ⟨_, _, rfl, rfl, flags, ⟨stores.1, stores.2, stores.3⟩, ⟨stores.1, stores.2, stores.3⟩,
      rfl⟩

/-- `cmp $r2,$r1,1` where `$r1` is `0xffffffff`: the sum is `2 ^ 32`, and `C` is not set. -/
theorem cmp_carry_missing : ∃ after,
    cpuExecCmp (clearedSim.setR 1 0xffffffff) ⟨0x00, 0x12, 0x01, 0xa0⟩ = .ok (.continue, after) ∧
      cmpSum (clearedSim.setR 1 0xffffffff) ⟨0x00, 0x12, 0x01, 0xa0⟩ = 4294967296 ∧
      after.flags = flagsBitZ ∧ after.flags &&& flagsBitC = 0 ∧
      ¬ CmpMeets (clearedSim.setR 1 0xffffffff) ⟨0x00, 0x12, 0x01, 0xa0⟩ := by
  refine ⟨_, rfl, by decide, by decide, by decide, ?_⟩
  rintro ⟨after, kept, cmp, -, flags, -⟩
  cases cmp
  exact flags.c.mpr (by decide) (compare_carry _ _)

end Estros
