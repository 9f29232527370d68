import Estros.IsaSimulator

/-!
The memory of the simulator as a map of cells: which addresses share a cell, and what a byte
that was written does to later reads.
-/

namespace Estros

/-- The windows of `rom` and `ram`. -/
def InRom (addr : Word) : Prop := 32768 ≤ addr.toNat ∧ addr.toNat < 163840
def InRam (addr : Word) : Prop := 4026531840 ≤ addr.toNat ∧ addr.toNat < 4030726144

theorem InRom.not_inRam {addr : Word} (inside : InRom addr) : ¬ InRam addr := by
  rintro ⟨above, _⟩
  have below := inside.2
  omega

theorem sub_toNat {addr base : Word} (above : base.toNat ≤ addr.toNat) :
    (addr - base).toNat = addr.toNat - base.toNat := by
  rw [BitVec.toNat_sub]
  have high := addr.isLt
  have low := base.isLt
  omega

theorem cpuTranslate_inRom {addr : Word} (inside : InRom addr) :
    ∃ bound, cpuTranslate addr = .rom ⟨addr.toNat - 32768, bound⟩ := by
  have size : simRomSize = 131072 := rfl
  have distance : (addr - simRomBase).toNat = addr.toNat - 32768 := sub_toNat inside.1
  have small : addr.toNat - 32768 < simRomSize := by
    have below := inside.2
    omega
  refine ⟨small, (if_pos inside).trans (congrArg Cell.rom (Fin.ext ?_))⟩
  change (addr - simRomBase).toNat % simRomSize = addr.toNat - 32768
  rw [distance, Nat.mod_eq_of_lt small]

theorem cpuTranslate_inRam {addr : Word} (inside : InRam addr) :
    ∃ bound, cpuTranslate addr = .ram ⟨addr.toNat - 4026531840, bound⟩ := by
  have size : simRamSize = 4194304 := rfl
  have distance : (addr - simRamBase).toNat = addr.toNat - 4026531840 := sub_toNat inside.1
  have small : addr.toNat - 4026531840 < simRamSize := by
    have below := inside.2
    omega
  have outside : ¬ InRom addr := fun rom => rom.not_inRam inside
  refine ⟨small, (if_neg outside).trans ((if_pos inside).trans (congrArg Cell.ram (Fin.ext ?_)))⟩
  change (addr - simRamBase).toNat % simRamSize = addr.toNat - 4026531840
  rw [distance, Nat.mod_eq_of_lt small]

theorem cpuTranslate_outside {addr : Word} (rom : ¬ InRom addr) (ram : ¬ InRam addr) :
    cpuTranslate addr = .trapPage ⟨addr.toNat % pageSize, Nat.mod_lt _ pageSize_pos⟩ :=
  (if_neg rom).trans (if_neg ram)

def InTrap (addr : Word) : Prop := ¬ InRom addr ∧ ¬ InRam addr

theorem window_cases (addr : Word) : InRom addr ∨ InRam addr ∨ InTrap addr := by
  by_cases rom : InRom addr
  · exact Or.inl rom
  · by_cases ram : InRam addr
    · exact Or.inr (Or.inl ram)
    · exact Or.inr (Or.inr ⟨rom, ram⟩)

theorem sub_inj {one two base : Nat} (left : base ≤ one) (right : base ≤ two)
    (same : one - base = two - base) : one = two := by omega

/-- Two addresses share a cell exactly if they are equal or meet in the trap page. -/
theorem cpuTranslate_eq_iff (one two : Word) : cpuTranslate one = cpuTranslate two ↔
    one = two ∨ InTrap one ∧ InTrap two ∧ one.toNat % pageSize = two.toNat % pageSize := by
  constructor
  · -- cells of two windows differ, and inside the ROM and the RAM the cell gives the address
    intro same
    rcases window_cases one with rom | ram | trap
    · obtain ⟨_, here⟩ := cpuTranslate_inRom rom
      rcases window_cases two with rom' | ram' | trap'
      · obtain ⟨_, there⟩ := cpuTranslate_inRom rom'
        rw [here, there] at same
        have offsets := Fin.mk.inj (Cell.rom.inj same)
        exact Or.inl (BitVec.eq_of_toNat_eq (sub_inj rom.1 rom'.1 offsets))
      · obtain ⟨_, there⟩ := cpuTranslate_inRam ram'
        rw [here, there] at same
        cases same
      · rw [here, cpuTranslate_outside trap'.1 trap'.2] at same
        cases same
    · obtain ⟨_, here⟩ := cpuTranslate_inRam ram
      rcases window_cases two with rom' | ram' | trap'
      · obtain ⟨_, there⟩ := cpuTranslate_inRom rom'
        rw [here, there] at same
        cases same
      · obtain ⟨_, there⟩ := cpuTranslate_inRam ram'
        rw [here, there] at same
        have offsets := Fin.mk.inj (Cell.ram.inj same)
        exact Or.inl (BitVec.eq_of_toNat_eq (sub_inj ram.1 ram'.1 offsets))
      · rw [here, cpuTranslate_outside trap'.1 trap'.2] at same
        cases same
    · rw [cpuTranslate_outside trap.1 trap.2] at same
      rcases window_cases two with rom' | ram' | trap'
      · obtain ⟨_, there⟩ := cpuTranslate_inRom rom'
        rw [there] at same
        cases same
      · obtain ⟨_, there⟩ := cpuTranslate_inRam ram'
        rw [there] at same
        cases same
      · rw [cpuTranslate_outside trap'.1 trap'.2] at same
        exact Or.inr ⟨trap, trap', Fin.mk.inj (Cell.trapPage.inj same)⟩
  · rintro (rfl | ⟨trap, trap', meet⟩)
    · rfl
    · rw [cpuTranslate_outside trap.1 trap.2, cpuTranslate_outside trap'.1 trap'.2]
      exact congrArg Cell.trapPage (Fin.ext meet)

theorem cells_apart (addr : Word) {i j : Nat} (differ : i ≠ j) (left : i < pageSize)
    (right : j < pageSize) :
    cpuTranslate (addr + BitVec.ofNat 32 i) ≠ cpuTranslate (addr + BitVec.ofNat 32 j) := by
  have page : pageSize = 8192 := rfl
  have value : ∀ k, (addr + BitVec.ofNat 32 k).toNat % 8192 = (addr.toNat + k) % 8192 := by
    intro k
    rw [BitVec.toNat_add, BitVec.toNat_ofNat]
    omega
  have residues : (addr + BitVec.ofNat 32 i).toNat % 8192 ≠
      (addr + BitVec.ofNat 32 j).toNat % 8192 := by
    rw [value, value]
    omega
  intro same
  rcases (cpuTranslate_eq_iff _ _).mp same with equal | ⟨_, _, meet⟩
  · exact residues (by rw [equal])
  · exact residues meet

theorem cpuRead8_write8 (mem : Memory) (addr other : Word) (v : UInt8) :
    cpuRead8 (cpuWrite8 mem addr v) other =
      if cpuTranslate other = cpuTranslate addr then v else cpuRead8 mem other := by
  by_cases same : cpuTranslate other = cpuTranslate addr
  · rw [if_pos same, cpuRead8, cpuWrite8, same, Function.update_self]
  · rw [if_neg same, cpuRead8, cpuWrite8, Function.update_of_ne same, cpuRead8]

theorem cpuRead8_write8_self (mem : Memory) (addr : Word) (v : UInt8) :
    cpuRead8 (cpuWrite8 mem addr v) addr = v := by
  rw [cpuRead8_write8, if_pos rfl]

theorem cpuRead8_write8_near (mem : Memory) (addr : Word) {i j : Nat} (differ : i ≠ j)
    (left : i < pageSize) (right : j < pageSize) (v : UInt8) :
    cpuRead8 (cpuWrite8 mem (addr + BitVec.ofNat 32 j) v) (addr + BitVec.ofNat 32 i) =
      cpuRead8 mem (addr + BitVec.ofNat 32 i) := by
  rw [cpuRead8_write8, if_neg (cells_apart addr differ left right)]

theorem offset_add (addr : Word) (i j : Nat) :
    addr + BitVec.ofNat 32 i + BitVec.ofNat 32 j = addr + BitVec.ofNat 32 (i + j) := by
  rw [BitVec.add_assoc, BitVec.ofNat_add]

theorem cpuRead8_write16 (mem : Memory) (addr : Word) (v : BitVec 16) {i j : Nat}
    (left : i < pageSize) (right : j + 1 < pageSize) :
    cpuRead8 (cpuWrite16 mem (addr + BitVec.ofNat 32 j) v) (addr + BitVec.ofNat 32 i) =
      if i = j + 1 then toByte (v >>> 8) else if i = j then toByte v
      else cpuRead8 mem (addr + BitVec.ofNat 32 i) := by
  have first : addr + BitVec.ofNat 32 j + 0 = addr + BitVec.ofNat 32 j := BitVec.add_zero _
  have second : addr + BitVec.ofNat 32 j + 1 = addr + BitVec.ofNat 32 (j + 1) := offset_add addr j 1
  rw [cpuWrite16, first, second, BitVec.ushiftRight_zero]
  by_cases last : i = j + 1
  · rw [if_pos last, last, cpuRead8_write8_self]
  · rw [if_neg last, cpuRead8_write8_near _ _ last left right]
    by_cases start : i = j
    · rw [if_pos start, start, cpuRead8_write8_self]
    · rw [if_neg start, cpuRead8_write8_near _ _ start left (by omega)]

theorem toByte_half (v : Word) (shift : Nat) :
    toByte ((v >>> shift).setWidth 16) = toByte (v >>> shift) ∧
      toByte (((v >>> shift).setWidth 16) >>> 8) = toByte (v >>> (shift + 8)) := by
  constructor
  · exact congrArg UInt8.ofBitVec (BitVec.setWidth_setWidth_of_le _ (by decide))
  · apply congrArg UInt8.ofBitVec
    apply BitVec.eq_of_getLsbD_eq
    intro i small
    have inside : 8 + i < 16 := by omega
    simp [BitVec.getLsbD_ushiftRight, small, inside, Nat.add_assoc]

theorem cpuRead8_write16_word (mem : Memory) (addr v : Word) {i : Nat} (inside : i < 2) :
    cpuRead8 (cpuWrite16 mem addr (v.setWidth 16)) (addr + BitVec.ofNat 32 i) =
      toByte (v >>> (8 * i)) := by
  have page : pageSize = 8192 := rfl
  have start : addr + BitVec.ofNat 32 0 = addr := BitVec.add_zero addr
  have byte := @cpuRead8_write16 mem addr (v.setWidth 16) i 0 (by omega) (by omega)
  rw [start] at byte
  have cases : i = 0 ∨ i = 1 := by omega
  rcases cases with rfl | rfl
  · exact byte.trans (toByte_half v 0).1
  · exact byte.trans (toByte_half v 0).2

theorem cpuRead8_write32 (mem : Memory) (addr v : Word) {i : Nat} (inside : i < pageSize) :
    cpuRead8 (cpuWrite32 mem addr v) (addr + BitVec.ofNat 32 i) =
      if i < 4 then toByte (v >>> (8 * i)) else cpuRead8 mem (addr + BitVec.ofNat 32 i) := by
  have page : pageSize = 8192 := rfl
  have start : cpuWrite32 mem addr v =
      cpuWrite16 (cpuWrite16 mem (addr + BitVec.ofNat 32 0) ((v >>> 0).setWidth 16))
        (addr + BitVec.ofNat 32 2) ((v >>> 16).setWidth 16) := by
    rw [cpuWrite32, BitVec.add_zero]
    rfl
  rw [start, cpuRead8_write16 _ _ _ inside (by omega), cpuRead8_write16 _ _ _ inside (by omega),
    (toByte_half v 0).1, (toByte_half v 0).2, (toByte_half v 16).1, (toByte_half v 16).2]
  by_cases low : i < 4
  · rw [if_pos low]
    have cases : i = 0 ∨ i = 1 ∨ i = 2 ∨ i = 3 := by omega
    rcases cases with rfl | rfl | rfl | rfl <;> rfl
  · rw [if_neg low, if_neg (by omega), if_neg (by omega), if_neg (by omega), if_neg (by omega)]

theorem join_toNat {half whole : Nat} (double : whole = half + half) (high low : BitVec half) :
    ((high.setWidth whole <<< half) ||| low.setWidth whole).toNat =
      high.toNat <<< half + low.toNat := by
  subst double
  have above := high.isLt
  have below := low.isLt
  have fits : ∀ field : BitVec half, (field.setWidth (half + half)).toNat = field.toNat := by
    intro field
    exact BitVec.toNat_setWidth_of_le (Nat.le_add_right half half)
  have shifted : high.toNat <<< half < Nat.pow 2 (half + half) := by
    rw [Nat.shiftLeft_eq]
    calc high.toNat * Nat.pow 2 half < Nat.pow 2 half * Nat.pow 2 half :=
          Nat.mul_lt_mul_of_pos_right above (Nat.two_pow_pos half)
      _ = Nat.pow 2 (half + half) := (Nat.pow_add 2 half half).symm
  have value : (high.setWidth (half + half) <<< half).toNat = high.toNat <<< half := by
    rw [BitVec.toNat_shiftLeft, fits]
    exact Nat.mod_eq_of_lt shifted
  rw [BitVec.toNat_or, value, fits, Nat.shiftLeft_add_eq_or_of_lt below]

/-- Two bytes are read with the first one as the high one. -/
theorem cpuRead16_toNat (mem : Memory) (addr : Word) : (cpuRead16 mem addr).toNat =
    (cpuRead8 mem (addr + BitVec.ofNat 32 0)).toNat * 256 +
      (cpuRead8 mem (addr + BitVec.ofNat 32 1)).toNat := by
  have joined := @join_toNat 8 16 rfl (cpuRead8 mem (addr + 0)).toBitVec
    (cpuRead8 mem (addr + 1)).toBitVec
  rw [cpuRead16, BitVec.shiftLeft_zero]
  exact joined.trans (by rw [Nat.shiftLeft_eq]; rfl)

theorem cpuRead32_toNat (mem : Memory) (addr : Word) : (cpuRead32 mem addr).toNat =
    (cpuRead16 mem addr).toNat * 65536 + (cpuRead16 mem (addr + BitVec.ofNat 32 2)).toNat := by
  have joined := @join_toNat 16 32 rfl (cpuRead16 mem addr)
    (cpuRead16 mem (addr + BitVec.ofNat 32 2))
  have start : addr + 0 = addr := BitVec.add_zero addr
  rw [cpuRead32, BitVec.shiftLeft_zero, start]
  exact joined.trans (by rw [Nat.shiftLeft_eq])

end Estros
