import Estros.IsaSteps

/-!
Stores with a load behind them. A store writes the low byte first and a load takes the first
byte for the high one, so a value of several bytes comes back with its bytes reversed.
-/

namespace Estros

def stepOperands (sim : SimState) : CpuDecodeR4x2i8Ifhbs := cpuDecodeR4x2i8Ifhbs sim (cpuFetch sim)

structure StoreLoad (fpu : FloatUnit) (store load : XmInst) (sim stored loaded : SimState) :
    Prop where
  stores : Selects sim store
  storing : CpuSteps fpu sim stored
  loads : Selects stored load
  loading : CpuSteps fpu stored loaded
  same : (stepOperands stored).addr = (stepOperands sim).addr

def storedValue (sim : SimState) : Word := sim.r (stepOperands sim).dp
def loadedValue (stored loaded : SimState) : Word := loaded.r (stepOperands stored).dp

section Steps

variable {fpu : FloatUnit} {sim stored loaded : SimState} {store load : XmInst}
  {write : Memory → Word → Word → Memory} {read : Memory → Word → Word}

theorem store_step (handler : ∀ fuel sim id, cpuExec fpu fuel store sim id = cpuExecStore write sim id)
    (stores : Selects sim store) (storing : CpuSteps fpu sim stored) :
    stored.mem = write sim.mem (stepOperands sim).addr (storedValue sim) := by
  obtain ⟨fuel, cer, done⟩ := storing
  rw [stores.step_eq, handler] at done
  cases done
  rfl

theorem load_step (handler : ∀ fuel sim id, cpuExec fpu fuel load sim id = cpuExecLoad read sim id)
    (loads : Selects stored load) (loading : CpuSteps fpu stored loaded) :
    loadedValue stored loaded = read stored.mem (stepOperands stored).addr := by
  obtain ⟨fuel, cer, done⟩ := loading
  rw [loads.step_eq, handler] at done
  cases done
  exact Function.update_self (stepOperands stored).dp
    (read stored.mem (stepOperands stored).addr) stored.r

theorem StoreLoad.value (run : StoreLoad fpu store load sim stored loaded)
    (writes : ∀ fuel sim id, cpuExec fpu fuel store sim id = cpuExecStore write sim id)
    (reads : ∀ fuel sim id, cpuExec fpu fuel load sim id = cpuExecLoad read sim id) :
    loadedValue stored loaded =
      read (write sim.mem (stepOperands sim).addr (storedValue sim)) (stepOperands sim).addr := by
  rw [load_step reads run.loads run.loading, store_step writes run.stores run.storing, run.same]

end Steps

theorem toByte_toNat {width : Nat} (v : BitVec width) : (toByte v).toNat = v.toNat % 256 := by
  change (v.setWidth 8).toNat = _
  exact BitVec.toNat_setWidth ..

theorem toNat_bytes (v : Word) : v.toNat =
    (toByte (v >>> 0)).toNat + 256 * (toByte (v >>> 8)).toNat +
      65536 * (toByte (v >>> 16)).toNat + 16777216 * (toByte (v >>> 24)).toNat := by
  have second : v.toNat >>> 8 = v.toNat / 256 := Nat.shiftRight_eq_div_pow v.toNat 8
  have third : v.toNat >>> 16 = v.toNat / 256 / 256 :=
    (Nat.shiftRight_eq_div_pow v.toNat 16).trans (Nat.div_div_eq_div_mul v.toNat 256 256).symm
  have fourth : v.toNat >>> 24 = v.toNat / 256 / 256 / 256 := by
    rw [Nat.div_div_eq_div_mul, Nat.div_div_eq_div_mul]
    exact Nat.shiftRight_eq_div_pow v.toNat 24
  have bound := v.isLt
  simp only [toByte_toNat, BitVec.toNat_ushiftRight, second, third, fourth, Nat.shiftRight_zero]
  omega

theorem read16_write16 (mem : Memory) (addr v : Word) :
    (cpuRead16 (cpuWrite16 mem addr (v.setWidth 16)) addr).toNat =
      256 * (toByte (v >>> 0)).toNat + (toByte (v >>> 8)).toNat := by
  have each : ∀ i < 2, cpuRead8 (cpuWrite16 mem addr (v.setWidth 16)) (addr + BitVec.ofNat 32 i) =
      toByte (v >>> (8 * i)) := fun i small => cpuRead8_write16_word mem addr v small
  rw [cpuRead16_toNat, each 0 (by decide), each 1 (by decide), Nat.mul_comm]

theorem read32_write32 (mem : Memory) (addr v : Word) :
    (cpuRead32 (cpuWrite32 mem addr v) addr).toNat =
      16777216 * (toByte (v >>> 0)).toNat + 65536 * (toByte (v >>> 8)).toNat +
        256 * (toByte (v >>> 16)).toNat + (toByte (v >>> 24)).toNat := by
  have each : ∀ i shift, i < 4 → shift = 8 * i →
      cpuRead8 (cpuWrite32 mem addr v) (addr + BitVec.ofNat 32 i) = toByte (v >>> shift) := by
    rintro i shift small rfl
    have page : pageSize = 8192 := rfl
    rw [cpuRead8_write32 mem addr v (by omega), if_pos small]
  rw [cpuRead32_toNat, cpuRead16_toNat, cpuRead16_toNat, offset_add, offset_add,
    each 0 0 (by decide) rfl, each 1 8 (by decide) rfl, each (2 + 0) 16 (by decide) rfl,
    each (2 + 1) 24 (by decide) rfl]
  omega

def Palindrome32 (v : Word) : Prop :=
  toByte (v >>> 0) = toByte (v >>> 24) ∧ toByte (v >>> 8) = toByte (v >>> 16)

def Palindrome16 (v : Word) : Prop := toByte (v >>> 0) = toByte (v >>> 8)

theorem read32_write32_iff (mem : Memory) (addr v : Word) :
    cpuRead32 (cpuWrite32 mem addr v) addr = v ↔ Palindrome32 v := by
  have first := (toByte (v >>> 0)).toNat_lt
  have second := (toByte (v >>> 8)).toNat_lt
  have third := (toByte (v >>> 16)).toNat_lt
  have fourth := (toByte (v >>> 24)).toNat_lt
  have digits := toNat_bytes v
  rw [← BitVec.toNat_inj, read32_write32, Palindrome32, ← UInt8.toNat_inj, ← UInt8.toNat_inj]
  omega

theorem read16_write16_iff (mem : Memory) (addr v : Word) :
    (cpuRead16 (cpuWrite16 mem addr (v.setWidth 16)) addr).toNat = v.toNat % 65536 ↔
      Palindrome16 v := by
  have first := (toByte (v >>> 0)).toNat_lt
  have second := (toByte (v >>> 8)).toNat_lt
  have digits := toNat_bytes v
  rw [read16_write16, Palindrome16, ← UInt8.toNat_inj]
  omega

def writeHalf (mem : Memory) (addr value : Word) : Memory :=
  cpuWrite16 mem addr (value.setWidth 16)
def readHalf (mem : Memory) (addr : Word) : Word := (cpuRead16 mem addr).setWidth 32
def writeByte (mem : Memory) (addr value : Word) : Memory := cpuWrite8 mem addr (toByte value)
def readByte (mem : Memory) (addr : Word) : Word := ofByte (cpuRead8 mem addr)

/-- A load behind a store finds the value again exactly if the bytes that are stored read the same
from both ends; a single byte always comes back. -/
theorem loads_read_back (fpu : FloatUnit) {sim stored loaded : SimState} :
    (StoreLoad fpu .stl .ldl sim stored loaded →
      (loadedValue stored loaded = storedValue sim ↔ Palindrome32 (storedValue sim))) ∧
    (StoreLoad fpu .stw .ldw sim stored loaded →
      ((loadedValue stored loaded).toNat = (storedValue sim).toNat % 65536 ↔
        Palindrome16 (storedValue sim))) ∧
    (StoreLoad fpu .stb .ldb sim stored loaded →
      (loadedValue stored loaded).toNat = (storedValue sim).toNat % 256) := by
  refine ⟨fun run => ?_, fun run => ?_, fun run => ?_⟩
  · rw [@StoreLoad.value fpu _ _ _ _ _ cpuWrite32 cpuRead32 run (fun _ _ _ => rfl) fun _ _ _ => rfl]
    exact read32_write32_iff _ _ _
  · rw [@StoreLoad.value fpu _ _ _ _ _ writeHalf readHalf run (fun _ _ _ => rfl) fun _ _ _ => rfl,
      readHalf, BitVec.toNat_setWidth_of_le (by decide)]
    exact read16_write16_iff _ _ _
  · rw [@StoreLoad.value fpu _ _ _ _ _ writeByte readByte run (fun _ _ _ => rfl) fun _ _ _ => rfl,
      readByte, writeByte, cpuRead8_write8_self, ofByte_toNat, toByte_toNat]

def storeSim (store load : UInt8) : SimState :=
  { simBoot [0x00, 0x21, 0x00, store, 0x00, 0x23, 0x00, load] with
    r := fun k => if k.val = 1 then 0x01020304 else if k.val = 2 then simRamBase else 0 }

def storeMiddle (write : Memory → Word → Word → Memory) (sim : SimState) : SimState :=
  { sim with
    ticks := sim.ticks + 1
    pc := sim.pc + 4
    mem := write sim.mem (stepOperands sim).addr (storedValue sim) }

def storeLast (read : Memory → Word → Word) (sim : SimState) : SimState :=
  { sim.setR (stepOperands sim).dp (read sim.mem (stepOperands sim).addr) with
    ticks := sim.ticks + 1
    pc := sim.pc + 4 }

theorem storeLong_runs : StoreLoad noFloats .stl .ldl (storeSim 0x92 0x96)
    (storeMiddle cpuWrite32 (storeSim 0x92 0x96))
    (storeLast cpuRead32 (storeMiddle cpuWrite32 (storeSim 0x92 0x96))) := by
  have stores : Selects (storeSim 0x92 0x96) .stl :=
    ⟨.elem .stl "stl" .r4r4i8o8Ifhbs 0x12, by decide +kernel, rfl⟩
  have loads : Selects (storeMiddle cpuWrite32 (storeSim 0x92 0x96)) .ldl :=
    ⟨.elem .ldl "ldl" .r4r4i8o8Ifhbs 0x16, by decide +kernel, rfl⟩
  exact ⟨stores, ⟨0, .continue, stores.step_eq 0⟩, loads, ⟨0, .continue, loads.step_eq 0⟩,
    by decide +kernel⟩

theorem storeHalf_runs : StoreLoad noFloats .stw .ldw (storeSim 0x91 0x95)
    (storeMiddle writeHalf (storeSim 0x91 0x95))
    (storeLast readHalf (storeMiddle writeHalf (storeSim 0x91 0x95))) := by
  have stores : Selects (storeSim 0x91 0x95) .stw :=
    ⟨.elem .stw "stw" .r4r4i8o8Ifhbs 0x11, by decide +kernel, rfl⟩
  have loads : Selects (storeMiddle writeHalf (storeSim 0x91 0x95)) .ldw :=
    ⟨.elem .ldw "ldw" .r4r4i8o8Ifhbs 0x15, by decide +kernel, rfl⟩
  exact ⟨stores, ⟨0, .continue, stores.step_eq 0⟩, loads, ⟨0, .continue, loads.step_eq 0⟩,
    by decide +kernel⟩

theorem storeByte_runs : StoreLoad noFloats .stb .ldb (storeSim 0x90 0x94)
    (storeMiddle writeByte (storeSim 0x90 0x94))
    (storeLast readByte (storeMiddle writeByte (storeSim 0x90 0x94))) := by
  have stores : Selects (storeSim 0x90 0x94) .stb :=
    ⟨.elem .stb "stb" .r4r4i8o8Ifhbs 0x10, by decide +kernel, rfl⟩
  have loads : Selects (storeMiddle writeByte (storeSim 0x90 0x94)) .ldb :=
    ⟨.elem .ldb "ldb" .r4r4i8o8Ifhbs 0x14, by decide +kernel, rfl⟩
  exact ⟨stores, ⟨0, .continue, stores.step_eq 0⟩, loads, ⟨0, .continue, loads.step_eq 0⟩,
    by decide +kernel⟩

theorem storeSim_reads_back :
    (loadedValue (storeMiddle cpuWrite32 (storeSim 0x92 0x96))
        (storeLast cpuRead32 (storeMiddle cpuWrite32 (storeSim 0x92 0x96))) =
          storedValue (storeSim 0x92 0x96) ↔ Palindrome32 (storedValue (storeSim 0x92 0x96))) ∧
      ((loadedValue (storeMiddle writeHalf (storeSim 0x91 0x95))
        (storeLast readHalf (storeMiddle writeHalf (storeSim 0x91 0x95)))).toNat =
          (storedValue (storeSim 0x91 0x95)).toNat % 65536 ↔
            Palindrome16 (storedValue (storeSim 0x91 0x95))) ∧
      (loadedValue (storeMiddle writeByte (storeSim 0x90 0x94))
        (storeLast readByte (storeMiddle writeByte (storeSim 0x90 0x94)))).toNat =
          (storedValue (storeSim 0x90 0x94)).toNat % 256 :=
  ⟨(loads_read_back noFloats).1 storeLong_runs, (loads_read_back noFloats).2.1 storeHalf_runs,
    (loads_read_back noFloats).2.2 storeByte_runs⟩

/-- The value 0x01020304 comes back as 0x04030201. -/
theorem storeSim_reverses : StoreLoad noFloats .stl .ldl (storeSim 0x92 0x96)
      (storeMiddle cpuWrite32 (storeSim 0x92 0x96))
      (storeLast cpuRead32 (storeMiddle cpuWrite32 (storeSim 0x92 0x96))) ∧
    storedValue (storeSim 0x92 0x96) = 0x01020304 ∧
    loadedValue (storeMiddle cpuWrite32 (storeSim 0x92 0x96))
      (storeLast cpuRead32 (storeMiddle cpuWrite32 (storeSim 0x92 0x96))) = 0x04030201 :=
  ⟨storeLong_runs, by decide +kernel, by decide +kernel⟩

end Estros
