import Mathlib.Logic.Function.Basic
import Estros.IsaTable
import Estros.Loops

/-!
The simulator isa/sim.c: its memory, the handlers of the instructions, and `cpu_step`.
The registers `f` hold the bits of their floats, and the arithmetic of floats is a parameter.
The counters in `perf` other than `ticks` are only printed and left out, and so are the
registers that no instruction reads.
-/

namespace Estros

def pageSize : Nat := 8192
def simRamBase : Word := 0xf0000000
def simRomBase : Word := 0x8000
def simRamSize : Nat := pageSize * 512
def simRomSize : Nat := pageSize * 16

/-- A byte of `rom`, `ram` or `trap_page`. -/
inductive Cell where
  | rom (offset : Fin simRomSize)
  | ram (offset : Fin simRamSize)
  | trapPage (offset : Fin pageSize)
  deriving DecidableEq

abbrev Memory := Cell → UInt8

theorem simRomSize_pos : 0 < simRomSize := Nat.succ_pos 131071
theorem simRamSize_pos : 0 < simRamSize := Nat.succ_pos 4194303
theorem pageSize_pos : 0 < pageSize := Nat.succ_pos 8191

def cpuTranslate (a : Word) : Cell :=
  if simRomBase ≤ a ∧ a < simRomBase + BitVec.ofNat 32 simRomSize then
    .rom ⟨(a - simRomBase).toNat % simRomSize, Nat.mod_lt _ simRomSize_pos⟩
  else if simRamBase ≤ a ∧ a < simRamBase + BitVec.ofNat 32 simRamSize then
    .ram ⟨(a - simRamBase).toNat % simRamSize, Nat.mod_lt _ simRamSize_pos⟩
  else .trapPage ⟨a.toNat % pageSize, Nat.mod_lt _ pageSize_pos⟩

def cpuRead8 (mem : Memory) (addr : Word) : UInt8 := mem (cpuTranslate addr)

def cpuWrite8 (mem : Memory) (addr : Word) (v : UInt8) : Memory :=
  Function.update mem (cpuTranslate addr) v

def cpuRead16 (mem : Memory) (addr : Word) : BitVec 16 :=
  ((cpuRead8 mem (addr + 0)).toBitVec.setWidth 16 <<< 8) |||
    ((cpuRead8 mem (addr + 1)).toBitVec.setWidth 16 <<< 0)

def cpuWrite16 (mem : Memory) (addr : Word) (v : BitVec 16) : Memory :=
  let mem := cpuWrite8 mem (addr + 0) (toByte (v >>> 0))
  cpuWrite8 mem (addr + 1) (toByte (v >>> 8))

def cpuRead32 (mem : Memory) (addr : Word) : Word :=
  ((cpuRead16 mem (addr + 0)).setWidth 32 <<< 16) |||
    ((cpuRead16 mem (addr + 2)).setWidth 32 <<< 0)

def cpuWrite32 (mem : Memory) (addr : Word) (v : Word) : Memory :=
  let mem := cpuWrite16 mem addr ((v >>> 0).setWidth 16)
  cpuWrite16 mem (addr + 2) ((v >>> 16).setWidth 16)

structure SimState where
  pc : Word
  flags : Word
  r : Fin 16 → Word
  f : Fin 16 → Word
  ticks : BitVec 64
  mem : Memory

inductive CpuExecuteResult where
  | continue | halt
  deriving DecidableEq

inductive CpuStop where
  | abort
  /-- the C code has no defined behaviour -/
  | undefined
  /-- a loop has used up the rounds that it was given -/
  | unfinished
  deriving DecidableEq

abbrev CpuResult := Except CpuStop (CpuExecuteResult × SimState)

structure InstBytes where
  id0 : UInt8
  id1 : UInt8
  id2 : UInt8
  id3 : UInt8
  deriving DecidableEq

def InstBytes.bytes (id : InstBytes) : List UInt8 := [id.id0, id.id1, id.id2, id.id3]

def lowNibble (b : UInt8) : Fin 16 := Fin.ofNat 16 (b &&& 0x0f).toNat

def highNibble (b : UInt8) : Fin 16 := Fin.ofNat 16 ((b >>> 4) &&& 0x0f).toNat

abbrev xmRegister (number : Nat) : Fin 16 := Fin.ofNat 16 number

theorem lowNibble_val (b : UInt8) : (lowNibble b).val = b.toNat % 16 := by
  have bits : (b &&& 0x0f).toNat = b.toNat % 16 := Nat.and_two_pow_sub_one_eq_mod b.toNat 4
  change (b &&& 0x0f).toNat % 16 = _
  rw [bits, Nat.mod_mod]

theorem highNibble_val (b : UInt8) : (highNibble b).val = b.toNat / 16 := by
  have shifted : (b >>> 4).toNat = b.toNat / 16 := Nat.shiftRight_eq_div_pow b.toNat 4
  have bits : ((b >>> 4) &&& 0x0f).toNat = (b >>> 4).toNat % 16 :=
    Nat.and_two_pow_sub_one_eq_mod (b >>> 4).toNat 4
  have bound := b.toNat_lt
  change ((b >>> 4) &&& 0x0f).toNat % 16 = _
  rw [bits, shifted]
  omega

def SimState.setR (sim : SimState) (rd : Fin 16) (value : Word) : SimState :=
  { sim with r := Function.update sim.r rd value }

def SimState.setF (sim : SimState) (rd : Fin 16) (value : Word) : SimState :=
  { sim with f := Function.update sim.f rd value }

def SimState.next (sim : SimState) : CpuResult := .ok (.continue, { sim with pc := sim.pc + 4 })

def SimState.updateFlags (sim : SimState) (value : Word) : SimState :=
  let flags := sim.flags &&& ~~~(flagsBitZ ||| flagsBitN)
  let flags := flags ||| if value = 0 then flagsBitZ else 0
  { sim with flags := flags ||| if value.slt 0 then flagsBitN else 0 }

def cpuIPopcount (v : Word) : Word :=
  Nat.fold 32 (fun i _ c => if v &&& (1#32 <<< i) ≠ 0 then c + 1 else c) 0

def cpuICountLoop (v : Word) : Nat → Nat → Word → Word
  | 0, _, c => c
  | rounds + 1, i, c =>
      if v &&& (1#32 <<< i) ≠ 0 then c else cpuICountLoop v rounds (i + 1) (c + 1)

def cpuIClz (v : Word) : Word := cpuICountLoop v 32 0 0
def cpuIClo (v : Word) : Word := cpuICountLoop v 32 0 0

def cpuIBswap (v : Word) : Word :=
  (((v >>> 24) &&& 0xff#32) <<< 0) ||| (((v >>> 16) &&& 0xff#32) <<< 8) |||
    (((v >>> 8) &&& 0xff#32) <<< 16) ||| (((v >>> 0) &&& 0xff#32) <<< 24)

/-- `cpu_i_add32`: the sum and the flags. `~UINT32_MAX` is an `unsigned int`. -/
def cpuIAdd32 (flags a b : Word) : Word × Word :=
  let result : BitVec 64 := a.setWidth 64 + b.setWidth 64
  let above : BitVec 64 := (~~~0xffffffff#32).setWidth 64
  let flags := flags &&& ~~~flagsBitC
  (result.setWidth 32, flags ||| if result &&& above ≠ 0 then flagsBitC else 0)

/-- What the floating point unit of the host computes, on the bits of floats: the expression
that a handler with three float operands stores, the sum of three, and the conversions, of
which the one to `uint32_t` need not be defined. -/
structure FloatUnit where
  value : XmInst → Word → Word → Word → Word
  sum : Word → Word → Word → Word
  toUint32 : Word → Option Word
  ofUint32 : Word → Word

/-- `cpu_decode_f4x4` and `cpu_decode_r4x4` read the same fields. -/
structure CpuDecode4 where
  rd : Fin 16
  ra : Fin 16
  rb : Fin 16
  rc : Fin 16

def cpuDecodeR4f4x3 (id : InstBytes) : CpuDecode4 where
  rd := lowNibble id.id1
  ra := highNibble id.id1
  rb := lowNibble id.id2
  rc := highNibble id.id2

def cpuExecF4x4 (fpu : FloatUnit) (inst : XmInst) (sim : SimState) (id : InstBytes) : CpuResult :=
  let ds := cpuDecodeR4f4x3 id
  (sim.setF ds.rd (fpu.value inst (sim.f ds.ra) (sim.f ds.rb) (sim.f ds.rc))).next

/-- The sum is stored as a `float` where the register `rd` is. -/
def cpuExecFcvti (fpu : FloatUnit) (sim : SimState) (id : InstBytes) : CpuResult :=
  let ds := cpuDecodeR4f4x3 id
  (sim.setR ds.rd (fpu.sum (sim.f ds.ra) (sim.f ds.rb) (sim.f ds.rc))).next

def cpuExecIcvtf (sim : SimState) (id : InstBytes) : CpuResult :=
  let ds := cpuDecodeR4f4x3 id
  (sim.setF ds.rd (sim.r ds.ra + sim.r ds.rb + sim.r ds.rc)).next

def cpuExecFcvtri (fpu : FloatUnit) (sim : SimState) (id : InstBytes) : CpuResult :=
  let ds := cpuDecodeR4f4x3 id
  match fpu.toUint32 (fpu.sum (sim.f ds.ra) (sim.f ds.rb) (sim.f ds.rc)) with
  | some value => (sim.setR ds.rd value).next
  | none => .error .undefined

def cpuExecIcvtrf (fpu : FloatUnit) (sim : SimState) (id : InstBytes) : CpuResult :=
  let ds := cpuDecodeR4f4x3 id
  (sim.setF ds.rd (fpu.ofUint32 (sim.r ds.ra + sim.r ds.rb + sim.r ds.rc))).next

structure CpuDecodeR4x2i8Ifhbs where
  dp : Fin 16
  addr : Word
  a : Word
  b : Word

def cpuDecodeR4x2i8Ifhbs (sim : SimState) (id : InstBytes) : CpuDecodeR4x2i8Ifhbs :=
  if id.id3 &&& 0x80 ≠ 0 then
    let rd := lowNibble id.id1
    let ra := highNibble id.id1
    let imm := ofByte id.id2
    { addr := sim.r ra + imm * 4, dp := rd, a := sim.r ra, b := imm }
  else
    let rd := lowNibble id.id1
    let ra := highNibble id.id1
    let rb := lowNibble id.id2
    let imm := BitVec.ofNat 32 (highNibble id.id2).val
    { addr := sim.r ra + sim.r rb * imm * 4, dp := rd, a := sim.r ra, b := sim.r rb + imm }

def cpuExecAlu (value : Word → Word → Option Word) (sim : SimState) (id : InstBytes) : CpuResult :=
  let ds := cpuDecodeR4x2i8Ifhbs sim id
  match value ds.a ds.b with
  | some result => ((sim.setR ds.dp result).updateFlags result).next
  | none => .error .undefined

def cpuExecAdd := cpuExecAlu fun a b => some (a + b)
def cpuExecSub := cpuExecAlu fun a b => some (a - b)
def cpuExecMul := cpuExecAlu fun a b => some (a * b)
def cpuExecDiv := cpuExecAlu fun a b => if b = 0 then none else some (a / b)
def cpuExecRem := cpuExecAlu fun a b => if b = 0 then none else some (a % b)
/-- The signed product wraps around. -/
def cpuExecImul := cpuExecAlu fun a b => some (BitVec.ofInt 32 (a.toInt * b.toInt))
def cpuExecAnd := cpuExecAlu fun a b => some (a &&& b)
def cpuExecXor := cpuExecAlu fun a b => some (a ^^^ b)
def cpuExecOr := cpuExecAlu fun a b => some (a ||| b)
def cpuExecShl := cpuExecAlu fun a b => if b.toNat < 32 then some (a <<< b.toNat) else none
def cpuExecShr := cpuExecAlu fun a b => if b.toNat < 32 then some (a >>> b.toNat) else none
def cpuExecPcnt := cpuExecAlu fun a b => some (cpuIPopcount (a + b))
def cpuExecClz := cpuExecAlu fun a b => some (cpuIClz (a + b))
def cpuExecClo := cpuExecAlu fun a b => some (cpuIClo (a + b))
def cpuExecBswap := cpuExecAlu fun a b => some (cpuIBswap (a + b))
def cpuExecIpcnt := cpuExecAlu fun a b => some (32 - cpuIPopcount (a + b))

def cpuExecStore (write : Memory → Word → Word → Memory) (sim : SimState) (id : InstBytes) :
    CpuResult :=
  let ds := cpuDecodeR4x2i8Ifhbs sim id
  { sim with mem := write sim.mem ds.addr (sim.r ds.dp) : SimState }.next

def cpuExecStb := cpuExecStore fun mem addr value => cpuWrite8 mem addr (toByte value)
def cpuExecStw := cpuExecStore fun mem addr value => cpuWrite16 mem addr (value.setWidth 16)
def cpuExecStl := cpuExecStore cpuWrite32
def cpuExecStq := cpuExecStore cpuWrite32

/-- The loads, by what they read at an address, and `lea`. -/
def cpuExecLoad (read : Memory → Word → Word) (sim : SimState) (id : InstBytes) : CpuResult :=
  let ds := cpuDecodeR4x2i8Ifhbs sim id
  (sim.setR ds.dp (read sim.mem ds.addr)).next

def cpuExecLdb := cpuExecLoad fun mem addr => ofByte (cpuRead8 mem addr)
def cpuExecLdw := cpuExecLoad fun mem addr => (cpuRead16 mem addr).setWidth 32
def cpuExecLdl := cpuExecLoad cpuRead32
def cpuExecLdq := cpuExecLoad cpuRead32
def cpuExecLea := cpuExecLoad fun _ addr => addr

def cpuCompare (sim : SimState) (id : InstBytes) : SimState :=
  let ds := cpuDecodeR4x2i8Ifhbs sim id
  let (r, flags) := cpuIAdd32 sim.flags ds.a ds.b
  let sim := { sim with flags := flags }.updateFlags r
  sim.setR ds.dp sim.flags

def cpuExecCmp (sim : SimState) (id : InstBytes) : CpuResult := (cpuCompare sim id).next

def cpuExecCmpkp (sim : SimState) (id : InstBytes) : CpuResult :=
  { cpuCompare sim id with flags := sim.flags : SimState }.next

structure CpuDecodeR4x4 where
  dp : Fin 16
  a : Word
  b : Word
  c : Word

def cpuDecodeR4x4 (sim : SimState) (id : InstBytes) : CpuDecodeR4x4 where
  dp := lowNibble id.id1
  a := sim.r (highNibble id.id1)
  b := sim.r (lowNibble id.id2)
  c := sim.r (highNibble id.id2)

def cpuCopy8 (mem : Memory) (dst src : Word) : Memory := cpuWrite8 mem dst (cpuRead8 mem src)

def cpuExecMemcpy (sim : SimState) (id : InstBytes) : CpuResult :=
  let ds := cpuDecodeR4x4 sim id
  let mem := ds.c.toNat.fold (fun i _ mem =>
    cpuCopy8 mem (ds.a + BitVec.ofNat 32 i) (ds.b + BitVec.ofNat 32 i)) sim.mem
  ({ sim with mem := mem }.setR ds.dp ds.a).next

def cpuExecMemmov (sim : SimState) (id : InstBytes) : CpuResult :=
  let ds := cpuDecodeR4x4 sim id
  let mem :=
    if ds.b < ds.a then
      ds.c.toNat.fold (fun i _ mem =>
        cpuCopy8 mem (ds.a + BitVec.ofNat 32 i) (ds.b + BitVec.ofNat 32 i)) sim.mem
    else
      ds.c.toNat.fold (fun i _ mem =>
        cpuCopy8 mem (ds.a + ds.c - BitVec.ofNat 32 i) (ds.b + ds.c - BitVec.ofNat 32 i)) sim.mem
  ({ sim with mem := mem }.setR ds.dp ds.a).next

def cpuExecMemset (sim : SimState) (id : InstBytes) : CpuResult :=
  let ds := cpuDecodeR4x4 sim id
  let mem := ds.c.toNat.fold (fun i _ mem =>
    cpuWrite8 mem (ds.a + BitVec.ofNat 32 i) (toByte ds.b)) sim.mem
  ({ sim with mem := mem }.setR ds.dp ds.a).next

/-- What the loop of `memchr` and `memchrf` leaves in `$rD`: `a` if some byte is `b`. -/
def cpuMemchrResult (mem : Memory) (ds : CpuDecodeR4x4) : Word :=
  if (List.range ds.c.toNat).any fun i => ofByte (cpuRead8 mem (ds.a + BitVec.ofNat 32 i)) = ds.b
  then ds.a
  else 0

def cpuExecMemchr (sim : SimState) (id : InstBytes) : CpuResult :=
  let ds := cpuDecodeR4x4 sim id
  (sim.setR ds.dp (cpuMemchrResult sim.mem ds)).next

def cpuExecMemchrf (sim : SimState) (id : InstBytes) : CpuResult :=
  let ds := cpuDecodeR4x4 sim id
  let result := cpuMemchrResult sim.mem ds
  ((sim.setR ds.dp result).updateFlags result).next

/-- The state of the loop of `strcpy` when it evaluates its condition. -/
structure StrcpyState where
  i : Nat
  c : UInt8
  mem : Memory

def strcpyRound (a b : Word) (state : StrcpyState) : StrcpyState :=
  let c := cpuRead8 state.mem (b + BitVec.ofNat 32 state.i)
  let mem := cpuWrite8 state.mem (a + BitVec.ofNat 32 state.i) c
  ⟨if c = 0 then state.i else state.i + 1, c, mem⟩

/-- After the given number of rounds behind the first one the loop may be unfinished. -/
def cpuExecStrcpy (fuel : Nat) (sim : SimState) (id : InstBytes) : CpuResult :=
  let ds := cpuDecodeR4x4 sim id
  let last := whileLoop (fun state => state.c ≠ 0) (strcpyRound ds.a ds.b) fuel
    (strcpyRound ds.a ds.b ⟨0, 0, sim.mem⟩)
  if last.c = 0 then ({ sim with mem := last.mem }.setR ds.dp ds.a).next else .error .unfinished

def cpuExecTodo : CpuResult := .error .abort

def strncpyLoop (a b : Word) : Nat → Nat → Memory → Memory
  | 0, _, mem => mem
  | rounds + 1, i, mem =>
      let c := cpuRead8 mem (b + BitVec.ofNat 32 i)
      let mem := cpuWrite8 mem (a + BitVec.ofNat 32 i) c
      if c = 0 then mem else strncpyLoop a b rounds (i + 1) mem

def cpuExecStrncpy (sim : SimState) (id : InstBytes) : CpuResult :=
  let ds := cpuDecodeR4x4 sim id
  { sim.setR ds.dp ds.a with mem := strncpyLoop ds.a ds.b ds.c.toNat 0 sim.mem : SimState }.next

def cpuExecIndtabOf (size : Word) (sim : SimState) (id : InstBytes) : CpuResult :=
  let ds := cpuDecodeR4x4 sim id
  (sim.setR ds.dp (cpuRead32 sim.mem (ds.a + (ds.b + ds.c) * size))).next

def cpuExecIndtab := cpuExecIndtabOf 4
def cpuExecIndtab8 := cpuExecIndtabOf 8

/-- The pointers that `chtree` goes through; `checked` says if it stops at a null pointer. -/
def chtreeLoop (checked : Bool) (mem : Memory) (b : Word) : Nat → Word → Word
  | 0, p => cpuRead32 mem (p + b)
  | counter + 1, p =>
      let p := cpuRead32 mem (p + b)
      if checked && p = 0 then p else chtreeLoop checked mem b counter p

/-- `chtree` and `chtreeunchk`. The pointer where they end is not stored. -/
def cpuExecChtreeOf (checked : Bool) (sim : SimState) (id : InstBytes) : CpuResult :=
  let ds := cpuDecodeR4x4 sim id
  let _p := chtreeLoop checked sim.mem ds.b ds.c.toNat ds.a
  sim.next

def cpuExecChtree := cpuExecChtreeOf true
def cpuExecChtreeunchk := cpuExecChtreeOf false

def cpuExecJmp (sim : SimState) (id : InstBytes) : CpuResult :=
  .ok (.continue, { sim with pc := (ofByte id.id1 <<< 8) ||| ofByte id.id2 })

def cpuExecJmprel (sim : SimState) (id : InstBytes) : CpuResult :=
  let rela : BitVec 16 := (id.id1.toBitVec.setWidth 16 <<< 8) ||| id.id2.toBitVec.setWidth 16
  .ok (.continue, { sim with pc := sim.pc + rela.signExtend 32 })

/-- The register number is the whole byte. -/
def cpuExecCall (sim : SimState) (id : InstBytes) : CpuResult :=
  if inside : id.id1.toNat < 16 then
    let pc := sim.r ⟨id.id1.toNat, inside⟩ + ofSignedByte id.id2
    .ok (.continue, { sim with pc := pc }.setR (Fin.ofNat 16 xmAbiRa) (pc + 4))
  else .error .undefined

def cpuExecRet (sim : SimState) : CpuResult :=
  .ok (.continue, { sim with pc := sim.r (Fin.ofNat 16 xmAbiRa) })

/-- The `switch` of `cpu_exec_common_b`; from 8 on it compares with `$t0` and so on. -/
def cpuBranchTaken (sim : SimState) (ra : Fin 16) (rela : Word) : Nat → Bool
  | 0 => sim.r ra = 0
  | 1 => true
  | 2 => (0 : Word).slt (sim.r ra)
  | 3 => sim.pc < sim.r ra
  | 4 => sim.pc + rela < sim.r ra
  | 5 => sim.r ra = 1
  | 6 => (1 : Word).slt (sim.r ra)
  | 7 => sim.r ra = ~~~0
  | 8 => sim.r ra = sim.r (Fin.ofNat 16 xmAbiT0)
  | 9 => sim.r ra = sim.r (Fin.ofNat 16 xmAbiT1)
  | 10 => sim.r ra = sim.r (Fin.ofNat 16 xmAbiT2)
  | 11 => sim.r ra = sim.r (Fin.ofNat 16 xmAbiT3)
  | 12 => sim.r ra = sim.r (Fin.ofNat 16 xmAbiT4)
  | 13 => sim.r ra = sim.r (Fin.ofNat 16 xmAbiT5)
  | 14 => sim.r ra = sim.r (Fin.ofNat 16 xmAbiT6)
  | 15 => sim.r ra = sim.r (Fin.ofNat 16 xmAbiT7)
  | _ => false

def cpuBranchCondition (flags : Word) (cc : UInt8) (cond : Bool) : Bool :=
  let cond := if cc &&& 0x02 ≠ 0 then cond && flags &&& flagsBitN ≠ 0 else cond
  let cond := if cc &&& 0x04 ≠ 0 then cond && flags &&& flagsBitZ ≠ 0 else cond
  let cond := if cc &&& 0x08 ≠ 0 then cond && flags &&& flagsBitC ≠ 0 else cond
  if cc &&& 0x01 ≠ 0 then !cond else cond

def cpuExecCommonB (sim : SimState) (id : InstBytes) : CpuResult :=
  let ra := lowNibble id.id1
  let cc := id.id1 >>> 4
  let rela := ofSignedByte id.id2
  let cond := cpuBranchTaken sim ra rela ((id.id3 - 0x50) &&& 0x0f).toNat
  let cond := cpuBranchCondition sim.flags cc cond
  .ok (.continue, { sim with pc := sim.pc + if cond then rela else 4 })

def cpuExecHalt (sim : SimState) : CpuResult := .ok (.halt, sim)

/-! ### Steps -/

/-- The handler `cpu_exec_##NAME` of an instruction. -/
def cpuExec (fpu : FloatUnit) (fuel : Nat) (inst : XmInst) (sim : SimState) (id : InstBytes) :
    CpuResult :=
  match inst with
  | .add => cpuExecAdd sim id
  | .sub => cpuExecSub sim id
  | .mul => cpuExecMul sim id
  | .div => cpuExecDiv sim id
  | .rem => cpuExecRem sim id
  | .imul => cpuExecImul sim id
  | .and => cpuExecAnd sim id
  | .xor => cpuExecXor sim id
  | .or => cpuExecOr sim id
  | .shl => cpuExecShl sim id
  | .shr => cpuExecShr sim id
  | .pcnt => cpuExecPcnt sim id
  | .clz => cpuExecClz sim id
  | .clo => cpuExecClo sim id
  | .bswap => cpuExecBswap sim id
  | .ipcnt => cpuExecIpcnt sim id
  | .stb => cpuExecStb sim id
  | .stw => cpuExecStw sim id
  | .stl => cpuExecStl sim id
  | .stq => cpuExecStq sim id
  | .ldb => cpuExecLdb sim id
  | .ldw => cpuExecLdw sim id
  | .ldl => cpuExecLdl sim id
  | .ldq => cpuExecLdq sim id
  | .lea => cpuExecLea sim id
  | .cmp => cpuExecCmp sim id
  | .cmpkp => cpuExecCmpkp sim id
  | .memcpy => cpuExecMemcpy sim id
  | .memmov => cpuExecMemmov sim id
  | .memset => cpuExecMemset sim id
  | .memchr => cpuExecMemchr sim id
  | .memchrf => cpuExecMemchrf sim id
  | .strcpy => cpuExecStrcpy fuel sim id
  | .strncpy => cpuExecStrncpy sim id
  | .strcat | .strpbrk | .strncat | .strchr | .strnchr => cpuExecTodo
  | .indtab => cpuExecIndtab sim id
  | .indtab8 => cpuExecIndtab8 sim id
  | .chtree => cpuExecChtree sim id
  | .chtreeunchk => cpuExecChtreeunchk sim id
  | .jmp => cpuExecJmp sim id
  | .jmprel => cpuExecJmprel sim id
  | .call => cpuExecCall sim id
  | .ret => cpuExecRet sim
  | .bz | .b | .bgzs | .bgpc | .bgpcrela | .bo | .bgoz | .bemax | .bet0 | .bet1 | .bet2 | .bet3
  | .bet4 | .bet5 | .bet6 | .bet7 => cpuExecCommonB sim id
  | .fcvti => cpuExecFcvti fpu sim id
  | .icvtf => cpuExecIcvtf sim id
  | .fcvtri => cpuExecFcvtri fpu sim id
  | .icvtrf => cpuExecIcvtrf fpu sim id
  | .halt => cpuExecHalt sim
  | inst => cpuExecF4x4 fpu inst sim id

def cpuMatchInst (id : InstBytes) (format : XmInstFormat) (op : UInt8) : Bool :=
  match xmGetCb0FromFormat format with
  | .integer | .float =>
      (format = .r4r4i8o8Ifhbs && id.id3 &&& 0x7f = op) ||
        (format ≠ .r4r4i8o8Ifhbs && id.id3 = op)
  | .debug => id.id0 >>> 4 = op

/-- The entry that the chain of tests in `cpu_step` ends at. -/
def cpuFindInst (id : InstBytes) : Option XmInstTableEntry :=
  xmInstTable.find? fun entry => cpuMatchInst id entry.format (toByte entry.op)

def cpuFetch (sim : SimState) : InstBytes where
  id0 := cpuRead8 sim.mem sim.pc
  id1 := cpuRead8 sim.mem (sim.pc + 1)
  id2 := cpuRead8 sim.mem (sim.pc + 2)
  id3 := cpuRead8 sim.mem (sim.pc + 3)

/-- `cpu_step`. Without a matching entry it ends without a return value. -/
def cpuStep (fpu : FloatUnit) (fuel : Nat) (sim : SimState) : CpuResult :=
  let sim := { sim with ticks := sim.ticks + 1 }
  let id := cpuFetch sim
  match cpuFindInst id with
  | some entry => cpuExec fpu fuel entry.inst sim id
  | none => .error .undefined

theorem cpuStep_found {fpu : FloatUnit} {fuel : Nat} {sim : SimState} {id : InstBytes}
    {entry : XmInstTableEntry} (fetched : cpuFetch sim = id) (found : cpuFindInst id = some entry) :
    cpuStep fpu fuel sim =
      cpuExec fpu fuel entry.inst { sim with ticks := sim.ticks + 1 } id := by
  have same : cpuFetch { sim with ticks := sim.ticks + 1 } = id := fetched
  simp only [cpuStep, same, found]

/-- At most the given number of calls of `cpu_step`, none after one that halts. -/
def cpuRun (fpu : FloatUnit) (fuel : Nat) : Nat → SimState → CpuResult
  | 0, sim => .ok (.continue, sim)
  | count + 1, sim => do
      let (cer, sim) ← cpuStep fpu fuel sim
      match cer with
      | .continue => cpuRun fpu fuel count sim
      | .halt => .ok (.halt, sim)

/-- The ROM after `main` has read a file into it; the rest of it is `0xff`. -/
def simLoadRom (file : List UInt8) (mem : Memory) : Memory
  | .rom offset => file.getD offset.val 0xff
  | other => mem other

end Estros
