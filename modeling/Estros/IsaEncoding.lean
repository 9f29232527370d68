import Mathlib.Data.List.Nodup
import Estros.IsaAssembler

/-!
The four bytes that `asm_firstpass` writes for an entry of the table: the class of its
format, the operands in nibbles or bytes, and the opcode.
-/

namespace Estros

/-- The formats for which `asm_firstpass` has a branch. -/
def asmEncodes : XmInstFormat → Bool
  | .r4r4i8o8Ifhbs | .u16o8 | .r4u4ra8o8 | .r4r4r4r4 | .f4f4f4f4 => true
  | _ => false

theorem toByte_mask {width : Nat} (value : BitVec width) :
    toByte (value &&& BitVec.ofNat width 255) = toByte value := by
  have same : (value &&& BitVec.ofNat width 255).setWidth 8 = value.setWidth 8 := by
    apply BitVec.eq_of_getLsbD_eq
    intro i small
    have set : Nat.testBit 255 i = true := by
      rw [show 255 = 2 ^ 8 - 1 from rfl, Nat.testBit_two_pow_sub_one]
      exact decide_eq_true small
    rw [BitVec.getLsbD_setWidth, BitVec.getLsbD_setWidth, BitVec.getLsbD_and, BitVec.getLsbD_ofNat,
      set, Bool.and_true]
    cases bit : value.getLsbD i with
    | false => rfl
    | true => rw [decide_eq_true (BitVec.lt_of_getLsbD bit)]; rfl
  exact congrArg UInt8.ofBitVec same

theorem asmBytes_shape {entry : XmInstTableEntry} (encodes : asmEncodes entry.format = true)
    (op : AsmOperands) :
    ∃ ob1 ob2, asmBytes entry op =
      some [(xmGetCb0FromFormat entry.format).code, ob1, ob2, asmOpcode entry op] := by
  unfold asmBytes asmOpcode
  cases same : entry.format with
  | r4r4i8o8Ifhbs =>
      by_cases immediate : (op 2).type = .imm <;>
        simp [immediate, toByte_mask, xmGetCb0FromFormat]
  | u16o8 | r4u4ra8o8 | r4r4r4r4 | f4f4f4f4 => simp [xmGetCb0FromFormat]
  | r4r4r4i4o8 | r4r4i8o8 | aa16o8 | ra16o8 | r8r8ra8o8 | r4f4f4f4 | d8 =>
      rw [same] at encodes
      cases encodes

def nameKey (name : List UInt8) : Nat := name.foldl (fun key byte => 256 * key + byte.toNat) 0

theorem names_distinct : (xmInstTable.map fun entry => ascii entry.name).Nodup := by
  have keys : ((xmInstTable.map fun entry => ascii entry.name).map nameKey).Nodup := by
    decide +kernel
  exact List.Nodup.of_map nameKey keys

theorem find_key {α β : Type} [DecidableEq β] {key : α → β} {table : List α}
    (distinct : (table.map key).Nodup) {entry : α} (member : entry ∈ table) :
    table.find? (fun other => key other = key entry) = some entry := by
  induction table with
  | nil => cases member
  | cons first rest ih =>
      rw [List.map_cons, List.nodup_cons] at distinct
      rcases List.mem_cons.mp member with rfl | later
      · simp
      · have other : key first ≠ key entry := fun same =>
          distinct.1 (same ▸ List.mem_map_of_mem later)
        simpa [other] using ih distinct.2 later

theorem find_name {entry : XmInstTableEntry} (member : entry ∈ xmInstTable) :
    xmInstTable.find? (fun other => ascii other.name = ascii entry.name) = some entry :=
  find_key names_distinct member

structure AsmState.HasRoom (state : AsmState) : Prop where
  out : state.out.length + 4 ≤ outMaxSize
  fixups : (state.fixups.length + 1) * asmFixupSize ≤ listMaxSize

theorem asmRecordFixup_ok {state : AsmState} (room : state.HasRoom) (format : XmInstFormat)
    (op : AsmOperands) :
    ∃ next, asmRecordFixup state format op = .ok next ∧ next.out = state.out := by
  unfold asmRecordFixup
  split
  · rw [if_pos room.fixups]
    exact ⟨_, rfl, rfl⟩
  · exact ⟨_, rfl, rfl⟩

theorem asmFirstpass_eq {entry : XmInstTableEntry} (member : entry ∈ xmInstTable)
    {state middle : AsmState} {op : AsmOperands} {ob : List UInt8}
    (recorded : asmRecordFixup (state.print (asmOperandErrors entry.format op)) entry.format op =
      .ok middle)
    (bytes : asmBytes entry op = some ob) (size : ob.length = 4)
    (fits : middle.out.length + 4 ≤ outMaxSize) :
    asmFirstpass state (ascii entry.name) op =
      .ok ({ middle with out := middle.out ++ ob }, 4) := by
  simp only [asmFirstpass, find_name member, recorded, bind, Except.bind, bytes, size, if_pos fits]
  rfl

theorem asmFirstpass_writes {entry : XmInstTableEntry} (member : entry ∈ xmInstTable)
    {state : AsmState} (room : state.HasRoom) {op : AsmOperands} {ob : List UInt8}
    (bytes : asmBytes entry op = some ob) (size : ob.length = 4) :
    ∃ next, asmFirstpass state (ascii entry.name) op = .ok (next, 4) ∧
      next.out = state.out ++ ob := by
  have printed : (state.print (asmOperandErrors entry.format op)).HasRoom := ⟨room.out, room.fixups⟩
  obtain ⟨middle, recorded, same⟩ := asmRecordFixup_ok printed entry.format op
  have fits : middle.out.length + 4 ≤ outMaxSize := by
    rw [same]
    exact room.out
  exact ⟨_, asmFirstpass_eq member recorded bytes size fits, congrArg (· ++ ob) same⟩

theorem asmPair_toNat (low high : BitVec 64) :
    (asmPair low high).toNat = low.toNat % 16 + 16 * (high.toNat % 16) := by
  have lower : low.toNat &&& 15 = low.toNat % 16 := Nat.and_two_pow_sub_one_eq_mod low.toNat 4
  have upper : (high <<< 4).toNat = (high.toNat % 2 ^ 60) <<< 4 := by
    rw [BitVec.toNat_shiftLeft, Nat.shiftLeft_eq, Nat.shiftLeft_eq]
    omega
  have sum := Nat.shiftLeft_add_eq_or_of_lt (Nat.mod_lt low.toNat (by decide : 0 < 2 ^ 4))
    (high.toNat % 2 ^ 60)
  have value : ((low &&& 0x0f#64) ||| (high <<< 4)).toNat =
      (high.toNat % 2 ^ 60) <<< 4 + low.toNat % 16 := by
    rw [BitVec.toNat_or, BitVec.toNat_and, upper, Nat.or_comm]
    change _ ||| (low.toNat &&& 15) = _
    rw [lower]
    exact sum.symm
  change ((low &&& 0x0f#64) ||| (high <<< 4)).toNat % 2 ^ 8 = _
  rw [value, Nat.shiftLeft_eq]
  omega

theorem asmPair_mask (low high : BitVec 64) : asmPair low (high &&& 15#64) = asmPair low high := by
  have lower : high.toNat &&& 15 = high.toNat % 16 := Nat.and_two_pow_sub_one_eq_mod high.toNat 4
  have masked : (high &&& 15#64).toNat = high.toNat % 16 := lower
  rw [← UInt8.toNat_inj, asmPair_toNat, asmPair_toNat, masked, Nat.mod_mod]

theorem toByte_ofNat (value : Nat) : toByte (BitVec.ofNat 64 value) = UInt8.ofNat value := by
  rw [← UInt8.toNat_inj, UInt8.toNat_ofNat']
  change value % 2 ^ 64 % 2 ^ 8 = value % 2 ^ 8
  omega

end Estros
