import Mathlib.Data.List.Find
import Estros.IsaExecution
import Estros.IsaStrings

/-!
Which steps of the simulator have a result, from the bytes at `pc` and the registers. A handler
without one divides by zero, shifts by 32 or more, reads a register that does not exist, or
copies a string that does not end; the bytes may also select no handler.
-/

namespace Estros

/-- What a handler has to be protected from. -/
inductive StepHazard where
  | none | divisor | shift | register | string
  deriving DecidableEq

def XmInst.hazard : XmInst → StepHazard
  | .div | .rem => .divisor
  | .shl | .shr => .shift
  | .call => .register
  | .strcpy => .string
  | _ => .none

/-- The bytes and the state before the step keep the handler out of danger. -/
def StepHazard.Avoided (sim : SimState) (id : InstBytes) : StepHazard → Prop
  | .none => True
  | .divisor => (cpuDecodeR4x2i8Ifhbs sim id).b ≠ 0
  | .shift => (cpuDecodeR4x2i8Ifhbs sim id).b.toNat < 32
  | .register => id.id1.toNat < 16
  | .string => StringEnds sim.mem (cpuDecodeR4x4 sim id).a (cpuDecodeR4x4 sim id).b

def Returns (result : CpuResult) : Prop := (∃ done, result = .ok done) ∨ result = .error .abort

theorem not_returns {why : CpuStop} (fails : why ≠ .abort) : ¬ Returns (.error why) := by
  rintro (⟨done, same⟩ | same)
  · cases same
  · cases same
    exact fails rfl

variable {sim : SimState} {id : InstBytes}

theorem cpuExecAlu_some {value : Word → Word → Option Word} {result : Word}
    (stored : value (cpuDecodeR4x2i8Ifhbs sim id).a (cpuDecodeR4x2i8Ifhbs sim id).b =
      some result) :
    cpuExecAlu value sim id =
      ((sim.setR (cpuDecodeR4x2i8Ifhbs sim id).dp result).updateFlags result).next := by
  simp only [cpuExecAlu, stored]

theorem cpuExecAlu_none {value : Word → Word → Option Word}
    (missing : value (cpuDecodeR4x2i8Ifhbs sim id).a (cpuDecodeR4x2i8Ifhbs sim id).b = none) :
    cpuExecAlu value sim id = .error .undefined := by
  simp only [cpuExecAlu, missing]

theorem alu_returns (value : Word → Word → Option Word) :
    Returns (cpuExecAlu value sim id) ↔
      (value (cpuDecodeR4x2i8Ifhbs sim id).a (cpuDecodeR4x2i8Ifhbs sim id).b).isSome := by
  cases stored : value (cpuDecodeR4x2i8Ifhbs sim id).a (cpuDecodeR4x2i8Ifhbs sim id).b with
  | none =>
      rw [cpuExecAlu_none stored]
      exact iff_of_false (not_returns (by decide)) (by decide)
  | some result =>
      rw [cpuExecAlu_some stored]
      exact iff_of_true (Or.inl ⟨_, rfl⟩) rfl

theorem alu_finished (value : Word → Word → Option Word) :
    cpuExecAlu value sim id ≠ .error .unfinished := by
  cases stored : value (cpuDecodeR4x2i8Ifhbs sim id).a (cpuDecodeR4x2i8Ifhbs sim id).b with
  | none =>
      rw [cpuExecAlu_none stored]
      exact fun same => by cases same
  | some result =>
      rw [cpuExecAlu_some stored]
      exact fun same => by cases same

theorem call_returns : Returns (cpuExecCall sim id) ↔ id.id1.toNat < 16 := by
  unfold cpuExecCall
  by_cases inside : id.id1.toNat < 16
  · rw [dif_pos inside]
    exact iff_of_true (Or.inl ⟨_, rfl⟩) inside
  · rw [dif_neg inside]
    exact iff_of_false (not_returns (by decide)) inside

theorem call_finished : cpuExecCall sim id ≠ .error .unfinished := by
  unfold cpuExecCall
  by_cases inside : id.id1.toNat < 16
  · rw [dif_pos inside]
    exact fun same => by cases same
  · rw [dif_neg inside]
    exact fun same => by cases same

/-- The state of the loop of `strcpy` behind the given number of rounds. -/
def strcpyLast (fuel : Nat) (sim : SimState) (id : InstBytes) : StrcpyState :=
  let ds := cpuDecodeR4x4 sim id
  whileLoop (fun state => state.c ≠ 0) (strcpyRound ds.a ds.b) fuel
    (strcpyRound ds.a ds.b ⟨0, 0, sim.mem⟩)

theorem cpuExecStrcpy_stopped {fuel : Nat} (stopped : (strcpyLast fuel sim id).c = 0) :
    cpuExecStrcpy fuel sim id =
      ({ sim with mem := (strcpyLast fuel sim id).mem }.setR (cpuDecodeR4x4 sim id).dp
        (cpuDecodeR4x4 sim id).a).next := if_pos stopped

theorem cpuExecStrcpy_unfinished {fuel : Nat} (continues : (strcpyLast fuel sim id).c ≠ 0) :
    cpuExecStrcpy fuel sim id = .error .unfinished := if_neg continues

theorem strcpy_finishes_iff : (∃ fuel, (strcpyLast fuel sim id).c = 0) ↔
    StepHazard.Avoided sim id .string := by
  refine Iff.trans ?_ strcpyFinishes_iff
  constructor
  · rintro ⟨fuel, stopped⟩
    exact ⟨fuel, decide_eq_false (not_not_intro stopped)⟩
  · rintro ⟨fuel, stopped⟩
    exact ⟨fuel, of_not_not (of_decide_eq_false stopped)⟩

theorem strcpy_returns : (∃ fuel, Returns (cpuExecStrcpy fuel sim id)) ↔
    StepHazard.Avoided sim id .string := by
  rw [← strcpy_finishes_iff]
  refine exists_congr fun fuel => ?_
  by_cases stopped : (strcpyLast fuel sim id).c = 0
  · rw [cpuExecStrcpy_stopped stopped]
    exact iff_of_true (Or.inl ⟨_, rfl⟩) stopped
  · rw [cpuExecStrcpy_unfinished stopped]
    exact iff_of_false (not_returns (by decide)) stopped

theorem strcpy_terminates : (∃ fuel, cpuExecStrcpy fuel sim id ≠ .error .unfinished) ↔
    StepHazard.Avoided sim id .string := by
  rw [← strcpy_finishes_iff]
  refine exists_congr fun fuel => ?_
  by_cases stopped : (strcpyLast fuel sim id).c = 0
  · rw [cpuExecStrcpy_stopped stopped]
    exact iff_of_true (fun same => by cases same) stopped
  · rw [cpuExecStrcpy_unfinished stopped]
    exact iff_of_false (fun finished => finished rfl) stopped

theorem strcpy_more {fuel : Nat} (finished : cpuExecStrcpy fuel sim id ≠ .error .unfinished)
    (more : Nat) : cpuExecStrcpy (fuel + more) sim id = cpuExecStrcpy fuel sim id := by
  by_cases stopped : (strcpyLast fuel sim id).c = 0
  · have last : decide ((strcpyLast fuel sim id).c ≠ 0) = false :=
      decide_eq_false (not_not_intro stopped)
    have same : strcpyLast (fuel + more) sim id = strcpyLast fuel sim id :=
      @whileLoop_more _ (fun state : StrcpyState => state.c ≠ 0) _ _ _ last more
    rw [cpuExecStrcpy_stopped stopped, cpuExecStrcpy_stopped (same ▸ stopped), same]
  · exact absurd (cpuExecStrcpy_unfinished stopped) finished

/-! ### All handlers -/

theorem divided_returns (op : Word → Word → Word) :
    Returns (cpuExecAlu (fun a b => if b = 0 then none else some (op a b)) sim id) ↔
      StepHazard.Avoided sim id .divisor := by
  refine (alu_returns _).trans ?_
  by_cases zero : (cpuDecodeR4x2i8Ifhbs sim id).b = 0
  · rw [if_pos zero]
    exact iff_of_false (by decide) fun avoided => avoided zero
  · rw [if_neg zero]
    exact iff_of_true rfl zero

theorem shifted_returns (op : Word → Nat → Word) :
    Returns (cpuExecAlu (fun a b => if b.toNat < 32 then some (op a b.toNat) else none) sim id) ↔
      StepHazard.Avoided sim id .shift := by
  refine (alu_returns _).trans ?_
  by_cases small : (cpuDecodeR4x2i8Ifhbs sim id).b.toNat < 32
  · rw [if_pos small]
    exact iff_of_true rfl small
  · rw [if_neg small]
    exact iff_of_false (by decide) small

/-- The handlers with enough rounds: nothing but their hazard keeps them from a result. The
handler of `fcvtri` is left out, since no bytes select it. -/
theorem exec_returns (fpu : FloatUnit) {inst : XmInst} (selected : inst ≠ .fcvtri) :
    (∃ fuel, Returns (cpuExec fpu fuel inst sim id)) ↔ inst.hazard.Avoided sim id := by
  cases inst with
  | div => exact (exists_const Nat).trans (divided_returns fun a b => a / b)
  | rem => exact (exists_const Nat).trans (divided_returns fun a b => a % b)
  | shl => exact (exists_const Nat).trans (shifted_returns fun a count => a <<< count)
  | shr => exact (exists_const Nat).trans (shifted_returns fun a count => a >>> count)
  | call => exact (exists_const Nat).trans call_returns
  | strcpy => exact strcpy_returns
  | strcat | strpbrk | strncat | strchr | strnchr =>
      exact iff_of_true ⟨0, Or.inr rfl⟩ trivial
  | fcvtri => exact absurd rfl selected
  | _ => exact iff_of_true ⟨0, Or.inl ⟨_, rfl⟩⟩ trivial

theorem exec_fuel (fpu : FloatUnit) {inst : XmInst} (other : inst ≠ .strcpy) (fuel more : Nat) :
    cpuExec fpu fuel inst sim id = cpuExec fpu more inst sim id := by
  cases inst with
  | strcpy => exact absurd rfl other
  | _ => rfl

theorem fcvtri_finished (fpu : FloatUnit) : cpuExecFcvtri fpu sim id ≠ .error .unfinished := by
  simp only [cpuExecFcvtri]
  split <;> exact fun same => by cases same

theorem returns_finished {result : CpuResult} (returns : Returns result) :
    result ≠ .error .unfinished := by
  rintro rfl
  exact not_returns (by decide) returns

theorem exec_finished (fpu : FloatUnit) {inst : XmInst} (other : inst ≠ .strcpy) (fuel : Nat) :
    cpuExec fpu fuel inst sim id ≠ .error .unfinished := by
  have harmless : inst.hazard = .none → inst ≠ .fcvtri →
      cpuExec fpu fuel inst sim id ≠ .error .unfinished := by
    intro none selected
    have avoided : inst.hazard.Avoided sim id := none ▸ trivial
    obtain ⟨enough, returns⟩ := (exec_returns fpu selected).mpr avoided
    rw [exec_fuel fpu other fuel enough]
    exact returns_finished returns
  cases inst with
  | div | rem | shl | shr =>
      unfold cpuExec
      exact alu_finished _
  | call => exact call_finished
  | fcvtri => exact fcvtri_finished fpu
  | strcpy => exact absurd rfl other
  | _ => exact harmless rfl (by decide)

def hasOpcode (id3 : UInt8) : Bool :=
  id3 ≤ 0x2c || (0x30 ≤ id3 && id3 ≤ 0x3e) || (0x40 ≤ id3 && id3 ≤ 0x44) ||
    (0x50 ≤ id3 && id3 ≤ 0x5f) || (0x80 ≤ id3 && id3 ≤ 0x98) || id3 = 0xa0 || id3 = 0xa1

def opcodeHazard (id3 : UInt8) : StepHazard :=
  if id3 &&& 0x7f = 0x03 || id3 &&& 0x7f = 0x04 then .divisor
  else if id3 &&& 0x7f = 0x09 || id3 &&& 0x7f = 0x0a then .shift
  else if id3 = 0x42 then .register
  else if id3 = 0x35 then .string
  else .none

/-- The hazard of the handler that the bytes select; there is none if nothing is selected. Only
`halt` is selected by its first byte. -/
def InstBytes.hazard (id : InstBytes) : Option StepHazard :=
  if hasOpcode id.id3 then some (opcodeHazard id.id3)
  else if id.id0 >>> 4 = 0x0f then some .none
  else none

def opcodeEntry (id3 : UInt8) : Option XmInstTableEntry := cpuFindInst ⟨0, 0, 0, id3⟩

def opcodeAgrees (id3 : UInt8) : Option XmInstTableEntry → Bool
  | none => !hasOpcode id3 && id3 ≠ 0x35
  | some entry => hasOpcode id3 && entry.inst.hazard = opcodeHazard id3 &&
      entry.inst ≠ .fcvtri && decide (entry.inst = .strcpy) == decide (id3 = 0x35)

def XmInstFormat.opcodeMask : XmInstFormat → Nat
  | .r4r4i8o8Ifhbs => 0x7f
  | .d8 => 0
  | _ => 0xff

theorem matchInst_mask (id3 : UInt8) (format : XmInstFormat) (op : UInt8) :
    cpuMatchInst ⟨0, 0, 0, id3⟩ format op = (id3.toNat &&& format.opcodeMask == op.toNat) := by
  have whole : id3.toNat &&& 0xff = id3.toNat :=
    (Nat.and_two_pow_sub_one_eq_mod id3.toNat 8).trans (Nat.mod_eq_of_lt id3.toNat_lt)
  cases format <;>
    simp [cpuMatchInst, xmGetCb0FromFormat, XmInstFormat.opcodeMask, whole, ← UInt8.toNat_inj,
      beq_eq_decide]

theorem opcodes_agree : ((List.range 256).all fun byte =>
    opcodeAgrees (UInt8.ofNat byte) (xmInstTable.find? fun entry =>
      byte &&& entry.format.opcodeMask == (toByte entry.op).toNat)) = true := by
  decide +kernel

theorem opcodeEntry_agrees (id3 : UInt8) : opcodeAgrees id3 (opcodeEntry id3) = true := by
  have here := List.all_eq_true.mp opcodes_agree id3.toNat (List.mem_range.mpr id3.toNat_lt)
  rw [UInt8.ofNat_toNat] at here
  simp only [opcodeEntry, cpuFindInst, matchInst_mask]
  exact here

theorem table_halt : ∃ entries, xmInstTable = entries ++ [.elem .halt "halt" .d8 0x0f] ∧
    entries.all (fun entry => xmGetCb0FromFormat entry.format ≠ .debug) = true :=
  ⟨xmInstTable.dropLast, rfl, by decide +kernel⟩

/-- The first byte only selects `halt`, behind all others. -/
theorem cpuFindInst_eq (id : InstBytes) : cpuFindInst id =
    (opcodeEntry id.id3).or
      (if id.id0 >>> 4 = 0x0f then some (.elem .halt "halt" .d8 0x0f) else none) := by
  obtain ⟨entries, same, coded⟩ := table_halt
  have others : ∀ entry ∈ entries, cpuMatchInst id entry.format (toByte entry.op) =
      cpuMatchInst ⟨0, 0, 0, id.id3⟩ entry.format (toByte entry.op) := by
    intro entry member
    have coded := of_decide_eq_true (List.all_eq_true.mp coded entry member)
    unfold cpuMatchInst
    cases which : xmGetCb0FromFormat entry.format with
    | integer | float => rfl
    | debug => exact absurd which coded
  have zero : ¬ (0 : UInt8) >>> 4 = toByte (0x0f : Word) := by decide
  have absent : cpuMatchInst ⟨0, 0, 0, id.id3⟩ .d8 (toByte (0x0f : Word)) = false :=
    decide_eq_false zero
  have halt : cpuMatchInst id .d8 (toByte (0x0f : Word)) = decide (id.id0 >>> 4 = 0x0f) := rfl
  rw [opcodeEntry, cpuFindInst, cpuFindInst, same, List.find?_append, List.find?_append,
    List.find?_congr others]
  simp only [XmInstTableEntry.elem, List.find?_cons, List.find?_nil, absent, halt, Option.or_none]
  by_cases last : id.id0 >>> 4 = 0x0f <;> simp [last]

theorem found_hazard (id : InstBytes) :
    (cpuFindInst id).map (fun entry => entry.inst.hazard) = id.hazard := by
  have agrees := opcodeEntry_agrees id.id3
  rw [cpuFindInst_eq, InstBytes.hazard]
  cases here : opcodeEntry id.id3 with
  | none =>
      simp only [here, opcodeAgrees, Bool.and_eq_true, Bool.not_eq_true'] at agrees
      rw [agrees.1, Option.none_or]
      by_cases last : id.id0 >>> 4 = 0x0f <;> simp [last, XmInstTableEntry.elem, XmInst.hazard]
  | some entry =>
      simp only [here, opcodeAgrees, Bool.and_eq_true, decide_eq_true_eq] at agrees
      rw [agrees.1.1.1, if_pos rfl, Option.some_or, Option.map_some, agrees.1.1.2]

theorem found_selected {entry : XmInstTableEntry} (found : cpuFindInst id = some entry) :
    entry.inst ≠ .fcvtri ∧ (entry.inst = .strcpy ↔ id.id3 = 0x35) := by
  have agrees := opcodeEntry_agrees id.id3
  rw [cpuFindInst_eq] at found
  cases here : opcodeEntry id.id3 with
  | none =>
      rw [here, Option.none_or] at found
      simp only [here, opcodeAgrees, Bool.and_eq_true, decide_eq_true_eq] at agrees
      split at found
      · cases found
        exact ⟨by decide, iff_of_false (by decide) agrees.2⟩
      · cases found
  | some other =>
      rw [here, Option.some_or] at found
      cases found
      simp only [here, opcodeAgrees, Bool.and_eq_true, decide_eq_true_eq, beq_iff_eq,
        decide_eq_decide] at agrees
      exact ⟨agrees.1.2, agrees.2⟩

theorem cpuStep_missing {fpu : FloatUnit} {fuel : Nat} (missing : cpuFindInst (cpuFetch sim) = none) :
    cpuStep fpu fuel sim = .error .undefined := by
  have same : cpuFetch { sim with ticks := sim.ticks + 1 } = cpuFetch sim := rfl
  simp only [cpuStep, same, missing]

theorem avoided_tick (hazard : StepHazard) :
    hazard.Avoided { sim with ticks := sim.ticks + 1 } id ↔ hazard.Avoided sim id := by
  cases hazard <;> exact Iff.rfl

def StepReturns (fpu : FloatUnit) (sim : SimState) : Prop :=
  ∃ fuel, Returns (cpuStep fpu fuel sim)

/-- A step has a result exactly if the four bytes at `pc` select a handler and the registers and
the memory keep this handler out of danger. -/
theorem stepReturns_iff (fpu : FloatUnit) (sim : SimState) : StepReturns fpu sim ↔
    ∃ hazard, (cpuFetch sim).hazard = some hazard ∧ hazard.Avoided sim (cpuFetch sim) := by
  rw [← found_hazard]
  cases found : cpuFindInst (cpuFetch sim) with
  | none =>
      constructor
      · rintro ⟨fuel, returns⟩
        rw [cpuStep_missing found] at returns
        exact absurd returns (not_returns (by decide))
      · rintro ⟨hazard, same, _⟩
        cases same
  | some entry =>
      have each : ∀ fuel, cpuStep fpu fuel sim = _ := fun fuel => cpuStep_found rfl found
      simp only [StepReturns, each, Option.map_some, Option.some.injEq, exists_eq_left']
      rw [exec_returns fpu (found_selected found).1]
      exact avoided_tick _

def simBoot (file : List UInt8) : SimState :=
  { clearedSim with mem := simLoadRom file clearedSim.mem }

theorem fetch_boot (word : InstBytes) : cpuFetch (simBoot word.bytes) = word :=
  @cpuFetch_rom word.bytes clearedSim.mem (simBoot word.bytes) 0 rfl rfl (by decide)

theorem not_stepReturns {word : InstBytes}
    (undefined : ∀ fuel, cpuStep noFloats fuel (simBoot word.bytes) = .error .undefined) :
    ¬ StepReturns noFloats (simBoot word.bytes) := by
  rintro ⟨fuel, returns⟩
  rw [undefined fuel] at returns
  exact not_returns (by decide) returns

/-- A word without a handler, the divisor 0, a shift by 32, and the register 16. -/
theorem badWords_undefined :
    ¬ StepReturns noFloats (simBoot [0x00, 0x00, 0x00, 0x45]) ∧
      ¬ StepReturns noFloats (simBoot [0x00, 0x00, 0x00, 0x83]) ∧
      ¬ StepReturns noFloats (simBoot [0x00, 0x00, 0x20, 0x89]) ∧
      ¬ StepReturns noFloats (simBoot [0x00, 0x10, 0x00, 0x42]) := by
  have missing : cpuFindInst ⟨0x00, 0x00, 0x00, 0x45⟩ = none := by decide +kernel
  have div : cpuFindInst ⟨0x00, 0x00, 0x00, 0x83⟩ =
      some (.elem .div "div" .r4r4i8o8Ifhbs 0x03) := by decide +kernel
  have shl : cpuFindInst ⟨0x00, 0x00, 0x20, 0x89⟩ =
      some (.elem .shl "shl" .r4r4i8o8Ifhbs 0x09) := by decide +kernel
  have call : cpuFindInst ⟨0x00, 0x10, 0x00, 0x42⟩ =
      some (.elem .call "call" .r4u4ra8o8 0x42) := by decide +kernel
  constructor
  · exact not_stepReturns fun fuel =>
      cpuStep_missing ((congrArg cpuFindInst (fetch_boot _)).trans missing)
  constructor
  · exact not_stepReturns fun fuel => cpuStep_found (fetch_boot _) div
  constructor
  · exact not_stepReturns fun fuel => cpuStep_found (fetch_boot _) shl
  · exact not_stepReturns fun fuel => cpuStep_found (fetch_boot _) call

end Estros
