import Estros.IsaSteps

/-!
`call` and `ret`. The handler of `call` sets `pc` first and derives the return address from the
new `pc`, and its displacement counts from a register.
-/

namespace Estros

def linkRegister : Fin 16 := ⟨xmAbiRa, by decide⟩

def KeepsLink (fpu : FloatUnit) (sim after : SimState) : Prop :=
  CpuSteps fpu sim after ∧ after.r linkRegister = sim.r linkRegister

/-- A run from a call to the `ret` that uses its link: the state behind the call and the one
behind the `ret`. -/
structure CallRun (fpu : FloatUnit) (sim middle last : SimState) : Prop where
  call : Selects sim .call
  called : CpuSteps fpu sim middle
  body : ∃ now, Relation.ReflTransGen (KeepsLink fpu) middle now ∧ Selects now .ret ∧
    CpuSteps fpu now last

def callRela (sim : SimState) : Word := ofSignedByte (cpuFetch sim).id2

def SimState.called (sim : SimState) (target : Word) : SimState :=
  { sim with ticks := sim.ticks + 1, pc := target }.setR linkRegister (target + 4)

variable {fpu : FloatUnit} {sim after middle last : SimState}

theorem call_steps_iff (call : Selects sim .call) : CpuSteps fpu sim after ↔
    ∃ inside : (cpuFetch sim).id1.toNat < 16,
      after = sim.called (sim.r ⟨(cpuFetch sim).id1.toNat, inside⟩ + callRela sim) := by
  have handled (fuel : Nat) (sim : SimState) (id : InstBytes) :
      cpuExec fpu fuel .call sim id = cpuExecCall sim id := rfl
  simp only [CpuSteps, call.step_eq, handled, cpuExecCall]
  by_cases inside : (cpuFetch sim).id1.toNat < 16
  · constructor
    · rintro ⟨_, cer, step⟩
      rw [dif_pos inside] at step
      cases step
      exact ⟨inside, rfl⟩
    · rintro ⟨_, rfl⟩
      refine ⟨0, .continue, ?_⟩
      rw [dif_pos inside]
      rfl
  · constructor
    · rintro ⟨_, cer, step⟩
      rw [dif_neg inside] at step
      cases step
    · rintro ⟨holds, _⟩
      exact absurd holds inside

theorem ret_step (ret : Selects sim .ret) (step : CpuSteps fpu sim after) :
    after.pc = sim.r linkRegister := by
  obtain ⟨fuel, cer, done⟩ := step
  rw [ret.step_eq] at done
  cases done
  rfl

theorem keepsLink_run (run : Relation.ReflTransGen (KeepsLink fpu) middle after) :
    after.r linkRegister = middle.r linkRegister := by
  induction run with
  | refl => rfl
  | tail _ step ih => exact step.2.trans ih

theorem called_link (sim : SimState) (target : Word) :
    (sim.called target).r linkRegister = target + 4 := by
  simp [SimState.called, SimState.setR]

theorem CallRun.last_pc (run : CallRun fpu sim middle last) : last.pc = middle.pc + 4 := by
  obtain ⟨now, kept, ret, returned⟩ := run.body
  obtain ⟨inside, rfl⟩ := (call_steps_iff run.call).mp run.called
  rw [ret_step ret returned, keepsLink_run kept, called_link]
  rfl

/-- A call to itself is executed again and again as long as the link is kept. -/
theorem call_stuck (call : Selects sim .call) (mem : middle.mem = sim.mem)
    (pc : middle.pc = sim.pc) (link : middle.r linkRegister = sim.pc + 4)
    (run : Relation.ReflTransGen (KeepsLink fpu) middle after) :
    after.mem = sim.mem ∧ after.pc = sim.pc := by
  induction run with
  | refl => exact ⟨mem, pc⟩
  | @tail now next kept step ih =>
      obtain ⟨steps, same⟩ := step
      obtain ⟨inside, rfl⟩ := (call_steps_iff (call.same ih.1 ih.2)).mp steps
      rw [called_link, keepsLink_run kept, link] at same
      exact ⟨ih.1, (BitVec.add_left_inj 4#32).mp same⟩

theorem CallRun.misses (run : CallRun fpu sim middle last) : last.pc ≠ sim.pc + 4 := by
  intro returned
  rw [run.last_pc] at returned
  -- coming back behind the call takes a call to itself, which never gets to its `ret`
  have pc : middle.pc = sim.pc := (BitVec.add_left_inj 4#32).mp returned
  obtain ⟨now, kept, ret, _⟩ := run.body
  obtain ⟨inside, same⟩ := (call_steps_iff run.call).mp run.called
  have mem : middle.mem = sim.mem := by rw [same]; rfl
  have link : middle.r linkRegister = sim.pc + 4 := by
    rw [← pc, same, called_link]
    rfl
  obtain ⟨mem, pc⟩ := call_stuck run.call mem pc link kept
  exact absurd ((run.call.same mem pc).unique ret) (by decide)

/-- A call goes to its own address and the displacement exactly if its register holds this
address, and no `ret` ever comes back behind the call. -/
theorem calls_return_never (fpu : FloatUnit) {sim : SimState} (call : Selects sim .call) :
    ((∃ middle, CpuSteps fpu sim middle ∧ middle.pc = sim.pc + callRela sim) ↔
        ∃ inside : (cpuFetch sim).id1.toNat < 16,
          sim.r ⟨(cpuFetch sim).id1.toNat, inside⟩ = sim.pc) ∧
      ∀ middle last, CallRun fpu sim middle last → last.pc ≠ sim.pc + 4 := by
  constructor
  · constructor
    · rintro ⟨middle, step, target⟩
      obtain ⟨inside, rfl⟩ := (call_steps_iff call).mp step
      exact ⟨inside, (BitVec.add_left_inj _).mp target⟩
    · rintro ⟨inside, base⟩
      refine ⟨_, (call_steps_iff call).mpr ⟨inside, rfl⟩, ?_⟩
      rw [base]
      rfl
  · exact fun middle last run => run.misses

def callSim : SimState :=
  { simBoot [0x00, 0x0c, 0x08, 0x42, 0xff, 0xff, 0xff, 0xff, 0x00, 0x00, 0x00, 0x43] with
    r := Function.update clearedSim.r linkRegister simRomBase }

def callMiddle : SimState := callSim.called (simRomBase + 8)
def callLast : SimState := { callMiddle with ticks := callMiddle.ticks + 1, pc := simRomBase + 12 }

theorem callSim_fetch : cpuFetch callSim = ⟨0x00, 0x0c, 0x08, 0x42⟩ :=
  @cpuFetch_rom _ clearedSim.mem callSim 0 rfl rfl (by decide)

theorem callMiddle_fetch : cpuFetch callMiddle = ⟨0x00, 0x00, 0x00, 0x43⟩ :=
  @cpuFetch_rom _ clearedSim.mem callMiddle 8 rfl rfl (by decide)

theorem callSim_call : Selects callSim .call := by
  rw [Selects, callSim_fetch]
  exact ⟨.elem .call "call" .r4u4ra8o8 0x42, by decide +kernel, rfl⟩

theorem callMiddle_ret : Selects callMiddle .ret := by
  rw [Selects, callMiddle_fetch]
  exact ⟨.elem .ret "ret" .u16o8 0x43, by decide +kernel, rfl⟩

theorem callSim_runs : CallRun noFloats callSim callMiddle callLast := by
  have called : CpuSteps noFloats callSim callMiddle := by
    refine ⟨0, .continue, ?_⟩
    rw [callSim_call.step_eq, callSim_fetch]
    rfl
  have returned : CpuSteps noFloats callMiddle callLast := by
    refine ⟨0, .continue, ?_⟩
    rw [callMiddle_ret.step_eq]
    rfl
  exact ⟨callSim_call, called, callMiddle, .refl, callMiddle_ret, returned⟩

/-- The `ret` comes back behind itself instead of behind the call. -/
theorem callSim_misses : CallRun noFloats callSim callMiddle callLast ∧
    callSim.pc = 0x8000 ∧ callLast.pc = 0x800c := by
  exact ⟨callSim_runs, rfl, rfl⟩

theorem callSim_returns_never :
    ((∃ middle, CpuSteps noFloats callSim middle ∧ middle.pc = callSim.pc + callRela callSim) ↔
        ∃ inside : (cpuFetch callSim).id1.toNat < 16,
          callSim.r ⟨(cpuFetch callSim).id1.toNat, inside⟩ = callSim.pc) ∧
      callLast.pc ≠ callSim.pc + 4 := by
  obtain ⟨transfer, never⟩ := calls_return_never noFloats callSim_call
  exact ⟨transfer, never _ _ callSim_runs⟩

end Estros
