import Estros.IsaSteps

/-!
Which steps of the simulator end. All loops but the one of `strcpy` count down a register, so
`max_ticks` bounds the loop of `main` unless it runs into a string without an end.
-/

namespace Estros

def StringsEnd (sim : SimState) : Prop :=
  (cpuFetch sim).id3 = 0x35 → StringEnds sim.mem (cpuDecodeR4x4 sim (cpuFetch sim)).a
    (cpuDecodeR4x4 sim (cpuFetch sim)).b

/-- With enough rounds for its loop the step comes to its end, whatever that is. -/
def StepTerminates (fpu : FloatUnit) (sim : SimState) : Prop :=
  ∃ fuel, cpuStep fpu fuel sim ≠ .error .unfinished

section Steps

variable {fpu : FloatUnit} {fuel : Nat} {sim : SimState}

theorem strcpyStep_terminates {entry : XmInstTableEntry}
    (found : cpuFindInst (cpuFetch sim) = some entry) (strcpy : entry.inst = .strcpy) :
    StepTerminates fpu sim ↔ StringEnds sim.mem (cpuDecodeR4x4 sim (cpuFetch sim)).a
      (cpuDecodeR4x4 sim (cpuFetch sim)).b := by
  have each : ∀ fuel, cpuStep fpu fuel sim = _ := fun fuel => cpuStep_found rfl found
  simp only [StepTerminates, each, strcpy]
  exact strcpy_terminates

theorem otherStep_finished {entry : XmInstTableEntry}
    (found : cpuFindInst (cpuFetch sim) = some entry) (other : entry.inst ≠ .strcpy) (fuel : Nat) :
    cpuStep fpu fuel sim ≠ .error .unfinished := by
  rw [cpuStep_found rfl found]
  exact exec_finished fpu other fuel

theorem stepTerminates_of_stringsEnd (ends : StringsEnd sim) : StepTerminates fpu sim := by
  cases found : cpuFindInst (cpuFetch sim) with
  | none =>
      refine ⟨0, ?_⟩
      rw [cpuStep_missing found]
      exact fun same => by cases same
  | some entry =>
      by_cases strcpy : entry.inst = .strcpy
      · have last := (found_selected found).2.mp strcpy
        exact (strcpyStep_terminates found strcpy).mpr (ends last)
      · exact ⟨0, otherStep_finished found strcpy 0⟩

theorem stringsEnd_of_stepTerminates (terminates : StepTerminates fpu sim) : StringsEnd sim := by
  intro last
  cases found : cpuFindInst (cpuFetch sim) with
  | none =>
      have agrees := opcodeEntry_agrees (cpuFetch sim).id3
      rw [cpuFindInst_eq] at found
      have absent := (Option.or_eq_none_iff.mp found).1
      rw [absent, last] at agrees
      cases agrees
  | some entry =>
      have strcpy := (found_selected found).2.mpr last
      exact (strcpyStep_terminates found strcpy).mp terminates

theorem cpuStep_more (finished : cpuStep fpu fuel sim ≠ .error .unfinished) (more : Nat) :
    cpuStep fpu (fuel + more) sim = cpuStep fpu fuel sim := by
  cases found : cpuFindInst (cpuFetch sim) with
  | none => rw [cpuStep_missing found, cpuStep_missing found]
  | some entry =>
      rw [cpuStep_found rfl found] at finished ⊢
      rw [cpuStep_found rfl found]
      by_cases strcpy : entry.inst = .strcpy
      · rw [strcpy] at finished ⊢
        exact strcpy_more finished more
      · exact exec_fuel fpu strcpy _ _

end Steps

/-- `do { cer = cpu_step(sim); } while (cer != CPUE_HALT && sim->perf.ticks < max_ticks)`, at
most the given number of rounds. -/
def simLoop (fpu : FloatUnit) (fuel : Nat) (maxTicks : BitVec 64) : Nat → SimState → CpuResult
  | 0, _ => .error .unfinished
  | rounds + 1, sim => do
      let (cer, sim) ← cpuStep fpu fuel sim
      if cer ≠ .halt ∧ sim.ticks < maxTicks then simLoop fpu fuel maxTicks rounds sim
      else .ok (cer, sim)

/-- The states in which the loop of `main` calls `cpu_step`. -/
inductive SimReaches (fpu : FloatUnit) (maxTicks : BitVec 64) (start : SimState) :
    SimState → Prop where
  | start : SimReaches fpu maxTicks start start
  | next {now after : SimState} {fuel : Nat} {cer : CpuExecuteResult}
      (reached : SimReaches fpu maxTicks start now)
      (step : cpuStep fpu fuel now = .ok (cer, after)) (running : cer ≠ .halt)
      (before : after.ticks < maxTicks) : SimReaches fpu maxTicks start after

section Main

variable {fpu : FloatUnit} {fuel : Nat} {maxTicks : BitVec 64} {start now : SimState}

theorem simLoop_step {cer : CpuExecuteResult} {after : SimState}
    (step : cpuStep fpu fuel now = .ok (cer, after)) (rounds : Nat) :
    simLoop fpu fuel maxTicks (rounds + 1) now =
      if cer ≠ .halt ∧ after.ticks < maxTicks then simLoop fpu fuel maxTicks rounds after
      else .ok (cer, after) := by
  rw [simLoop, step]
  rfl

theorem simLoop_error {why : CpuStop} (step : cpuStep fpu fuel now = .error why) (rounds : Nat) :
    simLoop fpu fuel maxTicks (rounds + 1) now = .error why := by
  rw [simLoop, step]
  rfl

def LoopEnds (fpu : FloatUnit) (maxTicks : BitVec 64) (rounds : Nat) (now : SimState) : Prop :=
  ∃ enough, ∀ more, simLoop fpu (enough + more) maxTicks rounds now ≠ .error .unfinished

theorem loopEnds_round {rounds : Nat} (ends : StringsEnd now)
    (later : ∀ {fuel cer after}, cpuStep fpu fuel now = .ok (cer, after) → cer ≠ .halt →
      after.ticks < maxTicks → LoopEnds fpu maxTicks rounds after) :
    LoopEnds fpu maxTicks (rounds + 1) now := by
  obtain ⟨first, finished⟩ := @stepTerminates_of_stringsEnd fpu now ends
  have steps : ∀ more, cpuStep fpu (first + more) now = cpuStep fpu first now :=
    cpuStep_more finished
  cases step : cpuStep fpu first now with
  | error why =>
      refine ⟨first, fun more same => ?_⟩
      rw [simLoop_error ((steps more).trans step)] at same
      rw [step] at finished
      exact finished same
  | ok result =>
      obtain ⟨cer, after⟩ := result
      by_cases continues : cer ≠ .halt ∧ after.ticks < maxTicks
      · obtain ⟨enough, run⟩ := later step continues.1 continues.2
        refine ⟨first + enough, fun more same => ?_⟩
        rw [Nat.add_assoc, simLoop_step ((steps _).trans step), if_pos continues,
          Nat.add_left_comm] at same
        exact run (first + more) same
      · refine ⟨first, fun more same => ?_⟩
        rw [simLoop_step ((steps more).trans step), if_neg continues] at same
        cases same

/-- The counter does not wrap around below the bound. -/
theorem ticks_left {ticks : BitVec 64} {rounds : Nat} (before : ticks < maxTicks)
    (left : maxTicks.toNat ≤ ticks.toNat + (rounds + 1)) :
    maxTicks.toNat ≤ (ticks + 1).toNat + rounds := by
  have low : ticks.toNat < maxTicks.toNat := before
  have high := maxTicks.isLt
  have value : (ticks + 1).toNat = ticks.toNat + 1 := by
    rw [BitVec.toNat_add]
    exact Nat.mod_eq_of_lt (by change ticks.toNat + 1 < _; omega)
  omega

theorem loopEnds_below (ends : ∀ sim, SimReaches fpu maxTicks start sim → StringsEnd sim)
    {rounds : Nat} (reached : SimReaches fpu maxTicks start now) (before : now.ticks < maxTicks)
    (left : maxTicks.toNat ≤ now.ticks.toNat + rounds) : LoopEnds fpu maxTicks rounds now := by
  induction rounds generalizing now with
  | zero => exact absurd before (Nat.not_lt.mpr left)
  | succ rounds ih =>
      apply loopEnds_round (ends now reached)
      intro fuel cer after step running below
      have ticks := (step_effect step).1
      exact ih (reached.next step running below) below (ticks ▸ ticks_left before left)

-- The loop is a `do … while`: one step may start at or above the bound.
theorem loop_ends (ends : ∀ sim, SimReaches fpu maxTicks start sim → StringsEnd sim) :
    LoopEnds fpu maxTicks (maxTicks.toNat + 1) start := by
  apply loopEnds_round (ends start .start)
  intro fuel cer after step running below
  exact loopEnds_below ends (.next .start step running below) below (Nat.le_add_left _ _)

end Main

/-- A step ends exactly if it does not copy a string without an end. If this is so for all steps
of a simulation, then `max_ticks` bounds them. -/
theorem steps_terminate (fpu : FloatUnit) :
    (∀ sim, StepTerminates fpu sim ↔ StringsEnd sim) ∧
      ∀ maxTicks start, (∀ sim, SimReaches fpu maxTicks start sim → StringsEnd sim) →
        ∃ fuel, simLoop fpu fuel maxTicks (maxTicks.toNat + 1) start ≠ .error .unfinished := by
  constructor
  · intro sim
    exact ⟨stringsEnd_of_stepTerminates, stepTerminates_of_stringsEnd⟩
  · intro maxTicks start ends
    obtain ⟨enough, run⟩ := loop_ends ends
    exact ⟨enough, run 0⟩

def copyText : List UInt8 :=
  [0x00, 0x10, 0x02, 0x35, 0xff, 0xff, 0xff, 0xff, 0x68, 0x69, 0x00]

def copySim : SimState :=
  { simBoot copyText with
    r := fun reg => if reg.val = 1 then simRamBase else if reg.val = 2 then simRomBase + 8 else 0 }

theorem copySim_fetch : cpuFetch copySim = ⟨0x00, 0x10, 0x02, 0x35⟩ :=
  @cpuFetch_rom copyText clearedSim.mem copySim 0 rfl rfl (by decide)

def copyRun (fuel : Nat) : StrcpyState :=
  whileLoop (fun state => state.c ≠ 0) (strcpyRound simRamBase (simRomBase + 8)) fuel
    (strcpyRound simRamBase (simRomBase + 8) ⟨0, 0, copySim.mem⟩)

theorem copySim_step {fuel : Nat} {cer : CpuExecuteResult} {after : SimState}
    (step : cpuStep noFloats fuel copySim = .ok (cer, after)) :
    cpuFetch after = ⟨0xff, 0xff, 0xff, 0xff⟩ := by
  -- The copy ends after two more rounds, and the word behind it is as it was.
  have found : cpuFindInst ⟨0x00, 0x10, 0x02, 0x35⟩ =
      some (.elem .strcpy "strcpy" .r4r4r4r4 0x35) := by decide +kernel
  have going : ∀ fuel < 2, (copyRun fuel).c ≠ 0 := by decide +kernel
  have done : (copyRun 2).c = 0 := by decide +kernel
  have halts : cpuFetch { copySim with pc := copySim.pc + 4, mem := (copyRun 2).mem } =
      ⟨0xff, 0xff, 0xff, 0xff⟩ := by decide +kernel
  rw [cpuStep_found copySim_fetch found] at step
  change (if (copyRun fuel).c = 0 then (SimState.setR
    { copySim with ticks := copySim.ticks + 1, mem := (copyRun fuel).mem } _ _).next else _) = _ at step
  by_cases early : fuel < 2
  · rw [if_neg (going fuel early)] at step
    cases step
  · obtain ⟨more, rfl⟩ := Nat.exists_eq_add_of_le (Nat.not_lt.mp early)
    have last : copyRun (2 + more) = copyRun 2 := by
      rw [copyRun, whileLoop_more (by exact decide_eq_false (not_not_intro done)) more, copyRun]
    rw [last, if_pos done] at step
    cases step
    exact halts

theorem halt_step {fuel : Nat} {cer : CpuExecuteResult} {now after : SimState}
    (fetched : cpuFetch now = ⟨0xff, 0xff, 0xff, 0xff⟩)
    (step : cpuStep noFloats fuel now = .ok (cer, after)) : cer = .halt := by
  have found : cpuFindInst ⟨0xff, 0xff, 0xff, 0xff⟩ = some (.elem .halt "halt" .d8 0x0f) := by
    decide +kernel
  rw [cpuStep_found fetched found] at step
  cases step
  rfl

theorem copySim_terminates :
    (StepTerminates noFloats copySim ↔ StringsEnd copySim) ∧
      ∃ fuel, simLoop noFloats fuel 25 26 copySim ≠ .error .unfinished := by
  obtain ⟨steps, simulations⟩ := steps_terminate noFloats
  refine ⟨steps _, simulations 25 copySim ?_⟩
  intro sim reached
  have states : sim = copySim ∨ cpuFetch sim = ⟨0xff, 0xff, 0xff, 0xff⟩ := by
    induction reached with
    | start => exact Or.inl rfl
    | next _ step running _ ih =>
        rcases ih with rfl | halts
        · exact Or.inr (copySim_step step)
        · exact absurd (halt_step halts step) running
  rcases states with rfl | halts
  · exact fun _ => ⟨2, by decide +kernel, by decide +kernel⟩
  · intro strcpy
    rw [halts] at strcpy
    exact absurd strcpy (by decide)

def noZeroSim : SimState := { clearedSim with mem := fun _ => 0x35 }

theorem noZero_runs_on : ¬ StepTerminates noFloats noZeroSim := by
  intro terminates
  obtain ⟨n, zero, _⟩ := stringsEnd_of_stepTerminates terminates rfl
  exact absurd zero (by change ¬ (0x35 : UInt8) = 0; decide)

end Estros
