import Mathlib.Logic.Relation
import Estros.IsaHazards

/-!
What a step of the simulator leaves alone, and what it can do to the flags, said once for all
handlers; runs of steps.
-/

namespace Estros

def resultFlags (flags value : Word) : Word :=
  let flags := flags &&& ~~~(flagsBitZ ||| flagsBitN)
  let flags := flags ||| if value = 0 then flagsBitZ else 0
  flags ||| if value.slt 0 then flagsBitN else 0

/-- How a handler can change the flags. -/
inductive FlagsStep (flags : Word) : Word → Prop where
  | kept : FlagsStep flags flags
  | result (value : Word) : FlagsStep flags (resultFlags flags value)
  | sum (a b : Word) :
      FlagsStep flags (resultFlags (cpuIAdd32 flags a b).2 (cpuIAdd32 flags a b).1)

structure StepEffect (sim after : SimState) : Prop where
  ticks : after.ticks = sim.ticks
  flags : FlagsStep sim.flags after.flags

variable {fpu : FloatUnit} {fuel : Nat} {sim after : SimState} {id : InstBytes}
  {cer : CpuExecuteResult}

/-- A handler that goes to the next instruction and does not touch the flags. -/
theorem next_effect {state : SimState} (done : state.next = .ok (cer, after))
    (ticks : state.ticks = sim.ticks) (flags : state.flags = sim.flags) :
    StepEffect sim after := by
  cases done
  exact ⟨ticks, flags ▸ .kept⟩

theorem next_result {state : SimState} {value : Word}
    (done : (state.updateFlags value).next = .ok (cer, after)) (ticks : state.ticks = sim.ticks)
    (flags : state.flags = sim.flags) : StepEffect sim after := by
  cases done
  exact ⟨ticks, flags ▸ .result value⟩

theorem alu_effect {value : Word → Word → Option Word}
    (done : cpuExecAlu value sim id = .ok (cer, after)) : StepEffect sim after := by
  cases stored : value (cpuDecodeR4x2i8Ifhbs sim id).a (cpuDecodeR4x2i8Ifhbs sim id).b with
  | none =>
      rw [cpuExecAlu_none stored] at done
      cases done
  | some result =>
      rw [cpuExecAlu_some stored] at done
      exact next_result done rfl rfl

theorem cmp_effect (done : cpuExecCmp sim id = .ok (cer, after)) : StepEffect sim after := by
  cases done
  exact ⟨rfl, .sum _ _⟩

theorem strcpy_effect (done : cpuExecStrcpy fuel sim id = .ok (cer, after)) :
    StepEffect sim after := by
  by_cases stopped : (strcpyLast fuel sim id).c = 0
  · rw [cpuExecStrcpy_stopped stopped] at done
    exact next_effect done rfl rfl
  · rw [cpuExecStrcpy_unfinished stopped] at done
    cases done

theorem call_effect (done : cpuExecCall sim id = .ok (cer, after)) : StepEffect sim after := by
  unfold cpuExecCall at done
  by_cases inside : id.id1.toNat < 16
  · rw [dif_pos inside] at done
    cases done
    exact ⟨rfl, .kept⟩
  · rw [dif_neg inside] at done
    cases done

theorem fcvtri_effect (done : cpuExecFcvtri fpu sim id = .ok (cer, after)) :
    StepEffect sim after := by
  simp only [cpuExecFcvtri] at done
  split at done
  · exact next_effect done rfl rfl
  · cases done

theorem exec_effect {inst : XmInst} (done : cpuExec fpu fuel inst sim id = .ok (cer, after)) :
    StepEffect sim after := by
  cases inst with
  | add | sub | mul | div | rem | imul | and | xor | or | shl | shr | pcnt | clz | clo | bswap
  | ipcnt =>
      unfold cpuExec at done
      exact alu_effect done
  | cmp => exact cmp_effect done
  | memchrf => exact next_result done rfl rfl
  | strcpy => exact strcpy_effect done
  | strcat | strpbrk | strncat | strchr | strnchr => cases done
  | call => exact call_effect done
  | jmp | jmprel | ret | bz | b | bgzs | bgpc | bgpcrela | bo | bgoz | bemax | bet0 | bet1 | bet2
  | bet3 | bet4 | bet5 | bet6 | bet7 | halt =>
      cases done
      exact ⟨rfl, .kept⟩
  | fcvtri => exact fcvtri_effect done
  | _ => exact next_effect done rfl rfl

theorem step_found (done : cpuStep fpu fuel sim = .ok (cer, after)) :
    ∃ entry, cpuFindInst (cpuFetch sim) = some entry ∧
      cpuExec fpu fuel entry.inst { sim with ticks := sim.ticks + 1 } (cpuFetch sim) =
        .ok (cer, after) := by
  cases found : cpuFindInst (cpuFetch sim) with
  | none =>
      rw [cpuStep_missing found] at done
      cases done
  | some entry => exact ⟨entry, rfl, (cpuStep_found rfl found).symm.trans done⟩

theorem step_effect (done : cpuStep fpu fuel sim = .ok (cer, after)) :
    after.ticks = sim.ticks + 1 ∧ FlagsStep sim.flags after.flags := by
  obtain ⟨entry, _, executed⟩ := step_found done
  have effect := exec_effect executed
  exact ⟨effect.ticks, effect.flags⟩

def CpuSteps (fpu : FloatUnit) (sim after : SimState) : Prop :=
  ∃ fuel cer, cpuStep fpu fuel sim = .ok (cer, after)

def CpuRuns (fpu : FloatUnit) : SimState → SimState → Prop := Relation.ReflTransGen (CpuSteps fpu)

/-- What every step keeps holds in every state of a run. -/
theorem CpuRuns.invariant {start now : SimState} (run : CpuRuns fpu start now)
    (inv : SimState → Prop) (kept : ∀ {before after}, inv before → CpuSteps fpu before after →
      inv after) (holds : inv start) : inv now := by
  induction run with
  | refl => exact holds
  | tail _ step ih => exact kept ih step

def Selects (sim : SimState) (inst : XmInst) : Prop :=
  ∃ entry, cpuFindInst (cpuFetch sim) = some entry ∧ entry.inst = inst

theorem Selects.step_eq {inst : XmInst} (selects : Selects sim inst) (fuel : Nat) :
    cpuStep fpu fuel sim =
      cpuExec fpu fuel inst { sim with ticks := sim.ticks + 1 } (cpuFetch sim) := by
  obtain ⟨entry, found, rfl⟩ := selects
  exact cpuStep_found rfl found

theorem Selects.unique {inst other : XmInst} (one : Selects sim inst) (two : Selects sim other) :
    inst = other := by
  obtain ⟨entry, found, rfl⟩ := one
  obtain ⟨entry', again, rfl⟩ := two
  rw [found] at again
  cases again
  rfl

theorem Selects.same {inst : XmInst} (selects : Selects sim inst) (mem : after.mem = sim.mem)
    (pc : after.pc = sim.pc) : Selects after inst := by
  -- What is selected depends on the memory and on `pc`.
  have fetched : cpuFetch after = cpuFetch sim := by rw [cpuFetch, cpuFetch, mem, pc]
  rw [Selects, fetched]
  exact selects

end Estros
