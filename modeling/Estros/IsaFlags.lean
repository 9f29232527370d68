import Estros.IsaSteps

/-!
The flags register over runs of the simulator. Every handler leaves it as it is or writes `Z`
and `N` for one result, and only the sums of the comparisons write `C`.
-/

namespace Estros

/-- The flags that a run from cleared flags can have. -/
structure FlagsWellFormed (flags : Word) : Prop where
  exclusive : ¬ (flags &&& flagsBitN ≠ 0 ∧ flags &&& flagsBitZ ≠ 0)
  v : flags &&& flagsBitV = 0
  o : flags &&& flagsBitO = 0
  pg : flags &&& flagsBitPg = 0

theorem flagsWellFormed_zero : FlagsWellFormed 0 := by
  constructor <;> decide

theorem resultFlags_reflect (flags value : Word) :
    FlagsReflect flags (resultFlags flags value) (some value) :=
  updateFlags_reflect flags { clearedSim with flags := flags } value

theorem resultFlags_exclusive (flags value : Word) :
    ¬ (resultFlags flags value &&& flagsBitN ≠ 0 ∧ resultFlags flags value &&& flagsBitZ ≠ 0) := by
  rintro ⟨negative, zero⟩
  have reflect := resultFlags_reflect flags value
  have first := reflect.1.mp zero
  have second := reflect.2.mp negative
  rw [first] at second
  exact absurd second (by decide)

theorem bit_apart {i j : Nat} (apart : j ≠ i) : (1#32 <<< j).getLsbD i = false := by
  rw [← BitVec.twoPow_eq, BitVec.getLsbD_twoPow]
  simp [apart]

theorem resultFlags_above (flags value : Word) {i : Nat} (above : 2 ≤ i) (small : i < 32) :
    (resultFlags flags value).getLsbD i = flags.getLsbD i := by
  have z : flagsBitZ.getLsbD i = false := bit_apart (j := 1) (by omega)
  have n : flagsBitN.getLsbD i = false := bit_apart (j := 0) (by omega)
  simp only [resultFlags, BitVec.getLsbD_or, BitVec.getLsbD_and, BitVec.getLsbD_not, flag_bit, z, n,
    small, decide_true, Bool.or_self, Bool.not_false, Bool.and_true, Bool.and_false, Bool.or_false]

theorem cpuIAdd32_above (flags a b : Word) {i : Nat} (above : 3 ≤ i) (small : i < 32) :
    (cpuIAdd32 flags a b).2.getLsbD i = flags.getLsbD i := by
  have c : flagsBitC.getLsbD i = false := bit_apart (j := 2) (by omega)
  simp only [cpuIAdd32, BitVec.getLsbD_or, BitVec.getLsbD_and, BitVec.getLsbD_not, flag_bit, c, small,
    decide_true, Bool.not_false, Bool.and_true, Bool.and_false, Bool.or_false]

theorem FlagsStep.above {flags after : Word} (step : FlagsStep flags after) {i : Nat}
    (above : 3 ≤ i) (small : i < 32) : after.getLsbD i = flags.getLsbD i := by
  cases step with
  | kept => rfl
  | result value => exact resultFlags_above flags value (by omega) small
  | sum a b =>
      rw [resultFlags_above _ _ (by omega) small]
      exact cpuIAdd32_above flags a b above small

theorem and_bit_eq_zero (value : Word) {i : Nat} (small : i < 32) :
    value &&& (1#32 <<< i) = 0 ↔ value.getLsbD i = false := by
  rw [← not_iff_not, ← ne_eq, and_bit_ne_zero value small, Bool.not_eq_false]

theorem FlagsStep.unset {flags after : Word} (step : FlagsStep flags after) {i : Nat}
    (above : 3 ≤ i) (small : i < 32) (unset : flags &&& (1#32 <<< i) = 0) :
    after &&& (1#32 <<< i) = 0 := by
  rw [and_bit_eq_zero _ small] at unset ⊢
  exact (step.above above small).trans unset

theorem FlagsStep.wellFormed {flags after : Word} (step : FlagsStep flags after)
    (formed : FlagsWellFormed flags) : FlagsWellFormed after := by
  constructor
  · cases step with
    | kept => exact formed.exclusive
    | result value => exact resultFlags_exclusive flags value
    | sum a b => exact resultFlags_exclusive _ _
  · exact step.unset (i := 3) (by decide) (by decide) formed.v
  · exact step.unset (i := 4) (by decide) (by decide) formed.o
  · exact step.unset (i := 5) (by decide) (by decide) formed.pg

/-- A branch that asks for both `n` and `z` is taken exactly if it inverts its condition. -/
theorem condition_both {flags : Word} (formed : FlagsWellFormed flags) {cc : UInt8}
    (n : cc &&& 0x02 ≠ 0) (z : cc &&& 0x04 ≠ 0) (cond : Bool) :
    cpuBranchCondition flags cc cond = decide (cc &&& 0x01 ≠ 0) := by
  have either : (flags &&& flagsBitN ≠ 0 && flags &&& flagsBitZ ≠ 0) = false := by
    rw [← Bool.decide_and]
    exact decide_eq_false formed.exclusive
  simp only [cpuBranchCondition, if_pos n, if_pos z, Bool.and_assoc, either]
  by_cases c : cc &&& 0x08 ≠ 0 <;> by_cases inverted : cc &&& 0x01 ≠ 0 <;> simp [c, inverted]

/-- In every state that is reached from cleared flags `N` and `Z` are not both set and `V`, `O`
and `PG` are not set, so that no branch finds both `n` and `z`. -/
theorem flags_wellFormed (fpu : FloatUnit) {start now : SimState} (cleared : start.flags = 0)
    (run : CpuRuns fpu start now) :
    FlagsWellFormed now.flags ∧ ∀ cc cond, cc &&& 0x02 ≠ 0 → cc &&& 0x04 ≠ 0 →
      cpuBranchCondition now.flags cc cond = decide (cc &&& 0x01 ≠ 0) := by
  have formed : FlagsWellFormed now.flags := by
    apply run.invariant (fun sim => FlagsWellFormed sim.flags)
    · rintro before after formed ⟨fuel, cer, step⟩
      exact (step_effect step).2.wellFormed formed
    · rw [cleared]
      exact flagsWellFormed_zero
  exact ⟨formed, fun cc cond n z => condition_both formed n z cond⟩

theorem addZero_wellFormed : ∃ now, CpuRuns noFloats (simBoot [0x00, 0x00, 0x00, 0x80]) now ∧
    now.flags = flagsBitZ ∧ FlagsWellFormed now.flags ∧
    cpuBranchCondition now.flags 0x06 true = false := by
  have found : cpuFindInst ⟨0x00, 0x00, 0x00, 0x80⟩ =
      some (.elem .add "add" .r4r4i8o8Ifhbs 0x00) := by decide +kernel
  have step := @cpuStep_found noFloats 0 _ _ _ (fetch_boot ⟨0x00, 0x00, 0x00, 0x80⟩) found
  have run : CpuRuns noFloats (simBoot [0x00, 0x00, 0x00, 0x80]) _ := .single ⟨0, _, step⟩
  obtain ⟨formed, branches⟩ := flags_wellFormed noFloats rfl run
  exact ⟨_, run, rfl, formed, branches 0x06 true (by decide) (by decide)⟩

end Estros
