import Mathlib.Algebra.Order.BigOperators.Group.List
import Mathlib.Algebra.Order.Ring.Nat
import Estros.Driver
import Estros.SourcePrograms

/-!
From the bytes of a source file to the simulator: files of functions that return an arithmetic
expression are compiled, assembled and executed, and what comes out is the value of the
expression.
-/

namespace Estros

section Texts

variable {one other : CcState} (same : one.data = other.data)

include same

theorem strviewGet_data : ccStrviewGet one = ccStrviewGet other := by
  funext view
  rw [ccStrviewGet, ccStrviewGet, same]

theorem SourceFunction.index_data (func : SourceFunction) : func.index one = func.index other := by
  funext view
  simp only [SourceFunction.index, CcState.text, parameterNamed, strviewGet_data same]

theorem SourceFunction.Supported.data {func : SourceFunction} (supported : func.Supported one) :
    func.Supported other := by
  have index := func.index_data same
  have operators : func.operators one = func.operators other := by
    rw [SourceFunction.operators, SourceFunction.operators, index]
  have text : one.text func.name = other.text func.name := by
    rw [CcState.text, CcState.text, strviewGet_data same]
  exact ⟨supported.params, index ▸ supported.value, operators ▸ supported.few,
    operators ▸ supported.decides, text ▸ supported.label⟩

theorem SourceRuns.data {fpu : FloatUnit} {fuel : Nat} {text file : List UInt8}
    {funcs : List SourceFunction} (runs : SourceRuns fpu fuel one text file funcs) :
    SourceRuns fpu fuel other text file funcs := by
  intro i func here
  obtain ⟨label, found, name, each⟩ := runs i func here
  refine ⟨label, found, ?_, ?_⟩
  · rw [name, CcState.text, CcState.text, strviewGet_data same]
  · have tokens : func.tokens one = func.tokens other := by
      rw [SourceFunction.tokens, SourceFunction.tokens, func.index_data same]
    have outcome : func.outcome one = func.outcome other := by
      funext params
      rw [SourceFunction.outcome, SourceFunction.outcome, func.index_data same]
    rw [← tokens, ← outcome]
    exact each

end Texts

end Estros
