import Mathlib.Data.List.GetD
import Estros.AsmSimulation

/-!
The register table of a function with at most seven operations, entry by entry: the parameters
stay in `$a0` to `$a3`, and operation after operation takes the next of `$t0` to `$t6`. All lines
are then on integer registers.
-/

namespace Estros

def assignedId (given : List (BitVec 12)) (reg : Nat) : BitVec 12 :=
  if ccAsmRegisterA0 ≤ reg ∧ reg < ccAsmRegisterA0 + 4 then ccSsaIdParam (reg - ccAsmRegisterA0)
  else if ccAsmRegisterT0 ≤ reg then given.getD (reg - ccAsmRegisterT0) 0
  else 0

def registerOf (given : List (BitVec 12)) (id : BitVec 12) : Nat :=
  match given.idxOf? id with
  | some index => ccAsmRegisterT0 + index
  | none => ccAsmRegisterA0 + (id.toNat - 2)

/-- The table, with no entry for anything else. -/
structure Assigned (given : List (BitVec 12)) (as : CcAsmState) : Prop where
  size : as.nRegInfo = ccAsmRegisterSpill
  ids : ∀ reg < ccAsmRegisterSpill, (as.regInfo reg).id = assignedId given reg
  few : given.length ≤ 7
  named : ∀ id ∈ given, id ≠ 0

def CcAsmLine.OnIntegers : CcAsmLine → Prop
  | .binop _ res arg0 arg1 => ∀ reg ∈ [res, arg0, arg1],
      ccAsmRegisterT0 ≤ reg ∧ reg < ccAsmRegisterSpill
  | _ => False

theorem assignedId_temporary (given : List (BitVec 12)) {index : Nat} (few : index < 8) :
    assignedId given (ccAsmRegisterT0 + index) = given.getD index 0 := by
  have low : ¬ (ccAsmRegisterA0 ≤ ccAsmRegisterT0 + index ∧
      ccAsmRegisterT0 + index < ccAsmRegisterA0 + 4) := by
    simp only [ccAsmRegisterA0, ccAsmRegisterT0]
    omega
  rw [assignedId, if_neg low, if_pos (Nat.le_add_right _ _), Nat.add_sub_cancel_left]

theorem assignedId_nonzero {given : List (BitVec 12)} {reg : Nat}
    (used : assignedId given reg ≠ 0) : ccAsmRegisterT0 ≤ reg := by
  by_contra low
  refine used ?_
  rw [assignedId, if_neg, if_neg low]
  simp only [ccAsmRegisterA0, ccAsmRegisterT0] at low ⊢
  omega

theorem registerOf_integer (given : List (BitVec 12)) (id : BitVec 12) :
    ccAsmRegisterT0 ≤ registerOf given id := by
  rw [registerOf]
  cases given.idxOf? id with
  | some index => exact Nat.le_add_right _ _
  | none => exact Nat.le_trans (by decide) (Nat.le_add_right ccAsmRegisterA0 _)

theorem assignedId_registerOf {given : List (BitVec 12)} (few : given.length ≤ 7)
    {id : BitVec 12} (known : id ∈ given ∨ id ∈ paramIds 4) :
    registerOf given id < ccAsmRegisterSpill ∧ assignedId given (registerOf given id) = id := by
  rw [registerOf]
  cases found : given.idxOf? id with
  | some index =>
      obtain ⟨inside, same, _⟩ := List.idxOf?_eq_some_iff.mp found
      constructor
      · change 16 + index < 32
        omega
      · change assignedId given (ccAsmRegisterT0 + index) = id
        rw [assignedId_temporary given (by omega), List.getD_eq_getElem _ _ inside]
        exact same
  | none =>
      have absent : id ∉ given := fun member => by
        rw [List.idxOf?_eq_none_iff] at found
        exact found member
      obtain ⟨low, high⟩ := known.resolve_left absent
      have bound : ccAsmRegisterA0 + (id.toNat - 2) < 28 := by
        change 24 + (id.toNat - 2) < 28
        omega
      refine ⟨Nat.lt_trans bound (by decide), ?_⟩
      rw [assignedId, if_pos ⟨Nat.le_add_right _ _, bound⟩, Nat.add_sub_cancel_left]
      apply BitVec.eq_of_toNat_eq
      rw [ccSsaIdParam, BitVec.toNat_ofNat]
      omega

section Table

variable {given : List (BitVec 12)} {as : CcAsmState}

theorem Assigned.filled (assigned : Assigned given as) : Filled given.length as := by
  constructor
  · intro index below
    have physical : ccAsmRegisterT0 + index < ccAsmRegisterSpill := by
      change 16 + index < 32
      omega
    rw [assigned.ids _ physical, assignedId_temporary given (by omega)]
    by_cases inside : index < given.length
    · rw [List.getD_eq_getElem _ _ inside]
      have used := assigned.named _ (List.getElem_mem inside)
      exact iff_of_false used (Nat.not_le.mpr inside)
    · rw [List.getD_eq_default _ _ (Nat.le_of_not_lt inside)]
      exact iff_of_true rfl (Nat.le_of_not_lt inside)
  · intro reg high below
    rw [assigned.size] at below
    exact absurd below (Nat.not_lt.mpr high)
  · have few := assigned.few
    rw [assigned.size, Nat.sub_eq_zero_of_le few, Nat.add_zero]

theorem Assigned.write (assigned : Assigned given as) (line : CcAsmLine) :
    Assigned given (ccAsmWrite as line) :=
  ⟨assigned.size, assigned.ids, assigned.few, assigned.named⟩

theorem Assigned.alloc (assigned : Assigned given as) (room : given.length < 7)
    {arg : CcSsaArgument} (nonzero : arg.id ≠ 0) :
    ccAsmRegalloc as .integer arg =
        (ccAsmRegisterT0 + given.length, as.setReg (ccAsmRegisterT0 + given.length) arg) ∧
      Assigned (given ++ [arg.id]) (as.setReg (ccAsmRegisterT0 + given.length) arg) := by
  have found := assigned.filled.findFree
  have size : ccAsmRegisterSpill + (given.length + 1 - 7) = as.nRegInfo := by
    rw [assigned.size, Nat.sub_eq_zero_of_le room, Nat.add_zero]
  rw [slot, if_pos room, size] at found
  refine ⟨by rw [ccAsmRegalloc, found], assigned.size, fun reg physical => ?_, ?_, ?_⟩
  · rw [setReg_regInfo]
    by_cases same : reg = ccAsmRegisterT0 + given.length
    · rw [if_pos same, same, assignedId_temporary _ (by omega),
        List.getD_append_right _ _ _ _ (Nat.le_refl _), Nat.sub_self]
      rfl
    · rw [if_neg same, assigned.ids reg physical, assignedId, assignedId]
      split
      · rfl
      · split
        · next high =>
          have other : reg - ccAsmRegisterT0 ≠ given.length := by omega
          rcases Nat.lt_or_ge (reg - ccAsmRegisterT0) given.length with inside | behind
          · rw [List.getD_append _ _ _ _ inside]
          · rw [List.getD_eq_default _ _ behind, List.getD_eq_default]
            rw [List.length_append, List.length_singleton]
            omega
        · rfl
  · rw [List.length_append]
    exact room
  · intro id member
    rcases List.mem_append.mp member with old | new
    · exact assigned.named id old
    · exact List.mem_singleton.mp new ▸ nonzero

theorem Assigned.ids_registerOf (assigned : Assigned given as) {id : BitVec 12}
    (known : id ∈ given ∨ id ∈ paramIds 4) :
    registerOf given id < ccAsmRegisterSpill ∧ (as.regInfo (registerOf given id)).id = id := by
  obtain ⟨below, holds⟩ := assignedId_registerOf assigned.few known
  exact ⟨below, (assigned.ids _ below).trans holds⟩

theorem start_assigned (state : CcState) (func : CcSsaFunction) (as : CcAsmState) :
    Assigned [] (ccAsmFuncHeader state func as.reset) := by
  refine ⟨rfl, fun reg physical => ?_, Nat.zero_le _, fun id member => absurd member List.not_mem_nil⟩
  change CcSsaArgument.id (if ccAsmRegisterA0 ≤ reg ∧ reg < ccAsmRegisterA0 + 4 then _
    else if reg < ccAsmRegisterSpill then _ else _) = _
  rw [assignedId, if_pos physical]
  split
  · rfl
  · split <;> rfl

end Table

def resultIds (toks : List CcSsaToken) : List (BitVec 12) :=
  (operations toks).map fun tok => tok.result.id

/-- The operations are lowered to one line each, on integer registers. -/
theorem lowerTokens_assigned {known : Set (BitVec 12)} {given : List (BitVec 12)}
    {as now : CcAsmState} (toks back : List CcSsaToken) (ready : CodegenReady known toks)
    (noReturn : ∀ tok ∈ toks, tok.type ≠ .ret) (table : Table known as)
    (assigned : Assigned given as) (few : given.length + (operations toks).length ≤ 7)
    (behind : back ≠ []) (lowered : lowerTokens toks back as = .ok now) :
    Assigned (given ++ resultIds toks) now ∧ ∃ lines, now.asmOut = as.asmOut ++ lines ∧
      lines.length = (operations toks).length ∧ ∀ line ∈ lines, line.OnIntegers := by
  induction toks generalizing known given as with
  | nil =>
      cases Except.ok.inj lowered
      rw [resultIds, operations, List.filter_nil, List.map_nil, List.append_nil]
      exact ⟨assigned, [], (List.append_nil _).symm, rfl, fun _ member => absurd member List.not_mem_nil⟩
  | cons tok rest ih =>
      rw [CodegenReady] at ready
      rw [lowerTokens] at lowered
      have noneBehind := fun other member => noReturn other (List.mem_cons_of_mem tok member)
      have notLast : rest ++ back ≠ [] := fun empty => behind (List.append_eq_nil_iff.mp empty).2
      by_cases plain : tok.type = .none ∨ tok.type = .ret
      · rw [if_pos plain] at ready
        have none := plain.resolve_right (noReturn tok List.mem_cons_self)
        rw [operations_plain plain] at few
        simp only [ccAsmSwitch, none] at lowered
        rw [resultIds, operations_plain plain]
        exact ih ready noneBehind table assigned few lowered
      · rw [if_neg plain] at ready
        obtain ⟨operates, readyBehind⟩ := ready
        obtain ⟨insn, type⟩ := Option.isSome_iff_exists.mp operates.insn
        rw [operations_insn operates.insn, List.length_cons] at few
        obtain ⟨alloc, later⟩ := assigned.alloc (by omega) operates.nonzero
        obtain ⟨arg0, arg1, at0, at1, goes, _⟩ := binop_run table operates insn
        have grown := table.alloc operates.nonzero
        rw [alloc] at at0 at1 goes grown
        rw [switch_insn type, goes _ notLast] at lowered
        -- the entry of an operand is not empty, so its register is an integer register
        have integer {arg : Nat} {id : BitVec 12} (inside : id ∈ known)
            (holds : arg < (as.setReg (ccAsmRegisterT0 + given.length) tok.result).nRegInfo ∧
              ((as.setReg (ccAsmRegisterT0 + given.length) tok.result).regInfo arg).id = id) :
            ccAsmRegisterT0 ≤ arg ∧ arg < ccAsmRegisterSpill := by
          obtain ⟨below, same⟩ := holds
          rw [later.size] at below
          rw [later.ids arg below] at same
          exact ⟨assignedId_nonzero (same.trans_ne (table.named _ inside)), below⟩
        obtain ⟨final, lines, out, length, integers⟩ := ih readyBehind noneBehind
          (write_table grown (.binop insn (ccAsmRegisterT0 + given.length) arg0 arg1))
          (later.write _)
          (by rw [List.length_append, List.length_singleton]; omega) lowered
        rw [resultIds, operations_insn operates.insn, List.map_cons]
        rw [List.append_assoc] at final
        refine ⟨final, .binop insn (ccAsmRegisterT0 + given.length) arg0 arg1 :: lines, ?_, ?_, ?_⟩
        · rw [out, ccAsmWrite, List.append_assoc]
          rfl
        · rw [List.length_cons, length, List.length_cons]
        · intro line member
          rcases List.mem_cons.mp member with rfl | inside
          · intro reg among
            simp only [List.mem_cons, List.not_mem_nil, or_false] at among
            rcases among with rfl | rfl | rfl
            · exact ⟨Nat.le_add_right _ _, by change 16 + given.length < 32; omega⟩
            · exact integer operates.left at0
            · exact integer operates.right at1
          · exact integers line inside

end Estros
