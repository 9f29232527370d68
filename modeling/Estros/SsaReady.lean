import Estros.AsmFunctions

/-!
From the optimiser to the simulator: what the passes leave of a function that returns an
expression is what the code generator asks for, and it still returns the same.
-/

namespace Estros

def OperandsNamed (toks : List CcSsaToken) : Prop :=
  ∀ tok ∈ toks, tok.type ≠ .none → tok.Operated

theorem OperandsNamed.tail {tok : CcSsaToken} {rest : List CcSsaToken}
    (named : OperandsNamed (tok :: rest)) : OperandsNamed rest :=
  fun other member => named other (List.mem_cons_of_mem tok member)

theorem OperandsNamed.replaced {toks : List CcSsaToken} (named : OperandsNamed toks)
    {source target : CcSsaArgument} (positive : target.id ≠ 0) :
    OperandsNamed (toks.map (ccSsaReplaceArgs source target)) := by
  intro tok member live
  obtain ⟨old, before, rfl⟩ := List.mem_map.mp member
  rw [replaceArgs_type] at live
  obtain ⟨operands, needed⟩ := named old before live
  refine ⟨by rwa [replaceArgs_type], fun k few => ?_⟩
  rw [replaceArgs_type] at few
  rw [replaceArgs_id source target operands k, substitute]
  split
  · exact positive
  · exact needed k few

theorem dropIdentities_named {toks : List CcSsaToken} (named : OperandsNamed toks) :
    OperandsNamed (dropIdentities.run toks) := by
  induction toks using sweep_induction with
  | nil => exact fun _ member => absurd member List.not_mem_nil
  | cons tok rest ih =>
      by_cases identity : tok.type = .identity
      · rw [dropIdentities_copy identity]
        have live : tok.type ≠ .none := by simp [identity]
        have copied : (tok.arg 0).id ≠ 0 :=
          (named tok List.mem_cons_self live).2 0 (by rw [identity]; decide)
        have later := ih (.map (ccSsaReplaceArgs tok.result (tok.arg 0))) (named.tail.replaced copied)
        intro other member live
        rcases List.mem_cons.mp member with rfl | behind
        · exact absurd rfl live
        · exact later other behind live
      · rw [dropIdentities_other identity]
        have later := ih .id named.tail
        intro other member live
        rcases List.mem_cons.mp member with rfl | behind
        · exact named other List.mem_cons_self live
        · exact later other behind live

theorem MergeStep.named {known : Set (BitVec 12)} {toks merged : List CcSsaToken}
    (step : MergeStep toks merged) (form : Scoped known toks) (named : OperandsNamed toks) :
    OperandsNamed merged := by
  cases step with
  | merge front behind itok jtok earlier raw same =>
      have positive := (form.fresh (List.mem_append_left _ earlier)).2
      have moved : OperandsNamed (behind.map (ccSsaReplaceArgs jtok.result itok.result)) :=
        OperandsNamed.replaced (fun tok member =>
          named tok (List.mem_append_right _ (List.mem_cons_of_mem _ member))) positive
      intro tok member live
      rcases List.mem_append.mp member with before | after
      · exact named tok (List.mem_append_left _ before) live
      · rcases List.mem_cons.mp after with rfl | later
        · exact absurd rfl live
        · exact moved tok later live

def optimised (toks : List CcSsaToken) : List CcSsaToken :=
  mergeReused.run (dropIdentities.run toks)

/-- What lowering a `return` of an arithmetic expression leaves: copies and operations, and the
`RETURN` behind them. -/
structure ReturnsExpression (toks : List CcSsaToken) : Prop where
  form : SsaForm 4 toks
  temporal : ∀ tok ∈ toks, ccSsaFirstTemporal ≤ tok.result.id
  kinds : ∀ tok ∈ toks, tok.type = .identity ∨ tok.type = .ret ∨ (ccAsmInsn tok.type).isSome = true
  operated : ∀ tok ∈ toks, tok.Operated
  returns : ∃ front ret, toks = front ++ [ret] ∧ ret.type = .ret ∧ ∀ tok ∈ front, tok.type ≠ .ret

section Passes

variable {toks : List CcSsaToken}

theorem ReturnsExpression.live (returns : ReturnsExpression toks) :
    ∀ tok ∈ toks, tok.type ≠ .none := by
  intro tok member none
  rcases returns.kinds tok member with same | same | insn
  · rw [none] at same
    cases same
  · rw [none] at same
    cases same
  · rw [none] at insn
    cases insn

theorem ReturnsExpression.copies (returns : ReturnsExpression toks) : CopiesNamed toks :=
  fun tok member identity =>
    (returns.operated tok member).2 0 (by rw [identity]; decide)

/-- The token that a token has become: the same one with other operands, or `NONE`. -/
def Survives (new old : CcSsaToken) : Prop :=
  new.result = old.result ∧ (new.type = .none ∨ new.type = old.type)

theorem survives_trans {first middle last : List CcSsaToken}
    (later : List.Forall₂ Survives last middle) (earlier : List.Forall₂ Survives middle first) :
    List.Forall₂ Survives last first := by
  induction later generalizing first with
  | nil => exact earlier
  | cons head _ ih =>
      cases earlier with
      | cons start rest =>
          refine .cons ⟨head.1.trans start.1, ?_⟩ (ih rest)
          rcases head.2 with none | same
          · exact Or.inl none
          · exact start.2.imp same.trans same.trans

theorem forall₂_member {α β : Type} {related : α → β → Prop} {xs : List α} {ys : List β}
    (each : List.Forall₂ related xs ys) {x : α} (member : x ∈ xs) : ∃ y ∈ ys, related x y := by
  induction each with
  | nil => cases member
  | @cons head other _ _ first _ ih =>
      rcases List.mem_cons.mp member with rfl | behind
      · exact ⟨other, List.mem_cons_self, first⟩
      · obtain ⟨y, there, holds⟩ := ih behind
        exact ⟨y, List.mem_cons_of_mem _ there, holds⟩

theorem survives_same (toks : List CcSsaToken) : List.Forall₂ Survives toks toks :=
  List.forall₂_same.mpr fun _ _ => ⟨rfl, Or.inr rfl⟩

theorem survives_replaced (source target : CcSsaArgument) (toks : List CcSsaToken) :
    List.Forall₂ Survives (toks.map (ccSsaReplaceArgs source target)) toks :=
  List.forall₂_map_left_iff.mpr (List.forall₂_same.mpr fun tok _ =>
    ⟨replaceArgs_result source target tok, Or.inr (replaceArgs_type source target tok)⟩)

theorem dropIdentities_survive (toks : List CcSsaToken) :
    List.Forall₂ Survives (dropIdentities.run toks) toks := by
  induction toks using sweep_induction with
  | nil => exact .nil
  | cons tok rest ih =>
      by_cases identity : tok.type = .identity
      · rw [dropIdentities_copy identity]
        exact .cons ⟨rfl, Or.inl rfl⟩
          (survives_trans (ih (.map (ccSsaReplaceArgs tok.result (tok.arg 0))))
            (survives_replaced _ _ rest))
      · rw [dropIdentities_other identity]
        exact .cons ⟨rfl, Or.inr rfl⟩ (ih .id)

theorem MergeStep.survive {toks merged : List CcSsaToken} (step : MergeStep toks merged) :
    List.Forall₂ Survives merged toks := by
  cases step with
  | merge front behind itok jtok _ _ _ =>
      exact List.rel_append (survives_same front)
        (.cons ⟨rfl, Or.inl rfl⟩ (survives_replaced _ _ behind))

theorem optimised_survive (toks : List CcSsaToken) :
    List.Forall₂ Survives (optimised toks) toks := by
  have merged := mergeReused_induction
    (motive := fun now => List.Forall₂ Survives now (dropIdentities.run toks)) _
    (survives_same _) fun _ _ step kept => survives_trans step.survive kept
  exact survives_trans merged (dropIdentities_survive toks)

theorem optimised_returns (front : List CcSsaToken) {ret : CcSsaToken} (last : ret.type = .ret) :
    ∃ tok ∈ optimised (front ++ [ret]), tok.type = .ret := by
  refine mergeReused_returns _ ?_
  have kept : ∀ toks : List CcSsaToken, (∃ tok ∈ toks, tok.type = .ret) →
      ∃ tok ∈ dropIdentities.run toks, tok.type = .ret := by
    intro toks
    induction toks using sweep_induction with
    | nil => exact id
    | cons tok rest ih =>
        rintro ⟨found, member, type⟩
        by_cases identity : tok.type = .identity
        · rw [dropIdentities_copy identity]
          obtain ⟨later, there, still⟩ := ih (.map (ccSsaReplaceArgs tok.result (tok.arg 0))) (by
            rcases List.mem_cons.mp member with rfl | behind
            · rw [identity] at type
              cases type
            · exact ⟨_, List.mem_map_of_mem behind, (replaceArgs_type _ _ _).trans type⟩)
          exact ⟨later, List.mem_cons_of_mem _ there, still⟩
        · rw [dropIdentities_other identity]
          rcases List.mem_cons.mp member with rfl | behind
          · exact ⟨found, List.mem_cons_self, type⟩
          · obtain ⟨later, there, still⟩ := ih .id ⟨found, behind, type⟩
            exact ⟨later, List.mem_cons_of_mem _ there, still⟩
  exact kept _ ⟨ret, List.mem_append_right _ (List.mem_singleton_self ret), last⟩

theorem ReturnsExpression.optimised_split (returns : ReturnsExpression toks) :
    ∃ body ret, optimised toks = body ++ [ret] ∧ ret.type = .ret ∧ ∀ tok ∈ body,
      (tok.type = .none ∨ (ccAsmInsn tok.type).isSome = true) ∧
        ccSsaFirstTemporal ≤ tok.result.id := by
  obtain ⟨front, last, rfl, type, noReturn⟩ := returns.returns
  have survive := optimised_survive (front ++ [last])
  have noCopy := mergeReused_no_identity (dropIdentities_none_left (front ++ [last]))
  have kinds := returns.kinds
  obtain ⟨tok, there, still⟩ := optimised_returns front type
  change ∀ tok ∈ optimised (front ++ [last]), tok.type ≠ .identity at noCopy
  generalize optimised (front ++ [last]) = now at survive noCopy there
  have before := List.forall₂_take_append now front [last] survive
  have behind := List.forall₂_drop_append now front [last] survive
  obtain ⟨ret, rest, became, nothing, single⟩ := List.forall₂_cons_right_iff.mp behind
  rw [List.forall₂_nil_right_iff] at nothing
  have split : now = now.take front.length ++ [ret] := by
    rw [← nothing, ← single, List.take_append_drop]
  have body : ∀ tok ∈ now.take front.length,
      (tok.type = .none ∨ (ccAsmInsn tok.type).isSome = true) ∧
        ccSsaFirstTemporal ≤ tok.result.id := by
    intro tok member
    obtain ⟨old, inFront, result, kept⟩ := forall₂_member before member
    have inside : old ∈ front ++ [last] := List.mem_append_left _ inFront
    refine ⟨kept.imp_right fun same => ?_, result ▸ returns.temporal old inside⟩
    have live := noCopy tok (List.mem_of_mem_take member)
    rw [same] at live ⊢
    rcases kinds old inside with copy | return_ | insn
    · exact absurd copy live
    · exact absurd return_ (noReturn old inFront)
    · exact insn
  refine ⟨_, ret, split, ?_, body⟩
  rw [split] at there
  rcases List.mem_append.mp there with early | final
  · rcases (body tok early).1 with none | insn
    · exact nomatch still.symm.trans none
    · rw [still] at insn
      cases insn
  · exact List.mem_singleton.mp final ▸ still

theorem ReturnsExpression.optimised_form (returns : ReturnsExpression toks) :
    SsaForm 4 (optimised toks) ∧ DeadUnused (optimised toks) :=
  mergeReused_form (dropIdentities_form returns.form returns.copies)
    (dropIdentities_deadUnused returns.form returns.copies returns.live)

theorem ReturnsExpression.optimised_named (returns : ReturnsExpression toks) :
    OperandsNamed (optimised toks) := by
  have inScope := dropIdentities_form returns.form returns.copies
  have named := dropIdentities_named fun tok member _ => returns.operated tok member
  have both := mergeReused_induction
    (motive := fun now => Scoped (paramIds 4) now ∧ OperandsNamed now) _ ⟨inScope, named⟩
    fun _ _ step held => ⟨step.scoped held.1, step.named held.1 held.2⟩
  exact both.2

end Passes

theorem operandCount_insn {type : CcSsaTokenType} (insn : (ccAsmInsn type).isSome = true) :
    operandCount type = 2 := by
  cases type <;> first | rfl | cases insn

theorem definedAfter_known {known : Set (BitVec 12)} {toks : List CcSsaToken} {id : BitVec 12}
    (defined : id ∈ definedAfter known toks) : id ∈ knownAfter known toks := by
  rcases mem_knownAfter.mp defined with old | ⟨tok, member, same⟩
  · exact mem_knownAfter.mpr (Or.inl old)
  · exact mem_knownAfter.mpr (Or.inr ⟨tok, List.mem_of_mem_filter member, same⟩)

section Ready

variable {toks : List CcSsaToken} (form : SsaForm 4 toks) (unused : DeadUnused toks)
  (named : OperandsNamed toks)

include form unused named

theorem operand_defined {front back : List CcSsaToken} {tok : CcSsaToken}
    (split : toks = front ++ tok :: back) (live : tok.type ≠ .none)
    (before : ∀ other ∈ front, other.type = .none ∨ (ccAsmInsn other.type).isSome = true)
    (k : Fin ccSsaMaxArgs) (needed : k.val < operandCount tok.type) :
    (tok.arg k).id ∈ definedAfter (paramIds 4) front := by
  -- What a token needs is a parameter or the result of an operation before it.
  have operated := named tok (split ▸ List.mem_append_right _ List.mem_cons_self) live
  have positive : (tok.arg k).id ≠ 0 := operated.2 k needed
  rcases operandsRemain form unused front tok back split live _ ⟨operated.1, k, rfl⟩ with
    null | param | ⟨earlier, there, stays, same⟩
  · exact absurd null positive
  · exact mem_knownAfter.mpr (Or.inl param)
  · have insn := (before earlier there).resolve_left stays
    exact mem_knownAfter.mpr (Or.inr ⟨earlier, List.mem_filter.mpr ⟨there, insn⟩, same⟩)

theorem codegenReady_behind (done rest back : List CcSsaToken)
    (split : toks = done ++ (rest ++ back))
    (each : ∀ tok ∈ done ++ rest, (tok.type = .none ∨ (ccAsmInsn tok.type).isSome = true) ∧
      ccSsaFirstTemporal ≤ tok.result.id) :
    CodegenReady (definedAfter (paramIds 4) done) rest := by
  induction rest generalizing done with
  | nil => trivial
  | cons tok rest ih =>
      have next := ih (done ++ [tok]) (by rw [split]; simp) (by simpa using each)
      have after : definedAfter (paramIds 4) (done ++ [tok]) =
          definedAfter (definedAfter (paramIds 4) done) [tok] := by
        rw [definedAfter, operations, List.filter_append, knownAfter, List.foldl_append]
        rfl
      rw [after] at next
      have here := each tok (List.mem_append_right _ List.mem_cons_self)
      rw [CodegenReady]
      by_cases plain : tok.type = .none ∨ tok.type = .ret
      · rw [if_pos plain]
        rwa [definedAfter_plain plain] at next
      · rw [if_neg plain]
        have live : tok.type ≠ .none := fun none => plain (Or.inl none)
        have insn := here.1.resolve_left live
        have before := fun other there => (each other (List.mem_append_left _ there)).1
        have operand := operand_defined form unused named split live before
        rw [operandCount_insn insn] at operand
        rw [definedAfter_insn insn] at next
        refine ⟨⟨insn, here.2, fun old => ?_, operand 0 (by decide), operand 1 (by decide)⟩, next⟩
        have inScope := (scoped_append.mp (split ▸ form)).2
        exact inScope.2.1 (definedAfter_known old)

end Ready

/-- The passes leave what the code generator asks for. -/
theorem ReturnsExpression.returning {toks : List CcSsaToken} (returns : ReturnsExpression toks)
    (few : (operations (optimised toks)).length ≤ 7) :
    ∃ body ret, Returning (optimised toks) body ret := by
  obtain ⟨form, unused⟩ := returns.optimised_form
  have named := returns.optimised_named
  obtain ⟨body, ret, split, last, each⟩ := returns.optimised_split
  have ready := codegenReady_behind form unused named [] body [ret] split each
  have live : ret.type ≠ .none := fun none => nomatch last.symm.trans none
  have known := operand_defined form unused named split live (fun tok there => (each tok there).1)
    0 (by rw [last]; decide)
  refine ⟨body, ret, split, ready, fun tok member type => ?_, last, known, ?_⟩
  · rcases (each tok member).1 with none | insn
    · exact nomatch type.symm.trans none
    · rw [type] at insn
      cases insn
  · rw [split, operations, List.filter_append, List.length_append] at few
    exact Nat.le_of_add_right_le few

end Estros
