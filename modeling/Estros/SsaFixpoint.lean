import Estros.SsaReused

/-!
Both passes together: they keep SSA form, leave no use of an eliminated token, and reach a
state in which running them again changes nothing.
-/

namespace Estros

def DeadUnused (toks : List CcSsaToken) : Prop :=
  ∀ dead ∈ toks, dead.type = .none → ∀ tok ∈ toks, ¬ tok.Uses dead.result.id

theorem DeadUnused.behind {tok : CcSsaToken} {rest : List CcSsaToken}
    (unused : DeadUnused (tok :: rest)) : DeadUnused rest := fun dead deadIn none other member =>
  unused dead (List.mem_cons_of_mem tok deadIn) none other (List.mem_cons_of_mem tok member)

theorem dropIdentities_form {known : Set (BitVec 12)} {toks : List CcSsaToken}
    (form : Scoped known toks) (named : CopiesNamed toks) :
    Scoped known (dropIdentities.run toks) := by
  induction toks using sweep_induction generalizing known with
  | nil => exact form
  | cons tok rest ih =>
      by_cases identity : tok.type = .identity
      · obtain ⟨inside, _⟩ := copied_known form named identity
        have moved : Scoped (insert tok.result.id known)
            (rest.map (ccSsaReplaceArgs tok.result (tok.arg 0))) :=
          form.2.2.2.replaced (Set.mem_insert_of_mem _ inside)
        rw [dropIdentities_copy identity]
        refine ⟨form.1, form.2.1, fun id used => ?_, ?_⟩
        · exact form.2.2.1 id (uses_erase (by simp [identity]) used)
        · exact ih (.map _) moved
            (named.behind.replaced (named tok List.mem_cons_self identity))
      · rw [dropIdentities_other identity]
        exact ⟨form.1, form.2.1, form.2.2.1, ih .id form.2.2.2 named.behind⟩

theorem replaceArgs_results (source target : CcSsaArgument) (toks : List CcSsaToken) :
    (toks.map (ccSsaReplaceArgs source target)).map CcSsaToken.result =
      toks.map CcSsaToken.result := by
  rw [List.map_map]
  exact List.map_congr_left fun tok _ => replaceArgs_result source target tok

theorem dropIdentities_results (toks : List CcSsaToken) :
    (dropIdentities.run toks).map CcSsaToken.result = toks.map CcSsaToken.result := by
  induction toks using sweep_induction with
  | nil => rfl
  | cons tok rest ih =>
      by_cases identity : tok.type = .identity
      · have inner : (dropIdentities.run (rest.map (ccSsaReplaceArgs tok.result (tok.arg 0)))).map
            CcSsaToken.result = _ := ih (.map _)
        rw [dropIdentities_copy identity, List.map_cons, inner]
        exact congrArg _ (replaceArgs_results _ _ rest)
      · have inner : (dropIdentities.run rest).map CcSsaToken.result = _ := ih .id
        rw [dropIdentities_other identity, List.map_cons, List.map_cons, inner]
        rfl

theorem dropIdentities_dead {toks : List CcSsaToken} :
    ∀ dead ∈ dropIdentities.run toks, dead.type = .none →
      ∃ tok ∈ toks, (tok.type = .identity ∨ tok.type = .none) ∧ tok.result = dead.result := by
  -- A token that the identity pass leaves dead was a copy or dead before.
  induction toks using sweep_induction with
  | nil => exact fun _ member => absurd member List.not_mem_nil
  | cons head rest ih =>
      intro dead member none
      by_cases identity : head.type = .identity
      · rw [dropIdentities_copy identity] at member
        rcases List.mem_cons.mp member with rfl | later
        · exact ⟨head, List.mem_cons_self, Or.inl identity, rfl⟩
        · obtain ⟨moved, there, kind, same⟩ := ih (.map _) dead later none
          obtain ⟨old, before, rfl⟩ := List.mem_map.mp there
          rw [replaceArgs_type, replaceArgs_result] at *
          exact ⟨old, List.mem_cons_of_mem _ before, kind, same⟩
      · rw [dropIdentities_other identity] at member
        rcases List.mem_cons.mp member with rfl | later
        · exact ⟨dead, List.mem_cons_self, Or.inr none, rfl⟩
        · obtain ⟨old, before, kind, same⟩ := ih .id dead later none
          exact ⟨old, List.mem_cons_of_mem _ before, kind, same⟩

theorem dropIdentities_deadUnused {known : Set (BitVec 12)} {toks : List CcSsaToken}
    (form : Scoped known toks) (named : CopiesNamed toks) (live : ∀ tok ∈ toks, tok.type ≠ .none) :
    DeadUnused (dropIdentities.run toks) := by
  intro dead member none tok there used
  obtain ⟨copy, copyIn, kind, same⟩ := dropIdentities_dead dead member none
  have identity := kind.resolve_right (live copy copyIn)
  exact dropIdentities_unused form named copy copyIn identity tok there (same ▸ used)

theorem dropIdentities_stable {toks : List CcSsaToken} (none : ∀ tok ∈ toks, tok.type ≠ .identity) :
    dropIdentities.run toks = toks := by
  induction toks with
  | nil => rfl
  | cons tok rest ih =>
      rw [dropIdentities_other (none tok List.mem_cons_self),
        ih fun other member => none other (List.mem_cons_of_mem tok member)]

theorem MergeStep.deadUnused {known : Set (BitVec 12)} {toks merged : List CcSsaToken}
    (step : MergeStep toks merged) (form : Scoped known toks) (unused : DeadUnused toks) :
    DeadUnused merged := by
  obtain ⟨itok, jtok, merge⟩ := step.merged form
  have types := reused_type merge.same
  have jtokOwn := form.not_own merge.jtokIn
  intro dead deadIn none tok tokIn used
  rcases merge.old tok tokIn with rfl | ⟨old, oldIn, _, moved⟩
  · have usedBefore := uses_erase (types ▸ merge.raw) used
    rcases merge.old dead deadIn with rfl | ⟨oldDead, oldDeadIn, _, deadMoved⟩
    · exact jtokOwn usedBefore
    · rw [deadMoved.result] at usedBefore
      exact unused oldDead oldDeadIn (deadMoved.type ▸ none) jtok merge.jtokIn usedBefore
  · obtain ⟨raw, k, same⟩ := used
    have oldRaw : old.type ≠ .rawData := moved.type ▸ raw
    rw [moved.operands oldRaw k] at same
    rcases merge.old dead deadIn with rfl | ⟨oldDead, oldDeadIn, _, deadMoved⟩
    · exact substitute_ne merge.separate _ same
    · have deadType : oldDead.type = .none := deadMoved.type ▸ none
      rw [deadMoved.result, substitute] at same
      split at same
      · rename_i redirected
        have itokDead := merge.distinct itok merge.itokIn oldDead oldDeadIn same
        have jtokDead : jtok.type = .none := types.trans (itokDead ▸ deadType)
        exact unused jtok merge.jtokIn jtokDead old oldIn ⟨oldRaw, k, redirected⟩
      · exact unused oldDead oldDeadIn deadType old oldIn ⟨oldRaw, k, same⟩

/-- Where a token after the pass comes from: its type is an old one or `NONE`, and its first
operand is an old one or was redirected to some result. -/
def Traced (toks now : List CcSsaToken) : Prop :=
  ∀ new ∈ now, ∃ old ∈ toks, (new.type = old.type ∨ new.type = .none) ∧
    (new.arg 0 = old.arg 0 ∨ ∃ other ∈ toks, (new.arg 0).id = other.result.id)

theorem MergeStep.results {toks merged : List CcSsaToken} (step : MergeStep toks merged) :
    merged.map CcSsaToken.result = toks.map CcSsaToken.result := by
  cases step with
  | merge front behind itok jtok earlier raw same =>
      rw [List.map_append, List.map_cons, replaceArgs_results, List.map_append, List.map_cons]
      rfl

theorem MergeStep.traced {start toks merged : List CcSsaToken} (step : MergeStep toks merged)
    (results : toks.map CcSsaToken.result = start.map CcSsaToken.result)
    (traced : Traced start toks) : Traced start merged := by
  cases step with
  | merge front behind itok jtok earlier raw same =>
      intro new member
      rcases List.mem_append.mp member with before | after
      · exact traced new (List.mem_append_left _ before)
      · rcases List.mem_cons.mp after with rfl | after
        · obtain ⟨old, there, _, first⟩ := traced jtok (by simp)
          exact ⟨old, there, Or.inr rfl, first⟩
        · obtain ⟨moved, there, rfl⟩ := List.mem_map.mp after
          obtain ⟨old, oldIn, type, first⟩ := traced moved (by simp [there])
          refine ⟨old, oldIn, by rwa [replaceArgs_type], ?_⟩
          by_cases raw : moved.type = .rawData
          · rwa [replaceArgs_raw _ _ raw]
          · have arg := replaceArgs_arg jtok.result itok.result raw 0
            rw [arg]
            by_cases redirected : (moved.arg 0).id = jtok.result.id
            · have result : itok.result ∈ start.map CcSsaToken.result := by
                rw [← results]
                exact List.mem_map_of_mem (List.mem_append_left _ earlier)
              obtain ⟨other, otherIn, equal⟩ := List.mem_map.mp result
              rw [if_pos redirected]
              exact Or.inr ⟨other, otherIn, by rw [equal]⟩
            · rwa [if_neg redirected]

theorem mergeReused_results (toks : List CcSsaToken) :
    (mergeReused.run toks).map CcSsaToken.result = toks.map CcSsaToken.result :=
  mergeReused_induction (motive := fun now =>
    now.map CcSsaToken.result = toks.map CcSsaToken.result) toks rfl
    fun _ _ step same => step.results.trans same

theorem mergeReused_traced (toks : List CcSsaToken) : Traced toks (mergeReused.run toks) := by
  have both := mergeReused_induction
    (motive := fun now => now.map CcSsaToken.result = toks.map CcSsaToken.result ∧ Traced toks now)
    toks ⟨rfl, fun new member => ⟨new, member, Or.inl rfl, Or.inl rfl⟩⟩
    fun _ _ step held => ⟨step.results.trans held.1, step.traced held.1 held.2⟩
  exact both.2

theorem mergeReused_form {known : Set (BitVec 12)} {toks : List CcSsaToken}
    (form : Scoped known toks) (unused : DeadUnused toks) :
    Scoped known (mergeReused.run toks) ∧ DeadUnused (mergeReused.run toks) :=
  mergeReused_induction (motive := fun now => Scoped known now ∧ DeadUnused now) toks
    ⟨form, unused⟩ fun _ _ step held => ⟨step.scoped held.1, step.deadUnused held.1 held.2⟩

theorem mergeInto_form {known : Set (BitVec 12)} {itok : CcSsaToken} {rest : List CcSsaToken}
    (raw : itok.type ≠ .rawData) (form : Scoped known (itok :: rest)) :
    Scoped known (itok :: (mergeInto itok).run rest) := by
  have steps := mergeInto_steps raw rest [itok] List.mem_cons_self
  rw [List.singleton_append, List.singleton_append] at steps
  generalize itok :: (mergeInto itok).run rest = final at steps ⊢
  induction steps with
  | refl => exact form
  | tail _ last ih => exact last.scoped ih

def Settled (itok jtok : CcSsaToken) : Prop :=
  itok.type ≠ .rawData → ccSsaReused itok jtok = true → itok.type = .none

theorem mergeInto_settled (itok : CcSsaToken) (toks : List CcSsaToken) :
    ∀ jtok ∈ (mergeInto itok).run toks, Settled itok jtok := by
  induction toks using sweep_induction with
  | nil => exact fun _ member => absurd member List.not_mem_nil
  | cons head rest ih =>
      intro jtok member raw reused
      by_cases same : ccSsaReused itok head = true
      · rw [mergeInto_same same] at member
        rcases List.mem_cons.mp member with rfl | later
        · exact (reused_type reused).symm
        · exact ih (.map _) jtok later raw reused
      · rw [mergeInto_other same] at member
        rcases List.mem_cons.mp member with rfl | later
        · exact absurd reused same
        · exact ih .id jtok later raw reused

/-- Later merges do not bring back a token that counts as equal: what they redirect a first
operand to is a result behind `itok`, and `itok`'s own operands stand before it. -/
theorem mergeReused_settled_behind {known : Set (BitVec 12)} {itok : CcSsaToken}
    {rest : List CcSsaToken} (form : Scoped known (itok :: rest))
    (settled : ∀ jtok ∈ rest, Settled itok jtok) :
    ∀ jtok ∈ mergeReused.run rest, Settled itok jtok := by
  intro jtok member raw reused
  by_contra active
  obtain ⟨old, there, kind, first⟩ := mergeReused_traced rest jtok member
  have type := reused_type reused
  have oldType : old.type = itok.type := by
    rcases kind with same | none
    · exact same.symm.trans type
    · exact absurd (type.symm.trans none) active
  rcases first with same | ⟨other, otherIn, redirected⟩
  · refine active (settled old there raw ?_)
    simp only [ccSsaReused, oldType, ← same, reused_first reused, decide_true, Bool.and_self]
  · have new := form.2.2.2.fresh otherIn
    have usesFirst : itok.Uses other.result.id := ⟨raw, 0, by
      rw [← redirected, ← reused_first reused]⟩
    rcases form.2.2.1 _ usesFirst with null | old
    · exact new.2 null
    · exact new.1 (Set.mem_insert_of_mem _ old)

theorem mergeReused_settled {known : Set (BitVec 12)} {toks : List CcSsaToken}
    (form : Scoped known toks) : (mergeReused.run toks).Pairwise Settled := by
  induction toks using sweep_induction generalizing known with
  | nil => exact .nil
  | cons itok rest ih =>
      by_cases raw : itok.type = .rawData
      · rw [mergeReused_raw raw]
        exact .cons (fun jtok _ operands => absurd raw operands) (ih .id form.2.2.2)
      · rw [mergeReused_cons raw]
        have merged := mergeInto_form raw form
        exact .cons (mergeReused_settled_behind merged (mergeInto_settled itok rest))
          (ih (mergeInto itok) merged.2.2.2)

theorem replaceArgs_unused {source target : CcSsaArgument} {tok : CcSsaToken}
    (unused : ¬ tok.Uses source.id) : ccSsaReplaceArgs source target tok = tok := by
  by_cases raw : tok.type = .rawData
  · exact replaceArgs_raw source target raw
  · have args : tok.args.map (fun arg =>
        if arg.id = source.id then { arg with id := target.id } else arg) = tok.args := by
      apply Vector.ext
      intro k inside
      have other : tok.args[k].id ≠ source.id := fun same => unused ⟨raw, ⟨k, inside⟩, same⟩
      rw [Vector.getElem_map, if_neg other]
    unfold ccSsaReplaceArgs
    split
    · rfl
    · rw [args]

theorem mergeInto_stable {itok : CcSsaToken} (raw : itok.type ≠ .rawData) {toks : List CcSsaToken}
    (settled : ∀ jtok ∈ toks, Settled itok jtok) (unused : DeadUnused toks) :
    (mergeInto itok).run toks = toks := by
  induction toks with
  | nil => rfl
  | cons jtok rest ih =>
      have later := ih (fun other member => settled other (List.mem_cons_of_mem jtok member))
        unused.behind
      by_cases same : ccSsaReused itok jtok = true
      · have none : jtok.type = .none :=
          (reused_type same).trans (settled jtok List.mem_cons_self raw same)
        have erased : jtok.erase = jtok := by rw [CcSsaToken.erase, ← none]
        have kept : rest.map (ccSsaReplaceArgs jtok.result itok.result) = rest := by
          have each : rest.map (ccSsaReplaceArgs jtok.result itok.result) = rest.map id :=
            List.map_congr_left fun tok member => replaceArgs_unused
              (unused jtok List.mem_cons_self none tok (List.mem_cons_of_mem jtok member))
          exact each.trans (List.map_id rest)
        rw [mergeInto_same same, erased, kept, later]
      · rw [mergeInto_other same, later]

theorem mergeReused_stable {toks : List CcSsaToken} (settled : toks.Pairwise Settled)
    (unused : DeadUnused toks) : mergeReused.run toks = toks := by
  induction toks with
  | nil => rfl
  | cons itok rest ih =>
      obtain ⟨first, behind⟩ := List.pairwise_cons.mp settled
      have unusedBehind := unused.behind
      by_cases raw : itok.type = .rawData
      · rw [mergeReused_raw raw, ih behind unusedBehind]
      · rw [mergeReused_cons raw, mergeInto_stable raw first unusedBehind, ih behind unusedBehind]

theorem mergeReused_no_identity {toks : List CcSsaToken}
    (none : ∀ tok ∈ toks, tok.type ≠ .identity) :
    ∀ tok ∈ mergeReused.run toks, tok.type ≠ .identity := by
  intro tok member identity
  obtain ⟨old, there, kind, _⟩ := mergeReused_traced toks tok member
  rcases kind with same | dead
  · exact none old there (same.symm.trans identity)
  · exact absurd (identity.symm.trans dead) (by decide)

/-- Every operand of a remaining token is `NULL`, a parameter or the result of an earlier
token that remains. -/
def OperandsRemain (params : Nat) (toks : List CcSsaToken) : Prop :=
  ∀ front tok back, toks = front ++ tok :: back → tok.type ≠ .none → ∀ id, tok.Uses id →
    id = 0 ∨ id ∈ paramIds params ∨
      ∃ earlier ∈ front, earlier.type ≠ .none ∧ earlier.result.id = id

theorem operandsRemain {params : Nat} {toks : List CcSsaToken} (form : SsaForm params toks)
    (unused : DeadUnused toks) : OperandsRemain params toks := by
  rintro front tok back rfl _ id used
  obtain ⟨_, _, _, operands, _⟩ := scoped_append.mp form
  rcases operands id used with null | known
  · exact Or.inl null
  · rcases mem_knownAfter.mp known with param | ⟨earlier, before, rfl⟩
    · exact Or.inr (Or.inl param)
    · refine Or.inr (Or.inr ⟨earlier, before, fun none => ?_, rfl⟩)
      exact unused earlier (List.mem_append_left _ before) none tok (by simp) used

/-- On a function in SSA form without dead tokens, both passes run through; afterwards every
operand is still defined by a token that remains, every token has kept its result, and running
the passes again changes nothing. -/
theorem optimiseFunc_correct (state : CcState) (func : CcSsaFunction) (params : Nat)
    (inside : state.ViewInside func) (form : SsaForm params (state.funcTokens func))
    (named : CopiesNamed (state.funcTokens func))
    (live : ∀ tok ∈ state.funcTokens func, tok.type ≠ .none) :
    ∃ after, ccSsaOptimiseFunc state func = .ok after ∧
      OperandsRemain params (after.funcTokens func) ∧
      (after.funcTokens func).map CcSsaToken.result =
        (state.funcTokens func).map CcSsaToken.result ∧
      ((after.funcTokens func).map fun tok => tok.result.id).Nodup ∧
      ccSsaOptimiseFunc after func = .ok after := by
  set toks := state.funcTokens func with tokens
  set final := mergeReused.run (dropIdentities.run toks) with optimised
  have size : final.length = func.tokens.len.toNat := by
    rw [optimised, mergeReused.length, dropIdentities.length, tokens, funcTokens_length inside]
  obtain ⟨finalForm, finalUnused⟩ := mergeReused_form (dropIdentities_form form named)
    (dropIdentities_deadUnused form named live)
  have noIdentity := mergeReused_no_identity (dropIdentities_none_left toks)
  have settled := mergeReused_settled (dropIdentities_form form named)
  have asserted : ∀ tok ∈ final, tok.Asserted := fun tok member identity =>
    absurd identity (noIdentity tok member)
  refine ⟨state.withFuncTokens func final, optimiseFunc_run inside (named.asserted form), ?_⟩
  have view := funcTokens_withFuncTokens inside size
  rw [view]
  refine ⟨operandsRemain finalForm finalUnused, ?_, ?_, ?_⟩
  · rw [optimised, mergeReused_results, dropIdentities_results]
  · exact finalForm.nodup
  · have again := optimiseFunc_run (viewInside_withFuncTokens inside size) (by rwa [view])
    rw [again, view, dropIdentities_stable noIdentity, mergeReused_stable settled finalUnused,
      withFuncTokens_twice inside size]

theorem optimiseFunc_copy :
    let func := wholeFunction copyToks
    ∃ after, ccSsaOptimiseFunc (functionState copyToks) func = .ok after ∧
      OperandsRemain 1 (after.funcTokens func) ∧
      (after.funcTokens func).map CcSsaToken.result =
        ((functionState copyToks).funcTokens func).map CcSsaToken.result ∧
      ((after.funcTokens func).map fun tok => tok.result.id).Nodup ∧
      ccSsaOptimiseFunc after func = .ok after :=
  optimiseFunc_correct (functionState copyToks) (wholeFunction copyToks) 1 (by decide)
    (by decide) (by decide) (by decide)

end Estros
