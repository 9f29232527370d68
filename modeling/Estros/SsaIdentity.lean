import Estros.SsaSemantics

/-!
The identity pass: chains of copies are resolved from the front, so that at every token the
operands already name what the copies before it copied.
-/

namespace Estros

def CopiesNamed (toks : List CcSsaToken) : Prop :=
  ∀ tok ∈ toks, tok.type = .identity → (tok.arg 0).id ≠ 0

instance (toks : List CcSsaToken) : Decidable (CopiesNamed toks) :=
  inferInstanceAs (Decidable (∀ tok ∈ toks, tok.type = .identity → (tok.arg 0).id ≠ 0))

theorem CopiesNamed.behind {tok : CcSsaToken} {rest : List CcSsaToken}
    (named : CopiesNamed (tok :: rest)) : CopiesNamed rest := fun other member =>
  named other (List.mem_cons_of_mem tok member)

theorem CopiesNamed.replaced {toks : List CcSsaToken} (named : CopiesNamed toks)
    {source target : CcSsaArgument} (positive : target.id ≠ 0) :
    CopiesNamed (toks.map (ccSsaReplaceArgs source target)) := by
  intro tok member identity
  obtain ⟨old, before, rfl⟩ := List.mem_map.mp member
  rw [replaceArgs_type] at identity
  have operands : old.type ≠ .rawData := by simp [identity]
  have first := replaceArgs_id source target operands 0
  rw [first, substitute]
  split
  · exact positive
  · exact named old before identity

/-- Result ids are distinct from `NULL` in SSA form, so the pass's assertion holds. -/
theorem CopiesNamed.asserted {known : Set (BitVec 12)} {toks : List CcSsaToken}
    (named : CopiesNamed toks) (form : Scoped known toks) : ∀ tok ∈ toks, tok.Asserted :=
  fun tok member identity => ⟨(form.fresh member).2, named tok member identity⟩

theorem dropIdentities_copy {tok : CcSsaToken} (identity : tok.type = .identity)
    (rest : List CcSsaToken) :
    dropIdentities.run (tok :: rest) =
      tok.erase :: dropIdentities.run (rest.map (ccSsaReplaceArgs tok.result (tok.arg 0))) := by
  rw [dropIdentities, sweep_cons, identityStep, if_pos identity]
  rfl

theorem dropIdentities_other {tok : CcSsaToken} (other : tok.type ≠ .identity)
    (rest : List CcSsaToken) :
    dropIdentities.run (tok :: rest) = tok :: dropIdentities.run rest := by
  rw [dropIdentities, sweep_cons, identityStep, if_neg other]
  rfl

theorem uses_copied {tok : CcSsaToken} (identity : tok.type = .identity) :
    tok.Uses (tok.arg 0).id := ⟨by simp [identity], 0, rfl⟩

theorem uses_erase {tok : CcSsaToken} (operands : tok.type ≠ .rawData) {id : BitVec 12}
    (used : tok.erase.Uses id) : tok.Uses id := ⟨operands, used.2⟩

theorem copied_known {known : Set (BitVec 12)} {tok : CcSsaToken} {rest : List CcSsaToken}
    (form : Scoped known (tok :: rest)) (named : CopiesNamed (tok :: rest))
    (identity : tok.type = .identity) : (tok.arg 0).id ∈ known ∧ (tok.arg 0).id ≠ tok.result.id := by
  have inside : (tok.arg 0).id ∈ known := by
    rcases form.2.2.1 _ (uses_copied identity) with null | inside
    · exact absurd null (named tok List.mem_cons_self identity)
    · exact inside
  exact ⟨inside, fun same => form.2.1 (same ▸ inside)⟩

theorem dropIdentities_meaning (meaning : SsaMeaning) {known : Set (BitVec 12)}
    {toks : List CcSsaToken} (form : Scoped known toks) (named : CopiesNamed toks) (env : SsaEnv) :
    ssaRun meaning (dropIdentities.run toks) env = ssaRun meaning toks env := by
  induction toks using sweep_induction generalizing known env with
  | nil => rfl
  | cons tok rest ih =>
      by_cases identity : tok.type = .identity
      · obtain ⟨inside, distinct⟩ := copied_known form named identity
        have positive := named tok List.mem_cons_self identity
        have moved : Scoped (insert tok.result.id known)
            (rest.map (ccSsaReplaceArgs tok.result (tok.arg 0))) :=
          form.2.2.2.replaced (Set.mem_insert_of_mem tok.result.id inside)
        have swept := ih (.map (ccSsaReplaceArgs tok.result (tok.arg 0))) moved
          (named.behind.replaced positive) env
        have fresh : ∀ other ∈ rest,
            other.result.id ≠ tok.result.id ∧ other.result.id ≠ (tok.arg 0).id := by
          intro other member
          have new := (form.2.2.2.fresh member).1
          exact ⟨fun same => new (same ▸ Set.mem_insert _ _),
            fun same => new (same ▸ Set.mem_insert_of_mem _ inside)⟩
        calc ssaRun meaning (dropIdentities.run (tok :: rest)) env
            = ssaRun meaning (rest.map (ccSsaReplaceArgs tok.result (tok.arg 0))) env := by
              rw [dropIdentities_copy identity]
              exact swept
          _ = ssaRun meaning rest (env.set tok.result.id (env (tok.arg 0).id)) := by
              refine run_replaced meaning distinct (fun id other => ?_) ?_ fresh
              · rw [SsaEnv.set, if_neg other]
              · rw [SsaEnv.set, SsaEnv.set, if_pos rfl, if_neg distinct]
          _ = ssaRun meaning (tok :: rest) env := by
              rw [ssaRun]
              simp [CcSsaToken.effect, ssaEffect, identity]
      · rw [dropIdentities_other identity, ssaRun, ssaRun]
        cases tok.effect meaning env with
        | skip => exact ih .id form.2.2.2 named.behind env
        | stop outcome => rfl
        | define value => exact ih .id form.2.2.2 named.behind _

theorem dropIdentities_none_left (toks : List CcSsaToken) :
    ∀ tok ∈ dropIdentities.run toks, tok.type ≠ .identity := by
  induction toks using sweep_induction with
  | nil => exact fun _ member => absurd member List.not_mem_nil
  | cons head rest ih =>
      intro tok member
      by_cases identity : head.type = .identity
      · rw [dropIdentities_copy identity] at member
        rcases List.mem_cons.mp member with rfl | later
        · exact fun impossible => nomatch impossible
        · exact ih (.map _) tok later
      · rw [dropIdentities_other identity] at member
        rcases List.mem_cons.mp member with rfl | later
        · exact identity
        · exact ih .id tok later

theorem dropIdentities_uses {toks : List CcSsaToken} {id : BitVec 12}
    (used : ∃ tok ∈ dropIdentities.run toks, tok.Uses id) : ∃ tok ∈ toks, tok.Uses id := by
  -- The pass redirects operands only to ids that were operands already.
  induction toks using sweep_induction with
  | nil => exact used
  | cons head rest ih =>
      obtain ⟨tok, member, uses⟩ := used
      by_cases identity : head.type = .identity
      · rw [dropIdentities_copy identity] at member
        rcases List.mem_cons.mp member with rfl | later
        · exact ⟨head, List.mem_cons_self, uses_erase (by simp [identity]) uses⟩
        · obtain ⟨moved, there, usesMoved⟩ := ih (.map _) ⟨tok, later, uses⟩
          obtain ⟨old, before, rfl⟩ := List.mem_map.mp there
          obtain ⟨former, usesFormer, rfl⟩ := uses_replaceArgs usesMoved
          by_cases copied : former = head.result.id
          · rw [substitute, if_pos copied]
            exact ⟨head, List.mem_cons_self, uses_copied identity⟩
          · rw [substitute, if_neg copied]
            exact ⟨old, List.mem_cons_of_mem _ before, usesFormer⟩
      · rw [dropIdentities_other identity] at member
        rcases List.mem_cons.mp member with rfl | later
        · exact ⟨tok, List.mem_cons_self, uses⟩
        · obtain ⟨old, before, usesOld⟩ := ih .id ⟨tok, later, uses⟩
          exact ⟨old, List.mem_cons_of_mem _ before, usesOld⟩

theorem dropIdentities_unused {known : Set (BitVec 12)} {toks : List CcSsaToken}
    (form : Scoped known toks) (named : CopiesNamed toks) :
    ∀ copy ∈ toks, copy.type = .identity →
      ∀ tok ∈ dropIdentities.run toks, ¬ tok.Uses copy.result.id := by
  induction toks using sweep_induction generalizing known with
  | nil => exact fun _ member => absurd member List.not_mem_nil
  | cons head rest ih =>
      intro copy there isCopy tok member uses
      -- The operands of the first token are known, and a later result is not.
      have headKnown : head.Uses copy.result.id → copy ∈ rest → False := fun used later => by
        have new := form.2.2.2.fresh later
        rcases form.2.2.1 _ used with null | old
        · exact new.2 null
        · exact new.1 (Set.mem_insert_of_mem _ old)
      have headOwn : ¬ head.Uses head.result.id := fun used => by
        rcases form.2.2.1 _ used with null | old
        · exact form.1 null
        · exact form.2.1 old
      by_cases identity : head.type = .identity
      · -- the pass goes on with the rest, its uses of the copy replaced
        obtain ⟨inside, distinct⟩ := copied_known form named identity
        have positive := named head List.mem_cons_self identity
        have moved : Scoped (insert head.result.id known)
            (rest.map (ccSsaReplaceArgs head.result (head.arg 0))) :=
          form.2.2.2.replaced (Set.mem_insert_of_mem head.result.id inside)
        rw [dropIdentities_copy identity] at member
        rcases List.mem_cons.mp member with rfl | later
        · have old := uses_erase (by simp [identity]) uses
          rcases List.mem_cons.mp there with rfl | behind
          · exact headOwn old
          · exact headKnown old behind
        · rcases List.mem_cons.mp there with rfl | behind
          · obtain ⟨other, replaced, usesOther⟩ := dropIdentities_uses ⟨tok, later, uses⟩
            obtain ⟨old, _, rfl⟩ := List.mem_map.mp replaced
            obtain ⟨former, _, same⟩ := uses_replaceArgs usesOther
            rw [substitute] at same
            split at same
            · exact distinct same.symm
            · rename_i kept
              exact kept same.symm
          · have replaced : ccSsaReplaceArgs head.result (head.arg 0) copy ∈
                rest.map (ccSsaReplaceArgs head.result (head.arg 0)) := List.mem_map_of_mem behind
            have unused := ih (.map _) moved (named.behind.replaced positive) _ replaced
              (by rwa [replaceArgs_type]) tok later
            rw [replaceArgs_result] at unused
            exact unused uses
      · rw [dropIdentities_other identity] at member
        rcases List.mem_cons.mp there with rfl | behind
        · exact identity isCopy
        · rcases List.mem_cons.mp member with rfl | later
          · exact headKnown uses behind
          · exact ih .id form.2.2.2 named.behind copy behind isCopy tok later uses

/-- On a function in SSA form the identity pass runs through, preserves what every call
returns, and leaves neither a copy nor a use of an eliminated one. -/
theorem optimiseIdentity_correct (state : CcState) (func : CcSsaFunction) (params : Nat)
    (inside : state.ViewInside func) (form : SsaForm params (state.funcTokens func))
    (named : CopiesNamed (state.funcTokens func)) :
    ∃ after, ccSsaOptimiseIdentity state func = .ok after ∧
      (∀ meaning values,
        ssaCall meaning (after.funcTokens func) values =
          ssaCall meaning (state.funcTokens func) values) ∧
      (∀ tok ∈ after.funcTokens func, tok.type ≠ .identity) ∧
      ∀ copy ∈ state.funcTokens func, copy.type = .identity →
        ∀ tok ∈ after.funcTokens func, ¬ tok.Uses copy.result.id := by
  have size : (dropIdentities.run (state.funcTokens func)).length = func.tokens.len.toNat := by
    rw [dropIdentities.length, funcTokens_length inside]
  refine ⟨_, identity_run inside (named.asserted form), ?_, ?_, ?_⟩
  all_goals rw [funcTokens_withFuncTokens inside size]
  · exact fun meaning values => dropIdentities_meaning meaning form named (paramEnv values)
  · exact dropIdentities_none_left _
  · exact dropIdentities_unused form named

def functionState (toks : List CcSsaToken) : CcState :=
  { CcState.start [] [] with ssaTokens := toks }

def wholeFunction (toks : List CcSsaToken) : CcSsaFunction :=
  ⟨⟨0, 0⟩, ⟨0, BitVec.ofNat 8 toks.length⟩⟩

def copyToks : List CcSsaToken :=
  [{ result := ⟨32, 7⟩, args := #v[⟨2, 0⟩, ⟨0, 0⟩, ⟨0, 0⟩, ⟨0, 0⟩, ⟨0, 0⟩, ⟨0, 0⟩, ⟨0, 0⟩, ⟨0, 0⟩],
     type := .identity },
   { result := ⟨33, 7⟩, args := #v[⟨32, 7⟩, ⟨0, 0⟩, ⟨0, 0⟩, ⟨0, 0⟩, ⟨0, 0⟩, ⟨0, 0⟩, ⟨0, 0⟩, ⟨0, 0⟩],
     type := .ret }]

theorem optimiseIdentity_copy :
    ∃ after, ccSsaOptimiseIdentity (functionState copyToks) (wholeFunction copyToks) = .ok after ∧
      (∀ meaning values,
        ssaCall meaning (after.funcTokens (wholeFunction copyToks)) values =
          ssaCall meaning ((functionState copyToks).funcTokens (wholeFunction copyToks)) values) ∧
      (∀ tok ∈ after.funcTokens (wholeFunction copyToks), tok.type ≠ .identity) ∧
      ∀ copy ∈ (functionState copyToks).funcTokens (wholeFunction copyToks),
        copy.type = .identity → ∀ tok ∈ after.funcTokens (wholeFunction copyToks),
          ¬ tok.Uses copy.result.id :=
  optimiseIdentity_correct (functionState copyToks) (wholeFunction copyToks) 1 (by decide)
    (by decide) (by decide)

end Estros
