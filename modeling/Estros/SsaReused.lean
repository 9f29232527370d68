import Estros.SsaIdentity

/-!
The pass that merges reused results. It compares two tokens by type and first operand only,
so it preserves meaning where these two determine the remaining operands; `Alike` says which
operands count as the same, and `FirstOperandDecides` that they do determine the rest.
-/

namespace Estros

/-- Ids that the pass takes for one value: each other's copies along first operands. -/
inductive Alike (toks : List CcSsaToken) : BitVec 12 → BitVec 12 → Prop where
  | refl (id : BitVec 12) : Alike toks id id
  | chain {left right : CcSsaToken} (leftIn : left ∈ toks) (rightIn : right ∈ toks)
      (operands : left.type ≠ .rawData) (types : right.type = left.type)
      (widths : (left.arg 0).width = (right.arg 0).width)
      (first : Alike toks (left.arg 0).id (right.arg 0).id) :
      Alike toks left.result.id right.result.id

/-- Tokens of one type whose first operands are alike agree in all operands. -/
def FirstOperandDecides (toks : List CcSsaToken) : Prop :=
  ∀ left ∈ toks, ∀ right ∈ toks, left.type ≠ .none → left.type ≠ .rawData →
    right.type = left.type → (left.arg 0).width = (right.arg 0).width →
    Alike toks (left.arg 0).id (right.arg 0).id →
    ∀ k : Fin ccSsaMaxArgs, Alike toks (left.arg k).id (right.arg k).id

theorem Alike.symm {toks : List CcSsaToken} {x y : BitVec 12} (alike : Alike toks x y) :
    Alike toks y x := by
  induction alike with
  | refl id => exact .refl id
  | chain leftIn rightIn operands types widths _ ih =>
      exact .chain rightIn leftIn (types ▸ operands) types.symm widths.symm ih

/-- No two tokens have one result. -/
def DistinctResults (toks : List CcSsaToken) : Prop :=
  ∀ left ∈ toks, ∀ right ∈ toks, left.result.id = right.result.id → left = right

theorem Scoped.distinct {known : Set (BitVec 12)} {toks : List CcSsaToken}
    (form : Scoped known toks) : DistinctResults toks := by
  induction toks generalizing known with
  | nil => exact fun _ member => absurd member List.not_mem_nil
  | cons head rest ih =>
      have later : ∀ tok ∈ rest, tok.result.id ≠ head.result.id := fun tok member same =>
        (form.2.2.2.fresh member).1 (same ▸ Set.mem_insert _ _)
      intro left leftIn right rightIn same
      rcases List.mem_cons.mp leftIn with rfl | leftLater
      · rcases List.mem_cons.mp rightIn with rfl | rightLater
        · rfl
        · exact absurd same.symm (later right rightLater)
      · rcases List.mem_cons.mp rightIn with rfl | rightLater
        · exact absurd same (later left leftLater)
        · exact ih form.2.2.2 left leftLater right rightLater same

def Readable (known : Set (BitVec 12)) (id : BitVec 12) : Prop := id = 0 ∨ id ∈ known

theorem readable_insert {known : Set (BitVec 12)} {new id : BitVec 12} :
    Readable (insert new known) id ↔ id = new ∨ Readable known id := by
  simp only [Readable, Set.mem_insert_iff]
  tauto

/-- The state of a run after the tokens `done`: each computed result is still explained by
its token, and ids that the pass takes for one value have one value. -/
structure Explained (meaning : SsaMeaning) (toks : List CcSsaToken) (known : Set (BitVec 12))
    (done : List CcSsaToken) (env : SsaEnv) : Prop where
  undefined : ∀ id, id ∉ known → env id = none
  computed : ∀ tok ∈ done, tok.type ≠ .none → tok.effect meaning env = .define (env tok.result.id)
  skipped : ∀ tok ∈ done, tok.type = .none → env tok.result.id = none
  operands : ∀ tok ∈ done, ∀ id, tok.Uses id → Readable known id
  results : ∀ tok ∈ done, tok.result.id ∈ known
  members : ∀ tok ∈ toks, Readable known tok.result.id → tok ∈ done
  alike : ∀ x y, Readable known x → Readable known y → Alike toks x y → env x = env y

theorem effect_congr (meaning : SsaMeaning) {left right : CcSsaToken} {env moved : SsaEnv}
    (types : right.type = left.type) (operands : left.type ≠ .rawData)
    (values : ∀ k : Fin ccSsaMaxArgs, moved (right.arg k).id = env (left.arg k).id) :
    right.effect meaning moved = left.effect meaning env := by
  rw [CcSsaToken.effect, CcSsaToken.effect, operandValues_ext values, types]
  cases kind : left.type <;> first | exact absurd kind operands | rfl

theorem effect_set (meaning : SsaMeaning) {tok : CcSsaToken} {env : SsaEnv} {id : BitVec 12}
    (value : Option Word) (unused : ¬ tok.Uses id) :
    tok.effect meaning (env.set id value) = tok.effect meaning env := by
  by_cases raw : tok.type = .rawData
  · simp only [CcSsaToken.effect, raw, ssaEffect]
  · refine effect_congr meaning rfl raw fun k => ?_
    rw [SsaEnv.set, if_neg]
    exact fun same => unused ⟨raw, k, same⟩

theorem type_of_skip {meaning : SsaMeaning} {env : SsaEnv} {tok : CcSsaToken}
    (skip : tok.effect meaning env = .skip) : tok.type = .none := by
  rw [CcSsaToken.effect] at skip
  cases type : tok.type with
  | none => rfl
  | _ =>
      rw [type] at skip
      simp only [ssaEffect] at skip
      repeat' split at skip
      all_goals simp at skip

section Runs

variable {meaning : SsaMeaning} {toks done : List CcSsaToken} {known : Set (BitVec 12)}
  {env moved : SsaEnv} {tok : CcSsaToken}

/-- What is alike to a token's result is that result or the result of a like token. -/
theorem alike_result {y : BitVec 12} (distinct : DistinctResults toks) (member : tok ∈ toks)
    (alike : Alike toks tok.result.id y) :
    y = tok.result.id ∨ ∃ right ∈ toks, tok.type ≠ .rawData ∧ right.type = tok.type ∧
      (tok.arg 0).width = (right.arg 0).width ∧
      Alike toks (tok.arg 0).id (right.arg 0).id ∧ y = right.result.id := by
  generalize same : tok.result.id = x at alike
  cases alike with
  | refl id => exact Or.inl rfl
  | @chain left right leftIn rightIn operands types widths first =>
      obtain rfl := distinct tok member left leftIn same
      exact Or.inr ⟨right, rightIn, operands, types, widths, first, rfl⟩

theorem Explained.alike_new (explained : Explained meaning toks known done env)
    (decides : FirstOperandDecides toks) (distinct : DistinctResults toks) (member : tok ∈ toks)
    (operands : ∀ id, tok.Uses id → Readable known id) (new : ¬ Readable known tok.result.id)
    (agree : ∀ id, id ≠ tok.result.id → moved id = env id)
    (skipped : tok.type = .none → moved tok.result.id = none)
    (computed : tok.type ≠ .none → tok.effect meaning moved = .define (moved tok.result.id))
    {y : BitVec 12} (old : Readable known y) (alike : Alike toks tok.result.id y) :
    moved tok.result.id = env y := by
  rcases alike_result distinct member alike with rfl | ⟨right, rightIn, raw, types, widths, first, rfl⟩
  · exact absurd old new
  -- The like token ran before; equal operands give it an equal effect.
  have earlier := explained.members right rightIn old
  by_cases none : tok.type = .none
  · rw [skipped none, explained.skipped right earlier (types.trans none)]
  · have like := decides tok member right rightIn none raw types widths first
    have values : ∀ k : Fin ccSsaMaxArgs, moved (tok.arg k).id = env (right.arg k).id := by
      intro k
      have here := operands (tok.arg k).id ⟨raw, k, rfl⟩
      have there := explained.operands right earlier (right.arg k).id ⟨types ▸ raw, k, rfl⟩
      rw [agree _ fun same => new (same ▸ here)]
      exact explained.alike _ _ here there (like k)
    have effects := (computed none).symm.trans
      ((effect_congr meaning types.symm (types ▸ raw) values).trans
        (explained.computed right earlier (types ▸ none)))
    exact SsaEffect.define.inj effects

theorem Explained.step (explained : Explained meaning toks known done env)
    (decides : FirstOperandDecides toks) (distinct : DistinctResults toks) (member : tok ∈ toks)
    (operands : ∀ id, tok.Uses id → Readable known id) (new : ¬ Readable known tok.result.id)
    (agree : ∀ id, id ≠ tok.result.id → moved id = env id)
    (skipped : tok.type = .none → moved tok.result.id = none)
    (computed : tok.type ≠ .none → tok.effect meaning moved = .define (moved tok.result.id)) :
    Explained meaning toks (insert tok.result.id known) (done ++ [tok]) moved := by
  -- One token further: skipped, or with its result defined.
  have kept : ∀ id, Readable known id → moved id = env id := fun id old =>
    agree id fun same => new (same ▸ old)
  have unchanged : ∀ other ∈ done, other.effect meaning moved = other.effect meaning env := by
    intro other earlier
    by_cases raw : other.type = .rawData
    · simp only [CcSsaToken.effect, raw, ssaEffect]
    · exact effect_congr meaning rfl raw fun k =>
        kept _ (explained.operands other earlier _ ⟨raw, k, rfl⟩)
  -- what the new result is like was defined before, by a token of the same operation
  have fresh := fun y old alike => explained.alike_new decides distinct member operands new agree
    skipped computed (y := y) old alike
  constructor
  · intro id outside
    rw [Set.mem_insert_iff, not_or] at outside
    rw [agree id outside.1, explained.undefined id outside.2]
  · intro other earlier active
    rcases List.mem_append.mp earlier with old | last
    · rw [unchanged other old, explained.computed other old active,
        kept _ (Or.inr (explained.results other old))]
    · obtain rfl := List.mem_singleton.mp last
      exact computed active
  · intro other earlier inactive
    rcases List.mem_append.mp earlier with old | last
    · rw [kept _ (Or.inr (explained.results other old)), explained.skipped other old inactive]
    · obtain rfl := List.mem_singleton.mp last
      exact skipped inactive
  · intro other earlier id used
    rcases List.mem_append.mp earlier with old | last
    · exact readable_insert.mpr (Or.inr (explained.operands other old id used))
    · obtain rfl := List.mem_singleton.mp last
      exact readable_insert.mpr (Or.inr (operands id used))
  · intro other earlier
    rcases List.mem_append.mp earlier with old | last
    · exact Set.mem_insert_of_mem _ (explained.results other old)
    · obtain rfl := List.mem_singleton.mp last
      exact Set.mem_insert _ _
  · intro other inside readable
    rcases readable_insert.mp readable with same | old
    · obtain rfl := distinct other inside tok member same
      exact List.mem_append_right _ (List.mem_singleton_self _)
    · exact List.mem_append_left _ (explained.members other inside old)
  · intro x y left right alike
    rcases readable_insert.mp left with rfl | oldLeft
    · rcases readable_insert.mp right with rfl | oldRight
      · rfl
      · rw [fresh y oldRight alike, kept y oldRight]
    · rcases readable_insert.mp right with rfl | oldRight
      · rw [fresh x oldLeft alike.symm, kept x oldLeft]
      · rw [kept x oldLeft, kept y oldRight, explained.alike x y oldLeft oldRight alike]

theorem reused_type {itok jtok : CcSsaToken} (same : ccSsaReused itok jtok = true) :
    jtok.type = itok.type := by
  simp only [ccSsaReused, Bool.and_eq_true, decide_eq_true_eq] at same
  exact same.1

theorem reused_first {itok jtok : CcSsaToken} (same : ccSsaReused itok jtok = true) :
    itok.arg 0 = jtok.arg 0 := by
  simp only [ccSsaReused, Bool.and_eq_true, decide_eq_true_eq] at same
  exact same.2

/-- A token that counts as equal to an earlier one computes what that one computed. -/
theorem Explained.reused (explained : Explained meaning toks known done env)
    (decides : FirstOperandDecides toks) {itok jtok : CcSsaToken} (earlier : itok ∈ done)
    (itokIn : itok ∈ toks) (jtokIn : jtok ∈ toks) (raw : itok.type ≠ .rawData)
    (same : ccSsaReused itok jtok = true) (operands : ∀ id, jtok.Uses id → Readable known id)
    (active : itok.type ≠ .none) : jtok.effect meaning env = .define (env itok.result.id) := by
  have types := reused_type same
  have first := reused_first same
  have like := decides itok itokIn jtok jtokIn active raw types (by rw [first]) (by rw [first]; exact .refl _)
  have values : ∀ k : Fin ccSsaMaxArgs, env (jtok.arg k).id = env (itok.arg k).id := by
    intro k
    have here := operands (jtok.arg k).id ⟨types ▸ raw, k, rfl⟩
    have there := explained.operands itok earlier (itok.arg k).id ⟨raw, k, rfl⟩
    exact (explained.alike _ _ there here (like k)).symm
  rw [effect_congr meaning types raw values, explained.computed itok earlier active]

theorem run_merge (decides : FirstOperandDecides toks) (distinct : DistinctResults toks)
    {itok jtok : CcSsaToken} (itokIn : itok ∈ toks) (raw : itok.type ≠ .rawData)
    (same : ccSsaReused itok jtok = true) {front behind : List CcSsaToken}
    (explained : Explained meaning toks known done env)
    (form : Scoped known (front ++ jtok :: behind))
    (inside : ∀ tok ∈ front ++ jtok :: behind, tok ∈ toks) (earlier : itok ∈ done ++ front) :
    ssaRun meaning (front ++ jtok.erase :: behind.map (ccSsaReplaceArgs jtok.result itok.result)) env =
      ssaRun meaning (front ++ jtok :: behind) env := by
  induction front generalizing known done env with
  | nil =>
      rw [List.append_nil] at earlier
      simp only [List.nil_append] at form inside ⊢
      have itokKnown := explained.results itok earlier
      have separate : itok.result.id ≠ jtok.result.id := fun equal => form.2.1 (equal ▸ itokKnown)
      have fresh : ∀ tok ∈ behind, tok.result.id ≠ jtok.result.id ∧ tok.result.id ≠ itok.result.id := by
        intro tok member
        have new := (form.2.2.2.fresh member).1
        exact ⟨fun equal => new (equal ▸ Set.mem_insert _ _),
          fun equal => new (equal ▸ Set.mem_insert_of_mem _ itokKnown)⟩
      -- Here `jtok` runs: the merged list skips it and reads `itok`'s value instead.
      have erased : jtok.erase.effect meaning env = .skip := rfl
      rw [ssaRun, erased, ssaRun]
      simp only
      by_cases none : itok.type = .none
      · have effect : jtok.effect meaning env = .skip := by
          rw [CcSsaToken.effect, reused_type same, none]
          rfl
        rw [effect]
        refine run_replaced meaning separate (fun _ _ => rfl) ?_ fresh
        rw [explained.undefined _ form.2.1, explained.skipped itok earlier none]
      · rw [explained.reused decides earlier itokIn (inside jtok List.mem_cons_self) raw same
          form.2.2.1 none]
        refine run_replaced meaning separate (fun id other => ?_) ?_ fresh
        · rw [SsaEnv.set, if_neg other]
        · rw [SsaEnv.set, SsaEnv.set, if_pos rfl, if_neg separate]
  | cons tok rest ih =>
      have member := inside tok List.mem_cons_self
      have later := fun other there => inside other (List.mem_cons_of_mem tok there)
      have moved : itok ∈ (done ++ [tok]) ++ rest := by simpa using earlier
      have new : ¬ Readable known tok.result.id := not_or.mpr ⟨form.1, form.2.1⟩
      simp only [List.cons_append, ssaRun]
      -- A token in front of `jtok` runs the same in both lists.
      cases effect : tok.effect meaning env with
      | stop outcome => rfl
      | skip =>
          have skipped := type_of_skip effect
          refine ih ?_ form.2.2.2 later moved
          exact explained.step decides distinct member form.2.2.1 new (fun _ _ => rfl)
            (fun _ => explained.undefined _ form.2.1) (fun active => absurd skipped active)
      | define value =>
          have active : tok.type ≠ .none := fun none => by
            rw [CcSsaToken.effect, none] at effect
            cases effect
          refine ih ?_ form.2.2.2 later moved
          have kept : ∀ id, id ≠ tok.result.id → env.set tok.result.id value id = env id := by
            intro id other
            rw [SsaEnv.set, if_neg other]
          refine explained.step decides distinct member form.2.2.1 new kept
            (fun none => absurd none active) fun _ => ?_
          rw [effect_set meaning value fun used => new (form.2.2.1 _ used), effect, SsaEnv.set,
            if_pos rfl]

end Runs

/-! ### One merge -/

inductive MergeStep : List CcSsaToken → List CcSsaToken → Prop where
  | merge (front behind : List CcSsaToken) (itok jtok : CcSsaToken) (earlier : itok ∈ front)
      (raw : itok.type ≠ .rawData) (same : ccSsaReused itok jtok = true) :
      MergeStep (front ++ jtok :: behind)
        (front ++ jtok.erase :: behind.map (ccSsaReplaceArgs jtok.result itok.result))

theorem MergeStep.scoped {known : Set (BitVec 12)} {toks merged : List CcSsaToken}
    (step : MergeStep toks merged) (form : Scoped known toks) : Scoped known merged := by
  cases step with
  | merge front behind itok jtok earlier raw same =>
      have types := reused_type same
      obtain ⟨first, named, new, operands, later⟩ := scoped_append.mp form
      refine scoped_append.mpr ⟨first, named, new, fun id used => ?_, ?_⟩
      · exact operands id (uses_erase (types ▸ raw) used)
      · exact later.replaced (Set.mem_insert_of_mem _
          (mem_knownAfter.mpr (Or.inr ⟨itok, earlier, rfl⟩)))

structure Redirected (itok jtok old new : CcSsaToken) : Prop where
  type : new.type = old.type
  result : new.result = old.result
  width : (new.arg 0).width = (old.arg 0).width
  operands : old.type ≠ .rawData → ∀ k : Fin ccSsaMaxArgs,
    (new.arg k).id = substitute jtok.result.id itok.result.id (old.arg k).id

theorem redirected_replaced (itok jtok old : CcSsaToken) :
    Redirected itok jtok old (ccSsaReplaceArgs jtok.result itok.result old) := by
  refine ⟨replaceArgs_type _ _ _, replaceArgs_result _ _ _, ?_, fun raw k => ?_⟩
  · by_cases raw : old.type = .rawData
    · rw [replaceArgs_raw _ _ raw]
    · have arg := replaceArgs_arg jtok.result itok.result raw 0
      rw [arg]
      split <;> rfl
  · exact replaceArgs_id _ _ raw k

theorem redirected_self {itok jtok old : CcSsaToken} (unused : ¬ old.Uses jtok.result.id) :
    Redirected itok jtok old old := by
  refine ⟨rfl, rfl, rfl, fun raw k => ?_⟩
  rw [substitute, if_neg fun same => unused ⟨raw, k, same⟩]

structure Merged (itok jtok : CcSsaToken) (toks merged : List CcSsaToken) : Prop where
  itokIn : itok ∈ toks
  jtokIn : jtok ∈ toks
  raw : itok.type ≠ .rawData
  same : ccSsaReused itok jtok = true
  distinct : DistinctResults toks
  separate : itok.result.id ≠ jtok.result.id
  old : ∀ new ∈ merged, new = jtok.erase ∨
    ∃ old ∈ toks, old.result.id ≠ jtok.result.id ∧ Redirected itok jtok old new
  new : ∀ old ∈ toks, old.result.id ≠ jtok.result.id → ∃ new ∈ merged, Redirected itok jtok old new

theorem MergeStep.merged {known : Set (BitVec 12)} {toks merged : List CcSsaToken}
    (step : MergeStep toks merged) (form : Scoped known toks) :
    ∃ itok jtok, Merged itok jtok toks merged := by
  cases step with
  | merge front behind itok jtok earlier raw same =>
      have distinct := form.distinct
      obtain ⟨first, named, new, operands, later⟩ := scoped_append.mp form
      have frontOther : ∀ tok ∈ front, tok.result.id ≠ jtok.result.id := fun tok member equal =>
        new (mem_knownAfter.mpr (Or.inr ⟨tok, member, equal⟩))
      have frontUnused : ∀ tok ∈ front, ¬ tok.Uses jtok.result.id := fun tok member used =>
        (first.uses member used).elim named new
      have behindOther : ∀ tok ∈ behind, tok.result.id ≠ jtok.result.id := fun tok member equal =>
        (later.fresh member).1 (equal ▸ Set.mem_insert _ _)
      refine ⟨itok, jtok, ⟨List.mem_append_left _ earlier, by simp, raw, same, distinct,
        frontOther itok earlier, ?_, ?_⟩⟩
      · intro tok member
        rcases List.mem_append.mp member with before | after
        · exact Or.inr ⟨tok, List.mem_append_left _ before, frontOther tok before,
            redirected_self (frontUnused tok before)⟩
        · rcases List.mem_cons.mp after with rfl | after
          · exact Or.inl rfl
          · obtain ⟨old, there, rfl⟩ := List.mem_map.mp after
            exact Or.inr ⟨old, by simp [there], behindOther old there, redirected_replaced itok jtok old⟩
      · intro tok member other
        rcases List.mem_append.mp member with before | after
        · exact ⟨tok, List.mem_append_left _ before, redirected_self (frontUnused tok before)⟩
        · rcases List.mem_cons.mp after with rfl | after
          · exact absurd rfl other
          · refine ⟨_, List.mem_append_right _ (List.mem_cons_of_mem _ ?_),
              redirected_replaced itok jtok tok⟩
            exact List.mem_map_of_mem after

section Merges

variable {itok jtok : CcSsaToken} {toks merged : List CcSsaToken}

theorem substitute_ne {source target : BitVec 12} (separate : target ≠ source) (id : BitVec 12) :
    substitute source target id ≠ source := by
  rw [substitute]
  split
  · exact separate
  · assumption

theorem Merged.alike_jtok (merge : Merged itok jtok toks merged) {y : BitVec 12}
    (alike : Alike toks itok.result.id y) : Alike toks jtok.result.id y := by
  -- Whatever is alike to `itok`'s result is alike to `jtok`'s.
  have types := reused_type merge.same
  have first := reused_first merge.same
  rcases alike_result merge.distinct merge.itokIn alike with rfl |
    ⟨right, rightIn, raw, rightType, widths, alikeFirst, rfl⟩
  · exact .chain merge.jtokIn merge.itokIn (types ▸ merge.raw) types.symm (by rw [first])
      (by rw [first]; exact .refl _)
  · refine .chain merge.jtokIn rightIn (types ▸ merge.raw) (rightType.trans types.symm) ?_ ?_
    · rw [← first, widths]
    · rw [← first]
      exact alikeFirst

theorem Merged.restore_left (merge : Merged itok jtok toks merged) {x y : BitVec 12}
    (alike : Alike toks (substitute jtok.result.id itok.result.id x) y) : Alike toks x y := by
  rw [substitute] at alike
  split at alike
  · rename_i same
    exact same ▸ merge.alike_jtok alike
  · exact alike

theorem Merged.restore (merge : Merged itok jtok toks merged) {x y : BitVec 12}
    (alike : Alike toks (substitute jtok.result.id itok.result.id x)
      (substitute jtok.result.id itok.result.id y)) : Alike toks x y :=
  (merge.restore_left (merge.restore_left alike).symm).symm

/-- Ids alike after the merge were alike before. -/
theorem Merged.alike_before (merge : Merged itok jtok toks merged) {x y : BitVec 12}
    (alike : Alike merged x y) : x ≠ jtok.result.id → y ≠ jtok.result.id → Alike toks x y := by
  induction alike with
  | refl id => exact fun _ _ => .refl id
  | @chain left right leftIn rightIn operands types widths _ ih =>
      intro leftOther rightOther
      have erased : jtok.erase.result.id = jtok.result.id := rfl
      rcases merge.old left leftIn with rfl | ⟨oldLeft, oldLeftIn, _, leftMoved⟩
      · exact absurd erased leftOther
      rcases merge.old right rightIn with rfl | ⟨oldRight, oldRightIn, _, rightMoved⟩
      · exact absurd erased rightOther
      have leftRaw : oldLeft.type ≠ .rawData := leftMoved.type ▸ operands
      have rightType : oldRight.type = oldLeft.type := by
        rw [← rightMoved.type, ← leftMoved.type, types]
      have leftArg := leftMoved.operands leftRaw 0
      have rightArg := rightMoved.operands (rightType ▸ leftRaw) 0
      rw [leftArg, rightArg] at ih
      -- Neither operand is `jtok`'s result any more, so the induction applies to both.
      have first := merge.restore (ih (substitute_ne merge.separate _) (substitute_ne merge.separate _))
      rw [leftMoved.result, rightMoved.result]
      exact .chain oldLeftIn oldRightIn leftRaw rightType
        (by rw [← leftMoved.width, ← rightMoved.width, widths]) first

/-- Every token has a token after the merge that stands for it. -/
theorem Merged.representative (merge : Merged itok jtok toks merged) {old : CcSsaToken}
    (member : old ∈ toks) (raw : old.type ≠ .rawData) :
    ∃ new ∈ merged, new.type = old.type ∧ (new.arg 0).width = (old.arg 0).width ∧
      (new.arg 0).id = substitute jtok.result.id itok.result.id (old.arg 0).id ∧
      new.result.id = substitute jtok.result.id itok.result.id old.result.id := by
  by_cases same : old.result.id = jtok.result.id
  -- `jtok` itself is represented by `itok`, every other token by its successor.
  · obtain rfl := merge.distinct old member jtok merge.jtokIn same
    obtain ⟨new, there, moved⟩ := merge.new itok merge.itokIn merge.separate
    have first := reused_first merge.same
    have arg := moved.operands merge.raw 0
    refine ⟨new, there, moved.type.trans (reused_type merge.same).symm, ?_, ?_, ?_⟩
    · rw [moved.width, first]
    · rw [arg, first]
    · rw [moved.result, substitute, if_pos rfl]
  · obtain ⟨new, there, moved⟩ := merge.new old member same
    have arg := moved.operands raw 0
    exact ⟨new, there, moved.type, moved.width, arg, by rw [moved.result, substitute, if_neg same]⟩

theorem Merged.alike_after (merge : Merged itok jtok toks merged) {x y : BitVec 12}
    (alike : Alike toks x y) :
    Alike merged (substitute jtok.result.id itok.result.id x)
      (substitute jtok.result.id itok.result.id y) := by
  induction alike with
  | refl id => exact .refl _
  | @chain left right leftIn rightIn operands types widths _ ih =>
      obtain ⟨newLeft, newLeftIn, leftType, leftWidth, leftArg, leftResult⟩ :=
        merge.representative leftIn operands
      obtain ⟨newRight, newRightIn, rightType, rightWidth, rightArg, rightResult⟩ :=
        merge.representative rightIn (types ▸ operands)
      rw [← leftResult, ← rightResult]
      refine .chain newLeftIn newRightIn (leftType ▸ operands) ?_ ?_ ?_
      · rw [leftType, rightType, types]
      · rw [leftWidth, rightWidth, widths]
      · rw [leftArg, rightArg]
        exact ih

theorem Merged.decides (merge : Merged itok jtok toks merged) (decides : FirstOperandDecides toks) :
    FirstOperandDecides merged := by
  -- A merge keeps first operands decisive.
  intro left leftIn right rightIn active raw types widths alike k
  have notErased (tok : CcSsaToken) (live : tok.type ≠ .none) : tok ≠ jtok.erase :=
    fun same => live (same ▸ rfl)
  obtain ⟨oldLeft, oldLeftIn, _, leftMoved⟩ :=
    (merge.old left leftIn).resolve_left (notErased left active)
  obtain ⟨oldRight, oldRightIn, _, rightMoved⟩ :=
    (merge.old right rightIn).resolve_left (notErased right (types ▸ active))
  have leftRaw : oldLeft.type ≠ .rawData := leftMoved.type ▸ raw
  have rightType : oldRight.type = oldLeft.type := by
    rw [← rightMoved.type, ← leftMoved.type, types]
  have leftArg := leftMoved.operands leftRaw
  have rightArg := rightMoved.operands (rightType ▸ leftRaw)
  have first : Alike toks (oldLeft.arg 0).id (oldRight.arg 0).id := by
    have leftZero := leftArg 0
    have rightZero := rightArg 0
    rw [leftZero, rightZero] at alike
    exact merge.restore
      (merge.alike_before alike (substitute_ne merge.separate _) (substitute_ne merge.separate _))
  rw [leftArg k, rightArg k]
  exact merge.alike_after (decides oldLeft oldLeftIn oldRight oldRightIn (leftMoved.type ▸ active)
    leftRaw rightType (by rw [← leftMoved.width, ← rightMoved.width, widths]) first k)

end Merges

/-! ### The pass as a sequence of merges -/

theorem explained_start (meaning : SsaMeaning) {toks : List CcSsaToken} {values : List Word}
    (form : SsaForm values.length toks) :
    Explained meaning toks (paramIds values.length) [] (paramEnv values) := by
  have noResult : ∀ tok ∈ toks, ¬ Readable (paramIds values.length) tok.result.id :=
    fun tok member => not_or.mpr ⟨(Scoped.fresh form member).2, (Scoped.fresh form member).1⟩
  refine ⟨fun id outside => ?_, ?_, ?_, ?_, ?_, ?_, ?_⟩
  · rw [paramEnv]
    by_cases low : 2 ≤ id.toNat
    · have high : ¬ id.toNat < values.length + 2 := fun less => outside ⟨low, less⟩
      rw [if_pos low, List.getElem?_eq_none]
      omega
    · rw [if_neg low]
  · exact fun _ member => absurd member List.not_mem_nil
  · exact fun _ member => absurd member List.not_mem_nil
  · exact fun _ member => absurd member List.not_mem_nil
  · exact fun _ member => absurd member List.not_mem_nil
  · exact fun tok member readable => absurd readable (noResult tok member)
  · intro x y left right alike
    cases alike with
    | refl id => rfl
    | chain leftIn _ _ _ _ _ => exact absurd left (noResult _ leftIn)

theorem MergeStep.meaning (meaning : SsaMeaning) {toks merged : List CcSsaToken}
    (step : MergeStep toks merged) {values : List Word} (form : SsaForm values.length toks)
    (decides : FirstOperandDecides toks) :
    ssaCall meaning merged values = ssaCall meaning toks values := by
  cases step with
  | merge front behind itok jtok earlier raw same =>
      exact run_merge decides (Scoped.distinct form) (List.mem_append_left _ earlier) raw same
        (explained_start meaning form) form (fun _ member => member) (List.mem_append_right _ earlier)

theorem mergeInto_same {itok jtok : CcSsaToken} (same : ccSsaReused itok jtok = true)
    (rest : List CcSsaToken) :
    (mergeInto itok).run (jtok :: rest) =
      jtok.erase :: (mergeInto itok).run (rest.map (ccSsaReplaceArgs jtok.result itok.result)) := by
  rw [mergeInto, sweep_cons, mergeStep, if_pos same]
  rfl

theorem mergeInto_other {itok jtok : CcSsaToken} (other : ¬ ccSsaReused itok jtok = true)
    (rest : List CcSsaToken) :
    (mergeInto itok).run (jtok :: rest) = jtok :: (mergeInto itok).run rest := by
  rw [mergeInto, sweep_cons, mergeStep, if_neg other]
  rfl

theorem mergeReused_cons {itok : CcSsaToken} (raw : itok.type ≠ .rawData) (rest : List CcSsaToken) :
    mergeReused.run (itok :: rest) = itok :: mergeReused.run ((mergeInto itok).run rest) := by
  rw [mergeReused, sweep_cons, reusedStep, if_pos raw]

theorem mergeReused_raw {itok : CcSsaToken} (raw : itok.type = .rawData) (rest : List CcSsaToken) :
    mergeReused.run (itok :: rest) = itok :: mergeReused.run rest := by
  rw [mergeReused, sweep_cons, reusedStep, if_neg (not_not.mpr raw)]
  rfl

open Relation in
theorem mergeInto_steps {itok : CcSsaToken} (raw : itok.type ≠ .rawData) (toks : List CcSsaToken)
    (front : List CcSsaToken) (earlier : itok ∈ front) :
    ReflTransGen MergeStep (front ++ toks) (front ++ (mergeInto itok).run toks) := by
  induction toks using sweep_induction generalizing front with
  | nil => exact .refl
  | cons jtok rest ih =>
      by_cases same : ccSsaReused itok jtok = true
      · rw [mergeInto_same same]
        -- After a merge the inner loop goes on over the redirected tokens.
        have later := ih (.map (ccSsaReplaceArgs jtok.result itok.result)) (front ++ [jtok.erase])
          (List.mem_append_left _ earlier)
        simp only [List.append_assoc, List.singleton_append, Rewrite.map_run] at later
        exact .head (.merge front rest itok jtok earlier raw same) later
      · rw [mergeInto_other same]
        have later := ih .id (front ++ [jtok]) (List.mem_append_left _ earlier)
        simpa only [List.append_assoc, List.singleton_append, Rewrite.id_run] using later

open Relation in
theorem mergeReused_steps (toks front : List CcSsaToken) :
    ReflTransGen MergeStep (front ++ toks) (front ++ mergeReused.run toks) := by
  induction toks using sweep_induction generalizing front with
  | nil => exact .refl
  | cons itok rest ih =>
      by_cases raw : itok.type = .rawData
      · rw [mergeReused_raw raw]
        have later := ih .id (front ++ [itok])
        simpa only [List.append_assoc, List.singleton_append, Rewrite.id_run] using later
      · rw [mergeReused_cons raw]
        have first := mergeInto_steps raw rest (front ++ [itok]) (by simp)
        have later := ih (mergeInto itok) (front ++ [itok])
        simp only [List.append_assoc, List.singleton_append] at first later
        exact first.trans later

/-- What every merge preserves, the pass preserves. -/
theorem mergeReused_induction {motive : List CcSsaToken → Prop} (toks : List CcSsaToken)
    (start : motive toks)
    (step : ∀ before after, MergeStep before after → motive before → motive after) :
    motive (mergeReused.run toks) := by
  have steps : Relation.ReflTransGen MergeStep toks (mergeReused.run toks) :=
    mergeReused_steps toks []
  generalize mergeReused.run toks = final at steps ⊢
  induction steps with
  | refl => exact start
  | tail _ last ih => exact step _ _ last ih

theorem mergeReused_meaning (meaning : SsaMeaning) {toks : List CcSsaToken} {values : List Word}
    (form : SsaForm values.length toks) (decides : FirstOperandDecides toks) :
    ssaCall meaning (mergeReused.run toks) values = ssaCall meaning toks values := by
  have kept := mergeReused_induction
    (motive := fun now => SsaForm values.length now ∧ FirstOperandDecides now ∧
      ssaCall meaning now values = ssaCall meaning toks values)
    toks ⟨form, decides, rfl⟩ fun before after step ⟨nowForm, nowDecides, nowSame⟩ => by
      obtain ⟨itok, jtok, merge⟩ := step.merged nowForm
      exact ⟨step.scoped nowForm, merge.decides nowDecides,
        (step.meaning meaning nowForm nowDecides).trans nowSame⟩
  exact kept.2.2

def upToReturn : List CcSsaToken → List CcSsaToken
  | [] => []
  | tok :: rest => if tok.type = .ret then [tok] else tok :: upToReturn rest

theorem returns_behind {tok : CcSsaToken} {rest : List CcSsaToken}
    (returns : ∃ found ∈ tok :: rest, found.type = .ret) (other : tok.type ≠ .ret) :
    ∃ found ∈ rest, found.type = .ret := by
  obtain ⟨found, member, type⟩ := returns
  rcases List.mem_cons.mp member with rfl | behind
  · exact absurd type other
  · exact ⟨found, behind, type⟩

theorem run_before_return (meaning : SsaMeaning) {front : List CcSsaToken}
    (returns : ∃ tok ∈ front, tok.type = .ret) (back : List CcSsaToken) (env : SsaEnv) :
    ssaRun meaning (front ++ back) env = ssaRun meaning front env := by
  induction front generalizing env with
  | nil =>
      obtain ⟨_, member, _⟩ := returns
      exact absurd member List.not_mem_nil
  | cons tok rest ih =>
      rw [List.cons_append, ssaRun, ssaRun]
      by_cases ret : tok.type = .ret
      · have stops : tok.effect meaning env = .stop (.returned (env (tok.arg 0).id)) := by
          rw [CcSsaToken.effect, ret, ← operandValues_get env tok 0]
          rfl
        rw [stops]
      · have later := returns_behind returns ret
        cases tok.effect meaning env with
        | skip => exact ih later _
        | stop outcome => rfl
        | define value => exact ih later _

theorem upToReturn_split (toks : List CcSsaToken) :
    upToReturn toks = toks ∨
      ∃ back, toks = upToReturn toks ++ back ∧ ∃ tok ∈ upToReturn toks, tok.type = .ret := by
  induction toks with
  | nil => exact Or.inl rfl
  | cons tok rest ih =>
      by_cases ret : tok.type = .ret
      · exact Or.inr ⟨rest, by simp [upToReturn, ret], tok, by simp [upToReturn, ret], ret⟩
      · rcases ih with same | ⟨back, split, found, member, type⟩
        · exact Or.inl (by simp [upToReturn, ret, same])
        · refine Or.inr ⟨back, ?_, found, ?_, type⟩
          · simp only [upToReturn, ret, if_false, List.cons_append, ← split]
          · simp only [upToReturn, ret, if_false]
            exact List.mem_cons_of_mem _ member

theorem run_upToReturn (meaning : SsaMeaning) (toks : List CcSsaToken) (env : SsaEnv) :
    ssaRun meaning (upToReturn toks) env = ssaRun meaning toks env := by
  rcases upToReturn_split toks with same | ⟨back, split, returns⟩
  · rw [same]
  · calc ssaRun meaning (upToReturn toks) env
        = ssaRun meaning (upToReturn toks ++ back) env := (run_before_return meaning returns back env).symm
      _ = ssaRun meaning toks env := by rw [← split]

theorem mergeReused_local : mergeReused.Local := by
  refine Rewrite.sweep_local fun itok => ?_
  simp only [reusedStep]
  by_cases raw : itok.type ≠ .rawData
  · rw [if_pos raw]
    refine Rewrite.sweep_local fun jtok => ?_
    rw [mergeStep]
    by_cases same : ccSsaReused itok jtok = true
    · rw [if_pos same]
      exact Rewrite.map_local _
    · rw [if_neg same]
      exact Rewrite.id_local
  · rw [if_neg raw]
    exact Rewrite.id_local

theorem mergeInto_returns {itok : CcSsaToken} (other : itok.type ≠ .ret) (toks : List CcSsaToken)
    (returns : ∃ tok ∈ toks, tok.type = .ret) :
    ∃ tok ∈ (mergeInto itok).run toks, tok.type = .ret := by
  induction toks using sweep_induction with
  | nil => exact returns
  | cons jtok rest ih =>
      obtain ⟨found, member, type⟩ := returns
      by_cases same : ccSsaReused itok jtok = true
      · rw [mergeInto_same same]
        rcases List.mem_cons.mp member with rfl | behind
        · exact absurd ((reused_type same).symm.trans type) other
        · obtain ⟨kept, there, ret⟩ := ih (.map (ccSsaReplaceArgs jtok.result itok.result))
            ⟨_, List.mem_map_of_mem behind, by rw [replaceArgs_type]; exact type⟩
          exact ⟨kept, List.mem_cons_of_mem _ there, ret⟩
      · rw [mergeInto_other same]
        rcases List.mem_cons.mp member with rfl | behind
        · exact ⟨found, List.mem_cons_self, type⟩
        · obtain ⟨kept, there, ret⟩ := ih .id ⟨found, behind, type⟩
          exact ⟨kept, List.mem_cons_of_mem _ there, ret⟩

theorem mergeReused_returns (toks : List CcSsaToken) (returns : ∃ tok ∈ toks, tok.type = .ret) :
    ∃ tok ∈ mergeReused.run toks, tok.type = .ret := by
  induction toks using sweep_induction with
  | nil => exact returns
  | cons itok rest ih =>
      by_cases ret : itok.type = .ret
      · rw [mergeReused_cons (by simp [ret])]
        exact ⟨itok, List.mem_cons_self, ret⟩
      · have later := returns_behind returns ret
        by_cases raw : itok.type = .rawData
        · rw [mergeReused_raw raw]
          obtain ⟨kept, there, type⟩ := ih .id later
          exact ⟨kept, List.mem_cons_of_mem _ there, type⟩
        · rw [mergeReused_cons raw]
          obtain ⟨kept, there, type⟩ := ih (mergeInto itok) (mergeInto_returns ret rest later)
          exact ⟨kept, List.mem_cons_of_mem _ there, type⟩

theorem run_mergeReused_upToReturn (meaning : SsaMeaning) (toks : List CcSsaToken) (env : SsaEnv) :
    ssaRun meaning (mergeReused.run (upToReturn toks)) env =
      ssaRun meaning (mergeReused.run toks) env := by
  rcases upToReturn_split toks with same | ⟨back, split, returns⟩
  · rw [same]
  · obtain ⟨rest, swept⟩ := mergeReused_local (upToReturn toks) back
    rw [← split] at swept
    rw [swept, run_before_return meaning (mergeReused_returns _ returns)]

theorem upToReturn_form {known : Set (BitVec 12)} {toks : List CcSsaToken}
    (form : Scoped known toks) : Scoped known (upToReturn toks) := by
  rcases upToReturn_split toks with same | ⟨back, split, _⟩
  · rwa [same]
  · rw [split] at form
    exact (scoped_append.mp form).1

/-- The merging pass preserves what a call returns if, among the tokens up to the first
`RETURN`, two of one type whose first operands are alike agree in all operands. -/
theorem optimiseReused_correct (state : CcState) (func : CcSsaFunction) (params : Nat)
    (inside : state.ViewInside func) (form : SsaForm params (state.funcTokens func))
    (decides : FirstOperandDecides (upToReturn (state.funcTokens func))) (meaning : SsaMeaning)
    (values : List Word) (arity : values.length = params) :
    ssaCall meaning ((ccSsaOptimiseReused state func).funcTokens func) values =
      ssaCall meaning (state.funcTokens func) values := by
  subst arity
  have size : (mergeReused.run (state.funcTokens func)).length = func.tokens.len.toNat := by
    rw [mergeReused.length, funcTokens_length inside]
  rw [reused_run inside, funcTokens_withFuncTokens inside size]
  calc ssaCall meaning (mergeReused.run (state.funcTokens func)) values
      = ssaCall meaning (mergeReused.run (upToReturn (state.funcTokens func))) values :=
        (run_mergeReused_upToReturn meaning _ _).symm
    _ = ssaCall meaning (upToReturn (state.funcTokens func)) values :=
        mergeReused_meaning meaning (upToReturn_form form) decides
    _ = ssaCall meaning (state.funcTokens func) values := run_upToReturn meaning _ _

def sumOfProducts (left right : BitVec 12) : List CcSsaToken :=
  [{ result := ⟨32, 7⟩,
     args := #v[⟨2, 0⟩, ⟨left, 0⟩, ⟨0, 0⟩, ⟨0, 0⟩, ⟨0, 0⟩, ⟨0, 0⟩, ⟨0, 0⟩, ⟨0, 0⟩], type := .mul },
   { result := ⟨33, 7⟩,
     args := #v[⟨2, 0⟩, ⟨right, 0⟩, ⟨0, 0⟩, ⟨0, 0⟩, ⟨0, 0⟩, ⟨0, 0⟩, ⟨0, 0⟩, ⟨0, 0⟩], type := .mul },
   { result := ⟨34, 7⟩,
     args := #v[⟨32, 7⟩, ⟨33, 7⟩, ⟨0, 0⟩, ⟨0, 0⟩, ⟨0, 0⟩, ⟨0, 0⟩, ⟨0, 0⟩, ⟨0, 0⟩], type := .add },
   { result := ⟨35, 7⟩,
     args := #v[⟨34, 7⟩, ⟨0, 0⟩, ⟨0, 0⟩, ⟨0, 0⟩, ⟨0, 0⟩, ⟨0, 0⟩, ⟨0, 0⟩, ⟨0, 0⟩], type := .ret }]

theorem decides_of_args {toks : List CcSsaToken}
    (same : ∀ left ∈ toks, ∀ right ∈ toks, right.type = left.type → left.args = right.args) :
    FirstOperandDecides toks := by
  intro left leftIn right rightIn _ _ types _ _ k
  rw [CcSsaToken.arg, CcSsaToken.arg, same left leftIn right rightIn types]
  exact .refl _

def plainMeaning : SsaMeaning := ⟨fun _ _ => none, fun _ => none⟩

theorem optimiseReused_square :
    let toks := sumOfProducts 3 3
    ssaCall plainMeaning ((ccSsaOptimiseReused (functionState toks) (wholeFunction toks)).funcTokens
        (wholeFunction toks)) [3, 5] =
      ssaCall plainMeaning ((functionState toks).funcTokens (wholeFunction toks)) [3, 5] :=
  optimiseReused_correct (functionState (sumOfProducts 3 3)) (wholeFunction (sumOfProducts 3 3)) 2
    (by decide) (by decide) (decides_of_args (by decide)) plainMeaning [3, 5] rfl

/-- `a * b + a * c` becomes `a * b + a * b`. -/
theorem optimiseReused_miscompiles :
    let toks := sumOfProducts 3 4
    let state := functionState toks
    let func := wholeFunction toks
    state.ViewInside func ∧ SsaForm 3 (state.funcTokens func) ∧
      ssaCall plainMeaning (state.funcTokens func) [1, 1, 0] = .returned (some 1) ∧
      ssaCall plainMeaning ((ccSsaOptimiseReused state func).funcTokens func) [1, 1, 0] =
        .returned (some 2) := by
  decide +kernel

end Estros
