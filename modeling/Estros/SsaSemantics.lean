import Estros.SsaPasses

/-!
What a function's SSA tokens compute. Values are 32-bit words; the tokens run in order up
to the first `RETURN`. The ten arithmetic tokens are interpreted, with a zero divisor or a
shift count of 32 or more leaving the whole outcome undefined; what the other tokens compute
from their operands is a parameter.
-/

namespace Estros

/-- The value of each id; `none` for `NULL` and for ids that nothing has defined. -/
abbrev SsaEnv := BitVec 12 → Option Word

def whenDefined (condition : Bool) (value : Word) : Option Word :=
  if condition then some value else none

/-- The arithmetic tokens, as the code generator's unsigned instructions compute them. -/
def ssaArith : CcSsaTokenType → Option (Word → Word → Option Word)
  | .add => some fun lhs rhs => some (lhs + rhs)
  | .sub => some fun lhs rhs => some (lhs - rhs)
  | .mul => some fun lhs rhs => some (lhs * rhs)
  | .div => some fun lhs rhs => whenDefined (rhs ≠ 0) (lhs / rhs)
  | .rem => some fun lhs rhs => whenDefined (rhs ≠ 0) (lhs % rhs)
  | .lshift => some fun lhs rhs => whenDefined (rhs.toNat < 32) (lhs <<< rhs.toNat)
  | .rshift => some fun lhs rhs => whenDefined (rhs.toNat < 32) (lhs >>> rhs.toNat)
  | .and => some fun lhs rhs => some (lhs &&& rhs)
  | .xor => some fun lhs rhs => some (lhs ^^^ rhs)
  | .or => some fun lhs rhs => some (lhs ||| rhs)
  | _ => none

/-- What the remaining tokens compute, from all their operands or from their raw data. -/
structure SsaMeaning where
  other : CcSsaTokenType → Vector (Option Word) ccSsaMaxArgs → Option Word
  raw : CcRawDataView → Option Word

inductive SsaOutcome where
  | returned (value : Option Word)
  | undefined
  | fellThrough
  deriving DecidableEq

/-- What one token does: nothing, end the run, or give its result a value. -/
inductive SsaEffect where
  | skip
  | stop (outcome : SsaOutcome)
  | define (value : Option Word)
  deriving DecidableEq

def ssaEffect (meaning : SsaMeaning) (type : CcSsaTokenType) (raw : CcRawDataView)
    (values : Vector (Option Word) ccSsaMaxArgs) : SsaEffect :=
  match type with
  | .none => .skip
  | .ret => .stop (.returned (values.get 0))
  | .identity => .define (values.get 0)
  | .rawData => .define (meaning.raw raw)
  | type =>
      match ssaArith type, values.get 0, values.get 1 with
      | some op, some lhs, some rhs =>
          match op lhs rhs with
          | some value => .define (some value)
          | none => .stop .undefined
      | some _, _, _ => .stop .undefined
      | none, _, _ => .define (meaning.other type values)

def operandValues (env : SsaEnv) (tok : CcSsaToken) : Vector (Option Word) ccSsaMaxArgs :=
  tok.args.map fun arg => env arg.id

@[simp] theorem operandValues_get (env : SsaEnv) (tok : CcSsaToken) (k : Fin ccSsaMaxArgs) :
    (operandValues env tok).get k = env (tok.arg k).id :=
  Vector.getElem_map _ k.isLt

theorem operandValues_ext {left right : CcSsaToken} {env moved : SsaEnv}
    (values : ∀ k, moved (right.arg k).id = env (left.arg k).id) :
    operandValues moved right = operandValues env left := by
  apply Vector.ext
  intro k inside
  simp only [operandValues, Vector.getElem_map]
  exact values ⟨k, inside⟩

def CcSsaToken.effect (meaning : SsaMeaning) (env : SsaEnv) (tok : CcSsaToken) : SsaEffect :=
  ssaEffect meaning tok.type tok.raw (operandValues env tok)

def SsaEnv.set (env : SsaEnv) (id : BitVec 12) (value : Option Word) : SsaEnv :=
  fun other => if other = id then value else env other

/-- Run the tokens in order up to the first `RETURN`; a `NONE` token is skipped. -/
def ssaRun (meaning : SsaMeaning) : List CcSsaToken → SsaEnv → SsaOutcome
  | [], _ => .fellThrough
  | tok :: rest, env =>
      match tok.effect meaning env with
      | .skip => ssaRun meaning rest env
      | .stop outcome => outcome
      | .define value => ssaRun meaning rest (env.set tok.result.id value)

def ssaSteps (meaning : SsaMeaning) : List CcSsaToken → SsaEnv → Except SsaOutcome SsaEnv
  | [], env => .ok env
  | tok :: rest, env =>
      match tok.effect meaning env with
      | .skip => ssaSteps meaning rest env
      | .stop outcome => .error outcome
      | .define value => ssaSteps meaning rest (env.set tok.result.id value)

theorem ssaSteps_append (meaning : SsaMeaning) (front back : List CcSsaToken) (env : SsaEnv) :
    ssaSteps meaning (front ++ back) env =
      match ssaSteps meaning front env with
      | .ok reached => ssaSteps meaning back reached
      | .error outcome => .error outcome := by
  induction front generalizing env with
  | nil => rfl
  | cons tok rest ih =>
      rw [List.cons_append, ssaSteps, ssaSteps]
      cases tok.effect meaning env with
      | skip => exact ih env
      | stop outcome => rfl
      | define value => exact ih _

theorem ssaRun_append (meaning : SsaMeaning) (front back : List CcSsaToken) (env : SsaEnv) :
    ssaRun meaning (front ++ back) env =
      match ssaSteps meaning front env with
      | .ok reached => ssaRun meaning back reached
      | .error outcome => outcome := by
  induction front generalizing env with
  | nil => rfl
  | cons tok rest ih =>
      rw [List.cons_append, ssaRun, ssaSteps]
      cases tok.effect meaning env with
      | skip => exact ih env
      | stop outcome => rfl
      | define value => exact ih _

def paramEnv (params : List Word) : SsaEnv := fun id =>
  if 2 ≤ id.toNat then params[id.toNat - 2]? else none

def ssaCall (meaning : SsaMeaning) (toks : List CcSsaToken) (params : List Word) : SsaOutcome :=
  ssaRun meaning toks (paramEnv params)

/-- The token has the id among its operands. Raw data has none. -/
def CcSsaToken.Uses (tok : CcSsaToken) (id : BitVec 12) : Prop :=
  tok.type ≠ .rawData ∧ ∃ k : Fin ccSsaMaxArgs, (tok.arg k).id = id

/-- Every result is new and not `NULL`, and every operand is `NULL` or known. -/
def Scoped (known : Set (BitVec 12)) : List CcSsaToken → Prop
  | [] => True
  | tok :: rest =>
      tok.result.id ≠ 0 ∧ tok.result.id ∉ known ∧ (∀ id, tok.Uses id → id = 0 ∨ id ∈ known) ∧
        Scoped (insert tok.result.id known) rest

def paramIds (params : Nat) : Set (BitVec 12) := { id | 2 ≤ id.toNat ∧ id.toNat < params + 2 }

/-- Result ids are not `NULL`, distinct and different from the parameters, and operands are
`NULL`, parameters or results of earlier tokens. -/
def SsaForm (params : Nat) (toks : List CcSsaToken) : Prop := Scoped (paramIds params) toks

theorem all_uses_iff (tok : CcSsaToken) (holds : BitVec 12 → Prop) :
    (∀ id, tok.Uses id → holds id) ↔
      (tok.type ≠ .rawData → ∀ k : Fin ccSsaMaxArgs, holds (tok.arg k).id) :=
  ⟨fun all operands k => all _ ⟨operands, k, rfl⟩,
    fun all _ ⟨operands, k, same⟩ => same ▸ all operands k⟩

instance decidableScoped : ∀ (known : Set (BitVec 12)) [DecidablePred (· ∈ known)]
    (toks : List CcSsaToken), Decidable (Scoped known toks)
  | _, _, [] => .isTrue trivial
  | known, _, tok :: rest =>
      have _inserted : DecidablePred (· ∈ insert tok.result.id known) := fun id =>
        decidable_of_iff (id = tok.result.id ∨ id ∈ known) Set.mem_insert_iff.symm
      have _behind : Decidable (Scoped (insert tok.result.id known) rest) := decidableScoped _ rest
      have _operands : Decidable (∀ id, tok.Uses id → id = 0 ∨ id ∈ known) :=
        decidable_of_iff _ (all_uses_iff tok fun id => id = 0 ∨ id ∈ known).symm
      inferInstanceAs (Decidable (_ ∧ _ ∧ _ ∧ _))

instance (params : Nat) : DecidablePred (· ∈ paramIds params) := fun id =>
  inferInstanceAs (Decidable (2 ≤ id.toNat ∧ id.toNat < params + 2))

instance (params : Nat) (toks : List CcSsaToken) : Decidable (SsaForm params toks) :=
  inferInstanceAs (Decidable (Scoped (paramIds params) toks))

theorem Scoped.fresh {known : Set (BitVec 12)} {toks : List CcSsaToken} (form : Scoped known toks)
    {tok : CcSsaToken} (member : tok ∈ toks) : tok.result.id ∉ known ∧ tok.result.id ≠ 0 := by
  induction toks generalizing known with
  | nil => exact absurd member List.not_mem_nil
  | cons head rest ih =>
      rcases List.mem_cons.mp member with rfl | later
      · exact ⟨form.2.1, form.1⟩
      · have behind := ih form.2.2.2 later
        exact ⟨fun old => behind.1 (Set.mem_insert_of_mem _ old), behind.2⟩

theorem Scoped.nodup {known : Set (BitVec 12)} {toks : List CcSsaToken} (form : Scoped known toks) :
    (toks.map fun tok => tok.result.id).Nodup := by
  induction toks generalizing known with
  | nil => exact .nil
  | cons head rest ih =>
      refine List.nodup_cons.mpr ⟨fun member => ?_, ih form.2.2.2⟩
      obtain ⟨tok, later, same⟩ := List.mem_map.mp member
      exact (form.2.2.2.fresh later).1 (same ▸ Set.mem_insert _ _)

def knownAfter (known : Set (BitVec 12)) (toks : List CcSsaToken) : Set (BitVec 12) :=
  toks.foldl (fun known tok => insert tok.result.id known) known

theorem mem_knownAfter {known : Set (BitVec 12)} {toks : List CcSsaToken} {id : BitVec 12} :
    id ∈ knownAfter known toks ↔ id ∈ known ∨ ∃ tok ∈ toks, tok.result.id = id := by
  induction toks generalizing known with
  | nil => simp [knownAfter]
  | cons tok rest ih =>
      have next : id ∈ knownAfter (insert tok.result.id known) rest ↔
          id ∈ insert tok.result.id known ∨ ∃ later ∈ rest, later.result.id = id := ih
      change id ∈ knownAfter (insert tok.result.id known) rest ↔ _
      rw [next, Set.mem_insert_iff, List.exists_mem_cons_iff]
      tauto

theorem scoped_append {known : Set (BitVec 12)} {front back : List CcSsaToken} :
    Scoped known (front ++ back) ↔ Scoped known front ∧ Scoped (knownAfter known front) back := by
  induction front generalizing known with
  | nil => simp [Scoped, knownAfter]
  | cons tok rest ih =>
      have next : Scoped (insert tok.result.id known) (rest ++ back) ↔
          Scoped (insert tok.result.id known) rest ∧
            Scoped (knownAfter (insert tok.result.id known) rest) back := ih
      simp only [List.cons_append, Scoped, next]
      change _ ↔ _ ∧ Scoped (knownAfter (insert tok.result.id known) rest) back
      tauto

theorem Scoped.uses {known : Set (BitVec 12)} {toks : List CcSsaToken} (form : Scoped known toks)
    {tok : CcSsaToken} (member : tok ∈ toks) {id : BitVec 12} (used : tok.Uses id) :
    id = 0 ∨ id ∈ knownAfter known toks := by
  -- Operands are known at the latest once all tokens are done.
  obtain ⟨front, back, rfl⟩ := List.append_of_mem member
  obtain ⟨_, here⟩ := scoped_append.mp form
  refine (here.2.2.1 id used).imp_right fun inside => ?_
  rcases mem_knownAfter.mp inside with old | ⟨other, before, same⟩
  · exact mem_knownAfter.mpr (Or.inl old)
  · exact mem_knownAfter.mpr (Or.inr ⟨other, List.mem_append_left _ before, same⟩)

theorem Scoped.not_own {known : Set (BitVec 12)} {toks : List CcSsaToken} (form : Scoped known toks)
    {tok : CcSsaToken} (member : tok ∈ toks) : ¬ tok.Uses tok.result.id := by
  intro used
  obtain ⟨front, back, rfl⟩ := List.append_of_mem member
  obtain ⟨_, named, new, operands, _⟩ := scoped_append.mp form
  rcases operands _ used with null | old
  · exact named null
  · exact new old

def substitute (source target id : BitVec 12) : BitVec 12 := if id = source then target else id

theorem replaceArgs_id (source target : CcSsaArgument) {tok : CcSsaToken}
    (operands : tok.type ≠ .rawData) (k : Fin ccSsaMaxArgs) :
    ((ccSsaReplaceArgs source target tok).arg k).id =
      substitute source.id target.id (tok.arg k).id := by
  rw [replaceArgs_arg source target operands k, substitute]
  split <;> rfl

theorem uses_replaceArgs {source target : CcSsaArgument} {tok : CcSsaToken} {id : BitVec 12}
    (used : (ccSsaReplaceArgs source target tok).Uses id) :
    ∃ old, tok.Uses old ∧ id = substitute source.id target.id old := by
  obtain ⟨operands, k, rfl⟩ := used
  rw [replaceArgs_type] at operands
  exact ⟨(tok.arg k).id, ⟨operands, k, rfl⟩, replaceArgs_id source target operands k⟩

theorem Scoped.replaced {known : Set (BitVec 12)} {toks : List CcSsaToken}
    (form : Scoped known toks) {source target : CcSsaArgument} (there : target.id ∈ known) :
    Scoped known (toks.map (ccSsaReplaceArgs source target)) := by
  induction toks generalizing known with
  | nil => trivial
  | cons tok rest ih =>
      obtain ⟨named, new, operands, behind⟩ := form
      refine ⟨?_, ?_, ?_, ?_⟩
      · rwa [replaceArgs_result]
      · rwa [replaceArgs_result]
      · intro id used
        obtain ⟨old, before, rfl⟩ := uses_replaceArgs used
        by_cases same : old = source.id
        · exact Or.inr (by rwa [substitute, if_pos same])
        · rw [substitute, if_neg same]
          exact operands old before
      · rw [replaceArgs_result]
        exact ih behind (Set.mem_insert_of_mem _ there)

theorem operandValues_replaced {source target : CcSsaArgument} {env moved : SsaEnv}
    (agree : ∀ id, id ≠ source.id → moved id = env id) (same : env source.id = env target.id)
    (distinct : target.id ≠ source.id) {tok : CcSsaToken} (operands : tok.type ≠ .rawData) :
    operandValues moved (ccSsaReplaceArgs source target tok) = operandValues env tok := by
  apply operandValues_ext
  intro k
  rw [replaceArgs_id source target operands k, substitute]
  split
  · rename_i found
    rw [agree _ distinct, found, same]
  · rename_i other
    exact agree _ other

theorem effect_replaced (meaning : SsaMeaning) {source target : CcSsaArgument} {env moved : SsaEnv}
    (agree : ∀ id, id ≠ source.id → moved id = env id) (same : env source.id = env target.id)
    (distinct : target.id ≠ source.id) (tok : CcSsaToken) :
    (ccSsaReplaceArgs source target tok).effect meaning moved = tok.effect meaning env := by
  by_cases raw : tok.type = .rawData
  · rw [replaceArgs_raw source target raw]
    simp only [CcSsaToken.effect, raw, ssaEffect]
  · have data : (ccSsaReplaceArgs source target tok).raw = tok.raw := by
      unfold ccSsaReplaceArgs
      split <;> rfl
    rw [CcSsaToken.effect, replaceArgs_type, data,
      operandValues_replaced agree same distinct raw, CcSsaToken.effect]

theorem run_replaced (meaning : SsaMeaning) {source target : CcSsaArgument}
    (distinct : target.id ≠ source.id) {toks : List CcSsaToken} {env moved : SsaEnv}
    (agree : ∀ id, id ≠ source.id → moved id = env id) (same : env source.id = env target.id)
    (fresh : ∀ tok ∈ toks, tok.result.id ≠ source.id ∧ tok.result.id ≠ target.id) :
    ssaRun meaning (toks.map (ccSsaReplaceArgs source target)) moved = ssaRun meaning toks env := by
  induction toks generalizing env moved with
  | nil => rfl
  | cons tok rest ih =>
      have behind := fun other member => fresh other (List.mem_cons_of_mem tok member)
      have new := fresh tok List.mem_cons_self
      rw [List.map_cons, ssaRun, effect_replaced meaning agree same distinct tok, ssaRun,
        replaceArgs_result]
      cases tok.effect meaning env with
      | skip => exact ih agree same behind
      | stop outcome => rfl
      | define value =>
          refine ih (fun id other => ?_) ?_ behind
          · simp only [SsaEnv.set]
            split
            · rfl
            · exact agree id other
          · rw [SsaEnv.set, SsaEnv.set, if_neg new.1.symm, if_neg new.2.symm, same]

end Estros
