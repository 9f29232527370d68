import Estros.CoalesceMeaning
import Estros.DeclarationTrees
import Estros.NodeBudget

/-!
What `cc_parse_translation_unit` returns: on the token lists that the recogniser `readUnit`
reads, and on no others, the parser ends well, and the reference it returns denotes the
definitions that were read.
-/

namespace Estros

open Machine

/-- `return value;`, where a missing value is an empty block. -/
def jumpTree (value : Option Tree) : Tree := .ret (value.getD (.block []))

def compoundTree (values : List (Option Tree)) : Tree := .block (values.map jumpTree)

/-- A function definition with its tree; something else up to `rest`; or a halt. -/
inductive ExternalTree where
  | definition (tree : Tree) (rest : List CcToken)
  | other (rest : List CcToken)
  | abort

def readExternal (data : List UInt8) (toks : List CcToken) : ExternalTree :=
  match readDeclarator (toks.length + 1) (({} : Declaration).specified toks)
      (dropSpecifiers toks) with
  | .yes declaration rest =>
      match parseBody data rest with
      | .yes values left => .definition (declaration.tree (compoundTree values)) left
      -- A parameter list without a body leaves nodes that the pops trip over.
      | .no => if declaration.params.isEmpty then .other rest else .abort
      | .abort => .abort
  | .no => .other (dropSpecifiers toks)
  | .abort => .abort

def readDefinitions (data : List UInt8) : Nat → List CcToken → Reply (List Tree)
  | 0, _ => .abort
  | fuel + 1, toks =>
      match readExternal data toks with
      | .definition tree rest =>
          match readDefinitions data fuel rest with
          | .yes trees left => .yes (tree :: trees) left
          | _ => .abort
      | .other rest => .yes [] rest
      | .abort => .abort

def readUnit (data : List UInt8) (toks : List CcToken) : Reply (List Tree) :=
  readDefinitions data (toks.length + 1) toks

/-- The children of a block denote the trees, up to single-child blocks, by nodes drawn from
`low` on. -/
structure BlockHolds (state : CcState) (ref : CcAstNodeRef) (low : Nat) (trees : List Tree) :
    Prop where
  valid : 0 < ref.toNat
  below : ref.toNat < low
  drawn : low ≤ state.nNodes
  children : ∃ childs refs fulls, state.node ref = .block childs ∧ state.array childs = some refs ∧
    Tree.DenoteAll state (NilOrNew low state) fulls refs ∧ fulls.map Tree.strip = trees.map Tree.strip

section Blocks

variable {before after state : CcState} {ref : CcAstNodeRef} {low : Nat} {trees : List Tree}

theorem BlockHolds.inside (holds : BlockHolds state ref low trees) : ref.toNat < state.nNodes :=
  holds.below.trans_le holds.drawn

theorem BlockHolds.positive (holds : BlockHolds state ref low trees) : 0 < state.nNodes :=
  (Nat.zero_le _).trans_lt holds.inside

theorem BlockHolds.kept (holds : BlockHolds before ref low trees) {owned : Nat → Prop}
    (writes : Writes owned before after)
    (apart : ∀ index, owned index → 0 < index ∧ index < low ∧ index ≠ ref.toNat) :
    BlockHolds after ref low trees := by
  have free : ∀ index, owned index → index < before.nNodes → 0 < index ∧ index < low :=
    fun index also _ => ⟨(apart index also).1, (apart index also).2.1⟩
  obtain ⟨childs, refs, fulls, node, array, all, same⟩ := holds.children
  refine ⟨holds.valid, holds.below, holds.drawn.trans writes.nNodes, childs, refs, fulls, ?_,
    (writes.same holds.positive free).array array, writes.denoteAll holds.positive free all, same⟩
  exact (writes.node holds.inside fun also => (apart _ also).2.2 rfl).trans node

theorem BlockHolds.extended (holds : BlockHolds before ref low trees)
    (extended : Extends before after) :
    BlockHolds after ref low trees := holds.kept extended fun _ never => never.elim

theorem BlockHolds.append (holds : BlockHolds state ref low trees) {childs : ChildArray}
    {child : CcAstNodeRef} {full tree : Tree} (found : state.node ref = .block childs)
    (denoted : full.Denotes state (NilOrNew low state) child) (stripped : full.strip = tree.strip) :
    BlockHolds (state.appendChild ref childs child .block) ref low (trees ++ [tree]) := by
  have writes := Writes.appendChild state childs child .block holds.inside
  have free : ∀ index, index = ref.toNat → index < state.nNodes → 0 < index ∧ index < low :=
    fun index same _ => same ▸ ⟨holds.valid, holds.below⟩
  obtain ⟨_, refs, fulls, node, array, all, same⟩ := holds.children
  cases found.symm.trans node
  refine ⟨holds.valid, holds.below, holds.drawn, some state.childArrays.length, refs ++ [child],
    fulls ++ [full], ?_, ?_, ?_, by simp [same, stripped]⟩
  · rw [node_eq_nodeAt, appendChild_nodeAt _ _ _ _ _ _ holds.inside, if_pos rfl]
  · simp [CcState.array, CcState.appendChild, childs_of_array array]
  · exact denoteAll_snoc (writes.denoteAll holds.positive free all)
      (writes.denotes holds.positive free denoted)

theorem BlockHolds.coalesced (holds : BlockHolds state ref low []) :
    (ccAstPushBlockCoalesce ref).run state = .ok ⟨ref, false⟩ state := by
  obtain ⟨childs, refs, fulls, node, array, all, same⟩ := holds.children
  obtain rfl : fulls = [] := List.map_eq_nil_iff.mp same
  obtain rfl : refs = [] := all
  simp [ccAstPushBlockCoalesce, run_bind, node, childs_of_array array]

theorem BlockHolds.denotes (holds : BlockHolds state ref low trees) {lower : Nat}
    (lowered : lower ≤ ref.toNat) :
    ∃ full : Tree, full.Denotes state (NilOrNew lower state) ref ∧
      full.strip = (Tree.block trees).strip := by
  obtain ⟨childs, refs, fulls, node, array, all, same⟩ := holds.children
  have wider := NilOrNew.mono (lowered.trans holds.below.le) (Nat.le_refl state.nNodes)
  refine ⟨.block fulls, ⟨Or.inr ⟨lowered, holds.inside⟩, childs, refs, node, array,
    Tree.DenoteAll.frame (.refl _ state) wider fulls refs all⟩, ?_⟩
  rw [Tree.strip, Tree.strip, stripAll_eq_map, stripAll_eq_map, same]

end Blocks

/-! ### Statements -/

section Statements

variable {fuel low : Nat} {before : CcState} {expr : CcAstNodeRef} {trees : List Tree}

def returned : Reply Tree → Reply (Option Tree)
  | .yes tree rest => if headType rest = .semi then .yes (some tree) rest.tail else .abort
  | _ => .abort

theorem parseStatement_value (data : List UInt8) {toks : List CcToken}
    (isReturn : headType toks = .kwReturn) (noSemi : headType toks.tail ≠ .semi) :
    parseStatement data toks = returned (parseExpression data toks.tail) := by
  rw [parseStatement, if_pos isReturn, if_neg noSemi]
  cases parseExpression data toks.tail with
  | yes tree rest => rfl
  | no => rfl
  | abort => rfl

theorem expression_builds (fresh : Fresh before expr)
    (enough : 4 * before.remaining.length + 7 ≤ fuel) :
    EnsuresWhile refsKept (ccParseExpression fuel expr false)
      (fun accepted after => match accepted with
        | true => ∃ tree, parseExpression before.data before.remaining = .yes tree after.remaining ∧
            Holds before after expr tree
        | false => parseExpression before.data before.remaining = .no)
      (Stops (parseExpression before.data before.remaining)) before := by
  constructor
  constructor
  cases outcome : (ccParseExpression fuel expr false).run before with
  | ok accepted after =>
      intro fits
      have realised := expression_realises false fresh enough (by rw [outcome]; exact fits)
      rw [outcome] at realised
      cases reply : parseExpression before.data before.remaining with
      | yes tree rest =>
          rw [reply] at realised
          obtain ⟨_, same, held, moved⟩ := realised
          cases same
          exact ⟨tree, by rw [moved.remaining], held⟩
      | no =>
          rw [reply] at realised
          obtain ⟨_, same, _⟩ := realised
          cases same
          rfl
      | abort =>
          rw [reply] at realised
          obtain ⟨_, impossible⟩ := realised
          cases impossible
  | halt why after =>
      intro fits
      have realised := expression_realises false fresh enough (by rw [outcome]; exact fits)
      rw [outcome] at realised
      cases reply : parseExpression before.data before.remaining with
      | yes tree rest =>
          rw [reply] at realised
          obtain ⟨_, impossible, _⟩ := realised
          cases impossible
      | no =>
          rw [reply] at realised
          obtain ⟨_, impossible, _⟩ := realised
          cases impossible
      | abort => exact Or.inr rfl

def States (before : CcState) (expr : CcAstNodeRef) (low : Nat) (trees : List Tree)
    (reply : Reply (Option Tree)) : Bool → CcState → Prop
  | true, after => ∃ value, reply = .yes value after.remaining ∧
      BlockHolds after expr low (trees ++ [jumpTree value]) ∧
      Writes (fun index => index = expr.toNat) before after ∧
      after.remaining.length < before.remaining.length
  | false, after => reply = .no ∧ after = before

theorem returned_states {last : CcState} {ret : CcAstNodeRef} {full : Tree} {value : Option Tree}
    (holds : BlockHolds last expr low trees) (other : expr ≠ ret)
    (denoted : full.Denotes last (NilOrNew low last) ret)
    (stripped : full.strip = (jumpTree value).strip) (extended : Extends before last)
    (reply : parseStatement before.data before.remaining = .yes value last.remaining.tail)
    (shorter : last.remaining.tail.length < before.remaining.length) :
    EnsuresWhile refsKept (do
        ccNextToken
        ccAstPushChildrenToBlock expr ret
        pure true)
      (States before expr low trees (parseStatement before.data before.remaining))
      (Stops (parseStatement before.data before.remaining)) last := by
  have moved := holds.extended (.advance last)
  have still : full.Denotes last.advance (NilOrNew low last.advance) ret :=
    (Writes.advance last).denotes holds.positive (fun _ never => never.elim) denoted
  obtain ⟨childs, _, _, node, _⟩ := moved.children
  refine advance_while (.bind_run (pushChildrenToBlock_run _ expr ret childs node other) (.pure ?_))
  refine ⟨value, ?_, moved.append node still stripped, ?_, ?_⟩
  · rw [reply, appendChild_remaining, advance_remaining]
  · exact (Extends.writes (extended.trans (.advance last))).trans (.appendChild _ _ _ _ moved.inside)
  · rw [appendChild_remaining, advance_remaining]
    exact shorter

theorem jumpStatment_states (holds : BlockHolds before expr low trees)
    (enough : 4 * before.remaining.length + 7 ≤ fuel) :
    EnsuresWhile refsKept (ccParseJumpStatment fuel expr)
      (States before expr low trees (parseStatement before.data before.remaining))
      (Stops (parseStatement before.data before.remaining)) before := by
  unfold ccParseJumpStatment
  apply peekIs_while
  · intro _ isReturn
    obtain ⟨tok, rest, remaining, _⟩ := headType_split (by decide) isReturn
    refine push_while fun _ => push_while fun fits => advance_while ?_
    have innerFits := fits_of_push fits
    have innerIndex : (refOf before.nNodes).toNat = before.nNodes := toNat_pushed before _ innerFits
    set inner := refOf before.nNodes
    set ret := refOf (before.push (.block none)).nNodes
    set state := ((before.push (.block none)).push (.ret inner)).advance
    have retIndex : ret.toNat = before.nNodes + 1 := toNat_pushed _ _ fits
    have extended : Extends before state :=
      ((Writes.push before _).trans (.push _ _)).trans (.advance _)
    have held := holds.extended extended
    have inside := holds.inside
    have drawn := holds.drawn
    have count : state.nNodes = before.nNodes + 2 := rfl
    have other : expr ≠ ret := ref_ne_of_toNat (by omega)
    have same : state.remaining = before.remaining.tail := advance_remaining _
    have fewer : state.remaining.length < before.remaining.length := by
      rw [same, remaining]
      exact Nat.lt_succ_self _
    have retNode : state.node ret = .ret inner := by
      rw [node_eq_nodeAt, retIndex, advance_nodeAt, push_nodeAt, push_nNodes, if_pos rfl]
    have fresh : Fresh state inner := ((fresh_push before innerFits).push _).advance
    apply peekIs_while
    · intro _ isSemi
      have denoted : (Tree.ret (.block [])).Denotes state (NilOrNew low state) ret :=
        ⟨Or.inr ⟨by omega, by omega⟩, inner, retNode, Or.inr ⟨by omega, fresh.inside⟩, none, [],
          fresh.empty, rfl, rfl⟩
      refine returned_states held other denoted (show _ = (jumpTree none).strip from rfl)
        extended ?_ ?_
      · rw [parseStatement, if_pos isReturn, ← same, if_pos isSemi]
      · rw [List.length_tail]
        omega
    · intro _ noSemi
      have unfolded : parseStatement before.data before.remaining =
          returned (parseExpression before.data state.remaining) := by
        rw [same] at noSemi ⊢
        exact parseStatement_value before.data isReturn noSemi
      refine ((expression_builds fresh (by omega)).mono (fun _ _ _ held => held)
        fun why after stops => ?_).bind fun accepted after step parsed => ?_
      · exact stops.imp_right fun aborted => unfolded.trans (congrArg returned aborted)
      cases accepted with
      | false => exact .halt (Or.inr (unfolded.trans (congrArg returned parsed)))
      | true =>
          obtain ⟨tree, reply, grouped⟩ := parsed
          replace unfolded := unfolded.trans (congrArg returned reply)
          apply peekIs_while
          · intro _ isSemi
            have grown := grouped.nNodes
            have more : Extends before after :=
              ⟨extended.nNodes.trans grown, fun index old apart => by
                rw [grouped.others index (by omega) (by omega), extended.others index old apart],
                extended.arrays.trans step.arrays⟩
            obtain ⟨full, denoted, stripped⟩ := grouped.denotes (.refl _ after)
              fun index owned => (Or.inr (owned.bounds (by omega) (by omega) (by omega)) :
                NilOrNew low after index)
            have whole : (Tree.ret (.block [full])).Denotes after (NilOrNew low after) ret := by
              refine ⟨Or.inr ⟨by omega, by omega⟩, inner, ?_, denoted⟩
              rw [grouped.node_old (show ret.toNat < state.nNodes by omega)
                (show ret.toNat ≠ inner.toNat by omega), retNode]
            refine returned_states (holds.extended more) other whole
              (show _ = (jumpTree (some tree)).strip from ?_) more ?_ ?_
            · rw [jumpTree, strip_ret, strip_ret, strip_single, Option.getD_some, ← stripped,
                strip_strip]
            · exact unfolded.trans (if_pos isSemi)
            · have left := remaining_length_le step
              rw [List.length_tail]
              omega
          · exact fun _ noSemi => .halt (Or.inr (unfolded.trans (if_neg noSemi)))
  · intro _ otherHead
    exact .pure ⟨by rw [parseStatement, if_neg otherHead], rfl⟩

def StatesAll (before : CcState) (expr : CcAstNodeRef) (low : Nat) (trees : List Tree)
    (reply : Reply (List (Option Tree))) (after : CcState) : Prop :=
  ∃ values, reply = .yes values after.remaining ∧
    BlockHolds after expr low (trees ++ values.map jumpTree) ∧
    Writes (fun index => index = expr.toNat) before after

theorem statmentLoop_states {bound : Nat} (holds : BlockHolds before expr low trees)
    (short : before.remaining.length < bound) (enough : 5 * before.remaining.length + 8 ≤ fuel) :
    EnsuresWhile refsKept (ccParseStatmentLoop fuel expr) (fun _ after =>
        StatesAll before expr low trees (parseStatements before.data bound before.remaining) after)
      (Stops (parseStatements before.data bound before.remaining)) before := by
  induction fuel generalizing before trees bound with
  | zero => exact .halt (Or.inl rfl)
  | succ fuel ih =>
      obtain ⟨bound, rfl⟩ : ∃ smaller, bound = smaller + 1 := ⟨bound - 1, by omega⟩
      rw [ccParseStatmentLoop, parseStatements]
      have jump := jumpStatment_states holds (show 4 * before.remaining.length + 7 ≤ fuel by omega)
      refine (jump.mono (fun _ _ _ held => held) fun why after stops => ?_).bind
        fun accepted middle step states => ?_
      · exact stops.imp_right fun aborted => by rw [aborted]
      cases accepted with
      | false =>
          obtain ⟨reply, rfl⟩ := states
          refine .pure ⟨[], by rw [reply], ?_, .refl _ _⟩
          rw [List.map_nil, List.append_nil]
          exact holds
      | true =>
          obtain ⟨value, reply, more, writes, fewer⟩ := states
          have data : middle.data = before.data := step.data
          have rest := ih more (show middle.remaining.length < bound by omega) (by omega)
          rw [data] at rest
          simp only [reply, if_true]
          refine rest.mono (fun _ after _ later => ?_) fun why after stops => ?_
          · obtain ⟨values, others, all, written⟩ := later
            refine ⟨value :: values, by rw [others], ?_, writes.trans written⟩
            rw [List.append_assoc] at all
            exact all
          · exact stops.imp_right fun aborted => by rw [aborted]

theorem statmentList_states {bound : Nat} (holds : BlockHolds before expr low [])
    (short : before.remaining.length < bound) (enough : 5 * before.remaining.length + 8 ≤ fuel) :
    EnsuresWhile refsKept (ccParseStatmentList fuel expr) (fun accepted after => match accepted with
        | true =>
            StatesAll before expr low [] (parseStatementList before.data bound before.remaining)
              after
        | false => parseStatementList before.data bound before.remaining = .no)
      (Stops (parseStatementList before.data bound before.remaining)) before := by
  rw [ccParseStatmentList, parseStatementList]
  refine .bind_run holds.coalesced ?_
  have jump := jumpStatment_states holds (show 4 * before.remaining.length + 7 ≤ fuel by omega)
  refine (jump.mono (fun _ _ _ held => held) fun why after stops => ?_).bind
    fun accepted middle step states => ?_
  · exact stops.imp_right fun aborted => by rw [aborted]
  cases accepted with
  | false =>
      obtain ⟨reply, _⟩ := states
      exact .bind_run (run_pure () middle) (.pure (by simp only [reply]))
  | true =>
      obtain ⟨value, reply, more, writes, fewer⟩ := states
      have data : middle.data = before.data := step.data
      have rest := statmentLoop_states more (show middle.remaining.length < bound by omega)
        (show 5 * middle.remaining.length + 8 ≤ fuel by omega)
      rw [data] at rest
      simp only [reply]
      refine (rest.mono (fun _ _ _ held => held) fun why after stops => ?_).bind
        fun _ after _ later => .pure ?_
      · exact stops.imp_right fun aborted => by rw [aborted]
      · obtain ⟨values, others, all, written⟩ := later
        exact ⟨value :: values, by rw [others], all, writes.trans written⟩

theorem compoundStatement_states (holds : BlockHolds before expr low [])
    (enough : 5 * before.remaining.length + 8 ≤ fuel) :
    EnsuresWhile refsKept (ccParseCompoundStatement fuel expr) (fun accepted after =>
        match accepted with
        | true => StatesAll before expr low [] (parseBody before.data before.remaining) after ∧
            after.remaining.length < before.remaining.length
        | false => parseBody before.data before.remaining = .no ∧ after = before)
      (Stops (parseBody before.data before.remaining)) before := by
  unfold ccParseCompoundStatement
  apply peekIs_while
  · intro _ opens
    obtain ⟨tok, rest, remaining, _⟩ := headType_split (by decide) opens
    have same : before.advance.remaining = before.remaining.tail := advance_remaining before
    have fewer : before.advance.remaining.length < before.remaining.length := by
      rw [same, remaining]
      exact Nat.lt_succ_self _
    have moved := holds.extended (.advance before)
    rw [parseBody, if_pos opens]
    refine advance_while (peekIs_while ?_ ?_)
    · intro _ closes
      rw [same] at closes
      rw [if_pos closes]
      refine advance_while (.pure ⟨⟨[], ?_, moved.extended (.advance _), ?_⟩, ?_⟩)
      · rw [advance_remaining, same]
      · exact Extends.writes ((Writes.advance before).trans (.advance _))
      · rw [advance_remaining, List.length_tail]
        omega
    · intro _ nonempty
      rw [same] at nonempty
      rw [if_neg nonempty]
      have list := statmentList_states moved
        (show before.advance.remaining.length < before.remaining.length + 1 by omega)
        (show 5 * before.advance.remaining.length + 8 ≤ fuel by omega)
      rw [same] at list
      refine (list.mono (fun _ _ _ held => held) fun why after stops => ?_).bind
        fun accepted middle step states => ?_
      · exact stops.imp_right fun aborted => by
          have aborts : parseStatementList before.data (before.remaining.length + 1)
            before.remaining.tail = .abort := aborted
          rw [aborts]
      cases accepted with
      | false =>
          have declined : parseStatementList before.data (before.remaining.length + 1)
            before.remaining.tail = .no := states
          exact .bind_run (run_pure false middle) (.halt (Or.inr (by rw [declined])))
      | true =>
          obtain ⟨values, reply, all, written⟩ := states
          have read : parseStatementList before.data (before.remaining.length + 1)
            before.remaining.tail = .yes values middle.remaining := reply
          have left := remaining_length_le step
          rw [read]
          apply peekIs_while
          · intro _ closes
            refine advance_while (.pure ⟨⟨values, ?_, all.extended (.advance middle), ?_⟩, ?_⟩)
            · rw [advance_remaining]
              exact if_pos closes
            · exact (Extends.writes (.advance before)).trans
                (written.trans (Extends.writes (.advance middle)))
            · rw [advance_remaining, List.length_tail]
              omega
          · exact fun _ other => .halt (Or.inr (if_neg other))
  · intro _ other
    exact .pure ⟨by rw [parseBody, if_neg other], rfl⟩

end Statements

/-! ### External declarations -/

section Externals

variable {fuel low : Nat} {before : CcState} {decl init typeDef : CcAstNodeRef}

def CcState.withDeclaration (state : CcState) : CcState :=
  ((state.push (.newType 0 none 0)).push (.block none)).push
    (.newVar ⟨0, 0⟩ (refOf (state.nNodes + 1)) (refOf state.nNodes) 0)

theorem declaration_pushed (nil : before.nodeAt 0 = .invalid) (some : 0 < before.nNodes)
    (fits : before.withDeclaration.refsFit) :
    Declaring before.withDeclaration (refOf (before.nNodes + 2)) (refOf (before.nNodes + 1))
        (refOf before.nNodes) (before.nNodes + 3) {} ∧
      BlockHolds before.withDeclaration (refOf (before.nNodes + 1)) (before.nNodes + 3) [] := by
  have typeIndex : (refOf before.nNodes).toNat = before.nNodes :=
    toNat_pushed before _ (fits_of_push (fits_of_push fits))
  have initIndex : (refOf (before.nNodes + 1)).toNat = before.nNodes + 1 :=
    toNat_pushed (before.push _) _ (fits_of_push fits)
  have declIndex : (refOf (before.nNodes + 2)).toNat = before.nNodes + 2 :=
    toNat_pushed ((before.push _).push _) _ fits
  have nodeAt (index : Nat) : before.withDeclaration.nodeAt index =
      if index = before.nNodes + 2 then
        .newVar ⟨0, 0⟩ (refOf (before.nNodes + 1)) (refOf before.nNodes) 0
      else if index = before.nNodes + 1 then .block none
      else if index = before.nNodes then .newType 0 none 0
      else before.nodeAt index := by
    simp only [CcState.withDeclaration, push_nodeAt, push_nNodes]
  have count : before.withDeclaration.nNodes = before.nNodes + 3 := rfl
  have zero : before.withDeclaration.nodeAt 0 = .invalid := by
    rw [nodeAt, if_neg (by omega), if_neg (by omega), if_neg (by omega), nil]
  constructor
  · refine ⟨zero, by omega, by omega, by omega, count.ge, ?_, 0, none, [], ?_, rfl,
      ⟨Or.inl rfl, zero, rfl⟩, rfl⟩
    · rw [node_eq_nodeAt, declIndex, nodeAt, if_pos rfl]
    · rw [node_eq_nodeAt, typeIndex, nodeAt, if_neg (by omega), if_neg (by omega), if_pos rfl]
  · refine ⟨by omega, by omega, count.ge, none, [], [], ?_, rfl, rfl, rfl⟩
    rw [node_eq_nodeAt, initIndex, nodeAt, if_neg (by omega), if_pos rfl]

def DenotesStripped (state : CcState) (low : Nat) (ref : CcAstNodeRef) (tree : Tree) : Prop :=
  ∃ full : Tree, full.Denotes state (NilOrNew low state) ref ∧ full.strip = tree.strip

def OwnsAll (decl init typeDef : CcAstNodeRef) (index : Nat) : Prop :=
  Owns decl typeDef index ∨ index = init.toNat

/-- After the specifiers and the declarator a body makes a definition; without one the node
counter tells whether there was a parameter list. -/
def DefinesAs (before : CcState) (decl init typeDef : CcAstNodeRef) (reply : ExternalTree) :
    Bool → CcState → Prop
  | true, after => (∃ tree, reply = .definition tree after.remaining ∧
      DenotesStripped after typeDef.toNat decl tree) ∧
      Writes (OwnsAll decl init typeDef) before after ∧
      after.remaining.length < before.remaining.length
  | false, after => Writes (OwnsAll decl init typeDef) before after ∧
      (reply = .other after.remaining ∧ after.nNodes = before.nNodes ∨
        reply = .abort ∧ before.nNodes < after.nNodes)

def StopsExternal (reply : ExternalTree) (why : Halt) (_ : CcState) : Prop :=
  why = .outOfFuel ∨ reply = .abort

theorem functionDefinition_defines (declaring : Declaring before decl init typeDef low {})
    (body : BlockHolds before init low [])
    (between : typeDef.toNat < init.toNat ∧ init.toNat < decl.toNat)
    (enough : 5 * before.remaining.length + 8 ≤ fuel) :
    EnsuresWhile refsKept (ccParseFunctionDefinition fuel decl)
      (DefinesAs before decl init typeDef (readExternal before.data before.remaining))
      (StopsExternal (readExternal before.data before.remaining)) before := by
  unfold ccParseFunctionDefinition
  apply EnsuresWhile.get
  rw [declaring.varNode]
  have specifiers : EnsuresWhile refsKept (ccParseDeclarationSpecifiers fuel decl) (fun _ after =>
      Specified before after decl init typeDef low (({} : Declaration).specified before.remaining)
        (dropSpecifiers before.remaining))
      (StopsExternal (readExternal before.data before.remaining)) before :=
    (declarationSpecifiers_specify fuel declaring).during.mono (fun _ _ _ held => held.2)
      fun _ _ cut => Or.inl cut
  refine specifiers.bind fun _ middle step specified => ?_
  have shorter := remaining_length_le step
  have parsed := (declarators_build fuel).declarator (before.remaining.length + 1) middle decl init
    typeDef low _ (by omega) specified.declaring (specified_params before.remaining {})
  rw [specified.remaining] at parsed
  refine (parsed.mono (fun _ _ _ held => held) fun why after stops => ?_).bind
    fun accepted named step' declares => ?_
  · exact stops.imp_right fun aborted => by rw [readExternal, aborted]
  have widen : ∀ index, index < before.nNodes → Owns decl typeDef index →
      OwnsAll decl init typeDef index := fun _ _ owned => Or.inl owned
  cases accepted with
  | false =>
      obtain ⟨reply, rfl⟩ := declares
      refine .pure ⟨specified.writes.mono widen, Or.inl ⟨?_, specified.nNodes⟩⟩
      rw [readExternal, reply, specified.remaining]
  | true =>
      obtain ⟨declaration, reply, declared, written, none, some⟩ := declares
      have shorter' := remaining_length_le step'
      have data : named.data = before.data := step'.data.trans step.data
      have sofar := specified.writes.trans written
      have block : BlockHolds named init low [] := body.kept sofar fun index owned => by
        have free := declaring.apart owned
        refine ⟨free.1, free.2, ?_⟩
        rcases owned with rfl | rfl <;> omega
      have initOf : named.initOf decl = init := by rw [CcState.initOf, declared.varNode]
      apply EnsuresWhile.get
      have unfolded : readExternal before.data before.remaining =
          match parseBody before.data named.remaining with
          | .yes values left => .definition (declaration.tree (compoundTree values)) left
          | .no => if declaration.params.isEmpty then .other named.remaining else .abort
          | .abort => .abort := by
        rw [readExternal, reply]
      rw [initOf, unfolded]
      have compound := compoundStatement_states block
        (show 5 * named.remaining.length + 8 ≤ fuel by omega)
      rw [data] at compound
      refine compound.mono (fun accepted after _ states => ?_) fun why after stops => ?_
      · cases accepted with
        | true =>
            obtain ⟨⟨values, read, all, wrote⟩, fewer⟩ := states
            have apart : ∀ index, index = init.toNat →
                0 < index ∧ index < low ∧ ¬ Owns decl typeDef index := by
              rintro _ rfl
              have below := declaring.below
              refine ⟨by omega, by omega, ?_⟩
              rintro (same | same) <;> omega
            obtain ⟨full, denoted, stripped⟩ := all.denotes between.1.le
            have tree := (declared.kept wrote apart).denotes denoted
            refine ⟨⟨declaration.tree (compoundTree values), by rw [read], _, tree, ?_⟩, ?_, by omega⟩
            · simp only [Declaration.tree, compoundTree, Tree.strip, stripped, List.nil_append]
            · exact (sofar.mono widen).trans (wrote.mono fun _ _ same => Or.inr same)
        | false =>
            obtain ⟨read, rfl⟩ := states
            refine ⟨sofar.mono widen, ?_⟩
            rw [read]
            by_cases empty : declaration.params = []
            · exact Or.inl ⟨by simp [empty], (none empty).trans specified.nNodes⟩
            · exact Or.inr ⟨by simp [empty], specified.nNodes ▸ some empty⟩
      · exact stops.imp_right fun aborted => by rw [aborted]

def Externally (before : CcState) (reply : ExternalTree) (node : CcAstNodeRef) (after : CcState) :
    Prop :=
  Extends before after ∧
    (node ≠ ccAstNil ∧ (∃ tree, reply = .definition tree after.remaining ∧
        DenotesStripped after before.nNodes node tree) ∧
        after.remaining.length < before.remaining.length ∨
      node = ccAstNil ∧ reply = .other after.remaining)

theorem externalDeclaration_defines (nil : before.nodeAt 0 = .invalid) (some : 0 < before.nNodes)
    (enough : 5 * before.remaining.length + 8 ≤ fuel) :
    EnsuresWhile refsKept (ccParseExternalDeclaration fuel)
      (Externally before (readExternal before.data before.remaining))
      (StopsExternal (readExternal before.data before.remaining)) before := by
  unfold ccParseExternalDeclaration
  refine push_while fun _ => push_while fun _ => push_while fun fits => ?_
  have typeIndex : (refOf before.nNodes).toNat = before.nNodes :=
    toNat_pushed before _ (fits_of_push (fits_of_push fits))
  have initIndex : (refOf (before.nNodes + 1)).toNat = before.nNodes + 1 :=
    toNat_pushed (before.push _) _ (fits_of_push fits)
  have declIndex : (refOf (before.nNodes + 2)).toNat = before.nNodes + 2 :=
    toNat_pushed ((before.push _).push _) _ fits
  obtain ⟨declaring, body⟩ := declaration_pushed nil some fits
  have extended : Extends before before.withDeclaration :=
    ((Writes.push before _).trans (.push _ _)).trans (.push _ _)
  have new : ∀ index, OwnsAll (refOf (before.nNodes + 2)) (refOf (before.nNodes + 1))
      (refOf before.nNodes) index → before.nNodes ≤ index := by
    rintro index ((rfl | rfl) | rfl) <;> omega
  have defined := functionDefinition_defines declaring body ⟨by omega, by omega⟩ enough
  refine EnsuresWhile.bind defined fun accepted after _ defines => ?_
  cases accepted with
  | true =>
      obtain ⟨⟨tree, reply, denoted⟩, writes, shorter⟩ := defines
      refine .pure ⟨extended.thenNew writes new, Or.inl ⟨?_, ⟨tree, reply, ?_⟩, shorter⟩⟩
      · have valid : refOf (before.nNodes + 2) ≠ ccAstNil :=
          ref_ne_of_toNat (by rw [declIndex]; exact Nat.succ_ne_zero _)
        exact valid
      · rw [typeIndex] at denoted
        exact denoted
  | false =>
      obtain ⟨writes, ended⟩ := defines
      have kept := extended.thenNew writes new
      rcases ended with ⟨reply, count⟩ | ⟨reply, count⟩
      · have nNodes : after.nNodes = before.nNodes + 3 := count
        have popped : (do
            ccAstPopNode (refOf (before.nNodes + 2))
            ccAstPopNode (refOf (before.nNodes + 1))
            ccAstPopNode (refOf before.nNodes)
            pure ccAstNil : ParseM CcAstNodeRef).run after = .ok ccAstNil after.pop.pop.pop := by
          rw [run_bind_ok (popNode_run after _ (by omega)),
            run_bind_ok (popNode_run after.pop _ (by rw [pop_nNodes]; omega)),
            run_bind_ok (popNode_run after.pop.pop _ (by rw [pop_nNodes, pop_nNodes]; omega)),
            run_pure]
        have left : before.nNodes ≤ after.pop.pop.pop.nNodes := by
          simp only [pop_nNodes]
          omega
        exact (Ensures.of_ok popped ⟨⟨left, kept.others, kept.arrays⟩, Or.inr ⟨rfl, reply⟩⟩).during
      · have buried : (refOf (before.nNodes + 2)).toNat + 1 ≠ after.nNodes := by
          have more : before.nNodes + 3 < after.nNodes := count
          omega
        exact .of_halt (run_bind_halt (popNode_fails after _ buried)) (Or.inr reply)

end Externals

theorem unitLoop_reads {fuel bound low : Nat} {before : CcState} {block : CcAstNodeRef}
    {trees : List Tree} (nil : before.nodeAt 0 = .invalid)
    (holds : BlockHolds before block low trees) (short : before.remaining.length < bound)
    (enough : 5 * before.remaining.length + 9 ≤ fuel) :
    EnsuresWhile refsKept (ccParseUnitLoop fuel block) (fun _ after => ∃ more,
        readDefinitions before.data bound before.remaining = .yes more after.remaining ∧
          BlockHolds after block low (trees ++ more) ∧
          more.length + after.remaining.length ≤ before.remaining.length)
      (Stops (readDefinitions before.data bound before.remaining)) before := by
  induction fuel generalizing before trees bound with
  | zero => exact .halt (Or.inl rfl)
  | succ fuel ih =>
      obtain ⟨bound, rfl⟩ : ∃ smaller, bound = smaller + 1 := ⟨bound - 1, by omega⟩
      rw [ccParseUnitLoop, readDefinitions]
      have external := externalDeclaration_defines nil holds.positive
        (show 5 * before.remaining.length + 8 ≤ fuel by omega)
      refine (external.mono (fun _ _ _ held => held) fun why after stops => ?_).bind
        fun node middle step external => ?_
      · exact stops.imp_right fun aborted => by rw [aborted]
      obtain ⟨extended, external⟩ := external
      have still := holds.extended extended
      rcases external with ⟨valid, ⟨tree, reply, full, denoted, stripped⟩, fewer⟩ | ⟨none, reply⟩
      · rw [reply, if_pos valid]
        have drawn := holds.drawn
        have below := holds.below
        have new : before.nNodes ≤ node.toNat := by
          rcases denoted.inside with zero | within
          · exact absurd (BitVec.eq_of_toNat_eq zero) valid
          · exact within.1
        have other : block ≠ node := ref_ne_of_toNat (by omega)
        obtain ⟨childs, _, _, found, _⟩ := still.children
        have inner : full.Denotes middle (NilOrNew low middle) node :=
          Tree.Denotes.frame (.refl _ middle) (NilOrNew.mono drawn (Nat.le_refl _)) _ _ denoted
        refine .bind_run (pushChildrenToBlock_run middle block node childs found other) ?_
        have writes := Writes.appendChild middle childs node .block still.inside
        have zero : (middle.appendChild block childs node .block).nodeAt 0 = .invalid := by
          rw [writes.others 0 still.positive (Nat.ne_of_lt still.valid),
            extended.others 0 holds.positive not_false, nil]
        have rest := ih zero (still.append found inner stripped)
          (show (middle.appendChild block childs node .block).remaining.length < bound by
            rw [appendChild_remaining]
            omega) (by rw [appendChild_remaining]; omega)
        have data : (middle.appendChild block childs node .block).data = before.data := step.data
        rw [appendChild_remaining, data] at rest
        refine rest.mono (fun _ after _ later => ?_) fun why after stops => ?_
        · obtain ⟨more, read, all, few⟩ := later
          rw [List.append_assoc] at all
          refine ⟨tree :: more, by simp only [read], all, ?_⟩
          rw [List.length_cons]
          omega
        · exact stops.imp_right fun aborted => by simp only [aborted]
      · rw [reply, if_neg (not_not.mpr none)]
        refine .pure ⟨[], rfl, ?_, ?_⟩
        · rw [List.append_nil]
          exact still
        · exact (Nat.zero_add _).trans_le (remaining_length_le step)

theorem unit_reads (data : List UInt8) (toks : List CcToken) (fuel : Nat)
    (enough : 5 * toks.length + 9 ≤ fuel) :
    EnsuresWhile refsKept (ccParseUnit fuel) (fun block after => ∃ trees,
        readUnit data toks = .yes trees after.remaining ∧
          DenotesStripped after 1 block (.block trees) ∧ trees.length ≤ toks.length)
      (Stops (readUnit data toks)) (CcState.start data toks) := by
  unfold ccParseUnit
  refine push_while fun _ => push_while fun _ => ?_
  set state := ((CcState.start data toks).push .invalid).push (.block none)
  have remaining : state.remaining = toks := List.drop_zero
  have holds : BlockHolds state (refOf 1) 2 [] :=
    ⟨Nat.one_pos, Nat.one_lt_two, Nat.le_refl _, none, [], [], rfl, rfl, rfl, rfl⟩
  have looped := unitLoop_reads rfl holds
    (show state.remaining.length < toks.length + 1 by rw [remaining]; exact Nat.lt_succ_self _)
    (show 5 * state.remaining.length + 9 ≤ fuel by rw [remaining]; exact enough)
  rw [remaining] at looped
  refine looped.bind fun _ after _ read => .pure ?_
  obtain ⟨trees, reply, all, few⟩ := read
  exact ⟨trees, reply, all.denotes (Nat.le_refl _), (Nat.le_add_right _ _).trans few⟩

/-- The reference that the parser returned denotes the definitions read, up to single-child
blocks, and the tokens that the recogniser left are left; or the tokens spell no unit. -/
def EndsAs (reply : Reply (List Tree)) : Outcome Halt CcState CcAstNodeRef → Prop
  | .ok root final => ∃ trees, reply = .yes trees final.remaining ∧
      (Tree.block trees).strip.Denotes final (fun _ => True) root
  | .halt why _ => why ≠ .outOfFuel ∧ reply = .abort

theorem unit_ends {fuel : Nat} {block : CcAstNodeRef} {start parsed : CcState}
    {trees : List Tree} {full : Tree} {reply : Reply (List Tree)}
    (ran : (ccParseUnit fuel).run start = .ok block parsed)
    (read : reply = .yes trees parsed.remaining)
    (denoted : full.Denotes parsed (fun _ => True) block)
    (stripped : full.strip = (Tree.block trees).strip) (enough : full.size ≤ fuel) :
    EndsAs reply ((ccParseTranslationUnit fuel).run start) := by
  have meaning := coalesce_meaning fuel full block parsed denoted enough
  have kept : CoalesceStep parsed ((ccAstCoalesce fuel block).run parsed).state :=
    (ccAstCoalesce fuel block).keeps parsed
  rw [translationUnit_run ran]
  cases coalesced : (ccAstCoalesce fuel block).run parsed with
  | halt why final => exact (meaning.halted coalesced).elim
  | ok written final =>
      obtain ⟨_, found⟩ := meaning.ok coalesced
      rw [coalesced] at kept
      have same : final.remaining = parsed.remaining := by
        have tokens : final.tokens = parsed.tokens := kept.tokens
        have curTok : final.curTok = parsed.curTok := kept.curTok
        rw [CcState.remaining, CcState.remaining, tokens, curTok]
      exact ⟨trees, same ▸ read, stripped ▸ found⟩

theorem coalesceAt_outruns {first second : CcAstNodeRef → CoalesceM (Option CcAstNodeRef)}
    (each : ∀ ref, Outruns .outOfFuel (first ref) (second ref)) (slot : RefSlot) :
    Outruns .outOfFuel (ccAstCoalesceAt first slot) (ccAstCoalesceAt second slot) :=
  (Outruns.refl get).bind fun state => (each (state.readSlot slot)).bind fun _ => .refl _

theorem coalesceChilds_outruns {first second : CcAstNodeRef → CoalesceM (Option CcAstNodeRef)}
    (each : ∀ ref, Outruns .outOfFuel (first ref) (second ref)) (childs : ChildArray) :
    Outruns .outOfFuel (ccAstCoalesceChilds first childs) (ccAstCoalesceChilds second childs) := by
  cases childs with
  | none => exact .refl _
  | some array =>
      refine (Outruns.refl get).bind fun state => ?_
      exact .forM fun index => coalesceAt_outruns each (.child array index)

theorem coalesce_outruns (fuel : Nat) (ref : CcAstNodeRef) :
    Outruns .outOfFuel (ccAstCoalesce fuel ref) (ccAstCoalesce (fuel + 1) ref) := by
  induction fuel generalizing ref with
  | zero => exact .cut_off _
  | succ fuel ih =>
      rw [ccAstCoalesce, ccAstCoalesce]
      refine (Outruns.refl get).bind fun state => ?_
      have slot (field : RefField) := coalesceAt_outruns ih (.field ref field)
      cases state.node ref with
      | block childs => exact (coalesceChilds_outruns ih childs).bind fun _ => .refl _
      | newType _ childs _ =>
          exact (slot .returnType).bind fun _ => (coalesceChilds_outruns ih childs).bind fun _ => .refl _
      | newVar _ _ _ _ => exact (slot .typeDef).bind fun _ => (slot .init).bind fun _ => .refl _
      | ifExpr _ _ _ =>
          exact (slot .cond).bind fun _ => (slot .thenRef).bind fun _ =>
            (slot .elseRef).bind fun _ => .refl _
      | ret _ => exact (slot .retval).bind fun _ => .refl _
      | binop _ _ _ => exact (slot .lhs).bind fun _ => (slot .rhs).bind fun _ => .refl _
      | _ => exact .refl _

theorem translationUnit_ends (data : List UInt8) (toks : List CcToken)
    (fits : ∀ fuel, ((ccParseUnit fuel).run (CcState.start data toks)).state.refsFit) :
    ∃ bound outcome, EndsAs (readUnit data toks) outcome ∧
      ∀ fuel, bound ≤ fuel → (ccParseTranslationUnit fuel).run (CcState.start data toks) = outcome := by
  obtain ⟨settled, outcome, whole, runs⟩ := parseUnit_completes (CcState.start data toks)
  have ended := (unit_reads data toks _ (Nat.le_max_right settled _)).satisfied (fits _)
  rw [runs _ (Nat.le_max_left _ _)] at ended
  cases outcome with
  | halt why final =>
      have cut : why ≠ .outOfFuel := fun same => whole (congrArg some same)
      exact ⟨settled, .halt why final, ⟨cut, ended.resolve_left cut⟩,
        fun fuel more => translationUnit_halts (runs fuel more)⟩
  | ok block parsed =>
      obtain ⟨trees, read, ⟨full, near, stripped⟩, _⟩ := ended
      have denoted : full.Denotes parsed (fun _ => True) block :=
        Tree.Denotes.frame (.refl _ parsed) (fun _ _ => trivial) _ _ near
      have ran := runs _ (Nat.le_max_left settled full.size)
      refine ⟨max settled full.size, _, unit_ends ran read denoted stripped
        (Nat.le_max_right _ _), fun fuel more => ?_⟩
      have meaning := coalesce_meaning _ full block parsed denoted (Nat.le_max_right settled full.size)
      have returns : ((ccAstCoalesce (max settled full.size) block).run parsed).reason ≠
          some .outOfFuel := fun halts =>
        have ⟨_, stopped⟩ := Outcome.eq_halt_of_reason halts
        (meaning.halted stopped).elim
      rw [translationUnit_run (runs fuel ((Nat.le_max_left _ _).trans more)),
        translationUnit_run ran, Outruns.more (fun fuel => coalesce_outruns fuel block) returns more]

/-- On so few tokens the parser ends in one way, whatever the fuel from some amount on: it returns
exactly on the units that the recogniser reads, the tree of the definitions in the order of their
tokens. -/
theorem translationUnit_builds (data : List UInt8) {toks : List CcToken}
    (short : toks.length ≤ 3120) :
    ∃ bound outcome, EndsAs (readUnit data toks) outcome ∧
      ∀ fuel, bound ≤ fuel → (ccParseTranslationUnit fuel).run (CcState.start data toks) = outcome :=
  translationUnit_ends data toks fun fuel => unit_refsFit data fuel short

def fooTree : Tree :=
  .newVar ⟨4, 3⟩ (.block [.ret (.leaf (.refVar ⟨24, 1⟩))])
    (.newType (.newType (.leaf .invalid) [] 4)
      [.newVar ⟨12, 1⟩ (.leaf .invalid) (.newType (.leaf .invalid) [] 4) 0]
      ccAstTypeFlagsFunction) 0

theorem translationUnit_builds_foo :
    ∃ bound outcome, EndsAs (.yes [fooTree] []) outcome ∧ ∀ fuel, bound ≤ fuel →
      (ccParseTranslationUnit fuel).run (CcState.start fooData fooToks) = outcome := by
  have read : readUnit fooData fooToks = .yes [fooTree] [] := rfl
  exact read ▸ translationUnit_builds fooData (by decide)

end Estros
