import Estros.DeclarationSyntax
import Estros.ExpressionContracts

/-!
What the declaration functions of parser.c do in any state. They read what the recognisers
of `DeclarationSyntax` read, and keep the node stack in order unless a parameter position
holds no specifier.
-/

namespace Estros

open Machine

structure Took (before : CcState) (took : Bool) (after : CcState) : Prop where
  grown : Grown before after
  nNodes : after.nNodes = before.nNodes
  remaining : after.remaining = if took then before.remaining.tail else before.remaining

theorem Took.nothing (state : CcState) : Took state false state := ⟨.refl state, rfl, rfl⟩

theorem Took.write {state : CcState} {ref : CcAstNodeRef} (node : CcAstNode)
    (valid : state.node ref ≠ .invalid) : Took state true (state.advance.setNode ref node) :=
  ⟨(Grown.advance state).trans (.setNode node valid), rfl, by simp⟩

theorem storageClassSpecifier_ensures (state : CcState) (decl : CcAstNodeRef) :
    Ensures (ccParseStorageClassSpecifier decl) (fun took after =>
      took = (storageClassFlag (headType state.remaining)).isSome ∧ Took state took after)
      PopsInOrder state := by
  unfold ccParseStorageClassSpecifier
  apply peek_ensures
  intro tok kind
  apply Ensures.get
  rw [kind]
  cases found : state.node decl with
  | newVar name init typeDef flags =>
      cases storageClassFlag (headType state.remaining) with
      | some flag => exact .bind_run (next_run state) (.bind_run rfl (.pure ⟨rfl, .write _ (by simp [found])⟩))
      | none => exact .pure ⟨rfl, .nothing state⟩
  | _ => exact .halt (.of_ne (by simp))

theorem typeSpecifier_ensures (state : CcState) (typeDef : CcAstNodeRef) :
    Ensures (ccParseTypeSpecifier typeDef) (fun took after =>
      took = (typeSpecifierFlag (headType state.remaining)).isSome ∧ Took state took after)
      PopsInOrder state := by
  unfold ccParseTypeSpecifier
  apply peek_ensures
  intro tok kind
  apply Ensures.get
  rw [kind]
  cases found : state.node typeDef with
  | newType returnType childs flags =>
      cases typeSpecifierFlag (headType state.remaining) with
      | some flag => exact .bind_run (next_run state) (.bind_run rfl (.pure ⟨rfl, .write _ (by simp [found])⟩))
      | none => exact .pure ⟨rfl, .nothing state⟩
  | _ => exact .halt (.of_ne (by simp))

theorem oneSpecifier_ensures (state : CcState) (decl typeDef : CcAstNodeRef) :
    Ensures (ccParseOneSpecifier decl typeDef) (fun took after =>
      took = startsSpecifier state.remaining ∧ Took state took after) PopsInOrder state := by
  unfold ccParseOneSpecifier
  refine (storageClassSpecifier_ensures state decl).bind ?_
  rintro took middle _ ⟨isStorage, moved⟩
  cases took with
  | true =>
      refine .pure ⟨?_, moved⟩
      rw [startsSpecifier, isSpecifier, ← isStorage, Bool.true_or]
  | false =>
      have same : middle.remaining = state.remaining := moved.remaining
      refine (typeSpecifier_ensures middle typeDef).bind ?_
      rintro took after _ ⟨isType, later⟩
      rw [same] at isType
      have whole : Took state took after :=
        ⟨moved.grown.trans later.grown, later.nNodes.trans moved.nNodes, by rw [later.remaining, same]⟩
      -- The first test failed, so the second one decides.
      have decided : took = startsSpecifier state.remaining := by
        rw [startsSpecifier, isSpecifier, ← isStorage, Bool.false_or, isType]
      cases took with
      | true => exact .pure ⟨decided, whole⟩
      | false => exact .pure ⟨decided, whole⟩

theorem dropSpecifiers_step (toks : List CcToken) :
    dropSpecifiers toks = if startsSpecifier toks then dropSpecifiers toks.tail else toks := by
  cases toks with
  | nil => rfl
  | cons tok rest =>
      by_cases kind : isSpecifier tok.type = true
      · simp [dropSpecifiers, startsSpecifier, headType, kind]
      · simp [dropSpecifiers, startsSpecifier, headType, kind]

theorem declarationSpecifiers_ensures (fuel : Nat) (state : CcState) (decl : CcAstNodeRef) :
    Ensures (ccParseDeclarationSpecifiers fuel decl) (fun took after =>
      took = startsSpecifier state.remaining ∧ Grown state after ∧ after.nNodes = state.nNodes ∧
        after.remaining = dropSpecifiers state.remaining) PopsInOrder state := by
  induction fuel generalizing state with
  | zero => exact .halt (.of_ne (by simp))
  | succ fuel ih =>
      rw [ccParseDeclarationSpecifiers]
      apply Ensures.get
      cases state.node decl with
      | newVar _ _ typeDef _ =>
          refine (oneSpecifier_ensures state decl typeDef).bind ?_
          rintro took middle _ ⟨decided, moved⟩
          have remaining := moved.remaining
          cases took with
          | true =>
              refine (ih middle).bind fun _ after _ rest => .pure ?_
              obtain ⟨_, grown, nNodes, left⟩ := rest
              refine ⟨decided, moved.grown.trans grown, nNodes.trans moved.nNodes, ?_⟩
              rw [left, remaining, dropSpecifiers_step state.remaining, ← decided]
              rfl
          | false =>
              refine .pure ⟨decided, moved.grown, moved.nNodes, ?_⟩
              rw [remaining, dropSpecifiers_step state.remaining, ← decided]
              rfl
      | _ => exact .halt (.of_ne (by simp))

/-- The assertion of `cc_ast_pop_node` fails only after a misuse of the node stack, or on a
truncated reference. -/
def PopsUnless (misuse : Prop) (why : Halt) (after : CcState) : Prop :=
  why = .assertion .ccAstPopNode → misuse ∨ ¬ after.refsFit

theorem PopsInOrder.orUnless {misuse : Prop} {why : Halt} {after : CcState}
    (ordered : PopsInOrder why after) : PopsUnless misuse why after :=
  fun popped => Or.inr (ordered popped)

theorem PopsUnless.imp {misuse other : Prop} {why : Halt} {after : CcState}
    (stops : PopsUnless misuse why after) (follows : misuse → other) : PopsUnless other why after :=
  fun popped => (stops popped).imp_left follows

theorem PopsUnless.of_ne {misuse : Prop} {why : Halt} {after : CcState}
    (other : why ≠ .assertion .ccAstPopNode) : PopsUnless misuse why after :=
  (PopsInOrder.of_ne other).orUnless

theorem Ensures.orUnless {α : Type} {parse : ParseM α} {post : α → CcState → Prop} {misuse : Prop}
    {state : CcState} (ensured : Ensures parse post PopsInOrder state) :
    Ensures parse post (PopsUnless misuse) state :=
  ensured.mono (fun _ _ _ held => held) fun _ _ ordered => ordered.orUnless

theorem Ensures.misuse_imp {α : Type} {parse : ParseM α} {post : α → CcState → Prop}
    {misuse other : Prop} {state : CcState} (ensured : Ensures parse post (PopsUnless misuse) state)
    (follows : misuse → other) : Ensures parse post (PopsUnless other) state :=
  ensured.mono (fun _ _ _ held => held) fun _ _ stops => stops.imp follows

theorem popNode_misplaced {state : CcState} (index : Nat) {misuse : Prop}
    (buried : index + 1 < state.nNodes) (misused : misuse) :
    Ensures (ccAstPopNode (refOf index)) (fun _ _ => False) (PopsUnless misuse) state := by
  have below : (refOf index).toNat ≤ index := by
    simp only [refOf, BitVec.toNat_ofNat]
    exact Nat.mod_le _ _
  exact .of_halt (popNode_fails state _ (by omega)) fun _ => Or.inl misused

/-- Only a parameter list leaves nodes on the stack: at least the copied type. -/
def LeftNodes (before after : CcState) : Bool → Prop
  | true => before.nNodes < after.nNodes
  | false => after.nNodes = before.nNodes

def Declares (before : CcState) (reply : DeclaratorReply) : Bool → CcState → Prop
  | true, after => Grown before after ∧
      ∃ parameters, reply = .yes parameters after.remaining ∧ LeftNodes before after parameters
  | false, after => reply = .no ∧ Steady before after

theorem dropSpecifiers_length_le (toks : List CcToken) :
    (dropSpecifiers toks).length ≤ toks.length :=
  (List.dropWhile_sublist _).length_le

def DeclaratorTracks (parse : CcAstNodeRef → ParseM Bool) : Prop :=
  ∀ bound before decl, before.remaining.length < bound →
    Ensures (parse decl) (Declares before (parseDeclarator bound before.remaining))
      (PopsUnless (parseDeclarator bound before.remaining = .bareParameter)) before

def Declared (before : CcState) (reply : DeclaratorReply) (accepted : Bool) (after : CcState) : Prop :=
  accepted = true ∧ Grown before after ∧ ∃ parameters, reply = .yes parameters after.remaining

def ParameterTracks (parse : CcAstNodeRef → ParseM Bool) : Prop :=
  ∀ bound before decl, before.remaining.length < bound →
    Ensures (parse decl) (Declared before (parseParameter (parseDeclarator bound) before.remaining))
      (PopsUnless (parseParameter (parseDeclarator bound) before.remaining = .bareParameter)) before

def Listed (before : CcState) (reply : DeclaratorReply) (accepted : Bool) (after : CcState) : Prop :=
  accepted = false ∧ Grown before after ∧ reply = .yes true after.remaining

def ParametersTrack (parse : CcAstNodeRef → ParseM Bool) : Prop :=
  ∀ bound fuel before decl, before.remaining.length < bound → before.remaining.length < fuel →
    Ensures (parse decl) (Listed before (parseParameters (parseDeclarator bound) fuel before.remaining))
      (PopsUnless (parseParameters (parseDeclarator bound) fuel before.remaining = .bareParameter)) before

theorem pushChildrenToType_ensures (state : CcState) (n c : CcAstNodeRef) :
    Ensures (ccAstPushChildrenToType n c) (fun _ after => Steady state after) PopsInOrder state := by
  unfold ccAstPushChildrenToType
  apply Ensures.get
  cases found : state.node n with
  | newType returnType childs flags =>
      apply Ensures.check
      · exact fun _ => .modify ⟨.appendChild childs c _ (by simp [found]), rfl, rfl⟩
      · exact fun _ => .of_ne (by simp)
  | _ => exact .halt (.of_ne (by simp))

theorem parameterDeclaration_tracks {fuel : Nat} (declarator : DeclaratorTracks (ccParseDeclarator fuel)) :
    ParameterTracks (ccParseParameterDeclaration (fuel + 1)) := by
  intro bound before decl short
  rw [ccParseParameterDeclaration]
  refine .bind_run (pushNode_run before _) (.bind_run (pushNode_run _ _) ?_)
  refine (declarationSpecifiers_ensures fuel _ _).orUnless.bind ?_
  rintro took middle _ ⟨decided, grown, nNodes, remaining⟩
  simp only [push_remaining, push_nNodes] at decided nNodes remaining
  replace grown := ((Grown.push before _).trans (.push _ _)).trans grown
  rw [parseParameter, ← decided]
  cases took with
  | false =>
      -- The type node goes first, although the variable node lies above it.
      exact (popNode_misplaced before.nNodes (by omega) rfl).bind fun _ _ _ never => never.elim
  | true =>
      apply Ensures.get
      cases middle.node decl with
      | newVar _ _ _ _ =>
          have fewer : middle.remaining.length < bound := by
            rw [remaining]
            exact Nat.lt_of_le_of_lt (dropSpecifiers_length_le _) short
          have inner := declarator bound middle (refOf (before.nNodes + 1)) fewer
          rw [remaining] at inner
          -- A bare parameter position further inside is one of this parameter too.
          refine (inner.misuse_imp fun bare => ?_).bind fun accepted last _ declares => ?_
          · rw [bare]
            rfl
          cases accepted with
          | false => exact .halt (.of_ne (by simp))
          | true =>
              obtain ⟨more, parameters, reply, _⟩ := declares
              apply Ensures.get
              refine (pushChildrenToType_ensures last _ _).orUnless.bind fun _ after _ steady => .pure ?_
              refine ⟨rfl, (grown.trans more).trans steady.grown, parameters, ?_⟩
              simp only [reply, parseRequired, if_true, steady.remaining]
      | _ => exact .halt (.of_ne (by simp))

theorem parameterList_tracks {fuel : Nat} (one : ParameterTracks (ccParseParameterDeclaration fuel))
    (rest : ParametersTrack (ccParseParameterList fuel)) :
    ParametersTrack (ccParseParameterList (fuel + 1)) := by
  intro bound limit before decl short enough
  obtain ⟨limit, rfl⟩ : ∃ smaller, limit = smaller + 1 := ⟨limit - 1, by omega⟩
  rw [ccParseParameterList, parseParameters]
  refine ((one bound before decl short).misuse_imp fun bare => ?_).bind
    fun accepted middle step declared => ?_
  · rw [bare]
  obtain ⟨rfl, grown, parameters, reply⟩ := declared
  have fewer := remaining_length_le step
  simp only [reply]
  apply peekIs_ensures
  · intro _ isComma
    -- The comma makes the rest of the list shorter than the bound.
    have left := tail_length_lt (by decide) isComma (Nat.lt_of_le_of_lt fewer enough)
    refine .bind_run (next_run middle) ?_
    rw [if_pos isComma]
    have tail : middle.advance.remaining = middle.remaining.tail := advance_remaining middle
    have later := rest bound limit middle.advance decl (by rw [tail, List.length_tail]; omega)
      (by rw [tail]; exact left)
    rw [tail] at later
    refine later.post_mono fun _ after _ listed => ?_
    exact ⟨listed.1, (grown.trans (.advance _)).trans listed.2.1, listed.2.2⟩
  · intro _ _ noComma
    rw [if_neg noComma]
    exact .pure ⟨rfl, grown, rfl⟩

theorem parameterTypeList_tracks {fuel : Nat} (list : ParametersTrack (ccParseParameterList fuel)) :
    ParametersTrack (ccParseParameterTypeList (fuel + 1)) := by
  intro bound limit before decl short enough
  rw [ccParseParameterTypeList]
  refine (list bound limit before decl short enough).bind ?_
  rintro accepted after _ ⟨rfl, read⟩
  exact .pure ⟨rfl, read⟩

theorem setVarName_ensures (state : CcState) (decl : CcAstNodeRef) (name : CcStrview) :
    Ensures (ccSetVarName decl name) (fun _ after => Steady state after) PopsInOrder state := by
  unfold ccSetVarName
  apply Ensures.get
  cases found : state.node decl with
  | newVar _ _ _ _ => exact .modify ⟨.setNode _ (by simp [found]), rfl, rfl⟩
  | _ => exact .pure (.refl state)

theorem makeFunctionType_ensures (state : CcState) (decl : CcAstNodeRef) :
    Ensures (ccMakeFunctionType decl) (fun _ after => Grown state after ∧
      after.remaining = state.remaining ∧ after.nNodes = state.nNodes + 1) PopsInOrder state := by
  unfold ccMakeFunctionType ccAstCopyNode
  apply Ensures.get
  have copied : Ensures (ccAstCopyNode (state.typeDefOf decl))
      (fun _ after => after = state.push (state.node (state.typeDefOf decl))) PopsInOrder state := by
    apply Ensures.get
    apply Ensures.check
    · exact fun _ => .of_ok (pushNode_run state _) rfl
    · exact fun _ => .of_ne (by simp)
  refine copied.bind fun copyType middle _ same => ?_
  subst same
  apply Ensures.get
  cases found : (state.push (state.node (state.typeDefOf decl))).node (state.typeDefOf decl) with
  | newType _ _ _ =>
      exact .modify ⟨(Grown.push state _).trans (.setNode _ (by simp [found])), rfl, rfl⟩
  | _ => exact .halt (.of_ne (by simp))

theorem closing_ensures {before state : CcState} {reply : DeclaratorReply} {parameters : Bool}
    {misuse : Prop} (grown : Grown before state) (read : reply = .yes parameters state.remaining)
    (left : LeftNodes before state parameters) :
    Ensures (do
      let close ← ccPeekToken 0
      if close.type = .rparen then
        ccNextToken
        pure true
      else
        halt .abort) (Declares before (parseClosing reply)) (PopsUnless misuse) state := by
  rw [read]
  apply peekIs_ensures
  · intro _ closes
    refine .bind_run (next_run state) (.pure ⟨grown.trans (.advance _), parameters, ?_, left⟩)
    rw [parseClosing, if_pos closes, advance_remaining]
  · exact fun _ _ _ => .halt (.of_ne (by simp))

theorem directDeclarator_tracks {fuel : Nat} (list : ParametersTrack (ccParseParameterTypeList fuel))
    (nested : DeclaratorTracks (ccParseDeclarator fuel)) :
    DeclaratorTracks (ccParseDirectDeclarator (fuel + 1)) := by
  intro bound before decl short
  obtain ⟨bound, rfl⟩ : ∃ smaller, bound = smaller + 1 := ⟨bound - 1, by omega⟩
  rw [ccParseDirectDeclarator, parseDeclarator]
  apply peek_ensures
  intro tok kind
  apply Ensures.get
  rw [kind]
  cases before.node decl with
  | newVar _ _ _ _ =>
      apply Ensures.ite
      · intro isIdent
        have inside := tail_length_lt (by decide) isIdent short
        rw [if_pos isIdent]
        refine .bind_run (next_run before) ?_
        refine (setVarName_ensures before.advance decl tok.data).orUnless.bind fun _ named _ steady => ?_
        have remaining : named.remaining = before.remaining.tail := by
          rw [steady.remaining, advance_remaining]
        have grown : Grown before named := (Grown.advance before).trans steady.grown
        apply peekIs_ensures
        · intro _ opens
          rw [remaining] at opens
          rw [if_pos opens]
          refine (makeFunctionType_ensures named decl).orUnless.bind ?_
          rintro _ typed _ ⟨more, same, nNodes⟩
          refine .bind_run (next_run typed) ?_
          have tail : typed.advance.remaining = before.remaining.tail.tail := by
            rw [advance_remaining, same, remaining]
          have fewer : typed.advance.remaining.length < bound := by
            rw [tail]
            exact Nat.lt_of_le_of_lt (by simp) inside
          -- The name and the parenthesis were read, so the list has a smaller bound.
          have parsed := list bound bound typed.advance decl fewer fewer
          rw [tail] at parsed
          refine (parsed.misuse_imp fun bare => ?_).bind fun accepted last _ listed => ?_
          · rw [bare]
            rfl
          obtain ⟨_, further, reply⟩ := listed
          refine closing_ensures ((grown.trans more).trans ((Grown.advance _).trans further)) reply ?_
          have kept := further.nNodes
          have same : named.nNodes = before.nNodes := steady.nNodes
          -- The copied type stays, whatever the parameters left above it.
          simp only [advance_nNodes] at kept
          simp only [LeftNodes]
          omega
        · intro _ _ plain
          rw [remaining] at plain
          rw [if_neg plain]
          exact .pure ⟨grown, false, by rw [remaining], steady.nNodes⟩
      · intro notIdent
        rw [if_neg notIdent]
        apply Ensures.ite
        · intro opens
          have inside := tail_length_lt (by decide) opens short
          rw [if_pos opens]
          refine .bind_run (next_run before) ?_
          have tail : before.advance.remaining = before.remaining.tail := advance_remaining before
          have parsed := nested bound before.advance decl (by rw [tail]; exact inside)
          rw [tail] at parsed
          refine (parsed.misuse_imp fun bare => ?_).bind fun accepted last _ declares => ?_
          · rw [bare]
            rfl
          cases accepted with
          | false => exact .halt (.of_ne (by simp))
          | true =>
              obtain ⟨more, parameters, reply, left⟩ := declares
              refine closing_ensures ((Grown.advance before).trans more) ?_ left
              rw [reply]
              rfl
        · intro other
          rw [if_neg other]
          exact .pure ⟨rfl, .refl before⟩
  | _ => exact .halt (.of_ne (by simp))

structure DeclaratorsTrack (fuel : Nat) : Prop where
  parameter : ParameterTracks (ccParseParameterDeclaration fuel)
  parameterList : ParametersTrack (ccParseParameterList fuel)
  parameterTypeList : ParametersTrack (ccParseParameterTypeList fuel)
  direct : DeclaratorTracks (ccParseDirectDeclarator fuel)
  declarator : DeclaratorTracks (ccParseDeclarator fuel)

theorem declarators_track (fuel : Nat) : DeclaratorsTrack fuel := by
  have outOfFuel {before : CcState} {post : Bool → CcState → Prop} {misuse : Prop} :
      Ensures (halt .outOfFuel : ParseM Bool) post (PopsUnless misuse) before :=
    .halt (.of_ne (by simp))
  induction fuel with
  | zero =>
      constructor
      · intro bound before decl _
        rw [ccParseParameterDeclaration]
        exact outOfFuel
      · intro bound limit before decl _ _
        rw [ccParseParameterList]
        exact outOfFuel
      · intro bound limit before decl _ _
        rw [ccParseParameterTypeList]
        exact outOfFuel
      · intro bound before decl _
        rw [ccParseDirectDeclarator]
        exact outOfFuel
      · intro bound before decl _
        rw [ccParseDeclarator]
        exact outOfFuel
  | succ fuel ih =>
      constructor
      · exact parameterDeclaration_tracks ih.declarator
      · exact parameterList_tracks ih.parameter ih.parameterList
      · exact parameterTypeList_tracks ih.parameterList
      · exact directDeclarator_tracks ih.parameterTypeList ih.declarator
      · intro bound before decl short
        rw [ccParseDeclarator]
        exact ih.direct bound before decl short

end Estros
