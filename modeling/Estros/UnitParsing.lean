import Estros.DeclarationContracts

/-!
Statements, function bodies and the top level of a translation unit: how far the parser
reads, and in what order it pops nodes.
-/

namespace Estros

open Machine

structure Advances {α : Type} (before : CcState) (reply : Reply α) (accepted : Bool)
    (after : CcState) : Prop where
  follows : Follows before reply accepted after
  shorter : accepted = true → after.remaining.length < before.remaining.length

theorem shorter_after_advance {state after : CcState} {type : CcTokenType}
    (valid : type ≠ .invalid) (head : headType state.remaining = type)
    (step : ParseStep state.advance after) : after.remaining.length < state.remaining.length := by
  have fewer := remaining_length_le step
  obtain ⟨tok, rest, remaining, _⟩ := headType_split valid head
  rw [advance_remaining, remaining, List.tail_cons] at fewer
  rw [remaining, List.length_cons]
  omega

theorem jumpStatment_ensures (fuel : Nat) (before : CcState) (expr : CcAstNodeRef) :
    Ensures (ccParseJumpStatment fuel expr)
      (Advances before (parseStatement before.data before.remaining)) PopsInOrder before := by
  unfold ccParseJumpStatment
  apply peekIs_ensures
  · intro _ isReturn
    refine .bind_run (pushNode_run before _) (.bind_run (pushNode_run _ _) (.bind_run (next_run _) ?_))
    have grown := (Grown.push before (.block none)).trans
      (.push _ (.ret (refOf before.nNodes)))
    set state := (before.push (.block none)).push (.ret (refOf before.nNodes))
    have same : state.advance.remaining = before.remaining.tail := advance_remaining state
    have sameData : state.advance.data = before.data := rfl
    -- That a token was read follows from the step over `return`, whatever comes next.
    refine Ensures.post_mono ?_ fun accepted after step
      (follows : Follows before (parseStatement before.data before.remaining) accepted after) =>
        ⟨follows, fun _ => ?_⟩
    swap
    · have shorter : after.remaining.length < state.remaining.length :=
        shorter_after_advance (by decide) isReturn step
      exact shorter
    rw [parseStatement, if_pos isReturn]
    apply peekIs_ensures
    · intro _ isSemi
      rw [same] at isSemi
      refine .bind_run (next_run _) ((pushChildrenToBlock_ensures _ expr _).bind fun _ last _ steady =>
        .pure ⟨?_, none, ?_⟩)
      · exact ((grown.trans (.advance _)).trans (.advance _)).trans steady.grown
      · rw [if_pos isSemi, steady.remaining, advance_remaining, same]
    · intro _ _ noSemi
      rw [same] at noSemi
      rw [if_neg noSemi]
      refine (parseExpression_tracks fuel false _ _).bind fun accepted middle _ follows => ?_
      rw [same, sameData] at follows
      cases accepted with
      | false => exact .halt (.of_ne (by simp))
      | true =>
          obtain ⟨more, tree, reply⟩ := follows
          rw [reply]
          apply peekIs_ensures
          · intro _ isSemi
            refine .bind_run (next_run _) ((pushChildrenToBlock_ensures _ expr _).bind
              fun _ last _ steady => .pure ⟨?_, some tree, ?_⟩)
            · exact (((grown.trans (.advance _)).trans more).trans (.advance _)).trans steady.grown
            · simp only [isSemi, if_true, steady.remaining, advance_remaining]
          · exact fun _ _ _ => .halt (.of_ne (by simp))
  · intro _ _ other
    refine .pure ⟨⟨?_, .refl before⟩, fun impossible => by cases impossible⟩
    rw [parseStatement, if_neg other]

theorem statmentLoop_ensures {fuel bound : Nat} {state : CcState} (inner : CcAstNodeRef)
    (short : state.remaining.length < bound) :
    Ensures (ccParseStatmentLoop fuel inner) (fun _ after => Grown state after ∧
      ∃ values, parseStatements state.data bound state.remaining = .yes values after.remaining)
      PopsInOrder state := by
  induction fuel generalizing state bound with
  | zero => exact .halt (.of_ne (by simp))
  | succ fuel ih =>
      obtain ⟨bound, rfl⟩ : ∃ smaller, bound = smaller + 1 := ⟨bound - 1, by omega⟩
      rw [ccParseStatmentLoop]
      refine (jumpStatment_ensures fuel state inner).bind fun accepted middle step advances => ?_
      simp only [parseStatements]
      cases accepted with
      | true =>
          obtain ⟨grown, value, reply⟩ := advances.follows
          have fewer := advances.shorter rfl
          have data : middle.data = state.data := step.data
          refine (ih (show middle.remaining.length < bound by omega)).post_mono ?_
          rintro _ after _ ⟨more, values, rest⟩
          rw [data] at rest
          refine ⟨grown.trans more, value :: values, ?_⟩
          rw [reply]
          simp only [rest]
      | false =>
          obtain ⟨reply, steady⟩ := advances.follows
          exact .pure ⟨steady.grown, [], by rw [reply, steady.remaining]⟩

theorem statmentList_ensures {fuel bound : Nat} {before : CcState} (expr : CcAstNodeRef)
    (short : before.remaining.length < bound) :
    Ensures (ccParseStatmentList fuel expr)
      (Follows before (parseStatementList before.data bound before.remaining)) PopsInOrder before := by
  unfold ccParseStatmentList
  refine (pushBlockCoalesce_ensures before expr).bind fun inner middle _ coalesced => ?_
  obtain ⟨remaining, data, grown⟩ := coalesced.steady
  refine (jumpStatment_ensures fuel middle inner.ref).bind fun accepted last step advances => ?_
  have follows := advances.follows
  have fewer := advances.shorter
  have sameData : last.data = before.data := step.data.trans data
  rw [remaining, data] at follows
  rw [remaining] at fewer
  cases accepted with
  | true =>
      obtain ⟨more, value, reply⟩ := follows
      refine (statmentLoop_ensures inner.ref (Nat.lt_trans (fewer rfl) short)).bind
        fun _ after _ read => .pure ?_
      obtain ⟨further, values, rest⟩ := read
      rw [sameData] at rest
      refine ⟨(grown.trans more).trans further, value :: values, ?_⟩
      simp only [parseStatementList, reply, rest]
  | false =>
      refine (coalesced.pop_ensures follows.2).bind fun _ after _ steady => .pure ⟨?_, steady⟩
      simp only [parseStatementList, follows.1]

theorem compoundStatement_ensures (fuel : Nat) (before : CcState) (expr : CcAstNodeRef) :
    Ensures (ccParseCompoundStatement fuel expr)
      (Advances before (parseBody before.data before.remaining)) PopsInOrder before := by
  unfold ccParseCompoundStatement
  apply peekIs_ensures
  · intro _ opens
    refine .bind_run (next_run before) ?_
    have same := advance_remaining before
    refine Ensures.post_mono ?_ fun accepted after step
      (follows : Follows before (parseBody before.data before.remaining) accepted after) =>
        ⟨follows, fun _ => shorter_after_advance (by decide) opens step⟩
    rw [parseBody, if_pos opens]
    apply peekIs_ensures
    · intro _ closes
      rw [same] at closes
      refine .bind_run (next_run _) (.pure ⟨(Grown.advance _).trans (.advance _), [], ?_⟩)
      rw [if_pos closes, advance_remaining, same]
    · intro _ _ nonempty
      rw [same] at nonempty
      rw [if_neg nonempty]
      have short : before.advance.remaining.length < before.remaining.length + 1 := by
        rw [same, List.length_tail]
        omega
      refine (statmentList_ensures expr short).bind fun accepted middle _ follows => ?_
      rw [same] at follows
      cases accepted with
      | false => exact .halt (.of_ne (by simp))
      | true =>
          obtain ⟨grown, values, reply⟩ := follows
          have read : parseStatementList before.data (before.remaining.length + 1)
              before.remaining.tail = .yes values middle.remaining := reply
          rw [read]
          apply peekIs_ensures
          · intro _ closes
            refine .bind_run (next_run _) (.pure ⟨((Grown.advance _).trans grown).trans (.advance _),
              values, ?_⟩)
            simp only [closes, if_true, advance_remaining]
          · exact fun _ _ _ => .halt (.of_ne (by simp))
  · intro _ _ other
    refine .pure ⟨⟨?_, .refl before⟩, fun impossible => by cases impossible⟩
    rw [parseBody, if_neg other]

/-- After the specifiers and the declarator a body makes a function definition. A declarator
without a body is left where it is, its parameter list on the node stack. -/
def Defines (before : CcState) (reply : ExternalReply) : Bool → CcState → Prop
  | true, after => Grown before after ∧ reply = .definition after.remaining ∧
      after.remaining.length < before.remaining.length
  | false, after => Grown before after ∧
      (reply = .other after.remaining ∧ after.nNodes = before.nNodes ∨
        reply = .bodiless ∧ before.nNodes < after.nNodes)

theorem functionDefinition_ensures (fuel : Nat) (before : CcState) (decl : CcAstNodeRef) :
    Ensures (ccParseFunctionDefinition fuel decl)
      (Defines before (parseExternal before.data before.remaining))
      (PopsUnless (parseExternal before.data before.remaining).Misuses) before := by
  unfold ccParseFunctionDefinition
  apply Ensures.get
  cases before.node decl with
  | newVar _ _ _ _ =>
      refine (declarationSpecifiers_ensures fuel before decl).orUnless.bind ?_
      rintro _ middle step ⟨_, grown, nNodes, remaining⟩
      have fewer := remaining_length_le step
      have short : middle.remaining.length < before.remaining.length + 1 := by omega
      have parsed := (declarators_track fuel).declarator _ middle decl short
      rw [remaining] at parsed
      rw [parseExternal]
      refine (parsed.misuse_imp fun bare => ?_).bind fun accepted named step' declares => ?_
      · rw [bare]
        exact Or.inl rfl
      have fewer' := remaining_length_le step'
      have data : named.data = before.data := step'.data.trans step.data
      cases accepted with
      | false =>
          obtain ⟨reply, steady⟩ := declares
          refine .pure ⟨grown.trans steady.grown, Or.inl ⟨?_, steady.nNodes.trans nNodes⟩⟩
          rw [reply, parseDefinition, steady.remaining, remaining]
      | true =>
          obtain ⟨more, parameters, reply, left⟩ := declares
          rw [reply]
          apply Ensures.get
          -- The body hangs below `init`; the contract holds for any node there.
          refine (compoundStatement_ensures fuel named _).orUnless.post_mono
            fun accepted after _ advances => ?_
          have follows := advances.follows
          rw [data] at follows
          cases accepted with
          | true =>
              obtain ⟨further, values, body⟩ := follows
              have shorter := advances.shorter rfl
              refine ⟨(grown.trans more).trans further, ?_, by omega⟩
              simp only [parseDefinition, body]
          | false =>
              obtain ⟨body, steady⟩ := follows
              refine ⟨(grown.trans more).trans steady.grown, ?_⟩
              simp only [parseDefinition, body]
              cases parameters with
              -- A parameter list has left nodes, so the pops of the caller will fail.
              | true =>
                  have pushed : middle.nNodes < named.nNodes := left
                  exact Or.inr ⟨rfl, by rw [steady.nNodes]; omega⟩
              | false =>
                  have kept : named.nNodes = middle.nNodes := left
                  refine Or.inl ⟨?_, by rw [steady.nNodes, kept, nNodes]⟩
                  rw [steady.remaining]
                  rfl
  | _ => exact .halt (.of_ne (by simp))

structure NilReserved (state : CcState) : Prop where
  pushed : 0 < state.nNodes
  invalid : state.nodeAt 0 = .invalid

theorem NilReserved.grown {before after : CcState} (reserved : NilReserved before)
    (grown : Grown before after) : NilReserved after :=
  ⟨Nat.lt_of_lt_of_le reserved.pushed grown.nNodes, grown.nil reserved.pushed reserved.invalid⟩

def External (before : CcState) (reply : ExternalReply) (node : CcAstNodeRef) (after : CcState) : Prop :=
  Grown before after ∧
    (node ≠ ccAstNil ∧ reply = .definition after.remaining ∧
        after.remaining.length < before.remaining.length ∨
      node = ccAstNil ∧ reply = .other after.remaining)

theorem externalDeclaration_ensures {fuel : Nat} {before : CcState} (reserved : NilReserved before) :
    Ensures (ccParseExternalDeclaration fuel)
      (External before (parseExternal before.data before.remaining))
      (PopsUnless (parseExternal before.data before.remaining).Misuses) before := by
  unfold ccParseExternalDeclaration
  refine .bind_run (pushNode_run before _) (.bind_run (pushNode_run _ _)
    (.bind_run (pushNode_run _ _) ?_))
  set typed := before.push (.newType 0 none 0)
  set opened := typed.push (.block none)
  set declared := opened.push (.newVar ⟨0, 0⟩ (refOf typed.nNodes) (refOf before.nNodes) 0)
  have grown : Grown before declared :=
    ((Grown.push before _).trans (.push typed _)).trans (.push opened _)
  by_cases nil : refOf opened.nNodes = ccAstNil
  · -- A truncated reference to the nil node fails the assertion at once.
    have invalid : declared.node (refOf opened.nNodes) = .invalid := by
      rw [nil]
      exact (reserved.grown grown).invalid
    have stuck : (ccParseFunctionDefinition fuel (refOf opened.nNodes)).run declared =
        .halt (.assertion .ccParseFunctionDefinition) declared := by
      rw [ccParseFunctionDefinition, run_bind_ok (run_get _), invalid]
      rfl
    exact .of_halt (run_bind_halt stuck) (.of_ne (by simp))
  refine (functionDefinition_ensures fuel declared _).bind fun accepted middle _ defines => ?_
  cases accepted with
  | true =>
      obtain ⟨more, reply, shorter⟩ := defines
      exact .pure ⟨grown.trans more, Or.inl ⟨nil, reply, shorter⟩⟩
  | false =>
      obtain ⟨more, ended⟩ := defines
      rcases ended with ⟨reply, nNodes⟩ | ⟨reply, buried⟩
      -- Nothing was left on the stack: three pops in the order opposite to the pushes.
      · refine (popNode_ensures opened.nNodes nNodes).orUnless.bind fun _ first _ popped => ?_
        subst popped
        have firstGrown : Grown opened middle.pop := more.popped nNodes
        have firstNodes : middle.pop.nNodes = typed.nNodes + 1 := by rw [pop_nNodes, nNodes]; rfl
        refine (popNode_ensures typed.nNodes firstNodes).orUnless.bind fun _ second _ popped => ?_
        subst popped
        have secondGrown : Grown typed middle.pop.pop := firstGrown.popped firstNodes
        have secondNodes : middle.pop.pop.nNodes = before.nNodes + 1 := by
          rw [pop_nNodes, firstNodes]; rfl
        refine (popNode_ensures before.nNodes secondNodes).orUnless.bind fun _ third _ popped => ?_
        subst popped
        exact .pure ⟨secondGrown.popped secondNodes, Or.inr ⟨rfl, reply⟩⟩
      · exact (popNode_misplaced opened.nNodes buried (Or.inr reply)).bind
          fun _ _ _ never => never.elim

theorem unitLoop_ensures {bound : Nat} {state : CcState} (fuel : Nat) (block : CcAstNodeRef)
    (reserved : NilReserved state) (short : state.remaining.length < bound) :
    Ensures (ccParseUnitLoop fuel block)
      (fun _ after => firstOther state.data bound state.remaining = .other after.remaining)
      (PopsUnless (firstOther state.data bound state.remaining).Misuses) state := by
  induction fuel generalizing state bound with
  | zero => exact .halt (.of_ne (by simp))
  | succ fuel ih =>
      obtain ⟨bound, rfl⟩ : ∃ smaller, bound = smaller + 1 := ⟨bound - 1, by omega⟩
      rw [ccParseUnitLoop, firstOther]
      refine ((externalDeclaration_ensures reserved).misuse_imp fun misuse => ?_).bind
        fun node middle step external => ?_
      · rcases misuse with bare | bodiless
        · rw [bare]
          exact Or.inl rfl
        · rw [bodiless]
          exact Or.inr rfl
      obtain ⟨grown, ⟨valid, reply, shorter⟩ | ⟨nil, reply⟩⟩ := external
      · rw [reply]
        apply Ensures.ite
        · intro _
          refine (pushChildrenToBlock_ensures middle block node).orUnless.bind
            fun _ appended step' steady => ?_
          have data : appended.data = state.data := step'.data.trans step.data
          -- Hanging the definition below the unit's block reads no token.
          have later := ih ((reserved.grown grown).grown steady.grown)
            (show appended.remaining.length < bound by rw [steady.remaining]; omega)
          rw [data, steady.remaining] at later
          exact later
        · exact fun isNil => absurd valid isNil
      · rw [reply]
        apply Ensures.ite
        · exact fun isNode => absurd nil isNode
        · exact fun _ => .pure rfl

/-- From the state the driver sets up, the loop ends at the first external declaration that
is no function definition. -/
theorem parseUnit_ensures (data : List UInt8) (toks : List CcToken) (fuel : Nat) :
    Ensures (ccParseUnit fuel)
      (fun _ after => firstNonDefinition data toks = .other after.remaining)
      (PopsUnless (firstNonDefinition data toks).Misuses) (CcState.start data toks) := by
  unfold ccParseUnit
  refine .bind_run (pushNode_run _ _) (.bind_run (pushNode_run _ _) ?_)
  set state := ((CcState.start data toks).push .invalid).push (.block none)
  have reserved : NilReserved state := ⟨Nat.succ_pos _, rfl⟩
  have remaining : state.remaining = toks := List.drop_zero
  have short : state.remaining.length < toks.length + 1 := by
    rw [remaining]
    exact Nat.lt_succ_self _
  have looped := unitLoop_ensures fuel (refOf 1) reserved short
  rw [remaining] at looped
  exact looped.bind fun _ after _ ended => .pure ended

end Estros
