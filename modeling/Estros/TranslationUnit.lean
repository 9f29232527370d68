import Estros.AstCoalesce
import Estros.UnitParsing

/-!
Two questions about whole runs of `cc_parse_translation_unit`: does a normal return mean
that every token was read, and are nodes popped in the reverse order of their pushes?
-/

namespace Estros

open Machine

def OnlyFuel (why : Halt) (_ : CcState) : Prop := why = .outOfFuel

theorem coalesceAt_ensures {coalesce : CcAstNodeRef → CoalesceM (Option CcAstNodeRef)}
    (inner : ∀ ref state, Ensures (coalesce ref) (fun _ _ => True) OnlyFuel state)
    (slot : RefSlot) (state : CcState) :
    Ensures (ccAstCoalesceAt coalesce slot) (fun _ _ => True) OnlyFuel state := by
  unfold ccAstCoalesceAt
  apply Ensures.get
  refine (inner (state.readSlot slot) state).bind fun written after _ _ => ?_
  cases written with
  | some ref => exact .modify trivial
  | none => exact .pure trivial

theorem coalesceChilds_ensures {coalesce : CcAstNodeRef → CoalesceM (Option CcAstNodeRef)}
    (inner : ∀ ref state, Ensures (coalesce ref) (fun _ _ => True) OnlyFuel state)
    (childs : ChildArray) (state : CcState) :
    Ensures (ccAstCoalesceChilds coalesce childs) (fun _ _ => True) OnlyFuel state := by
  cases childs with
  | none => exact .pure trivial
  | some array =>
      apply Ensures.get
      exact .forM trivial fun index _ reached _ => coalesceAt_ensures inner _ reached

theorem coalesce_ensures (fuel : Nat) (ref : CcAstNodeRef) (state : CcState) :
    Ensures (ccAstCoalesce fuel ref) (fun _ _ => True) OnlyFuel state := by
  induction fuel generalizing ref state with
  | zero => exact .halt rfl
  | succ fuel ih =>
      have slot := coalesceAt_ensures ih
      have childs := coalesceChilds_ensures ih
      rw [ccAstCoalesce]
      apply Ensures.get
      cases state.node ref with
      | block array =>
          -- Only a block hands a reference back.
          refine (childs array state).bind fun _ after _ _ => .get ?_
          split
          · exact .pure trivial
          · exact .pure trivial
      | newType _ array _ =>
          refine (slot _ state).bind fun _ first _ _ => ?_
          exact (childs array first).bind fun _ last _ _ => .pure trivial
      | newVar _ _ _ _ =>
          refine (slot _ state).bind fun _ first _ _ => ?_
          exact (slot _ first).bind fun _ last _ _ => .pure trivial
      | ifExpr _ _ _ =>
          refine (slot _ state).bind fun _ first _ _ => ?_
          refine (slot _ first).bind fun _ second _ _ => ?_
          exact (slot _ second).bind fun _ last _ _ => .pure trivial
      | ret _ => exact (slot _ state).bind fun _ last _ _ => .pure trivial
      | binop _ _ _ =>
          refine (slot _ state).bind fun _ first _ _ => ?_
          exact (slot _ first).bind fun _ last _ _ => .pure trivial
      | _ => exact .pure trivial

/-- A run that returns has stopped at the first external declaration that is no function
definition; a run that halts has popped in order unless that declaration misuses the stack. -/
theorem translationUnit_ensures (data : List UInt8) (toks : List CcToken) (fuel : Nat) :
    Ensures (ccParseTranslationUnit fuel)
      (fun _ after => firstNonDefinition data toks = .other after.remaining)
      (PopsUnless (firstNonDefinition data toks).Misuses) (CcState.start data toks) := by
  unfold ccParseTranslationUnit
  refine (parseUnit_ensures data toks fuel).widen.bind fun block parsed _ ended => ?_
  have coalesced : Ensures (ccAstCoalesce fuel block)
      (fun _ after => after.remaining = parsed.remaining)
      (PopsUnless (firstNonDefinition data toks).Misuses) parsed := by
    -- The frame of the coalescing pass keeps the read position.
    refine (coalesce_ensures fuel block parsed).mono (fun _ after step _ => ?_) fun why _ outOfFuel => ?_
    · rw [CcState.remaining, step.tokens, step.curTok, CcState.remaining]
    · exact .of_ne (by rw [outOfFuel]; simp)
  refine coalesced.widen.bind fun written after _ same => .pure ?_
  rw [same, ended]

theorem remaining_nil_iff (state : CcState) :
    state.remaining = [] ↔ state.tokens.length ≤ state.curTok := List.drop_eq_nil_iff

/-- When the translation unit returns, every token has been read exactly if the first
external declaration that is no function definition reaches the end of the tokens. -/
theorem translationUnit_consumes_iff (data : List UInt8) (toks : List CcToken) (fuel : Nat)
    (block : CcAstNodeRef) (final : CcState)
    (returned : (ccParseTranslationUnit fuel).run (CcState.start data toks) = .ok block final) :
    toks.length ≤ final.curTok ↔ firstNonDefinition data toks = .other [] := by
  have ended := (translationUnit_ensures data toks fuel).ok returned
  have tokens : final.tokens = toks := by
    have kept := (ccParseTranslationUnit fuel).keeps (CcState.start data toks)
    rw [returned] at kept
    exact kept.tokens
  rw [ended, ← tokens, ← remaining_nil_iff]
  constructor
  · intro empty
    rw [empty]
  · intro same
    cases remaining : final.remaining with
    | nil => rfl
    | cons tok rest =>
        rw [remaining] at same
        cases same

def fooToks : List CcToken :=
  [⟨⟨0, 3⟩, .kwInt⟩, ⟨⟨4, 3⟩, .ident⟩, ⟨⟨7, 1⟩, .lparen⟩, ⟨⟨8, 3⟩, .kwInt⟩, ⟨⟨12, 1⟩, .ident⟩,
    ⟨⟨13, 1⟩, .rparen⟩, ⟨⟨15, 1⟩, .lbrace⟩, ⟨⟨17, 6⟩, .kwReturn⟩, ⟨⟨24, 1⟩, .ident⟩,
    ⟨⟨25, 1⟩, .semi⟩, ⟨⟨27, 1⟩, .rbrace⟩]

def fooData : List UInt8 := "int foo(int a) \x7b return a; \x7d".toUTF8.toList

theorem foo_returns :
    ((ccParseTranslationUnit 40).run (CcState.start fooData fooToks)).returns = true := by
  decide +kernel

theorem translationUnit_consumes_foo :
    ∃ block final, (ccParseTranslationUnit 40).run (CcState.start fooData fooToks) = .ok block final ∧
      (fooToks.length ≤ final.curTok ↔ firstNonDefinition fooData fooToks = .other []) := by
  obtain ⟨block, returned⟩ := Outcome.eq_ok_of_returns foo_returns
  exact ⟨block, _, returned, translationUnit_consumes_iff fooData fooToks 40 block _ returned⟩

def variableToks : List CcToken :=
  [⟨⟨0, 3⟩, .kwInt⟩, ⟨⟨4, 1⟩, .ident⟩, ⟨⟨5, 1⟩, .semi⟩]

/-- The parser returns in front of the semicolon, as if the unit ended there. -/
theorem variable_cut_short :
    ∃ block final, (ccParseTranslationUnit 12).run
        (CcState.start [105, 110, 116, 32, 120, 59] variableToks) = .ok block final ∧
      final.curTok = 2 ∧ final.curTok < variableToks.length := by
  have returned : ((ccParseTranslationUnit 12).run
      (CcState.start [105, 110, 116, 32, 120, 59] variableToks)).returns = true := by
    decide +kernel
  have stopped : ((ccParseTranslationUnit 12).run
      (CcState.start [105, 110, 116, 32, 120, 59] variableToks)).state.curTok = 2 := by
    decide +kernel
  obtain ⟨block, ran⟩ := Outcome.eq_ok_of_returns returned
  exact ⟨block, _, ran, stopped, by rw [stopped]; decide⟩

/-- As long as references fit, every declarator with a parameter list has a body and every
parameter position holds a specifier, nodes are popped last-in first-out in the whole run. -/
theorem translationUnit_pops_in_order (data : List UInt8) (toks : List CcToken) (fuel : Nat)
    (ordered : ¬ (firstNonDefinition data toks).Misuses)
    (fits : ((ccParseTranslationUnit fuel).run (CcState.start data toks)).state.refsFit) :
    ((ccParseTranslationUnit fuel).run (CcState.start data toks)).reason ≠
      some (.assertion .ccAstPopNode) := by
  intro tripped
  obtain ⟨final, halted⟩ := Outcome.eq_halt_of_reason tripped
  rw [halted] at fits
  have stopped := (translationUnit_ensures data toks fuel).halted halted rfl
  rcases stopped with misuse | truncated
  · exact ordered misuse
  · exact truncated fits

theorem translationUnit_pops_foo :
    ((ccParseTranslationUnit 40).run (CcState.start fooData fooToks)).reason ≠
      some (.assertion .ccAstPopNode) := by
  have ordered : ¬ (firstNonDefinition fooData fooToks).Misuses := by decide +kernel
  have fits : ((ccParseTranslationUnit 40).run (CcState.start fooData fooToks)).state.refsFit := by
    decide +kernel
  exact translationUnit_pops_in_order fooData fooToks 40 ordered fits

def emptyParametersToks : List CcToken :=
  [⟨⟨0, 3⟩, .kwInt⟩, ⟨⟨4, 1⟩, .ident⟩, ⟨⟨5, 1⟩, .lparen⟩, ⟨⟨6, 1⟩, .rparen⟩, ⟨⟨7, 1⟩, .semi⟩]

def prototypeToks : List CcToken :=
  [⟨⟨0, 3⟩, .kwInt⟩, ⟨⟨4, 1⟩, .ident⟩, ⟨⟨5, 1⟩, .lparen⟩, ⟨⟨6, 3⟩, .kwInt⟩, ⟨⟨10, 1⟩, .ident⟩,
    ⟨⟨11, 1⟩, .rparen⟩, ⟨⟨12, 1⟩, .semi⟩]

/-- An empty parameter list pops the type node below the variable node; a prototype leaves
its type and parameter nodes above the declaration. -/
theorem pop_assertion_trips :
    ((ccParseTranslationUnit 20).run
      (CcState.start [105, 110, 116, 32, 102, 40, 41, 59] emptyParametersToks)).reason =
        some (.assertion .ccAstPopNode) ∧
    ((ccParseTranslationUnit 20).run
      (CcState.start [105, 110, 116, 32, 102, 40, 105, 110, 116, 32, 97, 41, 59] prototypeToks)).reason =
        some (.assertion .ccAstPopNode) := by
  constructor
  · decide +kernel
  · decide +kernel

end Estros
