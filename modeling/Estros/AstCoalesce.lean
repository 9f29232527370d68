import Estros.Parser

/-!
`cc_ast_coalesce` of ast.c, which replaces references to single-child blocks by references
to the child, and the translation unit it ends.
-/

namespace Estros

open Machine

structure UnitStep (before after : CcState) : Prop where
  data : after.data = before.data
  tokens : after.tokens = before.tokens
  curTok : before.curTok ≤ after.curTok
  nodes : before.nodes.length ≤ after.nodes.length
  ssaFuncs : after.ssaFuncs = before.ssaFuncs
  ssaTokens : after.ssaTokens = before.ssaTokens
  rawData : after.rawData = before.rawData

theorem UnitStep.refl (state : CcState) : UnitStep state state :=
  ⟨rfl, rfl, Nat.le_refl _, Nat.le_refl _, rfl, rfl, rfl⟩

theorem UnitStep.trans {first middle last : CcState} (left : UnitStep first middle)
    (right : UnitStep middle last) : UnitStep first last :=
  ⟨right.data.trans left.data, right.tokens.trans left.tokens,
    Nat.le_trans left.curTok right.curTok, Nat.le_trans left.nodes right.nodes,
    right.ssaFuncs.trans left.ssaFuncs, right.ssaTokens.trans left.ssaTokens,
    right.rawData.trans left.rawData⟩

abbrev unitFrame : Frame CcState := ⟨UnitStep, UnitStep.refl, UnitStep.trans⟩

abbrev UnitM := Machine unitFrame Halt

theorem ParseStep.unit {before after : CcState} (step : ParseStep before after) :
    UnitStep before after :=
  ⟨step.data, step.tokens, step.curTok, step.nodes, step.ssaFuncs, step.ssaTokens, step.rawData⟩

/-- Coalescing rewrites references in nodes and child arrays and touches nothing else. -/
structure CoalesceStep (before after : CcState) : Prop where
  data : after.data = before.data
  tokens : after.tokens = before.tokens
  curTok : after.curTok = before.curTok
  nodes : after.nodes.length = before.nodes.length
  nNodes : after.nNodes = before.nNodes
  arrays : after.childArrays.length = before.childArrays.length
  ssaFuncs : after.ssaFuncs = before.ssaFuncs
  ssaTokens : after.ssaTokens = before.ssaTokens
  rawData : after.rawData = before.rawData

theorem CoalesceStep.refl (state : CcState) : CoalesceStep state state :=
  ⟨rfl, rfl, rfl, rfl, rfl, rfl, rfl, rfl, rfl⟩

theorem CoalesceStep.trans {first middle last : CcState} (left : CoalesceStep first middle)
    (right : CoalesceStep middle last) : CoalesceStep first last :=
  ⟨right.data.trans left.data, right.tokens.trans left.tokens, right.curTok.trans left.curTok,
    right.nodes.trans left.nodes, right.nNodes.trans left.nNodes, right.arrays.trans left.arrays,
    right.ssaFuncs.trans left.ssaFuncs, right.ssaTokens.trans left.ssaTokens,
    right.rawData.trans left.rawData⟩

abbrev coalesceFrame : Frame CcState := ⟨CoalesceStep, CoalesceStep.refl, CoalesceStep.trans⟩

abbrev CoalesceM := Machine coalesceFrame Halt

theorem CoalesceStep.unit {before after : CcState} (step : CoalesceStep before after) :
    UnitStep before after :=
  ⟨step.data, step.tokens, Nat.le_of_eq step.curTok.symm, Nat.le_of_eq step.nodes.symm,
    step.ssaFuncs, step.ssaTokens, step.rawData⟩

inductive RefField where
  | returnType | typeDef | init | cond | thenRef | elseRef | retval | lhs | rhs

/-- Where a reference is stored: in a node, or in a child array. -/
inductive RefSlot where
  | field (node : CcAstNodeRef) (field : RefField)
  | child (array index : Nat)

def CcAstNode.readField : CcAstNode → RefField → CcAstNodeRef
  | .newType returnType _ _, .returnType => returnType
  | .newVar _ _ typeDef _, .typeDef => typeDef
  | .newVar _ init _ _, .init => init
  | .ifExpr cond _ _, .cond => cond
  | .ifExpr _ thenRef _, .thenRef => thenRef
  | .ifExpr _ _ elseRef, .elseRef => elseRef
  | .ret retval, .retval => retval
  | .binop _ lhs _, .lhs => lhs
  | .binop _ _ rhs, .rhs => rhs
  | _, _ => 0

def CcAstNode.writeField (ref : CcAstNodeRef) : CcAstNode → RefField → CcAstNode
  | .newType _ childs flags, .returnType => .newType ref childs flags
  | .newVar name init _ flags, .typeDef => .newVar name init ref flags
  | .newVar name _ typeDef flags, .init => .newVar name ref typeDef flags
  | .ifExpr _ thenRef elseRef, .cond => .ifExpr ref thenRef elseRef
  | .ifExpr cond _ elseRef, .thenRef => .ifExpr cond ref elseRef
  | .ifExpr cond thenRef _, .elseRef => .ifExpr cond thenRef ref
  | .ret _, .retval => .ret ref
  | .binop op _ rhs, .lhs => .binop op ref rhs
  | .binop op lhs _, .rhs => .binop op lhs ref
  | node, _ => node

def CcState.readSlot (state : CcState) : RefSlot → CcAstNodeRef
  | .field node field => (state.node node).readField field
  | .child array index => (state.childArrays.getD array []).getD index 0

def CcState.writeSlot (state : CcState) (ref : CcAstNodeRef) : RefSlot → CcState
  | .field node field => state.setNode node ((state.node node).writeField ref field)
  | .child array index =>
      { state with childArrays := state.childArrays.modify array (·.set index ref) }

theorem writeSlot_step (ref : CcAstNodeRef) (slot : RefSlot) (state : CcState) :
    CoalesceStep state (state.writeSlot ref slot) := by
  cases slot with
  | field node field => exact ⟨rfl, rfl, rfl, by simp [CcState.writeSlot, CcState.setNode], rfl, rfl, rfl, rfl, rfl⟩
  | child array index => exact ⟨rfl, rfl, rfl, rfl, rfl, by simp [CcState.writeSlot], rfl, rfl, rfl⟩

/-- One recursive call through `pref`, for what the call does with the value of `*pref`. -/
def ccAstCoalesceAt (coalesce : CcAstNodeRef → CoalesceM (Option CcAstNodeRef)) (slot : RefSlot) :
    CoalesceM Unit := do
  let state ← get
  -- `*pref` is read once, on entry; what `pref` points to may change meanwhile.
  let written ← coalesce (state.readSlot slot)
  match written with
  | some ref => modify (fun s => s.writeSlot ref slot) (writeSlot_step ref slot)
  | none => pure ()

def ccAstCoalesceChilds (coalesce : CcAstNodeRef → CoalesceM (Option CcAstNodeRef)) :
    ChildArray → CoalesceM Unit
  | none => pure ()
  | some array => do
      let state ← get
      (List.range (state.childArrays.getD array []).length).forM fun index =>
        ccAstCoalesceAt coalesce (.child array index)

/-- `cc_ast_coalesce`, given `*pref`: the reference it stores there at the end, if any. -/
def ccAstCoalesce : Nat → CcAstNodeRef → CoalesceM (Option CcAstNodeRef)
  | 0, _ => halt .outOfFuel
  | fuel + 1, ref => do
      let coalesceAt := ccAstCoalesceAt (ccAstCoalesce fuel)
      let state ← get
      match state.node ref with
      | .block childs =>
          ccAstCoalesceChilds (ccAstCoalesce fuel) childs
          let after ← get
          match after.childs childs with
          -- The child after the loop, which may itself have been replaced.
          | [only] => pure (some only)
          | _ => pure none
      | .newType _ childs _ =>
          coalesceAt (.field ref .returnType)
          ccAstCoalesceChilds (ccAstCoalesce fuel) childs
          pure none
      | .newVar _ _ _ _ =>
          coalesceAt (.field ref .typeDef)
          coalesceAt (.field ref .init)
          pure none
      | .ifExpr _ _ _ =>
          coalesceAt (.field ref .cond)
          coalesceAt (.field ref .thenRef)
          coalesceAt (.field ref .elseRef)
          pure none
      | .ret _ =>
          coalesceAt (.field ref .retval)
          pure none
      | .binop _ _ _ =>
          coalesceAt (.field ref .lhs)
          coalesceAt (.field ref .rhs)
          pure none
      | _ => pure none

/-- `cc_parse_translation_unit` less its dumps: the block that holds the declarations, or
its only child. -/
def ccParseTranslationUnit (fuel : Nat) : UnitM CcAstNodeRef := do
  let block ← widen ParseStep.unit (ccParseUnit fuel)
  let written ← widen CoalesceStep.unit (ccAstCoalesce fuel block)
  pure (written.getD block)

end Estros
