import Mathlib.Data.List.Basic
import Estros.CompilerState

/-!
The node store of ast.c: pushing, popping and copying nodes, and appending children.
`ParseStep` is what these functions and every parser function over them keep.
-/

namespace Estros

open Machine

/-- The parser reads tokens forward, never shrinks written node memory, and only adds
child arrays. -/
structure ParseStep (before after : CcState) : Prop where
  data : after.data = before.data
  tokens : after.tokens = before.tokens
  curTok : before.curTok ≤ after.curTok
  nodes : before.nodes.length ≤ after.nodes.length
  arrays : before.childArrays <+: after.childArrays
  ssaFuncs : after.ssaFuncs = before.ssaFuncs
  ssaTokens : after.ssaTokens = before.ssaTokens
  rawData : after.rawData = before.rawData

theorem ParseStep.refl (state : CcState) : ParseStep state state :=
  ⟨rfl, rfl, Nat.le_refl _, Nat.le_refl _, List.prefix_refl _, rfl, rfl, rfl⟩

theorem ParseStep.trans {first middle last : CcState} (left : ParseStep first middle)
    (right : ParseStep middle last) : ParseStep first last :=
  ⟨right.data.trans left.data, right.tokens.trans left.tokens,
    Nat.le_trans left.curTok right.curTok, Nat.le_trans left.nodes right.nodes,
    left.arrays.trans right.arrays, right.ssaFuncs.trans left.ssaFuncs,
    right.ssaTokens.trans left.ssaTokens, right.rawData.trans left.rawData⟩

abbrev parseFrame : Frame CcState := ⟨ParseStep, ParseStep.refl, ParseStep.trans⟩

abbrev ParseM := Machine parseFrame Halt

def CcState.push (state : CcState) (node : CcAstNode) : CcState :=
  { state with
    nodes := state.nodes.take state.nNodes ++ node :: state.nodes.drop (state.nNodes + 1)
    nNodes := state.nNodes + 1
    nodesWritten := by
      have written := state.nodesWritten
      simp only [List.length_append, List.length_take, List.length_cons, List.length_drop]
      omega }

/-- `n_nodes = ref`, where `ref` is `n_nodes - 1`. -/
def CcState.pop (state : CcState) : CcState :=
  { state with
    nNodes := state.nNodes - 1
    nodesWritten := Nat.le_trans (Nat.sub_le _ _) state.nodesWritten }

def CcState.setNode (state : CcState) (ref : CcAstNodeRef) (node : CcAstNode) : CcState :=
  { state with
    nodes := state.nodes.set ref.toNat node
    nodesWritten := by simpa using state.nodesWritten }

/-- Reallocate a child array one element larger, with `child` as its last element, and
store the node that points to it. `realloc` is taken to move the array every time. -/
def CcState.appendChild (state : CcState) (ref : CcAstNodeRef) (childs : ChildArray)
    (child : CcAstNodeRef) (rebuild : ChildArray → CcAstNode) : CcState :=
  { state with
    childArrays := state.childArrays ++ [state.childs childs ++ [child]]
    nodes := state.nodes.set ref.toNat (rebuild (some state.childArrays.length))
    nodesWritten := by simpa using state.nodesWritten }

def CcState.advance (state : CcState) : CcState := { state with curTok := state.curTok + 1 }

theorem push_step (node : CcAstNode) (state : CcState) : ParseStep state (state.push node) := by
  refine ⟨rfl, rfl, Nat.le_refl _, ?_, List.prefix_refl _, rfl, rfl, rfl⟩
  simp only [CcState.push, List.length_append, List.length_take, List.length_cons,
    List.length_drop]
  omega

theorem pop_step (state : CcState) : ParseStep state state.pop :=
  ⟨rfl, rfl, Nat.le_refl _, Nat.le_refl _, List.prefix_refl _, rfl, rfl, rfl⟩

theorem setNode_step (ref : CcAstNodeRef) (node : CcAstNode) (state : CcState) :
    ParseStep state (state.setNode ref node) :=
  ⟨rfl, rfl, Nat.le_refl _, by simp [CcState.setNode], List.prefix_refl _, rfl, rfl, rfl⟩

theorem appendChild_step (ref : CcAstNodeRef) (childs : ChildArray) (child : CcAstNodeRef)
    (rebuild : ChildArray → CcAstNode) (state : CcState) :
    ParseStep state (state.appendChild ref childs child rebuild) :=
  ⟨rfl, rfl, Nat.le_refl _, by simp [CcState.appendChild], List.prefix_append _ _, rfl, rfl, rfl⟩

theorem advance_step (state : CcState) : ParseStep state state.advance :=
  ⟨rfl, rfl, Nat.le_succ _, Nat.le_refl _, List.prefix_refl _, rfl, rfl, rfl⟩

/-- The reference drawn from the node counter is truncated to sixteen bits. -/
def refOf (index : Nat) : CcAstNodeRef := BitVec.ofNat 16 index

def ccAstPushNode (node : CcAstNode) : ParseM CcAstNodeRef := do
  let state ← get
  modify (fun s => s.push node) (push_step node)
  pure (refOf state.nNodes)

def ccAstPopNode (ref : CcAstNodeRef) : ParseM Unit := do
  let state ← get
  check (ref.toNat + 1 = state.nNodes) (.assertion .ccAstPopNode)
  modify CcState.pop pop_step

def ccAstPushChildrenToBlock (n c : CcAstNodeRef) : ParseM Unit := do
  let state ← get
  match state.node n with
  | .block childs =>
      check (n ≠ c) (.assertion .ccAstPushChildrenToBlock)
      modify (fun s => s.appendChild n childs c .block) (appendChild_step n childs c .block)
  | _ => halt (.assertion .ccAstPushChildrenToBlock)

def ccAstPushChildrenToType (n c : CcAstNodeRef) : ParseM Unit := do
  let state ← get
  match state.node n with
  | .newType returnType childs flags =>
      check (n ≠ c) (.assertion .ccAstPushChildrenToType)
      modify (fun s => s.appendChild n childs c (.newType returnType · flags))
        (appendChild_step n childs c _)
  | _ => halt (.assertion .ccAstPushChildrenToType)

/-- An empty block takes over the whole node `c`, child pointer included. -/
def ccAstPushChildrenToBlockCoalesce (n c : CcAstNodeRef) : ParseM Unit := do
  let state ← get
  match state.node n with
  | .block childs =>
      if (state.childs childs).length = 0 then
        modify (fun s => s.setNode n (s.node c)) (fun s => setNode_step n (s.node c) s)
      else
        ccAstPushChildrenToBlock n c
  | _ => halt (.assertion .ccAstPushChildrenToBlockCoalesce)

def ccAstCopyNode (n : CcAstNodeRef) : ParseM CcAstNodeRef := do
  let state ← get
  check (0 < n.toNat && n.toNat < state.nNodes) (.assertion .ccAstCopyNode)
  ccAstPushNode (state.node n)

def CcState.nodeAt (state : CcState) (index : Nat) : CcAstNode :=
  state.nodes.getD index .invalid

theorem node_eq_nodeAt (state : CcState) (ref : CcAstNodeRef) :
    state.node ref = state.nodeAt ref.toNat := rfl

theorem toNat_refOf {index : Nat} (small : index < 65536) : (refOf index).toNat = index := by
  simp [refOf, Nat.mod_eq_of_lt small]

theorem ref_ne_of_toNat {left right : CcAstNodeRef} (differ : left.toNat ≠ right.toNat) :
    left ≠ right := fun same => differ (by rw [same])

@[simp] theorem push_nNodes (state : CcState) (node : CcAstNode) :
    (state.push node).nNodes = state.nNodes + 1 := rfl

@[simp] theorem push_childArrays (state : CcState) (node : CcAstNode) :
    (state.push node).childArrays = state.childArrays := rfl

@[simp] theorem push_tokens (state : CcState) (node : CcAstNode) :
    (state.push node).tokens = state.tokens := rfl

@[simp] theorem push_curTok (state : CcState) (node : CcAstNode) :
    (state.push node).curTok = state.curTok := rfl

@[simp] theorem push_data (state : CcState) (node : CcAstNode) :
    (state.push node).data = state.data := rfl

@[simp] theorem pop_childArrays (state : CcState) : state.pop.childArrays = state.childArrays := rfl

@[simp] theorem pop_nNodes (state : CcState) : state.pop.nNodes = state.nNodes - 1 := rfl

@[simp] theorem pop_tokens (state : CcState) : state.pop.tokens = state.tokens := rfl

@[simp] theorem pop_curTok (state : CcState) : state.pop.curTok = state.curTok := rfl

@[simp] theorem pop_nodeAt (state : CcState) (index : Nat) :
    state.pop.nodeAt index = state.nodeAt index := rfl

@[simp] theorem setNode_nNodes (state : CcState) (ref : CcAstNodeRef) (node : CcAstNode) :
    (state.setNode ref node).nNodes = state.nNodes := rfl

@[simp] theorem setNode_childArrays (state : CcState) (ref : CcAstNodeRef) (node : CcAstNode) :
    (state.setNode ref node).childArrays = state.childArrays := rfl

@[simp] theorem setNode_tokens (state : CcState) (ref : CcAstNodeRef) (node : CcAstNode) :
    (state.setNode ref node).tokens = state.tokens := rfl

@[simp] theorem setNode_curTok (state : CcState) (ref : CcAstNodeRef) (node : CcAstNode) :
    (state.setNode ref node).curTok = state.curTok := rfl

@[simp] theorem appendChild_nNodes (state : CcState) (ref : CcAstNodeRef) (childs : ChildArray)
    (child : CcAstNodeRef) (rebuild : ChildArray → CcAstNode) :
    (state.appendChild ref childs child rebuild).nNodes = state.nNodes := rfl

@[simp] theorem appendChild_tokens (state : CcState) (ref : CcAstNodeRef) (childs : ChildArray)
    (child : CcAstNodeRef) (rebuild : ChildArray → CcAstNode) :
    (state.appendChild ref childs child rebuild).tokens = state.tokens := rfl

@[simp] theorem appendChild_curTok (state : CcState) (ref : CcAstNodeRef) (childs : ChildArray)
    (child : CcAstNodeRef) (rebuild : ChildArray → CcAstNode) :
    (state.appendChild ref childs child rebuild).curTok = state.curTok := rfl

@[simp] theorem advance_nNodes (state : CcState) : state.advance.nNodes = state.nNodes := rfl

@[simp] theorem advance_childArrays (state : CcState) :
    state.advance.childArrays = state.childArrays := rfl

@[simp] theorem advance_tokens (state : CcState) : state.advance.tokens = state.tokens := rfl

@[simp] theorem advance_curTok (state : CcState) : state.advance.curTok = state.curTok + 1 := rfl

@[simp] theorem advance_nodeAt (state : CcState) (index : Nat) :
    state.advance.nodeAt index = state.nodeAt index := rfl

@[simp] theorem advance_node (state : CcState) (ref : CcAstNodeRef) :
    state.advance.node ref = state.node ref := rfl

theorem push_nodeAt (state : CcState) (node : CcAstNode) (index : Nat) :
    (state.push node).nodeAt index = if index = state.nNodes then node else state.nodeAt index := by
  have written := state.nodesWritten
  simp only [CcState.push, CcState.nodeAt, List.getD_eq_getElem?_getD]
  rcases Nat.lt_trichotomy index state.nNodes with below | here | above
  · rw [List.getElem?_append_left (by simp; omega), List.getElem?_take_of_lt below,
      if_neg (by omega)]
  · subst here
    rw [List.getElem?_append_right (by simp)]
    simp [Nat.min_eq_left written]
  · rw [List.getElem?_append_right (by simp; omega), if_neg (by omega)]
    simp only [List.length_take, Nat.min_eq_left written]
    obtain ⟨offset, rfl⟩ : ∃ offset, index = state.nNodes + 1 + offset :=
      ⟨index - (state.nNodes + 1), by omega⟩
    rw [show state.nNodes + 1 + offset - state.nNodes = offset + 1 by omega,
      List.getElem?_cons_succ, List.getElem?_drop]

theorem setNode_nodeAt (state : CcState) (ref : CcAstNodeRef) (node : CcAstNode) (index : Nat)
    (inside : ref.toNat < state.nNodes) :
    (state.setNode ref node).nodeAt index =
      if index = ref.toNat then node else state.nodeAt index := by
  have written := state.nodesWritten
  simp only [CcState.setNode, CcState.nodeAt, List.getD_eq_getElem?_getD, List.getElem?_set]
  by_cases same : ref.toNat = index
  · simp [same, show index < state.nodes.length by omega]
  · simp [same, Ne.symm same]

theorem appendChild_nodeAt (state : CcState) (ref : CcAstNodeRef) (childs : ChildArray)
    (child : CcAstNodeRef) (rebuild : ChildArray → CcAstNode) (index : Nat)
    (inside : ref.toNat < state.nNodes) :
    (state.appendChild ref childs child rebuild).nodeAt index =
      if index = ref.toNat then rebuild (some state.childArrays.length) else state.nodeAt index :=
  setNode_nodeAt state ref _ index inside

theorem pushNode_run (state : CcState) (node : CcAstNode) :
    (ccAstPushNode node).run state = .ok (refOf state.nNodes) (state.push node) := rfl

theorem popNode_run (state : CcState) (ref : CcAstNodeRef) (last : ref.toNat + 1 = state.nNodes) :
    (ccAstPopNode ref).run state = .ok () state.pop := by
  simp [ccAstPopNode, run_bind, check, last]

theorem popNode_fails (state : CcState) (ref : CcAstNodeRef) (other : ref.toNat + 1 ≠ state.nNodes) :
    (ccAstPopNode ref).run state = .halt (.assertion .ccAstPopNode) state := by
  simp [ccAstPopNode, run_bind, check, other]

theorem pushChildrenToBlock_run (state : CcState) (n c : CcAstNodeRef) (childs : ChildArray)
    (isBlock : state.node n = .block childs) (other : n ≠ c) :
    (ccAstPushChildrenToBlock n c).run state =
      .ok () (state.appendChild n childs c .block) := by
  simp [ccAstPushChildrenToBlock, run_bind, check, isBlock, other]

theorem pushChildrenToBlockCoalesce_run (state : CcState) (n c : CcAstNodeRef)
    (isEmpty : state.node n = .block none) :
    (ccAstPushChildrenToBlockCoalesce n c).run state =
      .ok () (state.setNode n (state.node c)) := by
  simp [ccAstPushChildrenToBlockCoalesce, run_bind, isEmpty, CcState.childs]

end Estros
