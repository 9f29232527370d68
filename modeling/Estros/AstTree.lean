import Estros.AstNodes

/-!
The finite trees that node references denote. `Tree.Denotes state inside tree ref` says
that unfolding `ref` in the node store of `state` gives exactly `tree`, and that every
node met on the way has an index satisfying `inside`. Node and array sharing is allowed.
-/

namespace Estros

def CcAstNode.isLeaf : CcAstNode → Bool
  | .invalid | .refType _ | .refVar _ | .cast _ | .literalFloat | .literalInteger _
  | .unop _ _ => true
  | _ => false

inductive Tree where
  | leaf (node : CcAstNode)
  | block (children : List Tree)
  | newVar (name : CcStrview) (init typeDef : Tree) (flags : BitVec 32)
  | newType (returnType : Tree) (children : List Tree) (flags : BitVec 32)
  | ifExpr (cond thenTree elseTree : Tree)
  | ret (value : Tree)
  | binop (op : CcAstBinop) (lhs rhs : Tree)

def CcState.array (state : CcState) : ChildArray → Option (List CcAstNodeRef)
  | none => some []
  | some index => state.childArrays[index]?

mutual

def Tree.Denotes (state : CcState) (inside : Nat → Prop) : Tree → CcAstNodeRef → Prop
  | .leaf node, ref => inside ref.toNat ∧ state.node ref = node ∧ node.isLeaf = true
  | .block children, ref =>
      inside ref.toNat ∧ ∃ childs refs, state.node ref = .block childs ∧
        state.array childs = some refs ∧ Tree.DenoteAll state inside children refs
  | .newVar name init typeDef flags, ref =>
      inside ref.toNat ∧ ∃ initRef typeRef, state.node ref = .newVar name initRef typeRef flags ∧
        init.Denotes state inside initRef ∧ typeDef.Denotes state inside typeRef
  | .newType returnType children flags, ref =>
      inside ref.toNat ∧ ∃ returnRef childs refs, state.node ref = .newType returnRef childs flags ∧
        state.array childs = some refs ∧ returnType.Denotes state inside returnRef ∧
        Tree.DenoteAll state inside children refs
  | .ifExpr cond thenTree elseTree, ref =>
      inside ref.toNat ∧ ∃ condRef thenRef elseRef, state.node ref = .ifExpr condRef thenRef elseRef ∧
        cond.Denotes state inside condRef ∧ thenTree.Denotes state inside thenRef ∧
        elseTree.Denotes state inside elseRef
  | .ret value, ref =>
      inside ref.toNat ∧ ∃ valueRef, state.node ref = .ret valueRef ∧
        value.Denotes state inside valueRef
  | .binop op lhs rhs, ref =>
      inside ref.toNat ∧ ∃ lhsRef rhsRef, state.node ref = .binop op lhsRef rhsRef ∧
        lhs.Denotes state inside lhsRef ∧ rhs.Denotes state inside rhsRef

def Tree.DenoteAll (state : CcState) (inside : Nat → Prop) : List Tree → List CcAstNodeRef → Prop
  | [], refs => refs = []
  | tree :: trees, refs =>
      ∃ ref rest, refs = ref :: rest ∧ tree.Denotes state inside ref ∧
        Tree.DenoteAll state inside trees rest

end

theorem Tree.Denotes.inside {state : CcState} {inside : Nat → Prop} {tree : Tree}
    {ref : CcAstNodeRef} (denoted : tree.Denotes state inside ref) : inside ref.toNat := by
  cases tree <;> exact denoted.1

/-- The two states agree on every node inside the region, and no array has changed. -/
structure SameInside (inside : Nat → Prop) (before after : CcState) : Prop where
  nodes : ∀ index, inside index → after.nodeAt index = before.nodeAt index
  arrays : before.childArrays <+: after.childArrays

theorem SameInside.refl (inside : Nat → Prop) (state : CcState) : SameInside inside state state :=
  ⟨fun _ _ => rfl, List.prefix_refl _⟩

theorem SameInside.node {inside : Nat → Prop} {before after : CcState}
    (same : SameInside inside before after) {ref : CcAstNodeRef} (member : inside ref.toNat) :
    after.node ref = before.node ref :=
  same.nodes ref.toNat member

theorem SameInside.array {inside : Nat → Prop} {before after : CcState}
    (same : SameInside inside before after) {childs : ChildArray} {refs : List CcAstNodeRef}
    (allocated : before.array childs = some refs) : after.array childs = some refs := by
  cases childs with
  | none => exact allocated
  | some index =>
      obtain ⟨added, grown⟩ := same.arrays
      have inBounds := (List.getElem?_eq_some_iff.mp allocated).1
      simp only [CcState.array, ← grown]
      rw [List.getElem?_append_left inBounds]
      exact allocated

mutual

theorem Tree.Denotes.frame {inside larger : Nat → Prop} {before after : CcState}
    (same : SameInside inside before after) (wider : ∀ index, inside index → larger index) :
    ∀ (tree : Tree) (ref : CcAstNodeRef), tree.Denotes before inside ref →
      tree.Denotes after larger ref
  | .leaf _, _, ⟨member, node, kind⟩ => ⟨wider _ member, (same.node member).trans node, kind⟩
  | .block children, _, ⟨member, childs, refs, node, allocated, all⟩ =>
      ⟨wider _ member, childs, refs, (same.node member).trans node, same.array allocated,
        Tree.DenoteAll.frame same wider children refs all⟩
  | .newVar _ init typeDef _, _, ⟨member, initRef, typeRef, node, first, second⟩ =>
      ⟨wider _ member, initRef, typeRef, (same.node member).trans node,
        Tree.Denotes.frame same wider init initRef first,
        Tree.Denotes.frame same wider typeDef typeRef second⟩
  | .newType returnType children _, _, ⟨member, returnRef, childs, refs, node, allocated, first, all⟩ =>
      ⟨wider _ member, returnRef, childs, refs, (same.node member).trans node,
        same.array allocated, Tree.Denotes.frame same wider returnType returnRef first,
        Tree.DenoteAll.frame same wider children refs all⟩
  | .ifExpr cond thenTree elseTree, _, ⟨member, condRef, thenRef, elseRef, node, first, second, third⟩ =>
      ⟨wider _ member, condRef, thenRef, elseRef, (same.node member).trans node,
        Tree.Denotes.frame same wider cond condRef first,
        Tree.Denotes.frame same wider thenTree thenRef second,
        Tree.Denotes.frame same wider elseTree elseRef third⟩
  | .ret value, _, ⟨member, valueRef, node, first⟩ =>
      ⟨wider _ member, valueRef, (same.node member).trans node,
        Tree.Denotes.frame same wider value valueRef first⟩
  | .binop _ lhs rhs, _, ⟨member, lhsRef, rhsRef, node, first, second⟩ =>
      ⟨wider _ member, lhsRef, rhsRef, (same.node member).trans node,
        Tree.Denotes.frame same wider lhs lhsRef first,
        Tree.Denotes.frame same wider rhs rhsRef second⟩

theorem Tree.DenoteAll.frame {inside larger : Nat → Prop} {before after : CcState}
    (same : SameInside inside before after) (wider : ∀ index, inside index → larger index) :
    ∀ (trees : List Tree) (refs : List CcAstNodeRef), Tree.DenoteAll before inside trees refs →
      Tree.DenoteAll after larger trees refs
  | [], _, empty => empty
  | tree :: trees, _, ⟨ref, rest, split, head, tail⟩ =>
      ⟨ref, rest, split, Tree.Denotes.frame same wider tree ref head,
        Tree.DenoteAll.frame same wider trees rest tail⟩

end

/-- The shape of a node: 0 for those without children. -/
def CcAstNode.shape : CcAstNode → Nat
  | .block _ => 1
  | .newVar _ _ _ _ => 2
  | .newType _ _ _ => 3
  | .ifExpr _ _ _ => 4
  | .ret _ => 5
  | .binop _ _ _ => 6
  | _ => 0

def Tree.shape : Tree → Nat
  | .leaf _ => 0
  | .block _ => 1
  | .newVar _ _ _ _ => 2
  | .newType _ _ _ => 3
  | .ifExpr _ _ _ => 4
  | .ret _ => 5
  | .binop _ _ _ => 6

theorem shape_of_isLeaf {node : CcAstNode} (kind : node.isLeaf = true) : node.shape = 0 := by
  cases node <;> first | rfl | exact nomatch kind

theorem Tree.Denotes.shape {state : CcState} {inside : Nat → Prop} {tree : Tree}
    {ref : CcAstNodeRef} (denoted : tree.Denotes state inside ref) :
    tree.shape = (state.node ref).shape := by
  cases tree with
  | leaf node =>
      obtain ⟨_, found, kind⟩ := denoted
      rw [found, shape_of_isLeaf kind]
      rfl
  | block _ =>
      obtain ⟨_, _, _, found, _⟩ := denoted
      rw [found]
      rfl
  | newVar _ _ _ _ =>
      obtain ⟨_, _, _, found, _⟩ := denoted
      rw [found]
      rfl
  | newType _ _ _ =>
      obtain ⟨_, _, _, _, found, _⟩ := denoted
      rw [found]
      rfl
  | ifExpr _ _ _ =>
      obtain ⟨_, _, _, _, found, _⟩ := denoted
      rw [found]
      rfl
  | ret _ =>
      obtain ⟨_, _, found, _⟩ := denoted
      rw [found]
      rfl
  | binop _ _ _ =>
      obtain ⟨_, _, _, found, _⟩ := denoted
      rw [found]
      rfl

mutual

theorem Tree.Denotes.unique {state : CcState} {inside : Nat → Prop} (left right : Tree)
    (ref : CcAstNodeRef) (first : left.Denotes state inside ref)
    (second : right.Denotes state inside ref) : left = right := by
  -- the node at the reference fixes the constructor, so only equal ones are left
  have shapes : left.shape = right.shape := first.shape.trans second.shape.symm
  cases left <;> cases right <;> simp [Tree.shape] at shapes
  case leaf.leaf => rw [← first.2.1, ← second.2.1]
  case block.block children others =>
      obtain ⟨_, _, refs, node, array, all⟩ := first
      obtain ⟨_, _, _, found, again, alls⟩ := second
      cases node.symm.trans found
      cases array.symm.trans again
      rw [Tree.DenoteAll.unique children others refs all alls]
  case newVar.newVar init typeDef _ _ init' typeDef' _ =>
      obtain ⟨_, initRef, typeRef, node, one, two⟩ := first
      obtain ⟨_, _, _, found, one', two'⟩ := second
      cases node.symm.trans found
      rw [Tree.Denotes.unique init init' initRef one one',
        Tree.Denotes.unique typeDef typeDef' typeRef two two']
  case newType.newType returnType children _ returnType' children' _ =>
      obtain ⟨_, returnRef, _, refs, node, array, one, all⟩ := first
      obtain ⟨_, _, _, _, found, again, one', all'⟩ := second
      cases node.symm.trans found
      cases array.symm.trans again
      rw [Tree.Denotes.unique returnType returnType' returnRef one one',
        Tree.DenoteAll.unique children children' refs all all']
  case ifExpr.ifExpr cond yes no cond' yes' no' =>
      obtain ⟨_, condRef, yesRef, noRef, node, one, two, three⟩ := first
      obtain ⟨_, _, _, _, found, one', two', three'⟩ := second
      cases node.symm.trans found
      rw [Tree.Denotes.unique cond cond' condRef one one',
        Tree.Denotes.unique yes yes' yesRef two two',
        Tree.Denotes.unique no no' noRef three three']
  case ret.ret value value' =>
      obtain ⟨_, valueRef, node, one⟩ := first
      obtain ⟨_, _, found, one'⟩ := second
      cases node.symm.trans found
      rw [Tree.Denotes.unique value value' valueRef one one']
  case binop.binop lhs rhs _ lhs' rhs' =>
      obtain ⟨_, lhsRef, rhsRef, node, one, two⟩ := first
      obtain ⟨_, _, _, found, one', two'⟩ := second
      cases node.symm.trans found
      rw [Tree.Denotes.unique lhs lhs' lhsRef one one', Tree.Denotes.unique rhs rhs' rhsRef two two']

theorem Tree.DenoteAll.unique {state : CcState} {inside : Nat → Prop} (left right : List Tree)
    (refs : List CcAstNodeRef) (first : Tree.DenoteAll state inside left refs)
    (second : Tree.DenoteAll state inside right refs) : left = right := by
  cases left with
  | nil =>
      cases right with
      | nil => rfl
      | cons _ _ =>
          obtain ⟨_, _, split, _⟩ := second
          exact nomatch (show refs = [] from first).symm.trans split
  | cons tree trees =>
      obtain ⟨ref, rest, split, head, tail⟩ := first
      cases right with
      | nil => exact nomatch (show refs = [] from second).symm.trans split
      | cons other others =>
          obtain ⟨_, _, again, head', tail'⟩ := second
          cases split.symm.trans again
          rw [Tree.Denotes.unique tree other ref head head',
            Tree.DenoteAll.unique trees others rest tail tail']

end

mutual

/-- Read every block with exactly one child as that child. -/
def Tree.strip : Tree → Tree
  | .leaf node => .leaf node
  | .block children =>
      match Tree.stripAll children with
      | [only] => only
      | stripped => .block stripped
  | .newVar name init typeDef flags => .newVar name init.strip typeDef.strip flags
  | .newType returnType children flags =>
      .newType returnType.strip (Tree.stripAll children) flags
  | .ifExpr cond thenTree elseTree => .ifExpr cond.strip thenTree.strip elseTree.strip
  | .ret value => .ret value.strip
  | .binop op lhs rhs => .binop op lhs.strip rhs.strip

def Tree.stripAll : List Tree → List Tree
  | [] => []
  | tree :: trees => tree.strip :: Tree.stripAll trees

end

@[simp] theorem strip_single (tree : Tree) : (Tree.block [tree]).strip = tree.strip := by
  simp [Tree.strip, Tree.stripAll]

@[simp] theorem strip_leaf (node : CcAstNode) : (Tree.leaf node).strip = .leaf node := by
  rw [Tree.strip]

@[simp] theorem strip_binop (op : CcAstBinop) (lhs rhs : Tree) :
    (Tree.binop op lhs rhs).strip = .binop op lhs.strip rhs.strip := by
  rw [Tree.strip]

@[simp] theorem strip_ifExpr (cond thenTree elseTree : Tree) :
    (Tree.ifExpr cond thenTree elseTree).strip =
      .ifExpr cond.strip thenTree.strip elseTree.strip := by
  rw [Tree.strip]

@[simp] theorem strip_ret (value : Tree) : (Tree.ret value).strip = .ret value.strip := by
  rw [Tree.strip]

/-- What one expression token contributes to a tree: an identifier's name, a literal's
value, an operator's kind. -/
inductive Lexeme where
  | ident (name : CcStrview)
  | literal (ull : BitVec 64)
  | operator (type : CcTokenType)
  deriving DecidableEq

/-- The token that spells a binary operator; `condXor` has none. -/
def CcAstBinop.token : CcAstBinop → CcTokenType
  | .assign => .assign
  | .add => .add
  | .sub => .sub
  | .mul => .asterisk
  | .div => .div
  | .rem => .rem
  | .bitAnd => .ampersand
  | .bitXor => .bitXor
  | .bitOr => .bitOr
  | .lshift => .lshift
  | .rshift => .rshift
  | .condEq => .condEq
  | .condNeq => .condNeq
  | .condGt => .condGt
  | .condLt => .condLt
  | .condGte => .condGte
  | .condLte => .condLte
  | .condAnd => .condAnd
  | .condOr => .condOr
  | .condXor => .invalid

mutual

def Tree.inOrder : Tree → List Lexeme
  | .leaf (.refVar name) => [.ident name]
  | .leaf (.literalInteger ull) => [.literal ull]
  | .leaf _ => []
  | .block children => Tree.inOrderAll children
  | .newVar _ _ _ _ => []
  | .newType _ _ _ => []
  | .ifExpr cond thenTree elseTree =>
      cond.inOrder ++ .operator .qmark :: thenTree.inOrder ++ .operator .colon :: elseTree.inOrder
  | .ret value => value.inOrder
  | .binop op lhs rhs => lhs.inOrder ++ .operator op.token :: rhs.inOrder

def Tree.inOrderAll : List Tree → List Lexeme
  | [] => []
  | tree :: trees => tree.inOrder ++ Tree.inOrderAll trees

end

theorem inOrder_block (trees : List Tree) : (Tree.block trees).inOrder = Tree.inOrderAll trees := by
  simp [Tree.inOrder]

mutual

theorem inOrder_strip : ∀ tree : Tree, tree.strip.inOrder = tree.inOrder
  | .leaf _ => rfl
  | .block children => by
      have inner := inOrderAll_stripAll children
      rw [inOrder_block, ← inner, Tree.strip]
      split
      · rename_i only single
        rw [single]
        simp [Tree.inOrderAll]
      · exact inOrder_block _
  | .newVar _ _ _ _ => by simp [Tree.strip, Tree.inOrder]
  | .newType _ _ _ => by simp [Tree.strip, Tree.inOrder]
  | .ifExpr cond thenTree elseTree => by
      simp only [Tree.strip, Tree.inOrder, inOrder_strip cond, inOrder_strip thenTree,
        inOrder_strip elseTree]
  | .ret value => by simp only [Tree.strip, Tree.inOrder, inOrder_strip value]
  | .binop _ lhs rhs => by
      simp only [Tree.strip, Tree.inOrder, inOrder_strip lhs, inOrder_strip rhs]

theorem inOrderAll_stripAll : ∀ trees : List Tree,
    Tree.inOrderAll (Tree.stripAll trees) = Tree.inOrderAll trees
  | [] => rfl
  | tree :: trees => by
      simp only [Tree.stripAll, Tree.inOrderAll, inOrder_strip tree, inOrderAll_stripAll trees]

end

end Estros
