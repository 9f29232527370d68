import Mathlib.Data.List.Forall2
import Estros.AstCoalesce
import Estros.AstTree
import Estros.SsaLowering

/-!
One view for all kinds of nodes: a tree is a head with subtrees, a node is a head with the
slots that `cc_ast_coalesce` follows, and a tree denotes a reference if the heads agree and
the subtrees denote what the slots hold.
-/

namespace Estros

def Tree.subtrees : Tree → List Tree
  | .leaf _ => []
  | .block children => children
  | .newVar _ init typeDef _ => [typeDef, init]
  | .newType returnType children _ => returnType :: children
  | .ifExpr cond thenTree elseTree => [cond, thenTree, elseTree]
  | .ret value => [value]
  | .binop _ lhs rhs => [lhs, rhs]

def Tree.refill : Tree → List Tree → Tree
  | .block _, trees => .block trees
  | .newVar name _ _ flags, [typeDef, init] => .newVar name init typeDef flags
  | .newType _ _ flags, returnType :: children => .newType returnType children flags
  | .ifExpr _ _ _, [cond, thenTree, elseTree] => .ifExpr cond thenTree elseTree
  | .ret _, [value] => .ret value
  | .binop op _ _, [lhs, rhs] => .binop op lhs rhs
  | tree, _ => tree

@[simp] theorem refill_subtrees (tree : Tree) : tree.refill tree.subtrees = tree := by
  cases tree <;> rfl

theorem subtrees_refill {tree : Tree} {trees : List Tree}
    (fits : trees.length = tree.subtrees.length) : (tree.refill trees).subtrees = trees := by
  cases tree with
  | leaf _ => exact (List.eq_nil_of_length_eq_zero fits).symm
  | block _ => rfl
  | newVar _ _ _ _ =>
      obtain ⟨_, _, rfl⟩ := List.length_eq_two.mp fits
      rfl
  | newType _ _ _ =>
      obtain ⟨_, _, rfl⟩ := List.exists_cons_of_length_eq_add_one fits
      rfl
  | ifExpr _ _ _ =>
      obtain ⟨_, _, _, rfl⟩ := List.length_eq_three.mp fits
      rfl
  | ret _ =>
      obtain ⟨_, rfl⟩ := List.length_eq_one_iff.mp fits
      rfl
  | binop _ _ _ =>
      obtain ⟨_, _, rfl⟩ := List.length_eq_two.mp fits
      rfl

theorem refill_refill {tree : Tree} {trees others : List Tree}
    (fits : trees.length = tree.subtrees.length) (again : others.length = tree.subtrees.length) :
    (tree.refill trees).refill others = tree.refill others := by
  cases tree with
  | leaf _ => rfl
  | block _ => rfl
  | newVar _ _ _ _ =>
      obtain ⟨_, _, rfl⟩ := List.length_eq_two.mp fits
      obtain ⟨_, _, rfl⟩ := List.length_eq_two.mp again
      rfl
  | newType _ _ _ =>
      obtain ⟨_, _, rfl⟩ := List.exists_cons_of_length_eq_add_one fits
      obtain ⟨_, _, rfl⟩ := List.exists_cons_of_length_eq_add_one again
      rfl
  | ifExpr _ _ _ =>
      obtain ⟨_, _, _, rfl⟩ := List.length_eq_three.mp fits
      obtain ⟨_, _, _, rfl⟩ := List.length_eq_three.mp again
      rfl
  | ret _ =>
      obtain ⟨_, rfl⟩ := List.length_eq_one_iff.mp fits
      obtain ⟨_, rfl⟩ := List.length_eq_one_iff.mp again
      rfl
  | binop _ _ _ =>
      obtain ⟨_, _, rfl⟩ := List.length_eq_two.mp fits
      obtain ⟨_, _, rfl⟩ := List.length_eq_two.mp again
      rfl

theorem size_eq (tree : Tree) : tree.size = Tree.sizeAll tree.subtrees + 1 := by
  cases tree <;> simp [Tree.size, Tree.subtrees, Tree.sizeAll, Nat.add_assoc]

theorem size_le_sizeAll {trees : List Tree} {child : Tree} (member : child ∈ trees) :
    child.size ≤ Tree.sizeAll trees := by
  induction member with
  | head _ => exact Nat.le_add_right _ _
  | tail _ _ ih => exact Nat.le_trans ih (Nat.le_add_left _ _)

theorem size_subtree {tree child : Tree} (member : child ∈ tree.subtrees) :
    child.size < tree.size := by
  rw [size_eq tree]
  exact Nat.lt_succ_of_le (size_le_sizeAll member)

theorem Tree.inductSubtrees {property : Tree → Prop}
    (step : ∀ tree, (∀ child ∈ tree.subtrees, property child) → property tree) (tree : Tree) :
    property tree := by
  induction size : tree.size using Nat.strong_induction_on generalizing tree with
  | _ _ ih =>
      exact step tree fun child member =>
        ih child.size (size ▸ size_subtree member) child rfl

theorem stripAll_eq_map (trees : List Tree) : Tree.stripAll trees = trees.map Tree.strip := by
  induction trees with
  | nil => rfl
  | cons tree trees ih => rw [Tree.stripAll, ih, List.map_cons]

theorem strip_cases (tree : Tree) :
    (∃ only, tree = .block [only]) ∨
      (∀ only, tree ≠ .block [only]) ∧ tree.strip = tree.refill (tree.subtrees.map Tree.strip) := by
  cases tree with
  | block children =>
      match children with
      | [] => exact .inr ⟨fun _ same => (by cases same), rfl⟩
      | [only] => exact .inl ⟨only, rfl⟩
      | first :: second :: rest =>
          refine .inr ⟨fun _ same => (by cases same), ?_⟩
          rw [Tree.strip, stripAll_eq_map]
          rfl
  | newType returnType children flags =>
      refine .inr ⟨fun _ same => (by cases same), ?_⟩
      rw [Tree.strip, stripAll_eq_map]
      rfl
  | _ =>
      refine .inr ⟨fun _ same => (by cases same), ?_⟩
      rw [Tree.strip]
      rfl

theorem refill_ne_single {tree : Tree} {trees : List Tree}
    (fits : trees.length = tree.subtrees.length) (other : ∀ only, tree ≠ .block [only])
    (only : Tree) : tree.refill trees ≠ .block [only] := by
  intro same
  have single : [only] = trees := (congrArg Tree.subtrees same).symm.trans (subtrees_refill fits)
  obtain ⟨child, found⟩ := List.length_eq_one_iff.mp
    (fits.symm.trans (congrArg List.length single.symm))
  refine other child ?_
  calc tree = tree.refill tree.subtrees := (refill_subtrees tree).symm
    _ = (tree.refill trees).refill tree.subtrees := (refill_refill fits rfl).symm
    _ = .block [child] := by rw [same, found]; rfl

theorem strip_refill {tree : Tree} {trees : List Tree}
    (fits : trees.length = tree.subtrees.length) (other : ∀ only, tree ≠ .block [only]) :
    (tree.refill trees).strip = tree.refill (trees.map Tree.strip) := by
  obtain ⟨only, same⟩ | ⟨-, inside⟩ := strip_cases (tree.refill trees)
  · exact absurd same (refill_ne_single fits other only)
  · rw [inside, subtrees_refill fits, refill_refill fits ((List.length_map _).trans fits)]

theorem sizeAll_strip {trees : List Tree} (smaller : ∀ tree ∈ trees, tree.strip.size ≤ tree.size) :
    Tree.sizeAll (trees.map Tree.strip) ≤ Tree.sizeAll trees := by
  induction trees with
  | nil => exact Nat.le_refl _
  | cons tree trees ih =>
      rw [List.forall_mem_cons] at smaller
      exact Nat.add_le_add smaller.1 (ih smaller.2)

theorem strip_size (tree : Tree) : tree.strip.size ≤ tree.size := by
  induction tree using Tree.inductSubtrees with
  | step tree ih =>
      obtain ⟨only, rfl⟩ | ⟨-, inside⟩ := strip_cases tree
      · rw [strip_single]
        exact (ih only List.mem_cons_self).trans (size_subtree List.mem_cons_self).le
      · rw [inside, size_eq, size_eq tree, subtrees_refill (List.length_map _)]
        exact Nat.add_le_add_right (sizeAll_strip ih) 1

/-- `after` is `before` with some single-child blocks read as their child. -/
structure Lighter (before after : Tree) : Prop where
  strip : after.strip = before.strip
  size : after.size ≤ before.size
  clean : before.strip = before → after = before

theorem Lighter.refl (tree : Tree) : Lighter tree tree := ⟨rfl, Nat.le_refl _, fun _ => rfl⟩

theorem Lighter.trans {first middle last : Tree} (left : Lighter first middle)
    (right : Lighter middle last) : Lighter first last where
  strip := right.strip.trans left.strip
  size := right.size.trans left.size
  clean stripped := by
    cases left.clean stripped
    exact right.clean stripped

theorem strip_single_ne (only : Tree) : (Tree.block [only]).strip ≠ .block [only] := by
  intro same
  have smaller := strip_size only
  rw [← strip_single, same] at smaller
  exact absurd smaller (Nat.not_le_of_lt (size_subtree List.mem_cons_self))

theorem strip_subtree {tree child : Tree} (stripped : tree.strip = tree)
    (member : child ∈ tree.subtrees) : child.strip = child := by
  obtain ⟨only, rfl⟩ | ⟨-, inside⟩ := strip_cases tree
  · exact absurd stripped (strip_single_ne only)
  · have sized : (tree.subtrees.map Tree.strip).length = tree.subtrees.length := List.length_map _
    have refilled := subtrees_refill sized
    have same : tree.subtrees.map Tree.strip = tree.subtrees.map id := by
      rw [List.map_id, ← refilled, ← inside, stripped]
    exact List.map_inj_left.mp same child member

theorem strip_strip (tree : Tree) : tree.strip.strip = tree.strip := by
  induction tree using Tree.inductSubtrees with
  | step tree ih =>
      obtain ⟨only, rfl⟩ | ⟨other, inside⟩ := strip_cases tree
      · rw [strip_single]
        exact ih only List.mem_cons_self
      · rw [inside, strip_refill (List.length_map _) other, List.map_map]
        exact congrArg tree.refill (List.map_inj_left.mpr ih)

theorem Lighter.strips {befores afters : List Tree}
    (lighter : List.Forall₂ Lighter befores afters) :
    afters.map Tree.strip = befores.map Tree.strip := by
  induction lighter with
  | nil => rfl
  | cons head _ ih => rw [List.map_cons, List.map_cons, head.strip, ih]

theorem Lighter.sizes {befores afters : List Tree} (lighter : List.Forall₂ Lighter befores afters) :
    Tree.sizeAll afters ≤ Tree.sizeAll befores := by
  induction lighter with
  | nil => exact Nat.le_refl _
  | cons head _ ih => exact Nat.add_le_add head.size ih

theorem Lighter.cleans {befores afters : List Tree} (lighter : List.Forall₂ Lighter befores afters)
    (stripped : ∀ tree ∈ befores, tree.strip = tree) : afters = befores := by
  induction lighter with
  | nil => rfl
  | cons head _ ih =>
      rw [head.clean (stripped _ List.mem_cons_self),
        ih fun tree member => stripped tree (List.mem_cons_of_mem _ member)]

theorem Lighter.bounded {befores afters : List Tree} {bound : Nat}
    (lighter : List.Forall₂ Lighter befores afters) (small : ∀ tree ∈ befores, tree.size ≤ bound) :
    ∀ tree ∈ afters, tree.size ≤ bound := by
  induction lighter with
  | nil => exact fun _ member => absurd member List.not_mem_nil
  | cons head _ ih =>
      rw [List.forall_mem_cons] at small ⊢
      exact ⟨head.size.trans small.1, ih small.2⟩

theorem Lighter.refill {tree : Tree} {trees : List Tree}
    (lighter : List.Forall₂ Lighter tree.subtrees trees) : Lighter tree (tree.refill trees) where
  strip := by
    have fits := lighter.length_eq.symm
    obtain ⟨only, rfl⟩ | ⟨other, inside⟩ := strip_cases tree
    · obtain ⟨child, rfl⟩ := List.length_eq_one_iff.mp fits
      rw [strip_single]
      exact (strip_single child).trans (List.head_eq_of_cons_eq (Lighter.strips lighter))
    · rw [strip_refill fits other, Lighter.strips lighter, inside]
  size := by
    rw [size_eq, size_eq tree, subtrees_refill lighter.length_eq.symm]
    exact Nat.add_le_add_right (Lighter.sizes lighter) 1
  clean stripped := by
    rw [Lighter.cleans lighter fun _ => strip_subtree stripped, refill_subtrees]

/-! ### Nodes as a head and slots -/

/-- A node with the references that `cc_ast_coalesce` follows blanked out. -/
def CcAstNode.head : CcAstNode → CcAstNode
  | .newVar name _ _ flags => .newVar name 0 0 flags
  | .newType _ childs flags => .newType 0 childs flags
  | .ifExpr _ _ _ => .ifExpr 0 0 0
  | .ret _ => .ret 0
  | .binop op _ _ => .binop op 0 0
  | node => node

theorem head_of_isLeaf {node : CcAstNode} (kind : node.isLeaf = true) : node.head = node := by
  cases node <;> first | rfl | cases kind

theorem eq_of_head_leaf {node leaf : CcAstNode} (kind : leaf.isLeaf = true)
    (same : node.head = leaf) : node = leaf := by
  subst same
  cases node <;> first | rfl | cases kind

def CcState.childSlots (state : CcState) : ChildArray → List RefSlot
  | none => []
  | some array => (List.range (state.childArrays.getD array []).length).map (.child array)

/-- Where a node holds the references that `cc_ast_coalesce` follows, in its order. -/
def CcAstNode.slots (ref : CcAstNodeRef) (childSlots : ChildArray → List RefSlot) :
    CcAstNode → List RefSlot
  | .block childs => childSlots childs
  | .newType _ childs _ => .field ref .returnType :: childSlots childs
  | .newVar _ _ _ _ => [.field ref .typeDef, .field ref .init]
  | .ifExpr _ _ _ => [.field ref .cond, .field ref .thenRef, .field ref .elseRef]
  | .ret _ => [.field ref .retval]
  | .binop _ _ _ => [.field ref .lhs, .field ref .rhs]
  | _ => []

def CcState.slots (state : CcState) (ref : CcAstNodeRef) : List RefSlot :=
  (state.node ref).slots ref state.childSlots

theorem slots_head (ref : CcAstNodeRef) (childSlots : ChildArray → List RefSlot)
    (node : CcAstNode) : node.head.slots ref childSlots = node.slots ref childSlots := by
  cases node <;> rfl

theorem read_childSlots (state : CcState) (childs : ChildArray) :
    (state.childSlots childs).map state.readSlot = state.childs childs := by
  cases childs with
  | none => rfl
  | some array =>
      rw [CcState.childSlots, List.map_map]
      refine List.ext_getElem (by simp [CcState.childs]) fun index _ bound => ?_
      rw [List.getElem_map, List.getElem_range]
      exact (List.getElem_eq_getD 0).symm

def Tree.Heads (state : CcState) (tree : Tree) (ref : CcAstNodeRef) : Prop :=
  match tree with
  | .leaf node => (state.node ref).head = node ∧ node.isLeaf = true
  | .block _ => ∃ childs, (state.node ref).head = .block childs ∧ (state.array childs).isSome = true
  | .newVar name _ _ flags => (state.node ref).head = .newVar name 0 0 flags
  | .newType _ _ flags =>
      ∃ childs, (state.node ref).head = .newType 0 childs flags ∧
        (state.array childs).isSome = true
  | .ifExpr _ _ _ => (state.node ref).head = .ifExpr 0 0 0
  | .ret _ => (state.node ref).head = .ret 0
  | .binop op _ _ => (state.node ref).head = .binop op 0 0

theorem Tree.Heads.refill {state : CcState} {tree : Tree} {ref : CcAstNodeRef}
    (heads : tree.Heads state ref) {trees : List Tree}
    (fits : trees.length = tree.subtrees.length) : (tree.refill trees).Heads state ref := by
  cases tree with
  | newVar _ _ _ _ =>
      obtain ⟨_, _, rfl⟩ := List.length_eq_two.mp fits
      exact heads
  | newType _ _ _ =>
      obtain ⟨_, _, rfl⟩ := List.exists_cons_of_length_eq_add_one fits
      exact heads
  | ifExpr _ _ _ =>
      obtain ⟨_, _, _, rfl⟩ := List.length_eq_three.mp fits
      exact heads
  | ret _ =>
      obtain ⟨_, rfl⟩ := List.length_eq_one_iff.mp fits
      exact heads
  | binop _ _ _ =>
      obtain ⟨_, _, rfl⟩ := List.length_eq_two.mp fits
      exact heads
  | _ => exact heads

variable {state : CcState} {inside : Nat → Prop}

theorem array_eq_some {childs : ChildArray} (allocated : (state.array childs).isSome = true) :
    state.array childs = some (state.childs childs) := by
  cases childs with
  | none => rfl
  | some index =>
      obtain ⟨refs, found⟩ := Option.isSome_iff_exists.mp allocated
      rw [found, CcState.childs, List.getD_eq_getElem?_getD]
      exact congrArg some (congrArg (·.getD []) found).symm

theorem childs_of_array {childs : ChildArray} {refs : List CcAstNodeRef}
    (found : state.array childs = some refs) : state.childs childs = refs := by
  rw [array_eq_some (found ▸ rfl)] at found
  exact Option.some.inj found

theorem denoteAll_iff (trees : List Tree) (refs : List CcAstNodeRef) :
    Tree.DenoteAll state inside trees refs ↔
      List.Forall₂ (fun tree ref => tree.Denotes state inside ref) trees refs := by
  induction trees generalizing refs with
  | nil => rw [Tree.DenoteAll, List.forall₂_nil_left_iff]
  | cons tree trees ih =>
      rw [Tree.DenoteAll, List.forall₂_cons_left_iff]
      constructor
      · rintro ⟨ref, rest, rfl, head, tail⟩
        exact ⟨ref, rest, head, (ih rest).mp tail, rfl⟩
      · rintro ⟨ref, rest, head, tail, rfl⟩
        exact ⟨ref, rest, rfl, head, (ih rest).mpr tail⟩

def Tree.Fills (state : CcState) (inside : Nat → Prop) (tree : Tree) (slot : RefSlot) : Prop :=
  tree.Denotes state inside (state.readSlot slot)

theorem fills_field {tree : Tree} {ref : CcAstNodeRef} {node : CcAstNode} {field : RefField}
    (found : state.node ref = node) :
    tree.Fills state inside (.field ref field) ↔
      tree.Denotes state inside (node.readField field) := by
  rw [Tree.Fills, CcState.readSlot, found]

theorem denoteAll_childs (trees : List Tree) (childs : ChildArray) :
    Tree.DenoteAll state inside trees (state.childs childs) ↔
      List.Forall₂ (Tree.Fills state inside) trees (state.childSlots childs) := by
  rw [denoteAll_iff, ← read_childSlots, List.forall₂_map_right_iff]
  rfl

theorem eq_block_of_head {node : CcAstNode} {childs : ChildArray}
    (same : node.head = .block childs) : node = .block childs := by
  -- Nodes with the head of a block point to the same children.
  cases node <;> first | exact same | cases same

theorem Tree.Denotes.fills {tree : Tree} {ref : CcAstNodeRef}
    (denotes : tree.Denotes state inside ref) : inside ref.toNat ∧ tree.Heads state ref ∧
      List.Forall₂ (Tree.Fills state inside) tree.subtrees (state.slots ref) := by
  cases tree with
  | leaf node =>
      obtain ⟨member, found, kind⟩ := denotes
      refine ⟨member, ⟨by rw [found, head_of_isLeaf kind], kind⟩, ?_⟩
      rw [Tree.subtrees, List.forall₂_nil_left_iff, CcState.slots, found]
      cases node <;> first | rfl | cases kind
  | block children =>
      obtain ⟨member, childs, refs, found, allocated, all⟩ := denotes
      cases childs_of_array allocated
      refine ⟨member, ⟨childs, by rw [found]; rfl, allocated ▸ rfl⟩, ?_⟩
      rw [CcState.slots, found]
      exact (denoteAll_childs children childs).mp all
  | newType returnType children flags =>
      obtain ⟨member, returnRef, childs, refs, found, allocated, first, all⟩ := denotes
      cases childs_of_array allocated
      refine ⟨member, ⟨childs, by rw [found]; rfl, allocated ▸ rfl⟩, ?_⟩
      rw [CcState.slots, found]
      exact .cons ((fills_field found).mpr first) ((denoteAll_childs children childs).mp all)
  | newVar name init typeDef flags =>
      obtain ⟨member, initRef, typeRef, found, first, second⟩ := denotes
      refine ⟨member, by rw [Tree.Heads, found]; rfl, ?_⟩
      rw [CcState.slots, found]
      exact .cons ((fills_field found).mpr second) (.cons ((fills_field found).mpr first) .nil)
  | ifExpr cond thenTree elseTree =>
      obtain ⟨member, condRef, thenRef, elseRef, found, first, second, third⟩ := denotes
      refine ⟨member, by rw [Tree.Heads, found]; rfl, ?_⟩
      rw [CcState.slots, found]
      exact .cons ((fills_field found).mpr first)
        (.cons ((fills_field found).mpr second) (.cons ((fills_field found).mpr third) .nil))
  | ret value =>
      obtain ⟨member, valueRef, found, first⟩ := denotes
      refine ⟨member, by rw [Tree.Heads, found]; rfl, ?_⟩
      rw [CcState.slots, found]
      exact .cons ((fills_field found).mpr first) .nil
  | binop op lhs rhs =>
      obtain ⟨member, lhsRef, rhsRef, found, first, second⟩ := denotes
      refine ⟨member, by rw [Tree.Heads, found]; rfl, ?_⟩
      rw [CcState.slots, found]
      exact .cons ((fills_field found).mpr first) (.cons ((fills_field found).mpr second) .nil)

theorem Tree.Heads.denotes {tree : Tree} {ref : CcAstNodeRef} (heads : tree.Heads state ref)
    (member : inside ref.toNat)
    (fills : List.Forall₂ (Tree.Fills state inside) tree.subtrees (state.slots ref)) :
    tree.Denotes state inside ref := by
  cases tree with
  | leaf node => exact ⟨member, eq_of_head_leaf heads.2 heads.1, heads.2⟩
  | block children =>
      obtain ⟨childs, same, allocated⟩ := heads
      have found := eq_block_of_head same
      rw [CcState.slots, found] at fills
      exact ⟨member, childs, _, found, array_eq_some allocated,
        (denoteAll_childs children childs).mpr fills⟩
  | newType returnType children flags =>
      obtain ⟨childs, same, allocated⟩ := heads
      cases found : state.node ref with
      | newType returnRef array other =>
          rw [found] at same
          cases same
          rw [CcState.slots, found] at fills
          obtain ⟨first, all⟩ := List.forall₂_cons.mp fills
          exact ⟨member, returnRef, childs, _, found, array_eq_some allocated,
            (fills_field found).mp first, (denoteAll_childs children childs).mpr all⟩
      | _ => rw [found] at same; cases same
  | newVar name init typeDef flags =>
      cases found : state.node ref with
      | newVar other initRef typeRef marks =>
          rw [Tree.Heads, found] at heads
          cases heads
          rw [CcState.slots, found] at fills
          simp only [Tree.subtrees, CcAstNode.slots, List.forall₂_cons, fills_field found] at fills
          exact ⟨member, initRef, typeRef, found, fills.2.1, fills.1⟩
      | _ => rw [Tree.Heads, found] at heads; cases heads
  | ifExpr cond thenTree elseTree =>
      cases found : state.node ref with
      | ifExpr condRef thenRef elseRef =>
          rw [CcState.slots, found] at fills
          simp only [Tree.subtrees, CcAstNode.slots, List.forall₂_cons, fills_field found] at fills
          exact ⟨member, condRef, thenRef, elseRef, found, fills.1, fills.2.1, fills.2.2.1⟩
      | _ => rw [Tree.Heads, found] at heads; cases heads
  | ret value =>
      cases found : state.node ref with
      | ret valueRef =>
          rw [CcState.slots, found] at fills
          simp only [Tree.subtrees, CcAstNode.slots, List.forall₂_cons, fills_field found] at fills
          exact ⟨member, valueRef, found, fills.1⟩
      | _ => rw [Tree.Heads, found] at heads; cases heads
  | binop op lhs rhs =>
      cases found : state.node ref with
      | binop other lhsRef rhsRef =>
          rw [Tree.Heads, found] at heads
          cases heads
          rw [CcState.slots, found] at fills
          simp only [Tree.subtrees, CcAstNode.slots, List.forall₂_cons, fills_field found] at fills
          exact ⟨member, lhsRef, rhsRef, found, fills.1, fills.2.1⟩
      | _ => rw [Tree.Heads, found] at heads; cases heads

/-- A tree denotes a reference if the heads agree and the slots hold its subtrees. -/
theorem denotes_iff_fills (tree : Tree) (ref : CcAstNodeRef) :
    tree.Denotes state inside ref ↔ inside ref.toNat ∧ tree.Heads state ref ∧
      List.Forall₂ (Tree.Fills state inside) tree.subtrees (state.slots ref) := by
  constructor
  · exact Tree.Denotes.fills
  · rintro ⟨member, heads, fills⟩
    exact heads.denotes member fills

end Estros
