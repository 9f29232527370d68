import Estros.SsaViews

/-!
The ids of the tokens. The counter is bumped at every node that the lowering visits and has
twelve bits, and parameters and temporals are numbered in the same space: whether a
function's ids are apart is a matter of the numbers of the nodes that push a token.
-/

namespace Estros

mutual

/-- The nodes that push a token, by the number of their visit; the root's number is `first`. -/
def Tree.emitters : Tree → Nat → List Nat
  | .leaf (.refVar _), first => [first]
  | .leaf _, _ => []
  | .block children, first => Tree.emittersAll children (first + 1)
  | .newVar _ init typeDef _, first =>
      typeDef.emitters (first + 1) ++ init.emitters (first + 1 + typeDef.size)
  | .newType returnType children _, first =>
      returnType.emitters (first + 1) ++ Tree.emittersAll children (first + 1 + returnType.size)
  | .ifExpr cond thenTree elseTree, first =>
      cond.emitters (first + 1) ++ thenTree.emitters (first + 1 + cond.size) ++
        elseTree.emitters (first + 1 + cond.size + thenTree.size)
  | .ret value, first => value.emitters (first + 1) ++ [first]
  | .binop _ lhs rhs, first =>
      lhs.emitters (first + 1) ++ rhs.emitters (first + 1 + lhs.size) ++ [first]

def Tree.emittersAll : List Tree → Nat → List Nat
  | [], _ => []
  | tree :: trees, first => tree.emitters first ++ Tree.emittersAll trees (first + tree.size)

end

structure Numbered (first size : Nat) (numbers : List Nat) (low : Lowered) : Prop where
  next : low.next = BitVec.ofNat 12 (first + size)
  ids : low.toks.map (fun tok => tok.result.id) = numbers.map (BitVec.ofNat 12)

theorem Numbered.next_eq {first size other last : Nat} {numbers : List Nat} {low : Lowered}
    (numbered : Numbered first size numbers low) (same : first + size = other + last) :
    low.next = BitVec.ofNat 12 (other + last) := by
  rw [numbered.next, same]

theorem ofNat_next (first : Nat) : BitVec.ofNat 12 first + 1 = BitVec.ofNat 12 (first + 1) := by
  rw [BitVec.ofNat_add]
  rfl

section Numbers

variable {lookup : CcStrview → Except Halt Nat}

mutual

-- A node draws its number before those below it, which go on from where the one before ended.
theorem lower_numbered : ∀ (tree : Tree) (first : Nat) (low : Lowered),
    tree.lower lookup (BitVec.ofNat 12 first) = .ok low →
      Numbered first tree.size (tree.emitters first) low
  | .leaf node, first, low, lowered => by
      cases node with
      | refVar name =>
          obtain ⟨i, _, rfl⟩ := lower_refVar_ok lowered
          exact ⟨ofNat_next first, rfl⟩
      | _ =>
          cases Except.ok.inj lowered
          exact ⟨ofNat_next first, rfl⟩
  | .block children, first, low, lowered => by
      obtain ⟨all, done, last⟩ := bind_eq_ok lowered
      cases Except.ok.inj last
      rw [ofNat_next] at done
      have inner := lowerAll_numbered children _ all done
      exact ⟨inner.next_eq (by rw [Tree.size]; omega), inner.ids⟩
  | .newVar _ init typeDef _, first, low, lowered => by
      obtain ⟨left, leftDone, rest⟩ := bind_eq_ok lowered
      obtain ⟨right, rightDone, last⟩ := bind_eq_ok rest
      cases Except.ok.inj last
      rw [ofNat_next] at leftDone
      have one := lower_numbered typeDef _ left leftDone
      rw [one.next] at rightDone
      have two := lower_numbered init _ right rightDone
      constructor
      · exact two.next_eq (by rw [Tree.size]; omega)
      · rw [List.map_append, one.ids, two.ids, Tree.emitters, List.map_append]
  | .newType returnType children _, first, low, lowered => by
      obtain ⟨left, leftDone, rest⟩ := bind_eq_ok lowered
      obtain ⟨right, rightDone, last⟩ := bind_eq_ok rest
      cases Except.ok.inj last
      rw [ofNat_next] at leftDone
      have one := lower_numbered returnType _ left leftDone
      rw [one.next] at rightDone
      have two := lowerAll_numbered children _ right rightDone
      constructor
      · exact two.next_eq (by rw [Tree.size]; omega)
      · rw [List.map_append, one.ids, two.ids, Tree.emitters, List.map_append]
  | .ifExpr cond yes no, first, low, lowered => by
      obtain ⟨left, leftDone, rest⟩ := bind_eq_ok lowered
      obtain ⟨middle, middleDone, more⟩ := bind_eq_ok rest
      obtain ⟨right, rightDone, last⟩ := bind_eq_ok more
      cases Except.ok.inj last
      rw [ofNat_next] at leftDone
      have one := lower_numbered cond _ left leftDone
      rw [one.next] at middleDone
      have two := lower_numbered yes _ middle middleDone
      rw [two.next] at rightDone
      have three := lower_numbered no _ right rightDone
      constructor
      · exact three.next_eq (by rw [Tree.size]; omega)
      · rw [List.map_append, List.map_append, one.ids, two.ids, three.ids, Tree.emitters,
          List.map_append, List.map_append]
  | .ret value, first, low, lowered => by
      obtain ⟨inner, done, rfl⟩ := lower_ret_ok lowered
      rw [ofNat_next] at done
      have one := lower_numbered value _ inner done
      constructor
      · exact one.next_eq (by rw [Tree.size]; omega)
      · rw [List.map_append, one.ids, Tree.emitters, List.map_append]
        rfl
  | .binop op lhs rhs, first, low, lowered => by
      obtain ⟨left, right, leftDone, rightDone, _, rfl⟩ := lower_binop_ok lowered
      rw [ofNat_next] at leftDone
      have one := lower_numbered lhs _ left leftDone
      rw [one.next] at rightDone
      have two := lower_numbered rhs _ right rightDone
      constructor
      · exact two.next_eq (by rw [Tree.size]; omega)
      · rw [List.map_append, List.map_append, one.ids, two.ids, Tree.emitters, List.map_append,
          List.map_append]
        rfl

theorem lowerAll_numbered : ∀ (trees : List Tree) (first : Nat) (low : Lowered),
    Tree.lowerAll lookup trees (BitVec.ofNat 12 first) = .ok low →
      Numbered first (Tree.sizeAll trees) (Tree.emittersAll trees first) low
  | [], first, low, lowered => by
      cases Except.ok.inj lowered
      exact ⟨rfl, rfl⟩
  | tree :: trees, first, low, lowered => by
      obtain ⟨head, headDone, rest⟩ := bind_eq_ok lowered
      obtain ⟨tail, tailDone, last⟩ := bind_eq_ok rest
      cases Except.ok.inj last
      have one := lower_numbered tree _ head headDone
      rw [one.next] at tailDone
      have two := lowerAll_numbered trees _ tail tailDone
      constructor
      · exact two.next_eq (by rw [Tree.sizeAll]; omega)
      · rw [List.map_append, one.ids, two.ids, Tree.emittersAll, List.map_append]

end

end Numbers

/-- The result ids of a function's tokens are distinct, none is below the first temporal, and
none is the id of a parameter. -/
def SingleAssignment (params : Nat) (ids : List (BitVec 12)) : Prop :=
  ids.Nodup ∧ ∀ id ∈ ids, ccSsaFirstTemporal ≤ id ∧ ∀ k < params, id ≠ ccSsaIdParam k

/-- The numbers, as the twelve bits of an id keep them, are distinct and behind both the ids
reserved for parameters and the ids that the parameters really have. -/
def Separate (params : Nat) (numbers : List Nat) : Prop :=
  (numbers.map (· % 4096)).Nodup ∧
    ∀ number ∈ numbers, 32 ≤ number % 4096 ∧ params + 2 ≤ number % 4096

theorem single_iff_separate (params : Nat) (numbers : List Nat) :
    SingleAssignment params (numbers.map (BitVec.ofNat 12)) ↔ Separate params numbers := by
  have kept : (numbers.map (BitVec.ofNat 12)).map BitVec.toNat = numbers.map (· % 4096) := by
    rw [List.map_map]
    rfl
  have apart : (numbers.map (BitVec.ofNat 12)).Nodup ↔ (numbers.map (· % 4096)).Nodup := by
    rw [← kept, List.nodup_map_iff fun _ _ => BitVec.eq_of_toNat_eq]
  have free (number : Nat) : (∀ k < params, BitVec.ofNat 12 number ≠ ccSsaIdParam k) ∧
      32 ≤ number % 4096 ↔ 32 ≤ number % 4096 ∧ params + 2 ≤ number % 4096 := by
    constructor
    · rintro ⟨other, temporal⟩
      refine ⟨temporal, ?_⟩
      by_contra low
      refine other (number % 4096 - 2) (by omega) (BitVec.eq_of_toNat_eq ?_)
      rw [ccSsaIdParam, BitVec.toNat_ofNat, BitVec.toNat_ofNat]
      omega
    · rintro ⟨temporal, high⟩
      refine ⟨fun k below same => ?_, temporal⟩
      have values := congrArg BitVec.toNat same
      rw [ccSsaIdParam, BitVec.toNat_ofNat, BitVec.toNat_ofNat] at values
      omega
  rw [SingleAssignment, Separate, apart]
  refine and_congr_right fun _ => ?_
  simp only [List.mem_map, forall_exists_index, and_imp, forall_apply_eq_imp_iff₂]
  refine forall₂_congr fun number _ => ?_
  rw [← free number, and_comm]
  exact and_congr_right fun _ => by rw [BitVec.le_def, BitVec.toNat_ofNat]; rfl

def CcState.paramCount (state : CcState) (n : CcAstNodeRef) : Nat :=
  match state.node n with
  | .newVar _ _ typeDef _ =>
      match state.node typeDef with
      | .newType _ childs _ => (state.childs childs).length
      | _ => 0
  | _ => 0

/-- The tokens of a function are in single assignment form if and only if the nodes that push
them have numbers that stay apart in twelve bits. -/
theorem fromAstVar_single_iff {state after : CcState} {inside : Nat → Prop} {tree : Tree}
    {ref : CcAstNodeRef} {fuel : Nat} (denoted : tree.Denotes state inside ref)
    (enough : tree.size ≤ fuel) (done : ccSsaFromAstVar fuel state ref = .ok after) :
    SingleAssignment (state.paramCount ref)
        ((after.ssaTokens.drop state.ssaTokens.length).map fun tok => tok.result.id) ↔
      Separate (state.paramCount ref) (tree.body.emitters 32) := by
  obtain ⟨name, lookup, low, lowered, rfl⟩ :=
    fromAstVar_lowered (.refl state) denoted enough done
  have numbered := lower_numbered tree.body 32 low lowered
  have pushed : ((state.addFunction name).pushSsaTokens state.ssaFuncs.length
      low.toks).ssaTokens.drop state.ssaTokens.length = low.toks := List.drop_left
  rw [pushed, numbered.ids]
  exact single_iff_separate _ _

structure Spread (first size : Nat) (numbers : List Nat) : Prop where
  nodup : numbers.Nodup
  bounds : ∀ number ∈ numbers, first ≤ number ∧ number < first + size

theorem Spread.nil (first size : Nat) : Spread first size [] :=
  ⟨List.nodup_nil, fun _ member => absurd member List.not_mem_nil⟩

theorem Spread.append {first before behind : Nat} {left right : List Nat}
    (one : Spread first before left) (two : Spread (first + before) behind right) :
    Spread first (before + behind) (left ++ right) := by
  constructor
  · refine List.nodup_append.mpr ⟨one.nodup, two.nodup, fun number inLeft other inRight same => ?_⟩
    have low := (one.bounds number inLeft).2
    have high := (two.bounds other inRight).1
    omega
  · intro number member
    rcases List.mem_append.mp member with inLeft | inRight
    · have bound := one.bounds number inLeft
      omega
    · have bound := two.bounds number inRight
      omega

theorem Spread.children {first size : Nat} {numbers : List Nat}
    (inner : Spread (first + 1) size numbers) : Spread first (size + 1) numbers := by
  -- The root has the first number, and those of its children follow.
  refine ⟨inner.nodup, fun number member => ?_⟩
  have bound := inner.bounds number member
  omega

theorem Spread.root {first size : Nat} {numbers : List Nat}
    (inner : Spread (first + 1) size numbers) : Spread first (size + 1) (numbers ++ [first]) := by
  constructor
  · refine List.nodup_append.mpr ⟨inner.nodup, List.nodup_singleton _, ?_⟩
    intro number member other last same
    have bound := inner.bounds number member
    have root := List.mem_singleton.mp last
    omega
  · intro number member
    rcases List.mem_append.mp member with inside | last
    · have bound := inner.bounds number inside
      omega
    · have root := List.mem_singleton.mp last
      omega

mutual

theorem emitters_spread : ∀ (tree : Tree) (first : Nat), Spread first tree.size (tree.emitters first)
  | .leaf node, first => by
      cases node with
      | refVar name => exact .root (.nil (first + 1) 0)
      | _ => exact .nil first 1
  | .block children, first => by
      exact (emittersAll_spread children (first + 1)).children
  | .newVar _ init typeDef _, first => by
      exact ((emitters_spread typeDef _).append (emitters_spread init _)).children
  | .newType returnType children _, first => by
      exact ((emitters_spread returnType _).append (emittersAll_spread children _)).children
  | .ifExpr cond yes no, first => by
      have front := (emitters_spread cond (first + 1)).append (emitters_spread yes _)
      have back := emitters_spread no (first + 1 + cond.size + yes.size)
      rw [Nat.add_assoc (first + 1)] at back
      rw [Tree.emitters, Nat.add_assoc (first + 1) cond.size yes.size]
      exact (front.append back).children
  | .ret value, first => by
      exact (emitters_spread value (first + 1)).root
  | .binop _ lhs rhs, first => by
      exact ((emitters_spread lhs _).append (emitters_spread rhs _)).root

theorem emittersAll_spread : ∀ (trees : List Tree) (first : Nat),
    Spread first (Tree.sizeAll trees) (Tree.emittersAll trees first)
  | [], first => .nil first 0
  | tree :: trees, first => (emitters_spread tree first).append (emittersAll_spread trees _)

end

/-- Up to 4064 nodes and 30 parameters the counter does not wrap and meets no parameter. -/
theorem separate_small {params : Nat} {body : Tree} (nodes : body.size ≤ 4064)
    (few : params ≤ 30) : Separate params (body.emitters 32) := by
  have spread := emitters_spread body 32
  have small : (body.emitters 32).map (· % 4096) = body.emitters 32 := by
    rw [List.map_congr_left fun number member => ?_, List.map_id']
    have bound := spread.bounds number member
    exact Nat.mod_eq_of_lt (by omega)
  rw [Separate, small]
  refine ⟨spread.nodup, fun number member => ?_⟩
  have bound := spread.bounds number member
  rw [Nat.mod_eq_of_lt (by omega : number < 4096)]
  omega

def paramsState (count : Nat) : CcState :=
  { CcState.start (102 :: (List.range count).map fun i =>
        if i < 26 then UInt8.ofNat (97 + i) else UInt8.ofNat (39 + i)) [] with
    nodes := [.invalid, .refVar ⟨1, 1⟩, .ret 1, .block (some 0),
      .newType 5 (some 1) ccAstTypeFlagsFunction, .newType 0 none 4, .newVar ⟨0, 1⟩ 3 4 0] ++
      (List.range count).map fun i => .newVar ⟨BitVec.ofNat 24 (1 + i), 1⟩ 0 5 0
    childArrays := [[2], (List.range count).map fun i => refOf (7 + i)]
    nodesWritten := Nat.zero_le _ }

def identityUnit : Tree :=
  .newVar ⟨0, 1⟩ (.block [.ret (.leaf (.refVar ⟨1, 1⟩))])
    (.newType intTree [.newVar ⟨1, 1⟩ (.leaf .invalid) intTree 0] ccAstTypeFlagsFunction) 0

theorem fromAstVar_single_params :
    ∃ after, ccSsaFromAstVar 20 (paramsState 1) 6 = .ok after ∧
      (SingleAssignment 1 (after.ssaTokens.map fun tok => tok.result.id) ↔
        Separate 1 [34, 33]) := by
  have int : intTree.Denotes (paramsState 1) (fun _ => True) 5 :=
    ⟨trivial, 0, none, [], rfl, rfl, ⟨trivial, rfl, rfl⟩, rfl⟩
  have param : (Tree.newVar ⟨1, 1⟩ (.leaf .invalid) intTree 0).Denotes (paramsState 1)
      (fun _ => True) 7 := ⟨trivial, 0, 5, rfl, ⟨trivial, rfl, rfl⟩, int⟩
  have body : (Tree.block [.ret (.leaf (.refVar ⟨1, 1⟩))]).Denotes (paramsState 1)
      (fun _ => True) 3 :=
    ⟨trivial, some 0, [2], rfl, rfl, 2, [], rfl, ⟨trivial, 1, rfl, trivial, rfl, rfl⟩, rfl⟩
  have denoted : identityUnit.Denotes (paramsState 1) (fun _ => True) 6 :=
    ⟨trivial, 3, 4, rfl, body, trivial, 5, some 1, [7], rfl, rfl, int, 7, [], rfl, param, rfl⟩
  have enough : identityUnit.size ≤ 20 := by decide
  exact ⟨_, rfl, fromAstVar_single_iff denoted enough rfl⟩

theorem paramsState_lowered :
    ((ccSsaFromAstVar 20 (paramsState 32) 6).toOption.map fun after =>
      after.ssaTokens.map fun tok => tok.result.id) = some [34, 33] := by
  decide +kernel

/-- The last of 32 parameters has the id 33, and so has the `RETURN` token. -/
theorem fromAstVar_not_single :
    (paramsState 32).paramCount 6 = 32 ∧ ∃ after,
      ccSsaFromAstVar 20 (paramsState 32) 6 = .ok after ∧
        ¬ SingleAssignment ((paramsState 32).paramCount 6)
          (after.ssaTokens.map fun tok => tok.result.id) := by
  have count : (paramsState 32).paramCount 6 = 32 := by decide +kernel
  have evaluated := paramsState_lowered
  refine ⟨count, ?_⟩
  rw [count]
  generalize ccSsaFromAstVar 20 (paramsState 32) 6 = outcome at evaluated ⊢
  -- The run itself was evaluated above; only its ids matter here.
  cases outcome with
  | error why => cases evaluated
  | ok after =>
      refine ⟨after, rfl, fun single => ?_⟩
      have ids : after.ssaTokens.map (fun tok => tok.result.id) = [34, 33] :=
        Option.some.inj evaluated
      rw [ids] at single
      exact (single.2 33 (by simp)).2 31 (by decide) rfl

end Estros
