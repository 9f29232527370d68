import Estros.SsaLowering
import Estros.Tiling

/-!
The token views of the functions. A view's length is counted one push at a time in eight
bits and its position stored in 24, so the views tile the token array exactly as long as no
function pushes 256 tokens and none starts behind token 2^24.
-/

namespace Estros

mutual

def Tree.emits : Tree → Nat
  | .leaf (.refVar _) => 1
  | .leaf _ => 0
  | .block children => Tree.emitsAll children
  | .newVar _ init typeDef _ => typeDef.emits + init.emits
  | .newType returnType children _ => returnType.emits + Tree.emitsAll children
  | .ifExpr cond thenTree elseTree => cond.emits + thenTree.emits + elseTree.emits
  | .ret value => value.emits + 1
  | .binop _ lhs rhs => lhs.emits + rhs.emits + 1

def Tree.emitsAll : List Tree → Nat
  | [] => 0
  | tree :: trees => tree.emits + Tree.emitsAll trees

end

section Counts

variable {lookup : CcStrview → Except Halt Nat}

mutual

theorem lower_count : ∀ (tree : Tree) (id : BitVec 12) (low : Lowered),
    tree.lower lookup id = .ok low → low.toks.length = tree.emits
  | .leaf node, id, low, lowered => by
      cases node with
      | refVar name =>
          obtain ⟨i, _, rfl⟩ := lower_refVar_ok lowered
          rfl
      | _ =>
          cases Except.ok.inj lowered
          rfl
  | .block children, id, low, lowered => by
      obtain ⟨all, done, last⟩ := bind_eq_ok lowered
      cases Except.ok.inj last
      exact lowerAll_count children _ all done
  | .newVar _ init typeDef _, id, low, lowered => by
      obtain ⟨first, firstDone, rest⟩ := bind_eq_ok lowered
      obtain ⟨second, secondDone, last⟩ := bind_eq_ok rest
      cases Except.ok.inj last
      rw [List.length_append, lower_count typeDef _ first firstDone,
        lower_count init _ second secondDone, Tree.emits]
  | .newType returnType children _, id, low, lowered => by
      obtain ⟨first, firstDone, rest⟩ := bind_eq_ok lowered
      obtain ⟨all, allDone, last⟩ := bind_eq_ok rest
      cases Except.ok.inj last
      rw [List.length_append, lower_count returnType _ first firstDone,
        lowerAll_count children _ all allDone, Tree.emits]
  | .ifExpr cond yes no, id, low, lowered => by
      obtain ⟨first, firstDone, rest⟩ := bind_eq_ok lowered
      obtain ⟨second, secondDone, more⟩ := bind_eq_ok rest
      obtain ⟨third, thirdDone, last⟩ := bind_eq_ok more
      cases Except.ok.inj last
      rw [List.length_append, List.length_append, lower_count cond _ first firstDone,
        lower_count yes _ second secondDone, lower_count no _ third thirdDone, Tree.emits]
  | .ret value, id, low, lowered => by
      obtain ⟨inner, done, rfl⟩ := lower_ret_ok lowered
      rw [List.length_append, lower_count value _ inner done, Tree.emits]
      rfl
  | .binop op lhs rhs, id, low, lowered => by
      obtain ⟨left, right, leftDone, rightDone, _, rfl⟩ := lower_binop_ok lowered
      rw [List.length_append, List.length_append, lower_count lhs _ left leftDone,
        lower_count rhs _ right rightDone, Tree.emits]
      rfl

theorem lowerAll_count : ∀ (trees : List Tree) (id : BitVec 12) (low : Lowered),
    Tree.lowerAll lookup trees id = .ok low → low.toks.length = Tree.emitsAll trees
  | [], id, low, lowered => by
      cases Except.ok.inj lowered
      rfl
  | tree :: trees, id, low, lowered => by
      obtain ⟨first, firstDone, rest⟩ := bind_eq_ok lowered
      obtain ⟨all, allDone, last⟩ := bind_eq_ok rest
      cases Except.ok.inj last
      rw [List.length_append, lower_count tree _ first firstDone,
        lowerAll_count trees _ all allDone, Tree.emitsAll]

end

end Counts

def CcSsaFunction.segment (func : CcSsaFunction) : Segment :=
  ⟨func.tokens.pos.toNat, func.tokens.len.toNat⟩

def Tree.body : Tree → Tree
  | .newVar _ init _ _ => init
  | tree => tree

def Tree.declarations : Tree → List Tree
  | .block children => children
  | tree => [tree]

/-- The tokens that each function of a unit pushes. -/
def Tree.bodyCounts (unit : Tree) : List Nat := unit.declarations.map fun decl => decl.body.emits

/-- What lowering the functions does: it adds their views and their tokens, nothing else. -/
structure AddsViews (before after : CcState) (counts : List Nat) : Prop where
  sameAst : SameAst before after
  tokens : after.ssaTokens.length = before.ssaTokens.length + counts.sum
  views : ∃ added, after.ssaFuncs = before.ssaFuncs ++ added ∧
    added.map CcSsaFunction.segment =
      storedSegments (2 ^ 24) (2 ^ 8) before.ssaTokens.length counts

theorem SameAst.refl (state : CcState) : SameAst state state := ⟨rfl, rfl, rfl⟩

theorem SameAst.trans {first middle last : CcState} (one : SameAst first middle)
    (two : SameAst middle last) : SameAst first last :=
  ⟨two.nodes.trans one.nodes, two.arrays.trans one.arrays, two.data.trans one.data⟩

theorem AddsViews.refl (state : CcState) : AddsViews state state [] :=
  ⟨.refl state, rfl, [], (List.append_nil _).symm, rfl⟩

theorem AddsViews.cons {first middle last : CcState} {count : Nat} {counts : List Nat}
    (head : AddsViews first middle [count]) (tail : AddsViews middle last counts) :
    AddsViews first last (count :: counts) := by
  obtain ⟨front, addFront, frontViews⟩ := head.views
  obtain ⟨back, addBack, backViews⟩ := tail.views
  have reached : middle.ssaTokens.length = first.ssaTokens.length + count := by
    rw [head.tokens, List.sum_singleton]
  refine ⟨head.sameAst.trans tail.sameAst, ?_, front ++ back, ?_, ?_⟩
  · rw [tail.tokens, reached, List.sum_cons, Nat.add_assoc]
  · rw [addBack, addFront, List.append_assoc]
  · rw [List.map_append, frontViews, backViews, reached]
    rfl

theorem modify_last (funcs : List CcSsaFunction) (func : CcSsaFunction)
    (update : CcSsaFunction → CcSsaFunction) :
    (funcs ++ [func]).modify funcs.length update = funcs ++ [update func] := by
  induction funcs with
  | nil => rfl
  | cons head rest ih => rw [List.cons_append, List.length_cons, List.modify_succ_cons, ih]; rfl

theorem fromAstVar_ok {state after : CcState} {ref : CcAstNodeRef} {fuel : Nat}
    (done : ccSsaFromAstVar fuel state ref = .ok after) :
    ∃ name init typeDef flags arg emit, state.node ref = .newVar name init typeDef flags ∧
      runEmit (ccSsaFromAstWithinFunc fuel init)
        ⟨state.addFunction name, state.ssaFuncs.length, ccSsaFirstTemporal, typeDef⟩ =
          .ok (arg, emit) ∧ after = emit.state := by
  rw [ccSsaFromAstVar] at done
  cases node : state.node ref with
  | newVar name init typeDef flags =>
      simp only [node] at done
      cases type : state.node typeDef with
      | newType returnType childs typeFlags =>
          simp only [type] at done
          by_cases function : typeFlags = ccAstTypeFlagsFunction
          · rw [if_pos function] at done
            obtain ⟨⟨arg, emit⟩, ran, last⟩ := bind_eq_ok done
            exact ⟨name, init, typeDef, flags, arg, emit, rfl, ran, (Except.ok.inj last).symm⟩
          · rw [if_neg function] at done
            cases done
      | _ =>
          simp only [type] at done
          cases done
  | _ =>
      simp only [node] at done
      cases done

theorem emitOutcome_ok {α : Type} {value : Lowered → α} {emit after : CcSsaEmitter}
    {lowering : Except Halt Lowered} {result : α}
    (ran : emitOutcome value emit lowering = .ok (result, after)) :
    ∃ low, lowering = .ok low ∧ after = emit.emitted low := by
  cases lowering with
  | error why => cases ran
  | ok low => exact ⟨low, rfl, (Prod.mk.inj (Except.ok.inj ran)).2.symm⟩

theorem fromAstVar_lowered {ast state after : CcState} {inside : Nat → Prop} {tree : Tree}
    {ref : CcAstNodeRef} {fuel : Nat} (same : SameAst ast state)
    (denoted : tree.Denotes ast inside ref) (enough : tree.size ≤ fuel)
    (done : ccSsaFromAstVar fuel state ref = .ok after) :
    ∃ name lookup low, tree.body.lower lookup ccSsaFirstTemporal = .ok low ∧
      after = (state.addFunction name).pushSsaTokens state.ssaFuncs.length low.toks := by
  obtain ⟨name, initRef, typeRef, flags, arg, emit, node, ran, rfl⟩ := fromAstVar_ok done
  rw [same.node ref] at node
  have shape := denoted.shape
  rw [node] at shape
  cases tree with
  | newVar treeName init typeDef treeFlags =>
      obtain ⟨_, _, _, again, initDenoted, _⟩ := denoted
      cases node.symm.trans again
      rw [Tree.size] at enough
      have added : SameAst ast (state.addFunction name) := ⟨same.nodes, same.arrays, same.data⟩
      have lowers : LowersTo ast typeRef fuel init initRef :=
        Tree.Denotes.lowersTo init fuel initRef initDenoted (by omega)
      obtain ⟨low, lowered, rfl⟩ := emitOutcome_ok ((lowers _ added rfl).symm.trans ran)
      exact ⟨name, _, low, lowered, rfl⟩
  | _ => exact absurd shape (by simp [Tree.shape, CcAstNode.shape])

theorem fromAstVar_adds {ast state after : CcState} {inside : Nat → Prop} {tree : Tree}
    {ref : CcAstNodeRef} {fuel : Nat} (same : SameAst ast state)
    (denoted : tree.Denotes ast inside ref) (enough : tree.size ≤ fuel)
    (done : ccSsaFromAstVar fuel state ref = .ok after) :
    AddsViews state after [tree.body.emits] := by
  obtain ⟨name, lookup, low, lowered, rfl⟩ := fromAstVar_lowered same denoted enough done
  have count := lower_count tree.body _ low lowered
  refine ⟨⟨rfl, rfl, rfl⟩, ?_, _, modify_last state.ssaFuncs _ _, ?_⟩
  · rw [List.sum_singleton, ← count]
    exact List.length_append
  · simp [CcSsaFunction.segment, CcSsaFunction.grow, storedSegments, count]

theorem fromAstVars_add {ast : CcState} {inside : Nat → Prop} {fuel : Nat} (trees : List Tree) :
    ∀ (refs : List CcAstNodeRef) (state after : CcState), SameAst ast state →
      Tree.DenoteAll ast inside trees refs → Tree.sizeAll trees ≤ fuel →
      refs.foldlM (ccSsaFromAstVar fuel) state = .ok after →
      AddsViews state after (trees.map fun decl => decl.body.emits) := by
  induction trees with
  | nil =>
      intro refs state after _ denoted _ done
      have none : refs = [] := denoted
      subst none
      cases Except.ok.inj done
      exact .refl state
  | cons tree trees ih =>
      rintro _ state after same ⟨ref, rest, rfl, head, tail⟩ enough done
      rw [Tree.sizeAll] at enough
      rw [List.foldlM_cons] at done
      obtain ⟨middle, first, later⟩ := bind_eq_ok done
      have added := fromAstVar_adds same head (by omega) first
      exact added.cons (ih rest middle after (same.trans added.sameAst) tail (by omega) later)

theorem fromAst_adds {state after : CcState} {inside : Nat → Prop} {unit : Tree}
    {ref : CcAstNodeRef} {fuel : Nat} (denoted : unit.Denotes state inside ref)
    (enough : unit.size ≤ fuel) (done : ccSsaFromAst fuel state ref = .ok after) :
    AddsViews state after unit.bodyCounts := by
  have shape := denoted.shape
  rw [ccSsaFromAst] at done
  cases node : state.node ref with
  | block childs =>
      simp only [node] at done shape
      cases unit with
      | block children =>
          obtain ⟨_, _, refs, again, array, all⟩ := denoted
          cases node.symm.trans again
          rw [(SameAst.refl state).childs array] at done
          rw [Tree.size] at enough
          exact fromAstVars_add children refs state after (.refl state) all (by omega) done
      | _ => exact absurd shape (by simp [Tree.shape, CcAstNode.shape])
  | newVar name init typeDef flags =>
      simp only [node] at done shape
      cases unit with
      | newVar _ _ _ _ => exact fromAstVar_adds (.refl state) denoted enough done
      | _ => exact absurd shape (by simp [Tree.shape, CcAstNode.shape])
  | _ =>
      simp only [node] at done
      cases done

/-- The views of the functions that lowering a unit adds tile the tokens that it adds if and
only if no function pushes 256 tokens or more and none starts behind 2^24 tokens. -/
theorem fromAst_tiles_iff {state after : CcState} {inside : Nat → Prop} {unit : Tree}
    {ref : CcAstNodeRef} {fuel : Nat} (denoted : unit.Denotes state inside ref)
    (enough : unit.size ≤ fuel) (done : ccSsaFromAst fuel state ref = .ok after) :
    Tiles state.ssaTokens.length
        ((after.ssaFuncs.drop state.ssaFuncs.length).map CcSsaFunction.segment)
        after.ssaTokens.length ↔
      StoredExactly (2 ^ 24) (2 ^ 8) state.ssaTokens.length unit.bodyCounts := by
  have adds := fromAst_adds denoted enough done
  obtain ⟨added, addsFuncs, views⟩ := adds.views
  rw [addsFuncs, List.drop_left, views, adds.tokens]
  exact stored_tiles_iff (by decide) (by decide) _ _

def returnNodes : Nat → Nat → List CcAstNode
  | 0, _ => []
  | count + 1, first => .block none :: .ret (refOf first) :: returnNodes count (first + 2)

def returnsState (count : Nat) : CcState :=
  { CcState.start [] [] with
    nodes := [.invalid, .block (some 0), .newType 5 (some 1) ccAstTypeFlagsFunction,
      .block (some 2), .newVar ⟨0, 1⟩ 3 2 0, .newType 0 none 4, .newType 0 none 4,
      .newVar ⟨1, 1⟩ 0 6 0] ++ returnNodes count 8
    childArrays := [[4], [7], (List.range count).map fun i => refOf (9 + 2 * i)]
    nodesWritten := Nat.zero_le _ }

def intTree : Tree := .newType (.leaf .invalid) [] 4

def returnsUnit : Tree :=
  .newVar ⟨0, 1⟩ (.block [.ret (.block []), .ret (.block [])])
    (.newType intTree [.newVar ⟨1, 1⟩ (.leaf .invalid) intTree 0] ccAstTypeFlagsFunction) 0

theorem fromAst_tiles_returns :
    ∃ after, ccSsaFromAst 20 (returnsState 2) 4 = .ok after ∧
      (Tiles 0 (after.ssaFuncs.map CcSsaFunction.segment) after.ssaTokens.length ↔
        StoredExactly (2 ^ 24) (2 ^ 8) 0 returnsUnit.bodyCounts) := by
  have int (ref : CcAstNodeRef) (node : (returnsState 2).node ref = .newType 0 none 4) :
      intTree.Denotes (returnsState 2) (fun _ => True) ref :=
    ⟨trivial, 0, none, [], node, rfl, ⟨trivial, rfl, rfl⟩, rfl⟩
  have empty (ref valueRef : CcAstNodeRef) (node : (returnsState 2).node ref = .ret valueRef)
      (value : (returnsState 2).node valueRef = .block none) :
      (Tree.ret (.block [])).Denotes (returnsState 2) (fun _ => True) ref :=
    ⟨trivial, valueRef, node, trivial, none, [], value, rfl, rfl⟩
  have body : (Tree.block [.ret (.block []), .ret (.block [])]).Denotes (returnsState 2)
      (fun _ => True) 3 :=
    ⟨trivial, some 2, [9, 11], rfl, rfl, 9, [11], rfl, empty 9 8 rfl rfl, 11, [], rfl,
      empty 11 10 rfl rfl, rfl⟩
  have param : (Tree.newVar ⟨1, 1⟩ (.leaf .invalid) intTree 0).Denotes (returnsState 2)
      (fun _ => True) 7 := ⟨trivial, 0, 6, rfl, ⟨trivial, rfl, rfl⟩, int 6 rfl⟩
  have denoted : returnsUnit.Denotes (returnsState 2) (fun _ => True) 4 :=
    ⟨trivial, 3, 2, rfl, body, trivial, 5, some 1, [7], rfl, rfl, int 5 rfl, 7, [], rfl, param, rfl⟩
  have enough : returnsUnit.size ≤ 20 := by decide
  exact ⟨_, rfl, fromAst_tiles_iff denoted enough rfl⟩

theorem returnsState_lowered :
    ((ccSsaFromAst 3 (returnsState 256) 4).toOption.map fun after =>
      (after.ssaTokens.length, after.ssaFuncs.map CcSsaFunction.segment)) = some (256, [⟨0, 0⟩]) := by
  decide +kernel

/-- 256 statements wrap the length of the view to zero: no token belongs to the function. -/
theorem fromAst_view_empty :
    ∃ after, ccSsaFromAst 3 (returnsState 256) 4 = .ok after ∧
      ¬ Tiles 0 (after.ssaFuncs.map CcSsaFunction.segment) after.ssaTokens.length := by
  have evaluated := returnsState_lowered
  generalize ccSsaFromAst 3 (returnsState 256) 4 = outcome at evaluated ⊢
  -- The run itself was evaluated above; only its counters matter here.
  cases outcome with
  | error why => cases evaluated
  | ok after =>
      obtain ⟨count, views⟩ := Prod.mk.inj (Option.some.inj evaluated)
      refine ⟨after, rfl, ?_⟩
      rw [count, views]
      rintro ⟨_, stop⟩
      exact absurd (show 0 = 256 from stop) (by decide)

/-- Where the views tile, every token that was added lies in exactly one of them. -/
theorem views_cover {state after : CcState}
    (tiles : Tiles state.ssaTokens.length
      ((after.ssaFuncs.drop state.ssaFuncs.length).map CcSsaFunction.segment)
      after.ssaTokens.length) {index : Nat} (low : state.ssaTokens.length ≤ index)
    (high : index < after.ssaTokens.length) :
    ∃! k : Nat, ∃ func, (after.ssaFuncs.drop state.ssaFuncs.length)[k]? = some func ∧
      func.segment.Holds index := by
  obtain ⟨k, ⟨segment, found, holds⟩, only⟩ := tiles_exactly_one tiles low high
  rw [List.getElem?_map, Option.map_eq_some_iff] at found
  obtain ⟨func, here, rfl⟩ := found
  refine ⟨k, ⟨func, here, holds⟩, ?_⟩
  rintro other ⟨func, there, holds⟩
  exact only other ⟨func.segment, by rw [List.getElem?_map, there]; rfl, holds⟩

end Estros
