import Mathlib.Data.Fintype.EquivFin
import Mathlib.Logic.Relation
import Estros.Contracts
import Estros.TreeSlots

/-!
`cc_ast_coalesce` rewrites references in the graph it is walking. What a run keeps is
closed under composition, so one write is all there is to check: every reference denotes
what it denoted up to single-child blocks, and a slot that was written holds a tree
without them.
-/

namespace Estros

open Machine

theorem read_writeField (new : CcAstNodeRef) (node : CcAstNode) (field other : RefField) :
    (node.writeField new field).readField other = node.readField other ∨
      other = field ∧ (node.writeField new field).readField other = new := by
  cases node <;> cases field <;>
    first
      | exact .inl rfl
      | cases other <;> first | exact .inl rfl | exact .inr ⟨rfl, rfl⟩

theorem head_writeField (new : CcAstNodeRef) (node : CcAstNode) (field : RefField) :
    (node.writeField new field).head = node.head := by
  cases node <;> cases field <;> rfl

theorem node_writeField (state : CcState) (new ref other : CcAstNodeRef) (field : RefField) :
    (state.writeSlot new (.field ref field)).node other = state.node other ∨
      other = ref ∧
        (state.writeSlot new (.field ref field)).node other =
          (state.node ref).writeField new field := by
  simp only [CcState.node, CcState.writeSlot, CcState.setNode, List.getD_eq_getElem?_getD,
    List.getElem?_set]
  split
  · rename_i same
    have found : other = ref := (BitVec.eq_of_toNat_eq same).symm
    split
    · exact .inr ⟨found, rfl⟩
    · rename_i outside
      exact .inl (by rw [List.getElem?_eq_none (by omega)])
  · exact .inl rfl

theorem childs_writeChild (state : CcState) (new : CcAstNodeRef) (array index other : Nat) :
    (state.writeSlot new (.child array index)).childArrays[other]? =
      if array = other then state.childArrays[other]?.map (·.set index new)
      else state.childArrays[other]? := by
  rw [CcState.writeSlot, List.getElem?_modify]
  split
  · rfl
  · exact Option.map_id'

theorem read_write (state : CcState) (new : CcAstNodeRef) (slot other : RefSlot) :
    (state.writeSlot new slot).readSlot other = state.readSlot other ∨
      other = slot ∧ (state.writeSlot new slot).readSlot other = new := by
  cases slot with
  | field ref field =>
      cases other with
      | child _ _ => exact .inl rfl
      | field holder read =>
          simp only [CcState.readSlot]
          obtain same | ⟨rfl, written⟩ := node_writeField state new ref holder field
          · exact .inl (by rw [same])
          · rw [written]
            obtain same | ⟨rfl, found⟩ := read_writeField new (state.node holder) field read
            · exact .inl same
            · exact .inr ⟨rfl, found⟩
  | child array index =>
      cases other with
      | field _ _ => exact .inl rfl
      | child holder read =>
          simp only [CcState.readSlot, List.getD_eq_getElem?_getD, childs_writeChild]
          split
          · rename_i same
            subst same
            cases state.childArrays[array]? with
            | none => exact .inl rfl
            | some refs =>
                simp only [Option.map_some, Option.getD_some, List.getElem?_set]
                split
                · rename_i same
                  subst same
                  split
                  · exact .inr ⟨rfl, rfl⟩
                  · exact .inl (by rw [List.getElem?_eq_none (by omega)])
                · exact .inl rfl
          · exact .inl rfl

theorem read_field_written {state : CcState} {ref : CcAstNodeRef}
    (found : state.node ref ≠ .invalid) (new : CcAstNodeRef) (field : RefField) :
    (state.writeSlot new (.field ref field)).readSlot (.field ref field) =
      ((state.node ref).writeField new field).readField field := by
  have inMemory : ref.toNat < state.nodes.length := by
    by_contra outside
    refine found ?_
    rw [CcState.node, List.getD_eq_getElem?_getD, List.getElem?_eq_none (by omega)]
    rfl
  have rewritten : (state.writeSlot new (.field ref field)).node ref =
      (state.node ref).writeField new field := by
    simp [CcState.node, CcState.writeSlot, CcState.setNode, inMemory]
  rw [CcState.readSlot, rewritten]

theorem read_child_written {state : CcState} {childs : ChildArray} {slot : RefSlot}
    (member : slot ∈ state.childSlots childs) (new : CcAstNodeRef) :
    (state.writeSlot new slot).readSlot slot = new := by
  cases childs with
  | none => cases member
  | some array =>
      obtain ⟨index, inRange, rfl⟩ := List.mem_map.mp member
      have bound := List.mem_range.mp inRange
      simp only [CcState.readSlot, List.getD_eq_getElem?_getD, childs_writeChild, if_pos]
      rw [List.getD_eq_getElem?_getD] at bound
      cases found : state.childArrays[array]? with
      | none =>
          rw [found] at bound
          exact absurd bound (Nat.not_lt_zero _)
      | some refs =>
          rw [found] at bound
          rw [Option.map_some, Option.getD_some,
            List.getElem?_set_self (show index < refs.length from bound), Option.getD_some]

theorem read_written (state : CcState) (new ref : CcAstNodeRef) (slot : RefSlot)
    (member : slot ∈ state.slots ref) : (state.writeSlot new slot).readSlot slot = new := by
  have field (node : CcAstNode) (found : state.node ref = node) (valid : node ≠ .invalid)
      (field : RefField) : (state.writeSlot new (.field ref field)).readSlot (.field ref field) =
        (node.writeField new field).readField field :=
    found ▸ read_field_written (found ▸ valid) new field
  rw [CcState.slots] at member
  cases found : state.node ref with
  | block childs => exact read_child_written (by simpa [found, CcAstNode.slots] using member) new
  | newType returnRef childs flags =>
      rw [found, CcAstNode.slots, List.mem_cons] at member
      obtain rfl | child := member
      · exact field _ found (by simp) _
      · exact read_child_written child new
  | newVar _ _ _ _ =>
      simp only [found, CcAstNode.slots, List.mem_cons, List.not_mem_nil, or_false] at member
      obtain rfl | rfl := member <;> exact field _ found (by simp) _
  | ifExpr _ _ _ =>
      simp only [found, CcAstNode.slots, List.mem_cons, List.not_mem_nil, or_false] at member
      obtain rfl | rfl | rfl := member <;> exact field _ found (by simp) _
  | ret _ =>
      simp only [found, CcAstNode.slots, List.mem_cons, List.not_mem_nil, or_false] at member
      cases member
      exact field _ found (by simp) _
  | binop _ _ _ =>
      simp only [found, CcAstNode.slots, List.mem_cons, List.not_mem_nil, or_false] at member
      obtain rfl | rfl := member <;> exact field _ found (by simp) _
  | _ =>
      rw [found] at member
      cases member

structure SameSlots (before after : CcState) : Prop where
  heads : ∀ ref, (after.node ref).head = (before.node ref).head
  lengths : ∀ array : Nat,
    after.childArrays[array]?.map List.length = before.childArrays[array]?.map List.length

theorem SameSlots.refl (state : CcState) : SameSlots state state := ⟨fun _ => rfl, fun _ => rfl⟩

theorem SameSlots.trans {first middle last : CcState} (left : SameSlots first middle)
    (right : SameSlots middle last) : SameSlots first last :=
  ⟨fun ref => (right.heads ref).trans (left.heads ref),
    fun array => (right.lengths array).trans (left.lengths array)⟩

theorem write_sameSlots (state : CcState) (new : CcAstNodeRef) (slot : RefSlot) :
    SameSlots state (state.writeSlot new slot) := by
  cases slot with
  | field ref field =>
      refine ⟨fun other => ?_, fun _ => rfl⟩
      obtain same | ⟨rfl, written⟩ := node_writeField state new ref other field
      · rw [same]
      · rw [written, head_writeField]
  | child array index =>
      refine ⟨fun _ => rfl, fun other => ?_⟩
      rw [childs_writeChild]
      split
      · rw [Option.map_map]
        exact congrArg (fun measure => state.childArrays[other]?.map measure)
          (funext fun refs => List.length_set)
      · rfl

theorem length_childs (state : CcState) (array : Nat) :
    (state.childArrays.getD array []).length =
      (state.childArrays[array]?.map List.length).getD 0 := by
  rw [List.getD_eq_getElem?_getD]
  cases state.childArrays[array]? <;> rfl

theorem SameSlots.childSlots {before after : CcState} (same : SameSlots before after) :
    after.childSlots = before.childSlots := by
  funext childs
  cases childs with
  | none => rfl
  | some array =>
      simp only [CcState.childSlots, length_childs, same.lengths]

theorem SameSlots.slots {before after : CcState} (same : SameSlots before after)
    (ref : CcAstNodeRef) : after.slots ref = before.slots ref := by
  rw [CcState.slots, CcState.slots, ← slots_head, same.heads, slots_head, same.childSlots]

theorem SameSlots.allocated {before after : CcState} (same : SameSlots before after)
    (childs : ChildArray) : (after.array childs).isSome = (before.array childs).isSome := by
  cases childs with
  | none => rfl
  | some array => simpa [CcState.array] using congrArg Option.isSome (same.lengths array)

theorem SameSlots.tree {before after : CcState} (same : SameSlots before after) {tree : Tree}
    {ref : CcAstNodeRef} (heads : tree.Heads before ref) : tree.Heads after ref := by
  cases tree <;> simpa only [Tree.Heads, same.heads, same.allocated] using heads

variable {inside : Nat → Prop}

/-- Single-child blocks may be left out of what a reference denotes; what a written slot
holds has none left. -/
structure Coalesces (inside : Nat → Prop) (before after : CcState) : Prop
    extends SameSlots before after where
  denotes : ∀ tree ref, tree.Denotes before inside ref →
    ∃ lighter, Lighter tree lighter ∧ lighter.Denotes after inside ref
  stores : ∀ slot, after.readSlot slot = before.readSlot slot ∨
    ∀ tree : Tree, tree.Fills before inside slot → tree.strip.Fills after inside slot

theorem Lighter.strip_self (tree : Tree) : Lighter tree tree.strip :=
  ⟨strip_strip tree, strip_size tree, id⟩

theorem Coalesces.refl (state : CcState) : Coalesces inside state state where
  toSameSlots := .refl state
  denotes tree _ denoted := ⟨tree, .refl tree, denoted⟩
  stores _ := .inl rfl

theorem Coalesces.fills {before after : CcState} (kept : Coalesces inside before after)
    {tree : Tree} {slot : RefSlot} (filled : tree.Fills before inside slot) :
    ∃ lighter, Lighter tree lighter ∧ lighter.Fills after inside slot := by
  obtain same | stripped := kept.stores slot
  · obtain ⟨lighter, less, denoted⟩ := kept.denotes tree _ filled
    exact ⟨lighter, less, by rwa [Tree.Fills, same]⟩
  · exact ⟨tree.strip, .strip_self tree, stripped tree filled⟩

theorem Coalesces.stay {before after : CcState} (kept : Coalesces inside before after)
    {tree : Tree} {ref : CcAstNodeRef} (denoted : tree.strip.Denotes before inside ref) :
    tree.strip.Denotes after inside ref := by
  obtain ⟨lighter, less, found⟩ := kept.denotes _ ref denoted
  rwa [less.clean (strip_strip tree)] at found

theorem Coalesces.stay_filled {before after : CcState} (kept : Coalesces inside before after)
    {tree : Tree} {slot : RefSlot} (filled : tree.strip.Fills before inside slot) :
    tree.strip.Fills after inside slot := by
  obtain ⟨lighter, less, found⟩ := kept.fills filled
  rwa [less.clean (strip_strip tree)] at found

theorem Coalesces.trans {first middle last : CcState} (left : Coalesces inside first middle)
    (right : Coalesces inside middle last) : Coalesces inside first last where
  toSameSlots := left.toSameSlots.trans right.toSameSlots
  denotes tree ref denoted := by
    obtain ⟨lighter, less, found⟩ := left.denotes tree ref denoted
    obtain ⟨lightest, least, again⟩ := right.denotes lighter ref found
    exact ⟨lightest, less.trans least, again⟩
  stores slot := by
    obtain same | stripped := left.stores slot
    · obtain again | later := right.stores slot
      · exact .inl (again.trans same)
      · refine .inr fun tree filled => ?_
        obtain ⟨lighter, less, found⟩ := left.fills filled
        rw [← less.strip]
        exact later lighter found
    · exact .inr fun tree filled => right.stay_filled (stripped tree filled)

theorem forall₂_step {α β γ : Type} {relates : α → γ → Prop} {moves : α → β → Prop}
    {reaches : β → γ → Prop} {lefts : List α} {rights : List γ}
    (related : List.Forall₂ relates lefts rights)
    (step : ∀ left ∈ lefts, ∀ right, relates left right →
      ∃ middle, moves left middle ∧ reaches middle right) :
    ∃ middles, List.Forall₂ moves lefts middles ∧ List.Forall₂ reaches middles rights := by
  induction related with
  | nil => exact ⟨[], .nil, .nil⟩
  | cons head _ ih =>
      obtain ⟨middle, moved, reached⟩ := step _ List.mem_cons_self _ head
      obtain ⟨middles, rest, others⟩ := ih fun left member =>
        step left (List.mem_cons_of_mem _ member)
      exact ⟨middle :: middles, .cons moved rest, .cons reached others⟩

theorem forall₂_mem_right {α β : Type} {relates : α → β → Prop} {lefts : List α}
    {rights : List β} (related : List.Forall₂ relates lefts rights) {right : β}
    (member : right ∈ rights) : ∃ left ∈ lefts, relates left right := by
  induction related with
  | nil => cases member
  | cons head _ ih =>
      obtain rfl | later := List.mem_cons.mp member
      · exact ⟨_, List.mem_cons_self, head⟩
      · obtain ⟨left, found, holds⟩ := ih later
        exact ⟨left, List.mem_cons_of_mem _ found, holds⟩

theorem denotes_of_fills {before after : CcState} (same : SameSlots before after) {tree : Tree}
    {ref : CcAstNodeRef} (denoted : tree.Denotes before inside ref)
    (fills : ∀ child ∈ tree.subtrees, ∀ slot, child.Fills before inside slot →
      ∃ lighter, Lighter child lighter ∧ lighter.Fills after inside slot) :
    ∃ lighter, Lighter tree lighter ∧ lighter.Denotes after inside ref := by
  obtain ⟨member, heads, filled⟩ := denoted.fills
  obtain ⟨trees, lighter, found⟩ := forall₂_step filled fills
  have fits := lighter.length_eq.symm
  refine ⟨tree.refill trees, .refill lighter, (denotes_iff_fills _ ref).mpr ⟨member, ?_, ?_⟩⟩
  · exact (same.tree heads).refill fits
  · rwa [subtrees_refill fits, same.slots]

theorem write_coalesces {state : CcState} {slot : RefSlot} {new : CcAstNodeRef} {old : Tree}
    (filled : old.Fills state inside slot) (replaced : old.strip.Denotes state inside new) :
    Coalesces inside state (state.writeSlot new slot) := by
  have same := write_sameSlots state new slot
  have denotes : ∀ tree ref, tree.Denotes state inside ref →
      ∃ lighter, Lighter tree lighter ∧ lighter.Denotes (state.writeSlot new slot) inside ref := by
    intro tree
    induction size : tree.size using Nat.strong_induction_on generalizing tree with
    | _ _ ih =>
        intro ref denoted
        refine denotes_of_fills same denoted fun child member other fills => ?_
        have smaller : child.size < _ := size ▸ size_subtree member
        obtain kept | ⟨rfl, written⟩ := read_write state new slot other
        · obtain ⟨lighter, less, found⟩ := ih child.size smaller child rfl _ fills
          exact ⟨lighter, less, by rwa [Tree.Fills, kept]⟩
        · cases Tree.Denotes.unique child old _ fills filled
          obtain ⟨lighter, less, found⟩ :=
            ih old.strip.size ((strip_size old).trans_lt smaller) old.strip rfl new replaced
          refine ⟨lighter, (Lighter.strip_self old).trans less, ?_⟩
          rwa [Tree.Fills, written]
  refine ⟨same, denotes, fun other => ?_⟩
  obtain kept | ⟨rfl, written⟩ := read_write state new slot other
  · exact .inl kept
  · refine .inr fun tree fills => ?_
    cases Tree.Denotes.unique tree old _ fills filled
    obtain ⟨lighter, less, found⟩ := denotes _ new replaced
    rw [less.clean (strip_strip old)] at found
    rwa [Tree.Fills, written]

/-! ### A run -/

def Never (_ : Halt) (_ : CcState) : Prop := False

/-- A call leaves the stripped tree at the reference it hands back, or at its argument. -/
def Replaces (inside : Nat → Prop) (before : CcState) (tree : Tree) (ref : CcAstNodeRef)
    (written : Option CcAstNodeRef) (after : CcState) : Prop :=
  Coalesces inside before after ∧ tree.strip.Denotes after inside (written.getD ref)

section Calls

variable {coalesce : CcAstNodeRef → CoalesceM (Option CcAstNodeRef)} {fuel : Nat}

theorem coalesceAt_meaning
    (inner : ∀ (tree : Tree) ref state, tree.Denotes state inside ref → tree.size ≤ fuel →
      Ensures (coalesce ref) (Replaces inside state tree ref) Never state)
    {state : CcState} {tree : Tree} {ref : CcAstNodeRef} {slot : RefSlot}
    (member : slot ∈ state.slots ref) (filled : tree.Fills state inside slot)
    (enough : tree.size ≤ fuel) :
    Ensures (ccAstCoalesceAt coalesce slot)
      (fun _ after => Coalesces inside state after ∧ tree.strip.Fills after inside slot)
      Never state := by
  rw [ccAstCoalesceAt]
  apply Ensures.get
  refine (inner tree _ state filled enough).bind fun written middle _ replaced => ?_
  obtain ⟨kept, found⟩ := replaced
  obtain ⟨lighter, less, current⟩ := kept.fills filled
  cases written with
  | none =>
      refine .pure ⟨kept, ?_⟩
      obtain same | stripped := kept.stores slot
      · rwa [Tree.Fills, same]
      · exact stripped tree filled
  | some new =>
      have step := write_coalesces current (by rwa [less.strip])
      refine .modify ⟨kept.trans step, ?_⟩
      rw [Tree.Fills, read_written middle new ref slot (by rwa [kept.slots])]
      exact step.stay found

theorem coalesceSlots_meaning
    (inner : ∀ (tree : Tree) ref state, tree.Denotes state inside ref → tree.size ≤ fuel →
      Ensures (coalesce ref) (Replaces inside state tree ref) Never state)
    (ref : CcAstNodeRef) (slots : List RefSlot) :
    ∀ (state : CcState) (trees : List Tree), (∀ slot ∈ slots, slot ∈ state.slots ref) →
      List.Forall₂ (Tree.Fills state inside) trees slots → (∀ tree ∈ trees, tree.size ≤ fuel) →
      Ensures (slots.forM (ccAstCoalesceAt coalesce))
        (fun _ after => Coalesces inside state after ∧
          List.Forall₂ (Tree.Fills after inside) (trees.map Tree.strip) slots) Never state := by
  induction slots with
  | nil =>
      intro state trees _ filled _
      cases filled
      exact .pure ⟨.refl state, .nil⟩
  | cons slot slots ih =>
      intro state trees members filled enough
      obtain ⟨tree, rest, head, tail, rfl⟩ := List.forall₂_cons_right_iff.mp filled
      have first := coalesceAt_meaning inner (members slot List.mem_cons_self) head
        (enough tree List.mem_cons_self)
      refine first.bind fun _ middle _ done => ?_
      obtain ⟨kept, stripped⟩ := done
      obtain ⟨lighter, less, fills⟩ := forall₂_step tail fun _ _ _ => kept.fills
      have smaller := Lighter.bounded less fun tree member =>
        enough tree (List.mem_cons_of_mem _ member)
      have others := ih middle lighter
        (fun other member => kept.slots ref ▸ members other (List.mem_cons_of_mem _ member))
        fills smaller
      refine others.post_mono fun _ after _ swept => ?_
      obtain ⟨later, found⟩ := swept
      rw [Lighter.strips less] at found
      exact ⟨kept.trans later, .cons (later.stay_filled stripped) found⟩

theorem forM_children (array : Nat) (round : RefSlot → CoalesceM Unit) (indices : List Nat) :
    (indices.map (RefSlot.child array)).forM round =
      indices.forM fun index => round (.child array index) := by
  induction indices with
  | nil => rfl
  | cons index _ ih => exact congrArg (fun rest => round (.child array index) >>= fun _ => rest) ih

theorem forM_childSlots (childs : ChildArray) (state : CcState) :
    (ccAstCoalesceChilds coalesce childs).run state =
      ((state.childSlots childs).forM (ccAstCoalesceAt coalesce)).run state := by
  cases childs with
  | none => rfl
  | some array =>
      rw [CcState.childSlots, forM_children]
      rfl

end Calls

def handedBack (after : CcState) : CcAstNode → Option CcAstNodeRef
  | .block childs =>
      match after.childs childs with
      | [only] => some only
      | _ => none
  | _ => none

theorem run_forM_cons {round : RefSlot → CoalesceM Unit} {α : Type} (slot : RefSlot)
    (slots : List RefSlot) (next : CoalesceM α) (state : CcState) :
    ((slot :: slots).forM round >>= fun _ => next).run state =
      (round slot >>= fun _ => slots.forM round >>= fun _ => next).run state := by
  change ((round slot >>= fun _ => slots.forM round) >>= fun _ => next).run state = _
  rw [run_bind, run_bind, run_bind]
  cases (round slot).run state <;> rfl

theorem run_bind_congr {α : Type} {first : CoalesceM Unit} {next other : CoalesceM α}
    {state : CcState}
    (same : ∀ middle, first.run state = .ok () middle → next.run middle = other.run middle) :
    (first >>= fun _ => next).run state = (first >>= fun _ => other).run state := by
  rw [run_bind, run_bind]
  cases ran : first.run state with
  | ok value middle => exact same middle ran
  | halt why middle => rfl

/-- A call goes through the slots of its node and then looks at the node's children. -/
theorem coalesce_run (fuel : Nat) (ref : CcAstNodeRef) (state : CcState)
    (kept : ∀ slot ∈ state.slots ref, ∀ middle,
      (ccAstCoalesceAt (ccAstCoalesce fuel) slot).run state = .ok () middle →
        SameSlots state middle) :
    (ccAstCoalesce (fuel + 1) ref).run state =
      ((state.slots ref).forM (ccAstCoalesceAt (ccAstCoalesce fuel)) >>= fun _ =>
        get >>= fun after => pure (handedBack after (state.node ref))).run state := by
  rw [CcState.slots] at kept ⊢
  rw [ccAstCoalesce, run_bind_ok (run_get state)]
  cases found : state.node ref with
  | block childs =>
      rw [run_bind, forM_childSlots, CcAstNode.slots, run_bind]
      cases ((state.childSlots childs).forM (ccAstCoalesceAt (ccAstCoalesce fuel))).run state with
      | ok value after =>
          simp only [run_bind, run_get, handedBack]
          obtain _ | ⟨only, _ | ⟨_, _⟩⟩ := after.childs childs <;> rfl
      | halt why after => rfl
  | newType returnRef childs flags =>
      rw [found] at kept
      rw [CcAstNode.slots, run_forM_cons]
      refine run_bind_congr fun middle ran => ?_
      -- the children are looked up after the return type has been gone through
      have same := kept _ List.mem_cons_self middle ran
      simp only [run_bind, forM_childSlots, same.childSlots]
      rfl
  | newVar _ _ _ _ =>
      rw [CcAstNode.slots, run_forM_cons]
      refine run_bind_congr fun middle _ => ?_
      rw [run_forM_cons]
      rfl
  | ifExpr _ _ _ =>
      rw [CcAstNode.slots, run_forM_cons]
      refine run_bind_congr fun middle _ => ?_
      rw [run_forM_cons]
      refine run_bind_congr fun last _ => ?_
      rw [run_forM_cons]
      rfl
  | ret _ =>
      rw [CcAstNode.slots, run_forM_cons]
      rfl
  | binop _ _ _ =>
      rw [CcAstNode.slots, run_forM_cons]
      refine run_bind_congr fun middle _ => ?_
      rw [run_forM_cons]
      rfl
  | _ => rfl

theorem Ensures.of_run {α : Type} {machine other : CoalesceM α} {post : α → CcState → Prop}
    {stop : Halt → CcState → Prop} {state : CcState} (ensured : Ensures other post stop state)
    (same : machine.run state = other.run state) : Ensures machine post stop state :=
  ⟨same ▸ ensured.satisfied⟩

theorem denotes_strip {before after : CcState} (same : SameSlots before after) {tree : Tree}
    {ref : CcAstNodeRef} (denoted : tree.Denotes before inside ref)
    (other : ∀ only, tree ≠ .block [only])
    (swept : List.Forall₂ (Tree.Fills after inside) (tree.subtrees.map Tree.strip)
      (before.slots ref)) : tree.strip.Denotes after inside ref := by
  obtain ⟨member, heads, -⟩ := denoted.fills
  obtain ⟨only, single⟩ | ⟨-, stripped⟩ := strip_cases tree
  · exact absurd single (other only)
  · have fits : (tree.subtrees.map Tree.strip).length = tree.subtrees.length := List.length_map _
    rw [stripped, denotes_iff_fills, subtrees_refill fits, same.slots]
    exact ⟨member, (same.tree heads).refill fits, swept⟩

theorem childs_eq_read {before after : CcState} (same : SameSlots before after)
    (childs : ChildArray) :
    after.childs childs = (before.childSlots childs).map after.readSlot := by
  rw [← same.childSlots, read_childSlots]

theorem handedBack_other {before after : CcState} (same : SameSlots before after) {tree : Tree}
    {ref : CcAstNodeRef} (denoted : tree.Denotes before inside ref)
    (other : ∀ only, tree ≠ .block [only]) : handedBack after (before.node ref) = none := by
  cases tree with
  | block children =>
      obtain ⟨-, ⟨childs, head, -⟩, filled⟩ := denoted.fills
      have found := eq_block_of_head head
      rw [CcState.slots, found] at filled
      have length : children.length = (after.childs childs).length := by
        rw [childs_eq_read same, List.length_map]
        exact filled.length_eq
      rw [found, handedBack]
      rcases refs : after.childs childs with _ | ⟨only, _ | ⟨_, _⟩⟩
      · rfl
      · obtain ⟨child, rfl⟩ := List.length_eq_one_iff.mp (length.trans (congrArg _ refs))
        exact absurd rfl (other child)
      · rfl
  | _ =>
      have shape := denoted.shape
      cases found : before.node ref with
      | block childs =>
          rw [found] at shape
          cases shape
      | _ => rfl

theorem handedBack_single {before after : CcState} (same : SameSlots before after) {tree : Tree}
    {ref : CcAstNodeRef} (denoted : (Tree.block [tree]).Denotes before inside ref)
    (swept : List.Forall₂ (Tree.Fills after inside) [tree.strip] (before.slots ref)) :
    ∃ child, handedBack after (before.node ref) = some child ∧
      tree.strip.Denotes after inside child := by
  obtain ⟨-, ⟨childs, head, -⟩, -⟩ := denoted.fills
  have found := eq_block_of_head head
  rw [CcState.slots, found] at swept
  obtain ⟨slot, rest, fills, tail, slots⟩ := List.forall₂_cons_left_iff.mp swept
  cases tail
  refine ⟨after.readSlot slot, ?_, fills⟩
  rw [found, handedBack, childs_eq_read same, show before.childSlots childs = [slot] from slots]
  rfl

theorem coalesce_meaning (fuel : Nat) (tree : Tree) (ref : CcAstNodeRef) (state : CcState)
    (denoted : tree.Denotes state inside ref) (enough : tree.size ≤ fuel) :
    Ensures (ccAstCoalesce fuel ref) (Replaces inside state tree ref) Never state := by
  induction fuel generalizing tree ref state with
  | zero => exact absurd enough (by rw [size_eq]; omega)
  | succ fuel ih =>
      obtain ⟨member, heads, filled⟩ := denoted.fills
      have small : ∀ child ∈ tree.subtrees, child.size ≤ fuel := fun child found =>
        Nat.le_of_lt_succ ((size_subtree found).trans_le enough)
      refine Ensures.of_run ?_ (coalesce_run fuel ref state fun slot found middle ran => ?_)
      · refine (coalesceSlots_meaning ih ref (state.slots ref) state tree.subtrees
          (fun _ found => found) filled small).bind fun _ after _ swept => .get (.pure ?_)
        obtain ⟨kept, strips⟩ := swept
        refine ⟨kept, ?_⟩
        obtain ⟨only, rfl⟩ | ⟨other, -⟩ := strip_cases tree
        · obtain ⟨child, handed, found⟩ := handedBack_single kept.toSameSlots denoted strips
          rw [handed, strip_single]
          exact found
        · rw [handedBack_other kept.toSameSlots denoted other]
          exact denotes_strip kept.toSameSlots denoted other strips
      · obtain ⟨child, part, fills⟩ := forall₂_mem_right filled found
        exact ((coalesceAt_meaning ih found fills (small child part)).ok ran).1.toSameSlots

theorem forM_idle {round : RefSlot → CoalesceM Unit} {slots : List RefSlot} {state : CcState}
    (idle : ∀ slot ∈ slots, (round slot).run state = .ok () state) :
    (slots.forM round).run state = .ok () state := by
  induction slots with
  | nil => rfl
  | cons slot slots ih =>
      refine (run_bind_ok (idle slot List.mem_cons_self)).trans (ih fun other member => ?_)
      exact idle other (List.mem_cons_of_mem _ member)

theorem stripped_ne_single {tree : Tree} (stripped : tree.strip = tree) (only : Tree) :
    tree ≠ .block [only] := by
  rintro rfl
  exact strip_single_ne only stripped

theorem coalesce_stripped (fuel : Nat) (tree : Tree) (ref : CcAstNodeRef) (state : CcState)
    (denoted : tree.Denotes state inside ref) (stripped : tree.strip = tree)
    (enough : tree.size ≤ fuel) : (ccAstCoalesce fuel ref).run state = .ok none state := by
  induction fuel generalizing tree ref with
  | zero => exact absurd enough (by rw [size_eq]; omega)
  | succ fuel ih =>
      obtain ⟨-, -, filled⟩ := denoted.fills
      have idle : ∀ slot ∈ state.slots ref,
          (ccAstCoalesceAt (ccAstCoalesce fuel) slot).run state = .ok () state := by
        intro slot member
        obtain ⟨child, part, fills⟩ := forall₂_mem_right filled member
        have inner := ih child _ fills (strip_subtree stripped part)
          (Nat.le_of_lt_succ ((size_subtree part).trans_le enough))
        rw [ccAstCoalesceAt, run_bind_ok (run_get state), run_bind_ok inner]
        rfl
      rw [coalesce_run fuel ref state fun slot member middle ran => ?_,
        run_bind_ok (forM_idle idle)]
      · rw [run_bind_ok (run_get state),
          handedBack_other (.refl state) denoted (stripped_ne_single stripped)]
        rfl
      · cases (idle slot member).symm.trans ran
        exact .refl state

/-- `holder` has a field that `cc_ast_coalesce` follows to `ref`. -/
def Refers (state : CcState) (holder ref : CcAstNodeRef) : Prop :=
  ∃ slot ∈ state.slots holder, state.readSlot slot = ref

theorem reaches_stripped {state : CcState} {tree : Tree} {root ref : CcAstNodeRef}
    (denoted : tree.Denotes state inside root) (stripped : tree.strip = tree)
    (reached : Relation.ReflTransGen (Refers state) root ref) :
    ∃ part : Tree, part.Denotes state inside ref ∧ part.strip = part := by
  induction reached with
  | refl => exact ⟨tree, denoted, stripped⟩
  | tail _ refers ih =>
      obtain ⟨whole, found, clean⟩ := ih
      obtain ⟨slot, member, rfl⟩ := refers
      obtain ⟨-, -, filled⟩ := found.fills
      obtain ⟨child, part, fills⟩ := forall₂_mem_right filled member
      exact ⟨child, fills, strip_subtree clean part⟩

theorem block_length {state : CcState} {tree : Tree} {ref : CcAstNodeRef} {childs : ChildArray}
    (denoted : tree.Denotes state inside ref) (stripped : tree.strip = tree)
    (found : state.node ref = .block childs) : (state.childs childs).length ≠ 1 := by
  intro length
  have none := handedBack_other (.refl state) denoted (stripped_ne_single stripped)
  obtain ⟨only, single⟩ := List.length_eq_one_iff.mp length
  rw [found, handedBack, single] at none
  cases none

/-! ### Acyclic graphs -/

def CcAstNode.childArray : CcAstNode → ChildArray
  | .block childs => childs
  | .newType _ childs _ => childs
  | _ => none

/-- Below the root no reference leads back to itself, and child pointers point to arrays. -/
structure Acyclic (state : CcState) (root : CcAstNodeRef) : Prop where
  acyclic : ∀ ref, Relation.ReflTransGen (Refers state) root ref →
    ¬ Relation.TransGen (Refers state) ref ref
  allocated : ∀ ref, Relation.ReflTransGen (Refers state) root ref →
    (state.array (state.node ref).childArray).isSome = true

theorem denotes_of_slots {state : CcState} {ref : CcAstNodeRef} {trees : List Tree}
    (member : inside ref.toNat)
    (allocated : (state.array (state.node ref).childArray).isSome = true)
    (filled : List.Forall₂ (Tree.Fills state inside) trees (state.slots ref)) :
    ∃ tree : Tree, tree.Denotes state inside ref := by
  suffices made : ∃ tree : Tree, tree.Heads state ref ∧ tree.subtrees = trees by
    obtain ⟨tree, heads, rfl⟩ := made
    exact ⟨tree, heads.denotes member filled⟩
  have length := filled.length_eq
  rw [CcState.slots] at length
  cases found : state.node ref with
  | block childs =>
      rw [found] at allocated
      exact ⟨.block trees, ⟨childs, by rw [found]; rfl, allocated⟩, rfl⟩
  | newType returnRef childs flags =>
      rw [found] at allocated length
      obtain ⟨returnType, children, rfl⟩ := List.exists_cons_of_length_eq_add_one length
      exact ⟨.newType returnType children flags, ⟨childs, by rw [found]; rfl, allocated⟩, rfl⟩
  | newVar name init typeDef flags =>
      rw [found] at length
      obtain ⟨typeTree, initTree, rfl⟩ := List.length_eq_two.mp length
      exact ⟨.newVar name initTree typeTree flags, by rw [Tree.Heads, found]; rfl, rfl⟩
  | ifExpr _ _ _ =>
      rw [found] at length
      obtain ⟨cond, yes, no, rfl⟩ := List.length_eq_three.mp length
      exact ⟨.ifExpr cond yes no, by rw [Tree.Heads, found]; rfl, rfl⟩
  | ret _ =>
      rw [found] at length
      obtain ⟨value, rfl⟩ := List.length_eq_one_iff.mp length
      exact ⟨.ret value, by rw [Tree.Heads, found]; rfl, rfl⟩
  | binop op _ _ =>
      rw [found] at length
      obtain ⟨lhs, rhs, rfl⟩ := List.length_eq_two.mp length
      exact ⟨.binop op lhs rhs, by rw [Tree.Heads, found]; rfl, rfl⟩
  | _ =>
      rw [found] at length
      obtain rfl := List.eq_nil_of_length_eq_zero length
      exact ⟨.leaf (state.node ref), by rw [Tree.Heads, found]; exact ⟨rfl, rfl⟩, rfl⟩

theorem forall₂_choose {α β : Type} {relates : α → β → Prop} {rights : List β}
    (each : ∀ right ∈ rights, ∃ left, relates left right) :
    ∃ lefts, List.Forall₂ relates lefts rights := by
  induction rights with
  | nil => exact ⟨[], .nil⟩
  | cons right rights ih =>
      obtain ⟨left, holds⟩ := each right List.mem_cons_self
      obtain ⟨lefts, rest⟩ := ih fun other member => each other (List.mem_cons_of_mem _ member)
      exact ⟨left :: lefts, .cons holds rest⟩

theorem Acyclic.denotes {state : CcState} {root : CcAstNodeRef} (graph : Acyclic state root) :
    ∃ tree : Tree, tree.Denotes state (fun _ => True) root := by
  let below (lower upper : CcAstNodeRef) : Prop :=
    Relation.ReflTransGen (Refers state) root upper ∧ Relation.TransGen (Refers state) upper lower
  have transitive : IsTrans CcAstNodeRef below :=
    ⟨fun _ _ _ left right => ⟨right.1, right.2.trans left.2⟩⟩
  have irreflexive : Std.Irrefl below := ⟨fun ref loop => graph.acyclic ref loop.1 loop.2⟩
  have finite : Finite CcAstNodeRef := .of_injective BitVec.toFin fun _ _ => BitVec.eq_of_toFin_eq
  have founded : WellFounded below := Finite.wellFounded_of_trans_of_irrefl below
  suffices all : ∀ ref, Relation.ReflTransGen (Refers state) root ref →
      ∃ tree : Tree, tree.Denotes state (fun _ => True) ref from all root .refl
  intro ref
  induction ref using founded.induction with
  | _ ref ih =>
      intro reached
      have filled : ∃ trees,
          List.Forall₂ (Tree.Fills state (fun _ => True)) trees (state.slots ref) :=
        forall₂_choose fun slot member =>
          ih _ ⟨reached, .single ⟨slot, member, rfl⟩⟩ (reached.tail ⟨slot, member, rfl⟩)
      obtain ⟨trees, fills⟩ := filled
      exact denotes_of_slots trivial (graph.allocated ref reached) fills

/-- Coalescing an acyclic graph returns, and only single-child blocks are gone: the root
denotes the same tree up to them, none is reachable, and coalescing again does nothing. -/
theorem coalesce_only_unwraps (root : CcAstNodeRef) (state : CcState)
    (graph : Acyclic state root) :
    ∃ tree : Tree, tree.Denotes state (fun _ => True) root ∧ ∀ fuel, tree.size ≤ fuel →
      ∃ written after, (ccAstCoalesce fuel root).run state = .ok written after ∧
        (∃ left : Tree, left.Denotes after (fun _ => True) (written.getD root) ∧
          left.strip = tree.strip) ∧
        (∀ ref childs, Relation.ReflTransGen (Refers after) (written.getD root) ref →
          after.node ref = .block childs → (after.childs childs).length ≠ 1) ∧
        ∀ again, tree.size ≤ again →
          (ccAstCoalesce again (written.getD root)).run after = .ok none after := by
  obtain ⟨tree, denoted⟩ := graph.denotes
  refine ⟨tree, denoted, fun fuel enough => ?_⟩
  have meaning := coalesce_meaning fuel tree root state denoted enough
  cases ran : (ccAstCoalesce fuel root).run state with
  | halt why after => exact (meaning.halted ran).elim
  | ok written after =>
      obtain ⟨kept, found⟩ := meaning.ok ran
      have clean := strip_strip tree
      refine ⟨written, after, rfl, ⟨tree.strip, found, clean⟩, ?_, ?_⟩
      · intro ref childs reached block
        obtain ⟨part, inner, stripped⟩ := reaches_stripped found clean reached
        exact block_length inner stripped block
      · intro again more
        exact coalesce_stripped again _ _ after found clean ((strip_size tree).trans more)

def sharedBlock : CcState where
  data := []
  tokens := []
  curTok := 0
  nodes := [.block (some 0), .block (some 1), .literalInteger 7]
  nNodes := 3
  childArrays := [[1, 1], [2]]
  ssaFuncs := []
  ssaTokens := []
  rawData := []
  nodesWritten := by decide

theorem sharedBlock_refers {holder ref : CcAstNodeRef} (refers : Refers sharedBlock holder ref) :
    holder.toNat < ref.toNat := by
  obtain ⟨slot, member, rfl⟩ := refers
  have slots : ∀ index,
      ((sharedBlock.nodes.getD index .invalid).slots holder sharedBlock.childSlots).all
        (fun slot => index < (sharedBlock.readSlot slot).toNat) = true := by
    intro index
    match index with
    | 0 => rfl
    | 1 => rfl
    | 2 => rfl
    | _ + 3 => rfl
  exact of_decide_eq_true (List.all_eq_true.mp (slots holder.toNat) slot member)

theorem sharedBlock_acyclic : Acyclic sharedBlock 0 where
  acyclic ref _ loop := by
    have increases : ∀ last, Relation.TransGen (Refers sharedBlock) ref last →
        ref.toNat < last.toNat := by
      intro last path
      induction path with
      | single refers => exact sharedBlock_refers refers
      | tail _ refers ih => exact ih.trans (sharedBlock_refers refers)
    exact absurd (increases ref loop) (Nat.lt_irrefl _)
  allocated ref _ := by
    have arrays : ∀ index, (sharedBlock.array
        (sharedBlock.nodes.getD index .invalid).childArray).isSome = true := by
      intro index
      match index with
      | 0 => rfl
      | 1 => rfl
      | 2 => rfl
      | _ + 3 => rfl
    exact arrays ref.toNat

theorem sharedBlock_unwraps :
    ∃ tree : Tree, tree.Denotes sharedBlock (fun _ => True) 0 ∧ ∀ fuel, tree.size ≤ fuel →
      ∃ written after, (ccAstCoalesce fuel 0).run sharedBlock = .ok written after ∧
        (∃ left : Tree, left.Denotes after (fun _ => True) (written.getD 0) ∧
          left.strip = tree.strip) ∧
        (∀ ref childs, Relation.ReflTransGen (Refers after) (written.getD 0) ref →
          after.node ref = .block childs → (after.childs childs).length ≠ 1) ∧
        ∀ again, tree.size ≤ again →
          (ccAstCoalesce again (written.getD 0)).run after = .ok none after :=
  coalesce_only_unwraps 0 sharedBlock sharedBlock_acyclic

end Estros
