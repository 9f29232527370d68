import Estros.AstNodes

/-!
Runs of `cc_ast_push_node` and `cc_ast_pop_node`. A reference has sixteen bits, the array of the
nodes has room for millions of them.
-/

namespace Estros

/-- The nodes that fit into `DYNARR_MAX_SIZE` bytes; a `cc_ast_node_t` has 96. -/
def nodeCapacity : Nat := 268435456 / 96

structure LiveNode where
  ref : CcAstNodeRef
  index : Nat
  node : CcAstNode

/-- Calls within the capacity, where a pop is about the newest of the live nodes. -/
inductive NodeRun (start : CcState) : List LiveNode → CcState → Prop where
  | start : NodeRun start [] start
  | push {live : List LiveNode} {state after : CcState} {node : CcAstNode} {ref : CcAstNodeRef}
      (run : NodeRun start live state) (room : state.nNodes < nodeCapacity)
      (pushed : (ccAstPushNode node).run state = .ok ref after) :
      NodeRun start (⟨ref, state.nNodes, node⟩ :: live) after
  | pop {newest : LiveNode} {live : List LiveNode} {state after : CcState}
      (run : NodeRun start (newest :: live) state)
      (popped : (ccAstPopNode newest.ref).run state = .ok () after) : NodeRun start live after

structure LiveNode.Denoted (entry : LiveNode) (state : CcState) : Prop where
  place : entry.ref.toNat = entry.index
  stored : state.node entry.ref = entry.node

/-- What holds of the live nodes in every run: they lie one behind the other, whatever their
references are. -/
structure LiveNodes (live : List LiveNode) (state : CcState) : Prop where
  indices : live.map LiveNode.index = (List.range state.nNodes).reverse
  refs : ∀ entry ∈ live, entry.ref = refOf entry.index
  stored : ∀ entry ∈ live, state.nodeAt entry.index = entry.node

section Runs

variable {start state after : CcState} {live : List LiveNode} {newest : LiveNode}

theorem LiveNodes.below (holds : LiveNodes live state) {entry : LiveNode} (member : entry ∈ live) :
    entry.index < state.nNodes := by
  have listed := List.mem_map_of_mem (f := LiveNode.index) member
  rw [holds.indices, List.mem_reverse] at listed
  exact List.mem_range.mp listed

theorem LiveNodes.push (holds : LiveNodes live state) (node : CcAstNode) :
    LiveNodes (⟨refOf state.nNodes, state.nNodes, node⟩ :: live) (state.push node) := by
  constructor
  · rw [List.map_cons, holds.indices, push_nNodes, List.range_succ, List.reverse_append]
    rfl
  · intro entry member
    rcases List.mem_cons.mp member with rfl | old
    · rfl
    · exact holds.refs entry old
  · intro entry member
    rcases List.mem_cons.mp member with rfl | old
    · rw [push_nodeAt, if_pos rfl]
    · rw [push_nodeAt, if_neg (Nat.ne_of_lt (holds.below old))]
      exact holds.stored entry old

theorem LiveNodes.pop (holds : LiveNodes (newest :: live) state) : LiveNodes live state.pop := by
  have some : state.nNodes - 1 + 1 = state.nNodes :=
    Nat.sub_add_cancel (Nat.lt_of_le_of_lt (Nat.zero_le _) (holds.below List.mem_cons_self))
  have indices := holds.indices
  rw [← some, List.range_succ, List.reverse_append, List.map_cons] at indices
  exact ⟨List.tail_eq_of_cons_eq indices,
    fun entry member => holds.refs entry (List.mem_cons_of_mem _ member),
    fun entry member => holds.stored entry (List.mem_cons_of_mem _ member)⟩

theorem NodeRun.liveNodes (run : NodeRun start live state) (empty : start.nNodes = 0) :
    LiveNodes live state := by
  induction run with
  | start =>
      exact ⟨by rw [empty]; rfl, fun _ member => absurd member List.not_mem_nil,
        fun _ member => absurd member List.not_mem_nil⟩
  | push _ _ pushed ih =>
      cases pushed
      exact ih.push _
  | @pop newest _ state _ _ popped ih =>
      by_cases last : newest.ref.toNat + 1 = state.nNodes
      · rw [popNode_run _ _ last] at popped
        cases popped
        exact ih.pop
      · rw [popNode_fails _ _ last] at popped
        cases popped

/-- The live nodes are denoted exactly if the references reach as far as the nodes. -/
theorem LiveNodes.denoted_iff (holds : LiveNodes live state) :
    (∀ entry ∈ live, entry.Denoted state) ↔ state.nNodes ≤ 65536 := by
  constructor
  · intro denoted
    by_contra many
    have listed : 65536 ∈ live.map LiveNode.index := by
      rw [holds.indices, List.mem_reverse]
      exact List.mem_range.mpr (Nat.not_le.mp many)
    obtain ⟨entry, member, index⟩ := List.mem_map.mp listed
    have place := (denoted entry member).place
    have small := entry.ref.isLt
    omega
  · intro few entry member
    have place : entry.ref.toNat = entry.index := by
      rw [holds.refs entry member]
      exact toNat_refOf (Nat.lt_of_lt_of_le (holds.below member) few)
    refine ⟨place, ?_⟩
    rw [node_eq_nodeAt, place]
    exact holds.stored entry member

end Runs

/-- In every run, from the empty array on, the references of the live nodes denote them exactly if
there are at most 65536 nodes. -/
theorem references_denote_iff {start state : CcState} (empty : start.nNodes = 0)
    {live : List LiveNode} (run : NodeRun start live state) :
    (∀ entry ∈ live, entry.Denoted state) ↔ state.nNodes ≤ 65536 :=
  (run.liveNodes empty).denoted_iff

theorem references_denote_reused :
    (∀ entry ∈ [(⟨refOf 2, 2, .block none⟩ : LiveNode), ⟨refOf 1, 1, .refVar ⟨4, 1⟩⟩,
        ⟨refOf 0, 0, .block none⟩],
        entry.Denoted (((((CcState.start [] []).push (.block none)).push (.newType 0 none 0)).pop.push
          (.refVar ⟨4, 1⟩)).push (.block none))) ↔
      (((((CcState.start [] []).push (.block none)).push (.newType 0 none 0)).pop.push
        (.refVar ⟨4, 1⟩)).push (.block none)).nNodes ≤ 65536 := by
  have room {count : Nat} (few : count < 3) : count < nodeCapacity := Nat.lt_trans few (by decide)
  have first : NodeRun (CcState.start [] []) [⟨refOf 0, 0, .block none⟩] _ :=
    .push .start (room (by decide)) rfl
  have second : NodeRun (CcState.start [] []) [⟨refOf 1, 1, .newType 0 none 0⟩, _] _ :=
    .push first (room (by decide)) rfl
  have popped : NodeRun (CcState.start [] []) [⟨refOf 0, 0, .block none⟩] _ := .pop second rfl
  have leaf : NodeRun (CcState.start [] []) [⟨refOf 1, 1, .refVar ⟨4, 1⟩⟩, _] _ :=
    .push popped (room (by decide)) rfl
  exact references_denote_iff rfl (.push leaf (room (by decide)) rfl)

theorem blocks_run (count : Nat) (fits : count < nodeCapacity) :
    ∃ live state, NodeRun (CcState.start [] []) live state ∧ state.nNodes = count + 1 ∧
      state.nodeAt 0 = .invalid := by
  induction count with
  | zero => exact ⟨_, _, .push .start fits rfl, rfl, rfl⟩
  | succ count ih =>
      obtain ⟨live, state, run, size, first⟩ := ih (Nat.lt_of_succ_lt fits)
      have room : state.nNodes < nodeCapacity := size ▸ fits
      refine ⟨_, state.push (.block none), .push run room rfl, ?_, ?_⟩
      · rw [push_nNodes, size]
      · rw [push_nodeAt, if_neg (by omega)]
        exact first

/-- The push behind 65536 others returns the reference of the first node. -/
theorem references_wrap :
    ∃ live state, NodeRun (CcState.start [] []) (⟨0, 65536, .block none⟩ :: live) state ∧
      state.node 0 = .invalid ∧ ¬ (⟨0, 65536, .block none⟩ : LiveNode).Denoted state := by
  have capacity : 65536 < nodeCapacity := by decide
  obtain ⟨live, state, run, size, first⟩ := blocks_run 65535 (Nat.lt_of_succ_lt capacity)
  have wrapped : refOf state.nNodes = 0 := by
    rw [size]
    rfl
  have pushed : NodeRun (CcState.start [] []) (⟨refOf state.nNodes, state.nNodes, .block none⟩ :: live)
      (state.push (.block none)) := .push run (size ▸ capacity) rfl
  rw [wrapped, size] at pushed
  refine ⟨live, state.push (.block none), pushed, ?_, fun denoted => absurd denoted.place (by decide)⟩
  rw [node_eq_nodeAt]
  change (state.push (.block none)).nodeAt 0 = .invalid
  rw [push_nodeAt, if_neg (by omega)]
  exact first

end Estros
