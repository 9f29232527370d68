import Estros.DeclarationContracts
import Estros.Provisos
import Estros.TreeSlots

/-!
The trees that the declaration functions of parser.c build. A recogniser on token lists says
which variable a declarator declares, and the parser, called on a variable node in progress,
leaves a node that denotes it: all this as long as no node reference was truncated.
-/

namespace Estros

open Machine

structure Declaration where
  name : CcStrview := ⟨0, 0⟩
  flags : BitVec 32 := 0
  returnType : Tree := .leaf .invalid
  params : List Tree := []
  typeFlags : BitVec 32 := 0

def Declaration.type (declaration : Declaration) : Tree :=
  .newType declaration.returnType declaration.params declaration.typeFlags

def Declaration.tree (declaration : Declaration) (init : Tree) : Tree :=
  .newVar declaration.name init declaration.type declaration.flags

def Declaration.specify (declaration : Declaration) (type : CcTokenType) : Declaration :=
  match storageClassFlag type with
  | some flag => { declaration with flags := declaration.flags ||| flag }
  | none =>
      match typeSpecifierFlag type with
      | some flag => { declaration with typeFlags := declaration.typeFlags ||| flag }
      | none => declaration

def Declaration.specified (declaration : Declaration) : List CcToken → Declaration
  | [] => declaration
  | tok :: rest =>
      if isSpecifier tok.type then (declaration.specify tok.type).specified rest else declaration

def Declaration.function (declaration : Declaration) (params : List Tree) : Declaration :=
  { declaration with
    returnType := declaration.type
    params := params
    typeFlags := ccAstTypeFlagsFunction }

def readParameter (declarator : Declaration → List CcToken → Reply Declaration)
    (toks : List CcToken) : Reply Tree :=
  if startsSpecifier toks then
    match declarator (({} : Declaration).specified toks) (dropSpecifiers toks) with
    | .yes param rest => .yes (param.tree (.leaf .invalid)) rest
    | _ => .abort
  else .abort

def readParameters (declarator : Declaration → List CcToken → Reply Declaration) :
    Nat → List CcToken → Reply (List Tree)
  | 0, _ => .abort
  | fuel + 1, toks =>
      match readParameter declarator toks with
      | .yes param rest =>
          if headType rest = .comma then
            match readParameters declarator fuel rest.tail with
            | .yes params left => .yes (param :: params) left
            | _ => .abort
          else .yes [param] rest
      | _ => .abort

def readDeclarator : Nat → Declaration → List CcToken → Reply Declaration
  | 0, _, _ => .abort
  | fuel + 1, declaration, toks =>
      if headType toks = .ident then
        let named := { declaration with name := (toks.headD {}).data }
        if headType toks.tail = .lparen then
          match readParameters (readDeclarator fuel) fuel toks.tail.tail with
          | .yes params rest =>
              if headType rest = .rparen then .yes (named.function params) rest.tail else .abort
          | _ => .abort
        else .yes named toks.tail
      else if headType toks = .lparen then
        match readDeclarator fuel declaration toks.tail with
        | .yes inner rest => if headType rest = .rparen then .yes inner rest.tail else .abort
        | _ => .abort
      else .no

/-- Only the owned nodes and new ones were written. -/
structure Writes (owned : Nat → Prop) (before after : CcState) : Prop where
  nNodes : before.nNodes ≤ after.nNodes
  others : ∀ index, index < before.nNodes → ¬ owned index → after.nodeAt index = before.nodeAt index
  arrays : before.childArrays <+: after.childArrays

abbrev Extends (before after : CcState) : Prop := Writes (fun _ => False) before after

def NilOrNew (low : Nat) (state : CcState) (index : Nat) : Prop :=
  index = 0 ∨ Within low state.nNodes index

section Frames

variable {owned : Nat → Prop} {before middle after : CcState}

theorem Writes.refl (owned : Nat → Prop) (state : CcState) : Writes owned state state :=
  ⟨Nat.le_refl _, fun _ _ _ => rfl, List.prefix_refl _⟩

theorem Writes.mono {wider : Nat → Prop} (writes : Writes owned before after)
    (inside : ∀ index, index < before.nNodes → owned index → wider index) :
    Writes wider before after :=
  ⟨writes.nNodes, fun index old apart => writes.others index old fun also =>
    apart (inside index old also), writes.arrays⟩

theorem Writes.trans (left : Writes owned before middle) (right : Writes owned middle after) :
    Writes owned before after := by
  refine ⟨left.nNodes.trans right.nNodes, fun index old apart => ?_, left.arrays.trans right.arrays⟩
  rw [right.others index (Nat.lt_of_lt_of_le old left.nNodes) apart, left.others index old apart]

theorem Writes.thenNew {later : Nat → Prop} (left : Writes owned before middle)
    (right : Writes later middle after) (new : ∀ index, later index → before.nNodes ≤ index) :
    Writes owned before after := by
  refine ⟨left.nNodes.trans right.nNodes, fun index old apart => ?_, left.arrays.trans right.arrays⟩
  rw [right.others index (Nat.lt_of_lt_of_le old left.nNodes) fun also =>
    absurd (new index also) (Nat.not_le.mpr old), left.others index old apart]

theorem Extends.writes (extended : Extends before after) : Writes owned before after :=
  extended.mono fun _ _ never => never.elim

theorem Writes.advance (state : CcState) : Extends state state.advance :=
  ⟨Nat.le_refl _, fun _ _ _ => rfl, List.prefix_refl _⟩

theorem Writes.push (state : CcState) (node : CcAstNode) : Extends state (state.push node) :=
  ⟨Nat.le_succ _, fun index old _ => by rw [push_nodeAt, if_neg (Nat.ne_of_lt old)],
    List.prefix_refl _⟩

theorem Writes.setNode (state : CcState) {ref : CcAstNodeRef} (node : CcAstNode)
    (inside : ref.toNat < state.nNodes) :
    Writes (fun index => index = ref.toNat) state (state.setNode ref node) :=
  ⟨Nat.le_refl _, fun index _ apart => by rw [setNode_nodeAt _ _ _ _ inside, if_neg apart],
    List.prefix_refl _⟩

theorem Writes.appendChild (state : CcState) {ref : CcAstNodeRef} (childs : ChildArray)
    (child : CcAstNodeRef) (rebuild : ChildArray → CcAstNode) (inside : ref.toNat < state.nNodes) :
    Writes (fun index => index = ref.toNat) state (state.appendChild ref childs child rebuild) :=
  ⟨Nat.le_refl _, fun index _ apart => by
    rw [appendChild_nodeAt _ _ _ _ _ _ inside, if_neg apart], List.prefix_append _ _⟩

theorem Writes.node (writes : Writes owned before after) {ref : CcAstNodeRef}
    (old : ref.toNat < before.nNodes) (apart : ¬ owned ref.toNat) :
    after.node ref = before.node ref := writes.others _ old apart

theorem Writes.same {low : Nat} (writes : Writes owned before after) (some : 0 < before.nNodes)
    (apart : ∀ index, owned index → index < before.nNodes → 0 < index ∧ index < low) :
    SameInside (NilOrNew low before) before after := by
  refine ⟨fun index drawn => ?_, writes.arrays⟩
  rcases drawn with rfl | within
  · exact writes.others 0 some fun zero => absurd (apart 0 zero some).1 (Nat.lt_irrefl 0)
  · exact writes.others index within.2 fun also =>
      absurd (apart index also within.2).2 (Nat.not_lt.mpr within.1)

theorem NilOrNew.mono {low lower : Nat} (lowered : lower ≤ low)
    (grown : before.nNodes ≤ after.nNodes) :
    ∀ index, NilOrNew low before index → NilOrNew lower after index := by
  rintro index (zero | within)
  · exact Or.inl zero
  · exact Or.inr ⟨lowered.trans within.1, Nat.lt_of_lt_of_le within.2 grown⟩

theorem Writes.denotes {low : Nat} (writes : Writes owned before after) (some : 0 < before.nNodes)
    (apart : ∀ index, owned index → index < before.nNodes → 0 < index ∧ index < low) {tree : Tree}
    {ref : CcAstNodeRef} (denoted : tree.Denotes before (NilOrNew low before) ref) :
    tree.Denotes after (NilOrNew low after) ref :=
  Tree.Denotes.frame (writes.same some apart) (NilOrNew.mono (Nat.le_refl low) writes.nNodes) tree ref
    denoted

theorem Writes.denoteAll {low : Nat} (writes : Writes owned before after) (some : 0 < before.nNodes)
    (apart : ∀ index, owned index → index < before.nNodes → 0 < index ∧ index < low)
    {trees : List Tree} {refs : List CcAstNodeRef}
    (denoted : Tree.DenoteAll before (NilOrNew low before) trees refs) :
    Tree.DenoteAll after (NilOrNew low after) trees refs :=
  Tree.DenoteAll.frame (writes.same some apart) (NilOrNew.mono (Nat.le_refl low) writes.nNodes) trees
    refs denoted

theorem denoteAll_snoc {state : CcState} {inside : Nat → Prop} {trees : List Tree}
    {refs : List CcAstNodeRef} {tree : Tree} {ref : CcAstNodeRef}
    (all : Tree.DenoteAll state inside trees refs) (last : tree.Denotes state inside ref) :
    Tree.DenoteAll state inside (trees ++ [tree]) (refs ++ [ref]) := by
  rw [denoteAll_iff] at all ⊢
  exact List.rel_append all (.cons last .nil)

end Frames

/-- The variable node and its type node say what was declared so far; what the type refers to
was drawn from `low` on. -/
structure Declaring (state : CcState) (decl init typeDef : CcAstNodeRef) (low : Nat)
    (declaration : Declaration) : Prop where
  nil : state.nodeAt 0 = .invalid
  valid : 0 < typeDef.toNat
  ordered : typeDef.toNat < decl.toNat
  below : decl.toNat < low
  drawn : low ≤ state.nNodes
  varNode : state.node decl = .newVar declaration.name init typeDef declaration.flags
  typeNode : ∃ returnRef childs refs,
    state.node typeDef = .newType returnRef childs declaration.typeFlags ∧
      state.array childs = some refs ∧
      declaration.returnType.Denotes state (NilOrNew low state) returnRef ∧
      Tree.DenoteAll state (NilOrNew low state) declaration.params refs

def Owns (decl typeDef : CcAstNodeRef) (index : Nat) : Prop :=
  index = decl.toNat ∨ index = typeDef.toNat

section Variables

variable {before after state : CcState} {decl init typeDef : CcAstNodeRef} {low : Nat}
  {declaration : Declaration}

theorem Declaring.typeInside (declaring : Declaring state decl init typeDef low declaration) :
    typeDef.toNat < state.nNodes :=
  (declaring.ordered.trans declaring.below).trans_le declaring.drawn

theorem Declaring.declInside (declaring : Declaring state decl init typeDef low declaration) :
    decl.toNat < state.nNodes := declaring.below.trans_le declaring.drawn

theorem Declaring.positive (declaring : Declaring state decl init typeDef low declaration) :
    0 < state.nNodes := (Nat.zero_le _).trans_lt declaring.typeInside

theorem Declaring.apart (declaring : Declaring state decl init typeDef low declaration)
    {index : Nat}
    (owned : Owns decl typeDef index) : 0 < index ∧ index < low := by
  have valid := declaring.valid
  have ordered := declaring.ordered
  have below := declaring.below
  rcases owned with rfl | rfl <;> omega

theorem Declaring.zero_free (declaring : Declaring state decl init typeDef low declaration) :
    ¬ Owns decl typeDef 0 := fun owned => Nat.lt_irrefl 0 (declaring.apart owned).1

theorem Declaring.keptNil (declaring : Declaring before decl init typeDef low declaration)
    (writes : Writes (Owns decl typeDef) before after) : after.nodeAt 0 = .invalid :=
  (writes.others 0 declaring.positive declaring.zero_free).trans declaring.nil

theorem Declaring.kept (declaring : Declaring before decl init typeDef low declaration)
    {owned : Nat → Prop} (writes : Writes owned before after)
    (apart : ∀ index, owned index → 0 < index ∧ index < low ∧ ¬ Owns decl typeDef index) :
    Declaring after decl init typeDef low declaration := by
  have some := declaring.positive
  have free : ∀ index, owned index → index < before.nNodes → 0 < index ∧ index < low :=
    fun index also _ => ⟨(apart index also).1, (apart index also).2.1⟩
  obtain ⟨returnRef, childs, refs, node, array, returns, params⟩ := declaring.typeNode
  refine ⟨?_, declaring.valid, declaring.ordered, declaring.below,
    declaring.drawn.trans writes.nNodes, ?_, returnRef, childs, refs, ?_, ?_,
    writes.denotes some free returns, writes.denoteAll some free params⟩
  · exact (writes.others 0 some fun zero => absurd (apart 0 zero).1 (Nat.lt_irrefl 0)).trans
      declaring.nil
  · exact (writes.node declaring.declInside fun also =>
      (apart _ also).2.2 (Or.inl rfl)).trans declaring.varNode
  · exact (writes.node declaring.typeInside fun also => (apart _ also).2.2 (Or.inr rfl)).trans node
  · exact (writes.same some free).array array

theorem Declaring.extended (declaring : Declaring before decl init typeDef low declaration)
    (extended : Extends before after) : Declaring after decl init typeDef low declaration :=
  declaring.kept extended fun _ never => never.elim

theorem Declaring.setVariable (declaring : Declaring state decl init typeDef low declaration)
    (name : CcStrview) (flags : BitVec 32) :
    Declaring (state.setNode decl (.newVar name init typeDef flags)) decl init typeDef low
      { declaration with name := name, flags := flags } := by
  have some := declaring.positive
  have inside := declaring.declInside
  have writes := Writes.setNode state (.newVar name init typeDef flags) inside
  have free : ∀ index, index = decl.toNat → index < state.nNodes → 0 < index ∧ index < low :=
    fun index same _ => declaring.apart (Or.inl same)
  obtain ⟨returnRef, childs, refs, node, array, returns, params⟩ := declaring.typeNode
  refine ⟨declaring.keptNil (writes.mono fun _ _ same => Or.inl same), declaring.valid,
    declaring.ordered, declaring.below, declaring.drawn, ?_, returnRef, childs, refs, ?_, array,
    writes.denotes some free returns, writes.denoteAll some free params⟩
  · rw [node_eq_nodeAt, setNode_nodeAt _ _ _ _ inside, if_pos rfl]
  · exact (writes.node declaring.typeInside (Nat.ne_of_lt declaring.ordered)).trans node

theorem Declaring.setType (declaring : Declaring before decl init typeDef low declaration)
    {returnRef : CcAstNodeRef} {childs : ChildArray} {refs : List CcAstNodeRef}
    {changed : Declaration}
    (writes : Writes (fun index => index = typeDef.toNat) before after)
    (same : changed.name = declaration.name ∧ changed.flags = declaration.flags)
    (node : after.node typeDef = .newType returnRef childs changed.typeFlags)
    (array : after.array childs = some refs)
    (returns : changed.returnType.Denotes after (NilOrNew low after) returnRef)
    (params : Tree.DenoteAll after (NilOrNew low after) changed.params refs) :
    Declaring after decl init typeDef low changed := by
  refine ⟨declaring.keptNil (writes.mono fun _ _ same => Or.inr same), declaring.valid,
    declaring.ordered, declaring.below, declaring.drawn.trans writes.nNodes, ?_, returnRef, childs,
    refs, node, array, returns, params⟩
  rw [writes.node declaring.declInside (Nat.ne_of_gt declaring.ordered), declaring.varNode,
    same.1, same.2]

theorem Declaring.setTypeFlags (declaring : Declaring state decl init typeDef low declaration)
    {returnRef : CcAstNodeRef} {childs : ChildArray} {old : BitVec 32}
    (found : state.node typeDef = .newType returnRef childs old) (flags : BitVec 32) :
    Declaring (state.setNode typeDef (.newType returnRef childs flags)) decl init typeDef low
      { declaration with typeFlags := flags } := by
  have inside := declaring.typeInside
  have writes := Writes.setNode state (.newType returnRef childs flags) inside
  have free : ∀ index, index = typeDef.toNat → index < state.nNodes → 0 < index ∧ index < low :=
    fun index same _ => declaring.apart (Or.inr same)
  obtain ⟨_, _, refs, node, array, returns, params⟩ := declaring.typeNode
  cases found.symm.trans node
  refine declaring.setType writes ⟨rfl, rfl⟩ ?_ array
    (writes.denotes declaring.positive free returns)
    (writes.denoteAll declaring.positive free params)
  rw [node_eq_nodeAt, setNode_nodeAt _ _ _ _ inside, if_pos rfl]

theorem Declaring.denotes (declaring : Declaring state decl init typeDef low declaration)
    {initTree : Tree} (initial : initTree.Denotes state (NilOrNew typeDef.toNat state) init) :
    (declaration.tree initTree).Denotes state (NilOrNew typeDef.toNat state) decl := by
  have ordered := declaring.ordered
  have below := declaring.below
  obtain ⟨returnRef, childs, refs, node, array, returns, params⟩ := declaring.typeNode
  have wider := NilOrNew.mono (ordered.trans below).le (Nat.le_refl state.nNodes)
  refine ⟨Or.inr ⟨ordered.le, declaring.declInside⟩, init, typeDef, declaring.varNode, initial,
    Or.inr ⟨Nat.le_refl _, declaring.typeInside⟩, returnRef, childs, refs, node, array, ?_, ?_⟩
  · exact Tree.Denotes.frame (.refl _ state) wider _ _ returns
  · exact Tree.DenoteAll.frame (.refl _ state) wider _ _ params

end Variables

section Specifiers

variable {state : CcState} {decl init typeDef : CcAstNodeRef} {low : Nat}
  {declaration : Declaration}

theorem storageClassSpecifier_run {name : CcStrview} {flags : BitVec 32}
    (varNode : state.node decl = .newVar name init typeDef flags) :
    (ccParseStorageClassSpecifier decl).run state =
      match storageClassFlag (headType state.remaining) with
      | some flag =>
          .ok true (state.advance.setNode decl (.newVar name init typeDef (flags ||| flag)))
      | none => .ok false state := by
  rw [ccParseStorageClassSpecifier, run_bind_ok (peek_run state), run_bind_ok (run_get state),
    peek_type, varNode]
  simp only
  cases storageClassFlag (headType state.remaining) with
  | some flag => rfl
  | none => rfl

theorem typeSpecifier_run {returnRef : CcAstNodeRef} {childs : ChildArray} {flags : BitVec 32}
    (typeNode : state.node typeDef = .newType returnRef childs flags) :
    (ccParseTypeSpecifier typeDef).run state =
      match typeSpecifierFlag (headType state.remaining) with
      | some flag =>
          .ok true (state.advance.setNode typeDef (.newType returnRef childs (flags ||| flag)))
      | none => .ok false state := by
  rw [ccParseTypeSpecifier, run_bind_ok (peek_run state), run_bind_ok (run_get state),
    peek_type, typeNode]
  simp only
  cases typeSpecifierFlag (headType state.remaining) with
  | some flag => rfl
  | none => rfl

structure Specified (before after : CcState) (decl init typeDef : CcAstNodeRef) (low : Nat)
    (declaration : Declaration) (rest : List CcToken) : Prop where
  declaring : Declaring after decl init typeDef low declaration
  writes : Writes (Owns decl typeDef) before after
  nNodes : after.nNodes = before.nNodes
  remaining : after.remaining = rest

theorem Specified.trans {before middle after : CcState} {later : Declaration}
    {rest left : List CcToken}
    (first : Specified before middle decl init typeDef low declaration rest)
    (second : Specified middle after decl init typeDef low later left) :
    Specified before after decl init typeDef low later left :=
  ⟨second.declaring, first.writes.trans second.writes,
    second.nNodes.trans first.nNodes, second.remaining⟩

def NeverStops (_ : Halt) (_ : CcState) : Prop := False

theorem oneSpecifier_specifies (declaring : Declaring state decl init typeDef low declaration) :
    Ensures (ccParseOneSpecifier decl typeDef) (fun took after =>
      took = startsSpecifier state.remaining ∧
        Specified state after decl init typeDef low (declaration.specify (headType state.remaining))
          (if took then state.remaining.tail else state.remaining)) NeverStops state := by
  have moved := declaring.extended (.advance state)
  obtain ⟨returnRef, childs, refs, typeNode, array, returns, params⟩ := declaring.typeNode
  have storage := storageClassSpecifier_run declaring.varNode
  have kind := typeSpecifier_run typeNode
  unfold ccParseOneSpecifier
  rw [startsSpecifier, isSpecifier, Declaration.specify]
  cases isStorage : storageClassFlag (headType state.remaining) with
  | some flag =>
      rw [isStorage] at storage
      refine .bind_run storage (.pure ⟨rfl, moved.setVariable _ _, ?_, rfl, ?_⟩)
      · exact (Extends.writes (.advance state)).trans
          ((Writes.setNode _ _ moved.declInside).mono fun _ _ same => Or.inl same)
      · exact advance_remaining state
  | none =>
      rw [isStorage] at storage
      refine .bind_run storage ?_
      cases isType : typeSpecifierFlag (headType state.remaining) with
      | some flag =>
          rw [isType] at kind
          refine .bind_run kind (.pure ⟨rfl, moved.setTypeFlags typeNode _, ?_, rfl, ?_⟩)
          · exact (Extends.writes (.advance state)).trans
              ((Writes.setNode _ _ moved.typeInside).mono fun _ _ same => Or.inr same)
          · exact advance_remaining state
      | none =>
          rw [isType] at kind
          exact .bind_run kind (.pure ⟨rfl, declaring, .refl _ state, rfl, rfl⟩)

theorem specified_step (declaration : Declaration) (toks : List CcToken) :
    declaration.specified toks =
      if startsSpecifier toks then
        (declaration.specify (headType toks)).specified toks.tail
      else declaration := by
  cases toks with
  | nil => rfl
  | cons tok rest =>
      by_cases kind : isSpecifier tok.type = true
      · simp [Declaration.specified, startsSpecifier, headType, kind]
      · simp [Declaration.specified, startsSpecifier, headType, kind]

theorem specify_other {type : CcTokenType} (other : isSpecifier type = false)
    (declaration : Declaration) : declaration.specify type = declaration := by
  obtain ⟨storage, kind⟩ := Bool.or_eq_false_iff.mp other
  rw [Declaration.specify, Option.isSome_eq_false_iff.mp storage |> Option.isNone_iff_eq_none.mp,
    Option.isSome_eq_false_iff.mp kind |> Option.isNone_iff_eq_none.mp]

def OutOfFuel (why : Halt) (_ : CcState) : Prop := why = .outOfFuel

theorem declarationSpecifiers_specify (fuel : Nat)
    (declaring : Declaring state decl init typeDef low declaration) :
    Ensures (ccParseDeclarationSpecifiers fuel decl) (fun took after =>
      took = startsSpecifier state.remaining ∧
        Specified state after decl init typeDef low (declaration.specified state.remaining)
          (dropSpecifiers state.remaining)) OutOfFuel state := by
  induction fuel generalizing state declaration with
  | zero => exact .halt rfl
  | succ fuel ih =>
      rw [ccParseDeclarationSpecifiers]
      apply Ensures.get
      rw [declaring.varNode]
      have one := (oneSpecifier_specifies declaring).mono (fun _ _ _ held => held)
        fun why after (never : NeverStops why after) => (never.elim : OutOfFuel why after)
      refine one.bind ?_
      rintro took middle _ ⟨decided, specified⟩
      rw [specified_step, dropSpecifiers_step, ← decided]
      cases took with
      | true =>
          refine (ih specified.declaring).bind fun _ after _ rest => .pure ⟨rfl, ?_⟩
          have whole := specified.trans rest.2
          rw [specified.remaining] at whole
          exact whole
      | false =>
          refine .pure ⟨rfl, ?_⟩
          rw [specify_other decided.symm] at specified
          exact specified

end Specifiers

/-! ### Contracts as long as references fit -/

abbrev refsKept : Proviso parseFrame :=
  ⟨CcState.refsFit, fun step fits => Nat.le_trans step.nodes fits⟩

def Stops {α : Type} (reply : Reply α) (why : Halt) (_ : CcState) : Prop :=
  why = .outOfFuel ∨ reply = .abort

section Rules

variable {α : Type} {post : α → CcState → Prop} {stop : Halt → CcState → Prop} {state : CcState}

theorem peekIs_while {type : CcTokenType} {yes no : CcToken → ParseM α}
    (holds : ∀ tok, headType state.remaining = type →
      EnsuresWhile refsKept (yes tok) post stop state)
    (fails : ∀ tok, headType state.remaining ≠ type →
      EnsuresWhile refsKept (no tok) post stop state) :
    EnsuresWhile refsKept (ccPeekToken 0 >>= fun tok => if tok.type = type then yes tok else no tok)
      post stop state :=
  ⟨peekIs_ensures (fun tok same => (holds tok same).ensures)
    fun tok _ other => (fails tok other).ensures⟩

theorem push_while {node : CcAstNode} {next : CcAstNodeRef → ParseM α}
    (after : (state.push node).refsFit →
      EnsuresWhile refsKept (next (refOf state.nNodes)) post stop (state.push node)) :
    EnsuresWhile refsKept (ccAstPushNode node >>= next) post stop state :=
  .bind_run (pushNode_run state node) (.assume after)

theorem advance_while {next : Unit → ParseM α}
    (after : EnsuresWhile refsKept (next ()) post stop state.advance) :
    EnsuresWhile refsKept (ccNextToken >>= next) post stop state := .bind_run (next_run state) after

end Rules

section Declarators

variable {before after state : CcState} {decl init typeDef : CcAstNodeRef} {low : Nat}
  {declaration : Declaration}

/-- A declarator was read into the variable, or none starts here and nothing has happened. -/
def DeclaresAs (before : CcState) (decl init typeDef : CcAstNodeRef) (low : Nat)
    (reply : Reply Declaration) : Bool → CcState → Prop
  | true, after => ∃ declaration, reply = .yes declaration after.remaining ∧
      Declaring after decl init typeDef low declaration ∧ Writes (Owns decl typeDef) before after ∧
      (declaration.params = [] → after.nNodes = before.nNodes) ∧
      (declaration.params ≠ [] → before.nNodes < after.nNodes)
  | false, after => reply = .no ∧ after = before

def DeclaratorBuilds (parse : CcAstNodeRef → ParseM Bool) : Prop :=
  ∀ bound before decl init typeDef low declaration, before.remaining.length < bound →
    Declaring before decl init typeDef low declaration → declaration.params = [] →
    EnsuresWhile refsKept (parse decl)
      (DeclaresAs before decl init typeDef low (readDeclarator bound declaration before.remaining))
      (Stops (readDeclarator bound declaration before.remaining)) before

structure Lists (before after : CcState) (decl init typeDef : CcAstNodeRef) (low : Nat)
    (declaration : Declaration) (params : List Tree) : Prop where
  some : params ≠ []
  declaring : Declaring after decl init typeDef low
    { declaration with params := declaration.params ++ params }
  writes : Writes (Owns decl typeDef) before after
  more : before.nNodes < after.nNodes

def ParameterBuilds (parse : CcAstNodeRef → ParseM Bool) : Prop :=
  ∀ bound before decl init typeDef low declaration, before.remaining.length < bound →
    Declaring before decl init typeDef low declaration →
    EnsuresWhile refsKept (parse decl)
      (fun accepted after => accepted = true ∧ ∃ param,
        readParameter (readDeclarator bound) before.remaining = .yes param after.remaining ∧
          Lists before after decl init typeDef low declaration [param])
      (Stops (readParameter (readDeclarator bound) before.remaining)) before

/-- The list functions return false in every case. -/
def ParametersBuild (parse : CcAstNodeRef → ParseM Bool) : Prop :=
  ∀ bound fuel before decl init typeDef low declaration, before.remaining.length < bound →
    before.remaining.length < fuel → Declaring before decl init typeDef low declaration →
    EnsuresWhile refsKept (parse decl)
      (fun accepted after => accepted = false ∧ ∃ params,
        readParameters (readDeclarator bound) fuel before.remaining = .yes params after.remaining ∧
          Lists before after decl init typeDef low declaration params)
      (Stops (readParameters (readDeclarator bound) fuel before.remaining)) before

theorem pushChildrenToType_run {n c returnRef : CcAstNodeRef} {childs : ChildArray}
    {flags : BitVec 32} (isType : state.node n = .newType returnRef childs flags) (other : n ≠ c) :
    (ccAstPushChildrenToType n c).run state =
      .ok () (state.appendChild n childs c (.newType returnRef · flags)) := by
  simp [ccAstPushChildrenToType, run_bind, check, isType, other]

theorem Declaring.addParameter (declaring : Declaring state decl init typeDef low declaration)
    {returnRef ref : CcAstNodeRef} {childs : ChildArray} {param : Tree}
    (found : state.node typeDef = .newType returnRef childs declaration.typeFlags)
    (denoted : param.Denotes state (NilOrNew low state) ref) :
    Declaring
      (state.appendChild typeDef childs ref (.newType returnRef · declaration.typeFlags)) decl
      init typeDef low { declaration with params := declaration.params ++ [param] } := by
  have inside := declaring.typeInside
  have writes := Writes.appendChild state childs ref
    (.newType returnRef · declaration.typeFlags) inside
  have free : ∀ index, index = typeDef.toNat → index < state.nNodes → 0 < index ∧ index < low :=
    fun index same _ => declaring.apart (Or.inr same)
  obtain ⟨_, _, refs, node, array, returns, params⟩ := declaring.typeNode
  cases found.symm.trans node
  have rebuilt : (state.appendChild typeDef childs ref
      (.newType returnRef · declaration.typeFlags)).node typeDef =
        .newType returnRef (some state.childArrays.length) declaration.typeFlags := by
    rw [node_eq_nodeAt, appendChild_nodeAt _ _ _ _ _ _ inside, if_pos rfl]
  refine declaring.setType writes ⟨rfl, rfl⟩ rebuilt ?_
    (writes.denotes declaring.positive free returns)
    (denoteAll_snoc (writes.denoteAll declaring.positive free params)
      (writes.denotes declaring.positive free denoted))
  simp [CcState.array, CcState.appendChild, childs_of_array array]

theorem Declaring.parameter (nil : before.nodeAt 0 = .invalid) (some : 0 < before.nNodes)
    (fits : ((before.push (.newType 0 none 0)).push
      (.newVar ⟨0, 0⟩ 0 (refOf before.nNodes) 0)).refsFit) :
    Declaring ((before.push (.newType 0 none 0)).push (.newVar ⟨0, 0⟩ 0 (refOf before.nNodes) 0))
      (refOf (before.nNodes + 1)) 0 (refOf before.nNodes) (before.nNodes + 2) {} := by
  have typeIndex : (refOf before.nNodes).toNat = before.nNodes :=
    toNat_pushed before _ (fits_of_push fits)
  have declIndex : (refOf (before.nNodes + 1)).toNat = before.nNodes + 1 := toNat_pushed _ _ fits
  have zero : ((before.push (.newType 0 none 0)).push
      (.newVar ⟨0, 0⟩ 0 (refOf before.nNodes) 0)).nodeAt 0 = .invalid := by
    rw [push_nodeAt, push_nodeAt, push_nNodes, if_neg (by omega), if_neg (by omega), nil]
  refine ⟨zero, by omega, by omega, by omega, Nat.le_refl _, ?_, 0, none, [], ?_, rfl,
    ⟨Or.inl rfl, zero, rfl⟩, rfl⟩
  · rw [node_eq_nodeAt, declIndex, push_nodeAt, push_nNodes, if_pos rfl]
  · rw [node_eq_nodeAt, typeIndex, push_nodeAt, push_nNodes, if_neg (by omega), push_nodeAt,
      if_pos rfl]

theorem specified_params (toks : List CcToken) (declaration : Declaration) :
    (declaration.specified toks).params = declaration.params := by
  induction toks generalizing declaration with
  | nil => rfl
  | cons tok rest ih =>
      rw [Declaration.specified]
      split
      · rw [ih, Declaration.specify]
        split
        · rfl
        · split
          · rfl
          · rfl
      · rfl

theorem parameterDeclaration_builds {fuel : Nat}
    (declarator : DeclaratorBuilds (ccParseDeclarator fuel)) :
    ParameterBuilds (ccParseParameterDeclaration (fuel + 1)) := by
  intro bound before decl init typeDef low declaration short declaring
  rw [ccParseParameterDeclaration]
  refine push_while fun _ => push_while fun fits => ?_
  have typeIndex : (refOf before.nNodes).toNat = before.nNodes :=
    toNat_pushed before _ (fits_of_push fits)
  have declIndex : (refOf (before.nNodes + 1)).toNat = before.nNodes + 1 := toNat_pushed _ _ fits
  set paramDecl := refOf (before.nNodes + 1)
  set pushed := (before.push (.newType 0 none 0)).push (.newVar ⟨0, 0⟩ 0 (refOf before.nNodes) 0)
  have started : Declaring pushed paramDecl 0 (refOf before.nNodes) (before.nNodes + 2) {} :=
    .parameter declaring.nil declaring.positive fits
  have drawn : Extends before pushed := (Writes.push before _).trans (.push _ _)
  -- whatever the parameter writes is new to the variable it belongs to
  have new : ∀ index, Owns paramDecl (refOf before.nNodes) index → before.nNodes ≤ index := by
    rintro index (rfl | rfl) <;> omega
  have specifiers : EnsuresWhile refsKept (ccParseDeclarationSpecifiers fuel paramDecl)
      (fun took after => took = startsSpecifier before.remaining ∧
        Specified pushed after paramDecl 0 (refOf before.nNodes) (before.nNodes + 2)
          (({} : Declaration).specified before.remaining) (dropSpecifiers before.remaining))
      (Stops (readParameter (readDeclarator bound) before.remaining)) pushed :=
    (declarationSpecifiers_specify fuel started).during.mono (fun _ _ _ held => held)
      fun _ _ cut => Or.inl cut
  refine specifiers.bind ?_
  rintro took middle _ ⟨decided, specified⟩
  rw [readParameter, ← decided]
  cases took with
  | false =>
      -- the type node goes first, although the variable node lies above it
      have misplaced : (refOf before.nNodes).toNat + 1 ≠ middle.nNodes := by
        have count : middle.nNodes = before.nNodes + 2 := specified.nNodes
        omega
      exact .of_halt (run_bind_halt (popNode_fails middle _ misplaced)) (Or.inr rfl)
  | true =>
      have kept : Extends before middle := drawn.thenNew specified.writes new
      apply EnsuresWhile.get
      rw [(declaring.extended kept).varNode]
      have fewer : middle.remaining.length < bound := by
        rw [specified.remaining]
        exact (dropSpecifiers_length_le _).trans_lt short
      have parsed := declarator bound middle paramDecl 0 (refOf before.nNodes) (before.nNodes + 2) _
        fewer specified.declaring (specified_params before.remaining {})
      rw [specified.remaining] at parsed
      refine (parsed.mono (fun _ _ _ held => held) fun why after stops => ?_).bind
        fun accepted last _ declares => ?_
      · exact stops.imp_right fun aborted => by simp only [if_true, aborted]
      cases accepted with
      | false =>
          obtain ⟨reply, _⟩ := declares
          refine .bind_run (run_pure false last) (.halt (Or.inr ?_))
          simp only [if_true, reply]
      | true =>
          obtain ⟨param, reply, finished, writes, _⟩ := declares
          have all : Extends before last := kept.thenNew writes new
          have still := declaring.extended all
          have count : before.nNodes < last.nNodes := by
            have drawn := finished.drawn
            omega
          have param' : (param.tree (.leaf .invalid)).Denotes last
              (NilOrNew (refOf before.nNodes).toNat last) paramDecl :=
            finished.denotes ⟨Or.inl rfl, finished.nil, rfl⟩
          have inner : (param.tree (.leaf .invalid)).Denotes last (NilOrNew low last) paramDecl :=
            Tree.Denotes.frame (.refl _ last)
              (NilOrNew.mono (declaring.drawn.trans typeIndex.ge) (Nat.le_refl _)) _ _ param'
          obtain ⟨returnRef, childs, refs, typeNode, _⟩ := still.typeNode
          have distinct : typeDef ≠ paramDecl := ref_ne_of_toNat (by
            have inside := declaring.typeInside
            omega)
          have typeDefOf : last.typeDefOf decl = typeDef := by rw [CcState.typeDefOf, still.varNode]
          apply EnsuresWhile.get
          rw [typeDefOf]
          refine .bind_run (pushChildrenToType_run typeNode distinct) (.pure
            ⟨rfl, param.tree (.leaf .invalid), ?_, ?_⟩)
          · simp only [if_true, reply, appendChild_remaining]
          · refine ⟨by simp, still.addParameter typeNode inner, ?_, count⟩
            exact (Extends.writes all).trans
              ((Writes.appendChild _ _ _ _ still.typeInside).mono fun _ _ same => Or.inr same)

theorem parameterList_builds {fuel : Nat} (one : ParameterBuilds (ccParseParameterDeclaration fuel))
    (rest : ParametersBuild (ccParseParameterList fuel)) :
    ParametersBuild (ccParseParameterList (fuel + 1)) := by
  intro bound limit before decl init typeDef low declaration short enough declaring
  obtain ⟨limit, rfl⟩ : ∃ smaller, limit = smaller + 1 := ⟨limit - 1, by omega⟩
  rw [ccParseParameterList, readParameters]
  refine ((one bound before decl init typeDef low declaration short declaring).mono
    (fun _ _ _ held => held) fun why after stops => ?_).bind fun accepted middle step parsed => ?_
  · exact stops.imp_right fun aborted => by rw [aborted]
  obtain ⟨rfl, param, reply, first⟩ := parsed
  have fewer := remaining_length_le step
  simp only [reply, if_true]
  apply peekIs_while
  · intro _ isComma
    have left := tail_length_lt (by decide) isComma (Nat.lt_of_le_of_lt fewer enough)
    rw [if_pos isComma]
    refine advance_while ?_
    have tail : middle.advance.remaining = middle.remaining.tail := advance_remaining middle
    have later := rest bound limit middle.advance decl init typeDef low _
      (by rw [tail, List.length_tail]; omega) (by rw [tail]; exact left)
      (first.declaring.extended (.advance middle))
    rw [tail] at later
    refine later.mono (fun _ after _ listed => ?_) fun why after stops => ?_
    · obtain ⟨declined, params, more, lists⟩ := listed
      refine ⟨declined, param :: params, by rw [more], by simp, ?_, ?_, ?_⟩
      · have both := lists.declaring
        rwa [List.append_assoc] at both
      · exact (first.writes.trans (Extends.writes (.advance middle))).trans lists.writes
      · exact first.more.trans lists.more
    · exact stops.imp_right fun aborted => by rw [aborted]
  · intro _ noComma
    rw [if_neg noComma]
    exact .pure ⟨rfl, [param], rfl, first⟩

theorem parameterTypeList_builds {fuel : Nat} (list : ParametersBuild (ccParseParameterList fuel)) :
    ParametersBuild (ccParseParameterTypeList (fuel + 1)) := by
  intro bound limit before decl init typeDef low declaration short enough declaring
  rw [ccParseParameterTypeList]
  refine (list bound limit before decl init typeDef low declaration short enough declaring).bind ?_
  rintro accepted after _ ⟨rfl, read⟩
  exact .pure ⟨rfl, read⟩

theorem setVarName_run {flags : BitVec 32} {old : CcStrview} (name : CcStrview)
    (varNode : state.node decl = .newVar old init typeDef flags) :
    (ccSetVarName decl name).run state =
      .ok () (state.setNode decl (.newVar name init typeDef flags)) := by
  rw [ccSetVarName, run_bind_ok (run_get state), varNode]
  rfl

/-- The type node is copied to the top, and overwritten by a function type that returns it. -/
def CcState.withFunctionType (state : CcState) (typeDef : CcAstNodeRef) : CcState :=
  (state.push (state.node typeDef)).setNode typeDef
    (.newType (refOf state.nNodes) none ccAstTypeFlagsFunction)

theorem makeFunctionType_run (declaring : Declaring state decl init typeDef low declaration) :
    (ccMakeFunctionType decl).run state = .ok () (state.withFunctionType typeDef) := by
  have inside := declaring.typeInside
  have valid := declaring.valid
  obtain ⟨returnRef, childs, refs, typeNode, _⟩ := declaring.typeNode
  set pushed := state.push (state.node typeDef)
  have typeDefOf : state.typeDefOf decl = typeDef := by rw [CcState.typeDefOf, declaring.varNode]
  have copied : (ccAstCopyNode (state.typeDefOf decl)).run state =
      .ok (refOf state.nNodes) pushed := by
    rw [typeDefOf, ccAstCopyNode, run_bind_ok (run_get state),
      run_bind_ok (run_check_true (by simp [valid, inside]) _ state)]
    exact pushNode_run state _
  have kept : pushed.node (state.typeDefOf decl) =
      .newType returnRef childs declaration.typeFlags := by
    rw [typeDefOf]
    exact (push_node_old state _ inside).trans typeNode
  rw [ccMakeFunctionType, run_bind_ok (run_get state), run_bind_ok copied,
    run_bind_ok (run_get pushed), kept]
  exact congrArg (fun ref => Outcome.ok () (pushed.setNode ref _)) typeDefOf

theorem Declaring.withFunctionType (declaring : Declaring state decl init typeDef low declaration)
    (fits : (state.withFunctionType typeDef).refsFit) :
    Declaring (state.withFunctionType typeDef) decl init typeDef low (declaration.function []) ∧
      Writes (Owns decl typeDef) state (state.withFunctionType typeDef) := by
  have inside := declaring.typeInside
  have fitsCopy : (state.push (state.node typeDef)).refsFit := by
    simpa [CcState.refsFit, CcState.withFunctionType, CcState.setNode] using fits
  have copy : (refOf state.nNodes).toNat = state.nNodes := toNat_pushed state _ fitsCopy
  obtain ⟨returnRef, childs, refs, typeNode, array, returns, params⟩ := declaring.typeNode
  have within : typeDef.toNat < (state.push (state.node typeDef)).nNodes := Nat.lt_succ_of_lt inside
  have writes : Writes (fun index => index = typeDef.toNat) state (state.withFunctionType typeDef) :=
    (Extends.writes (.push state _)).trans (.setNode _ _ within)
  have free : ∀ index, index = typeDef.toNat → index < state.nNodes → 0 < index ∧ index < low :=
    fun index same _ => declaring.apart (Or.inr same)
  have functionNode : (state.withFunctionType typeDef).node typeDef =
      .newType (refOf state.nNodes) none ccAstTypeFlagsFunction := by
    rw [node_eq_nodeAt, CcState.withFunctionType, setNode_nodeAt _ _ _ _ within, if_pos rfl]
  have copyNode : (state.withFunctionType typeDef).node (refOf state.nNodes) =
      .newType returnRef childs declaration.typeFlags := by
    rw [node_eq_nodeAt, CcState.withFunctionType, setNode_nodeAt _ _ _ _ within, copy,
      if_neg (Nat.ne_of_gt inside), push_nodeAt, if_pos rfl, typeNode]
  have own : Within low (state.withFunctionType typeDef).nNodes (refOf state.nNodes).toNat := by
    rw [copy]
    exact ⟨declaring.drawn, Nat.lt_succ_self _⟩
  refine ⟨declaring.setType writes ⟨rfl, rfl⟩ functionNode rfl ?_ rfl,
    writes.mono fun _ _ same => Or.inr same⟩
  exact ⟨Or.inr own, returnRef, childs, refs, copyNode, array,
    writes.denotes declaring.positive free returns,
    writes.denoteAll declaring.positive free params⟩

theorem closing_declares {reply : Reply Declaration}
    (declaring : Declaring state decl init typeDef low declaration)
    (writes : Writes (Owns decl typeDef) before state)
    (left : (declaration.params = [] → state.nNodes = before.nNodes) ∧
      (declaration.params ≠ [] → before.nNodes < state.nNodes))
    (closes : reply = if headType state.remaining = .rparen then
      .yes declaration state.remaining.tail else .abort) :
    EnsuresWhile refsKept (do
      let close ← ccPeekToken 0
      if close.type = .rparen then
        ccNextToken
        pure true
      else
        halt .abort) (DeclaresAs before decl init typeDef low reply) (Stops reply) state := by
  apply peekIs_while
  · intro _ isClose
    rw [closes, if_pos isClose]
    refine advance_while (.pure ⟨declaration, by rw [advance_remaining], ?_, ?_, left⟩)
    · exact declaring.extended (.advance state)
    · exact writes.trans (Extends.writes (.advance state))
  · intro _ other
    rw [closes, if_neg other]
    exact .halt (Or.inr rfl)

theorem directDeclarator_builds {fuel : Nat}
    (list : ParametersBuild (ccParseParameterTypeList fuel))
    (nested : DeclaratorBuilds (ccParseDeclarator fuel)) :
    DeclaratorBuilds (ccParseDirectDeclarator (fuel + 1)) := by
  intro bound before decl init typeDef low declaration short declaring none
  obtain ⟨bound, rfl⟩ : ∃ smaller, bound = smaller + 1 := ⟨bound - 1, by omega⟩
  rw [ccParseDirectDeclarator, readDeclarator]
  refine .bind_run (peek_run before) (.get ?_)
  rw [peek_type, peek_token, declaring.varNode]
  apply EnsuresWhile.ite
  · intro isIdent
    have inside := tail_length_lt (by decide) isIdent short
    rw [if_pos isIdent]
    set name := (before.remaining.headD {}).data
    refine advance_while (.bind_run (setVarName_run name declaring.varNode) ?_)
    set named := before.advance.setNode decl (.newVar name init typeDef declaration.flags)
    have moved := declaring.extended (.advance before)
    have naming : Declaring named decl init typeDef low { declaration with name := name } :=
      moved.setVariable name declaration.flags
    have writes : Writes (Owns decl typeDef) before named :=
      (Extends.writes (.advance before)).trans
        ((Writes.setNode _ _ moved.declInside).mono fun _ _ same => Or.inl same)
    have remaining : named.remaining = before.remaining.tail := advance_remaining before
    apply peekIs_while
    · intro _ opens
      rw [remaining] at opens
      rw [if_pos opens]
      refine .bind_run (makeFunctionType_run naming) (.assume fun fits => ?_)
      obtain ⟨typing, typed⟩ := naming.withFunctionType fits
      refine advance_while ?_
      set function := named.withFunctionType typeDef
      have tail : function.advance.remaining = before.remaining.tail.tail := by
        rw [advance_remaining, ← remaining]
        rfl
      have fewer : function.advance.remaining.length < bound := by
        rw [tail]
        exact Nat.lt_of_le_of_lt (by simp) inside
      -- the name and the parenthesis were read, so the list has a smaller bound
      have parsed := list bound bound function.advance decl init typeDef low _ fewer fewer
        (typing.extended (.advance function))
      rw [tail] at parsed
      refine (parsed.mono (fun _ _ _ held => held) fun why after stops => ?_).bind
        fun accepted last _ listed => ?_
      · exact stops.imp_right fun aborted => by rw [aborted]
      obtain ⟨_, params, reply, lists⟩ := listed
      have sofar : Writes (Owns decl typeDef) before last :=
        ((writes.trans typed).trans (Extends.writes (.advance function))).trans lists.writes
      have count : before.nNodes < last.nNodes := by
        have more : before.nNodes + 1 < last.nNodes := lists.more
        omega
      refine closing_declares lists.declaring sofar
        ⟨fun none => absurd none lists.some, fun _ => count⟩ ?_
      rw [reply]
      rfl
    · intro _ plain
      rw [remaining] at plain
      rw [if_neg plain]
      exact .pure ⟨_, by rw [remaining], naming, writes, fun _ => rfl, fun some => absurd none some⟩
  · intro notIdent
    rw [if_neg notIdent]
    apply EnsuresWhile.ite
    · intro opens
      have inside := tail_length_lt (by decide) opens short
      rw [if_pos opens]
      refine advance_while ?_
      have tail : before.advance.remaining = before.remaining.tail := advance_remaining before
      have parsed := nested bound before.advance decl init typeDef low declaration
        (by rw [tail]; exact inside) (declaring.extended (.advance before)) none
      rw [tail] at parsed
      refine (parsed.mono (fun _ _ _ held => held) fun why after stops => ?_).bind
        fun accepted last _ declares => ?_
      · exact stops.imp_right fun aborted => by rw [aborted]
      cases accepted with
      | false =>
          obtain ⟨reply, _⟩ := declares
          refine .halt (Or.inr ?_)
          rw [reply]
      | true =>
          obtain ⟨inner, reply, building, writes, left⟩ := declares
          refine closing_declares building ((Extends.writes (.advance before)).trans writes) left ?_
          rw [reply]
    · intro other
      rw [if_neg other]
      exact .pure ⟨rfl, rfl⟩

structure DeclaratorsBuild (fuel : Nat) : Prop where
  parameter : ParameterBuilds (ccParseParameterDeclaration fuel)
  parameterList : ParametersBuild (ccParseParameterList fuel)
  parameterTypeList : ParametersBuild (ccParseParameterTypeList fuel)
  direct : DeclaratorBuilds (ccParseDirectDeclarator fuel)
  declarator : DeclaratorBuilds (ccParseDeclarator fuel)

theorem declarators_build (fuel : Nat) : DeclaratorsBuild fuel := by
  induction fuel with
  | zero =>
      constructor
      · intro bound before decl init typeDef low declaration _ _
        rw [ccParseParameterDeclaration]
        exact .halt (Or.inl rfl)
      · intro bound limit before decl init typeDef low declaration _ _ _
        rw [ccParseParameterList]
        exact .halt (Or.inl rfl)
      · intro bound limit before decl init typeDef low declaration _ _ _
        rw [ccParseParameterTypeList]
        exact .halt (Or.inl rfl)
      · intro bound before decl init typeDef low declaration _ _ _
        rw [ccParseDirectDeclarator]
        exact .halt (Or.inl rfl)
      · intro bound before decl init typeDef low declaration _ _ _
        rw [ccParseDeclarator]
        exact .halt (Or.inl rfl)
  | succ fuel ih =>
      constructor
      · exact parameterDeclaration_builds ih.declarator
      · exact parameterList_builds ih.parameter ih.parameterList
      · exact parameterTypeList_builds ih.parameterList
      · exact directDeclarator_builds ih.parameterTypeList ih.declarator
      · intro bound before decl init typeDef low declaration short declaring none
        rw [ccParseDeclarator]
        exact .bind_run (run_pure false before)
          (ih.direct bound before decl init typeDef low declaration short declaring none)

end Declarators

end Estros
