import Estros.IsaBookkeeping

/-!
The second pass of the assembler puts the distance to its label into the third byte of every
word that refers to one. The output of a text is that of its items, word after word.
-/

namespace Estros

def findLabel (labels : List AsmLabel) (name : List UInt8) : Option AsmLabel :=
  labels.find? fun label => label.name = name

/-- A word behind the given number of bytes, with the distance to its label. -/
def InstBytes.link (id : InstBytes) (labels : List AsmLabel) (offset : Nat) :
    Option (List UInt8) → InstBytes
  | none => id
  | some name =>
      match findLabel labels name with
      | some label => { id with id2 := toByte (label.pc - BitVec.ofNat 32 offset) }
      | none => id

def linkedBytes (labels : List AsmLabel) (offset : Nat) : List AsmItem → List UInt8
  | [] => []
  | .label _ :: rest => linkedBytes labels offset rest
  | .word id target :: rest =>
      (id.link labels offset target).bytes ++ linkedBytes labels (offset + 4) rest

def LabelsDefined (labels : List AsmLabel) (items : List AsmItem) : Prop :=
  ∀ id name, .word id (some name) ∈ items → (findLabel labels name).isSome

theorem LabelsDefined.tail {labels : List AsmLabel} {item : AsmItem} {rest : List AsmItem}
    (defined : LabelsDefined labels (item :: rest)) : LabelsDefined labels rest :=
  fun id name member => defined id name (List.mem_cons_of_mem _ member)

theorem set_third (before rest : List UInt8) (id : InstBytes) (byte : UInt8) :
    (before ++ (id.bytes ++ rest)).set (before.length + 2) byte =
      before ++ ({ id with id2 := byte }.bytes ++ rest) := by
  rw [List.set_append_right _ _ (Nat.le_add_right _ _), Nat.add_sub_cancel_left]
  rfl

def asmDistanceErrors (rela : Word) : List (List UInt8) :=
  asmErrorIf (rela.toInt < -128 || 127 < rela.toInt) "rela < INT8_MIN || rela > INT8_MAX"

theorem asmFixupOne_eq {state : AsmState} {name : List UInt8} {label : AsmLabel}
    (found : findLabel state.labels name = some label) (pc offset : Word) :
    asmFixupOne state ⟨name, .relO16S8, pc, offset⟩ =
      .ok { state.print (asmDistanceErrors (label.pc - pc)) with
        out := state.out.set (offset.toNat + 2) (toByte (label.pc - pc)) } := by
  have read : asmFindLabel state name = .ok label := by
    unfold findLabel at found
    rw [asmFindLabel, found]
  rw [asmFixupOne]
  simp only [read]
  rfl

theorem fixups_link {items : List AsmItem} {before : List UInt8} {state : AsmState}
    (out : state.out = before ++ itemBytes items) (small : state.out.length ≤ outMaxSize)
    (defined : LabelsDefined state.labels items) :
    ∃ fixed, (fixupTable before.length items).foldlM asmFixupOne state = .ok fixed ∧
      fixed.out = before ++ linkedBytes state.labels before.length items ∧
      fixed.labels = state.labels := by
  -- `before` holds the words that are linked already
  induction items generalizing before state with
  | nil => exact ⟨state, rfl, out, rfl⟩
  | cons item rest ih =>
      cases item with
      | label name => exact ih out small defined.tail
      | word id target =>
          have length : ∀ word : InstBytes, (before ++ word.bytes).length = before.length + 4 :=
            fun word => List.length_append
          cases target with
          | none =>
              rw [itemBytes, ← List.append_assoc] at out
              have later := ih out small defined.tail
              rw [length, List.append_assoc] at later
              exact later
          | some name =>
              obtain ⟨label, found⟩ := Option.isSome_iff_exists.mp
                (defined id name List.mem_cons_self)
              have bound : before.length ≤ 2147483647 := by
                rw [out, List.length_append] at small
                exact (Nat.le_add_right _ _).trans small
              have offset : (BitVec.ofNat 32 before.length).toNat = before.length := by
                rw [BitVec.toNat_ofNat]
                exact Nat.mod_eq_of_lt (by omega)
              have out' : state.out.set (before.length + 2)
                  (toByte (label.pc - BitVec.ofNat 32 before.length)) =
                  (before ++ (id.link state.labels before.length (some name)).bytes) ++
                    itemBytes rest := by
                rw [out, itemBytes, set_third, InstBytes.link, found, List.append_assoc]
              have step := asmFixupOne_eq found (BitVec.ofNat 32 before.length)
                (BitVec.ofNat 32 before.length)
              rw [offset, out'] at step
              have room : ((before ++ (id.link state.labels before.length (some name)).bytes) ++
                  itemBytes rest).length ≤ outMaxSize := by
                rw [← out', List.length_set]
                exact small
              have later := @ih (before ++ (id.link state.labels before.length (some name)).bytes)
                { state.print (asmDistanceErrors (label.pc - BitVec.ofNat 32 before.length)) with
                  out := (before ++ (id.link state.labels before.length (some name)).bytes) ++
                    itemBytes rest } rfl room defined.tail
              obtain ⟨fixed, run, linked, labels⟩ := later
              rw [length] at run linked
              rw [fixupTable, List.foldlM_cons, step]
              exact ⟨fixed, run, linked.trans (List.append_assoc _ _ _), labels⟩

theorem linkedBytes_length (labels : List AsmLabel) (offset : Nat) (items : List AsmItem) :
    (linkedBytes labels offset items).length = (itemBytes items).length := by
  induction items generalizing offset with
  | nil => rfl
  | cons item rest ih =>
      cases item with
      | label name => exact ih offset
      | word id target =>
          rw [linkedBytes, itemBytes, List.length_append, List.length_append, ih]
          rfl

theorem linkedBytes_append (labels : List AsmLabel) (offset : Nat) (items others : List AsmItem) :
    linkedBytes labels offset (items ++ others) =
      linkedBytes labels offset items ++
        linkedBytes labels (offset + (itemBytes items).length) others := by
  induction items generalizing offset with
  | nil => rfl
  | cons item rest ih =>
      cases item with
      | label name => exact ih offset
      | word id target =>
          rw [List.cons_append, linkedBytes, linkedBytes, ih, List.append_assoc, itemBytes,
            List.length_append, Nat.add_assoc]
          rfl

/-- The state holds the bytes and the tables of the items. -/
structure AsmState.Holds (state : AsmState) (items : List AsmItem) : Prop where
  out : state.out = itemBytes items
  labels : state.labels = labelTable 0 items
  fixups : state.fixups = fixupTable 0 items
  room : state.out.length ≤ outMaxSize

theorem fitsAll_room {items : List AsmItem} {state : AsmState}
    (room : state.out.length ≤ outMaxSize) (fits : state.FitsAll items) :
    (state.addAll items).out.length ≤ outMaxSize := by
  induction items generalizing state with
  | nil => exact room
  | cons item rest ih =>
      refine ih ?_ fits.2
      cases item with
      | label name => exact room
      | word id target =>
          have length : (state.out ++ id.bytes).length = state.out.length + 4 :=
            List.length_append
          change (state.out ++ id.bytes).length ≤ _
          rw [length]
          exact fits.1.1

theorem readLines_holds {input : List UInt8} {lines : List (List UInt8)} {state : AsmState}
    (read : lines.foldlM asmReadLine (.start input) = .ok state) :
    ∃ items printed, asmItems lines = .ok (items, printed) ∧
      (AsmState.start input).FitsAll items ∧ state.Holds items := by
  obtain ⟨items, printed, same, fits, rfl⟩ := readLines_iff.mp read
  refine ⟨items, printed, same, fits, ?_⟩
  have room := fitsAll_room (Nat.zero_le _) ((AsmState.fitsAll_print _ printed _).mpr fits)
  have whole := @addAll_eq ((AsmState.start input).print printed) items rfl
  constructor
  · rw [whole]
    rfl
  · rw [whole]
    rfl
  · rw [whole]
    rfl
  · exact room

theorem assemble_holds {input : List UInt8} {state : AsmState}
    (assembled : asmAssemble (.start input) = .ok state) :
    ∃ items printed, asmItems (asmLines input) = .ok (items, printed) ∧ state.Holds items := by
  obtain ⟨items, printed, read, _, holds⟩ := readLines_holds assembled
  exact ⟨items, printed, read, holds⟩

theorem mem_fixupTable {items : List AsmItem} {id : InstBytes} {name : List UInt8}
    (member : .word id (some name) ∈ items) (offset : Nat) :
    ∃ fixup ∈ fixupTable offset items, fixup.name = name := by
  induction items generalizing offset with
  | nil => cases member
  | cons item rest ih =>
      cases member with
      | head => exact ⟨_, List.mem_cons_self, rfl⟩
      | tail _ later =>
          cases item with
          | label other => exact ih later offset
          | word word target =>
              obtain ⟨fixup, inside, same⟩ := ih later (offset + 4)
              cases target with
              | none => exact ⟨fixup, inside, same⟩
              | some other => exact ⟨fixup, List.mem_cons_of_mem _ inside, same⟩

theorem findLabel_isSome {labels : List AsmLabel} {name : List UInt8} :
    (findLabel labels name).isSome ↔ ∃ label ∈ labels, label.name = name := by
  simp [findLabel]

def AsmState.Defined (state : AsmState) : Prop :=
  ∀ fixup ∈ state.fixups, ∃ label ∈ state.labels, label.name = fixup.name

theorem AsmState.Holds.defined {state : AsmState} {items : List AsmItem}
    (holds : state.Holds items) (defined : state.Defined) : LabelsDefined state.labels items := by
  intro id name member
  obtain ⟨fixup, inside, rfl⟩ := mem_fixupTable member 0
  rw [← holds.fixups] at inside
  exact findLabel_isSome.mpr (defined fixup inside)

theorem asmFixup_holds {state : AsmState} {items : List AsmItem} (holds : state.Holds items)
    (defined : LabelsDefined state.labels items) :
    ∃ fixed, asmFixup state = .ok fixed ∧ fixed.out = linkedBytes state.labels 0 items := by
  obtain ⟨fixed, run, out, _⟩ := @fixups_link items [] state holds.out holds.room defined
  rw [asmFixup, holds.fixups]
  exact ⟨fixed, run, out⟩

theorem asmMain_holds {input : List UInt8} {state : AsmState} {items : List AsmItem}
    (assembled : asmAssemble (.start input) = .ok state) (holds : state.Holds items)
    (defined : LabelsDefined state.labels items) :
    asmMain input = .ok (linkedBytes state.labels 0 items) := by
  obtain ⟨fixed, run, out⟩ := asmFixup_holds holds defined
  rw [asmMain, assembled]
  change (asmFixup state >>= _) = _
  rw [run]
  exact congrArg Except.ok out

def AddsWord (line : List UInt8) (id : InstBytes) : Prop :=
  asmLineFits line = true ∧
    ∃ printed, (asmCutLine line).items = .ok ([.word id none], printed)

theorem IsInstruction.addsWord {line : List UInt8} {entry : XmInstTableEntry} {op : AsmOperands}
    {id : InstBytes} (instruction : IsInstruction line entry op)
    (encodes : asmEncodes entry.format = true) (bytes : asmBytes entry op = some id.bytes)
    (unlabelled : asmTarget entry.format op = none) (fits : asmLineFits line = true) :
    AddsWord line id := by
  obtain ⟨word, printed, same, items⟩ := instruction.word encodes
  have whole : InstBytes.ofBytes id.bytes = InstBytes.ofBytes word.bytes :=
    congrArg InstBytes.ofBytes (Option.some.inj (bytes.symm.trans same))
  have again : id = word := Option.some.inj whole
  subst again
  rw [unlabelled] at items
  exact ⟨fits, printed, items⟩

def wordItems (words : List InstBytes) : List AsmItem := words.map fun id => .word id none

theorem asmItems_words {lines : List (List UInt8)} {words : List InstBytes}
    (each : List.Forall₂ AddsWord lines words) :
    ∃ printed, asmItems lines = .ok (wordItems words, printed) := by
  induction each with
  | nil => exact ⟨[], rfl⟩
  | cons first rest ih =>
      obtain ⟨fits, printed, word⟩ := first
      obtain ⟨later, reads⟩ := ih
      exact ⟨printed ++ later, asmItems_cons.mpr ⟨fits, _, _, _, _, word, reads, rfl, rfl⟩⟩

theorem fitsAll_words {words : List InstBytes} {state : AsmState}
    (room : state.out.length + 4 * words.length ≤ outMaxSize) :
    state.FitsAll (wordItems words) := by
  induction words generalizing state with
  | nil => trivial
  | cons id rest ih =>
      rw [List.length_cons] at room
      refine ⟨⟨by omega, fun target => by cases target⟩, ih ?_⟩
      have length : (state.out ++ id.bytes).length = state.out.length + 4 := List.length_append
      change (state.out ++ id.bytes).length + _ ≤ _
      omega

theorem linkedBytes_words (labels : List AsmLabel) (offset : Nat) (words : List InstBytes) :
    linkedBytes labels offset (wordItems words) = words.flatMap InstBytes.bytes := by
  induction words generalizing offset with
  | nil => rfl
  | cons id rest ih => exact congrArg (id.bytes ++ ·) (ih (offset + 4))

theorem asmMain_words {text : List UInt8} {words : List InstBytes}
    (each : List.Forall₂ AddsWord (asmLines text) words)
    (fits : 4 * words.length ≤ outMaxSize) :
    asmMain text = .ok (words.flatMap InstBytes.bytes) := by
  obtain ⟨printed, read⟩ := asmItems_words each
  have room : (AsmState.start text).out.length + 4 * words.length ≤ outMaxSize :=
    (Nat.zero_add _).symm ▸ fits
  have assembled : asmAssemble (.start text) =
      .ok (((AsmState.start text).print printed).addAll (wordItems words)) :=
    readLines_iff.mpr ⟨_, printed, read, fitsAll_words room, rfl⟩
  obtain ⟨items, again, same, holds⟩ := assemble_holds assembled
  rw [read] at same
  cases same
  have defined : LabelsDefined
      (((AsmState.start text).print printed).addAll (wordItems words)).labels
      (wordItems words) := by
    intro id name member
    obtain ⟨word, _, same⟩ := List.mem_map.mp member
    cases same
  rw [asmMain_holds assembled holds defined, linkedBytes_words]

end Estros
