import Estros.IsaLinking

/-!
Assembling is compositional: the output of two texts in a row is the output of the first and
then that of the second, wherever this one stands.
-/

namespace Estros

theorem asmLines_ne_nil {text : List UInt8} (nonempty : text ≠ []) : asmLines text ≠ [] := by
  cases text with
  | nil => exact absurd rfl nonempty
  | cons byte rest =>
      rw [asmLines]
      split
      · exact List.cons_ne_nil _ _
      · split <;> exact List.cons_ne_nil _ _

theorem asmLines_split (first second : List UInt8) :
    asmLines (first ++ 10 :: second) = asmLines (first ++ [10]) ++ asmLines second := by
  induction first with
  | nil => simp [asmLines]
  | cons byte rest ih =>
      rw [List.cons_append, List.cons_append, asmLines, asmLines, ih]
      by_cases newline : byte = 10
      · rw [if_pos newline, if_pos newline]
        rfl
      · rw [if_neg newline, if_neg newline]
        cases lines : asmLines (rest ++ [10]) with
        | nil => exact absurd lines (asmLines_ne_nil (by simp))
        | cons line others => rfl

theorem labelTable_append (offset : Nat) (items others : List AsmItem) :
    labelTable offset (items ++ others) =
      labelTable offset items ++ labelTable (offset + (itemBytes items).length) others := by
  induction items generalizing offset with
  | nil => rfl
  | cons item rest ih =>
      cases item with
      | label name => exact congrArg _ (ih offset)
      | word id target =>
          rw [List.cons_append, labelTable, labelTable, ih, itemBytes, List.length_append,
            Nat.add_assoc]
          rfl

def AsmLabel.shift (distance : Nat) (label : AsmLabel) : AsmLabel :=
  { label with pc := label.pc + BitVec.ofNat 32 distance }

theorem labelTable_shift (distance offset : Nat) (items : List AsmItem) :
    labelTable (offset + distance) items =
      (labelTable offset items).map (AsmLabel.shift distance) := by
  induction items generalizing offset with
  | nil => rfl
  | cons item rest ih =>
      cases item with
      | label name =>
          rw [labelTable, labelTable, List.map_cons, ih, AsmLabel.shift, BitVec.ofNat_add]
      | word id target =>
          rw [labelTable, labelTable, Nat.add_right_comm]
          exact ih (offset + 4)

theorem findLabel_shift (labels : List AsmLabel) (name : List UInt8) (distance : Nat) :
    findLabel (labels.map (AsmLabel.shift distance)) name =
      (findLabel labels name).map (AsmLabel.shift distance) :=
  List.find?_map

theorem link_shift {labels others : List AsmLabel} {target : Option (List UInt8)} {distance : Nat}
    (moved : ∀ name ∈ target, findLabel others name =
      (findLabel labels name).map (AsmLabel.shift distance)) (id : InstBytes) (offset : Nat) :
    id.link others (offset + distance) target = id.link labels offset target := by
  cases target with
  | none => rfl
  | some name =>
      rw [InstBytes.link, InstBytes.link, moved name rfl]
      cases found : findLabel labels name with
      | none => rfl
      | some label =>
          have same : label.pc + BitVec.ofNat 32 distance -
              BitVec.ofNat 32 (offset + distance) = label.pc - BitVec.ofNat 32 offset := by
            rw [BitVec.ofNat_add]
            bv_omega
          simp only [Option.map_some, AsmLabel.shift, same]

/-- Words depend on the distances to their labels only. -/
theorem linkedBytes_shift {labels others : List AsmLabel} {items : List AsmItem} {distance : Nat}
    (moved : ∀ id name, .word id (some name) ∈ items → findLabel others name =
      (findLabel labels name).map (AsmLabel.shift distance)) (offset : Nat) :
    linkedBytes others (offset + distance) items = linkedBytes labels offset items := by
  induction items generalizing offset with
  | nil => rfl
  | cons item rest ih =>
      have later := ih fun id name member => moved id name (List.mem_cons_of_mem _ member)
      cases item with
      | label name => exact later offset
      | word id target =>
          have here : ∀ name ∈ target, findLabel others name =
              (findLabel labels name).map (AsmLabel.shift distance) := by
            rintro name rfl
            exact moved id name List.mem_cons_self
          rw [linkedBytes, linkedBytes, link_shift here, Nat.add_right_comm, later]

theorem labelTable_two (first second : List AsmItem) :
    labelTable 0 (first ++ second) = labelTable 0 first ++
      (labelTable 0 second).map (AsmLabel.shift (itemBytes first).length) := by
  rw [labelTable_append, labelTable_shift]

theorem labelsDefined_two {first second : List AsmItem}
    (definedFirst : LabelsDefined (labelTable 0 first) first)
    (definedSecond : LabelsDefined (labelTable 0 second) second) :
    LabelsDefined (labelTable 0 (first ++ second)) (first ++ second) := by
  intro id name member
  rw [labelTable_two, findLabel_isSome]
  rcases List.mem_append.mp member with inFirst | inSecond
  · obtain ⟨label, inside, same⟩ := findLabel_isSome.mp (definedFirst id name inFirst)
    exact ⟨label, List.mem_append_left _ inside, same⟩
  · obtain ⟨label, inside, same⟩ := findLabel_isSome.mp (definedSecond id name inSecond)
    exact ⟨_, List.mem_append_right _ (List.mem_map_of_mem inside), same⟩

theorem linkedBytes_two {first second : List AsmItem}
    (disjoint : ∀ label ∈ labelTable 0 first, ∀ other ∈ labelTable 0 second,
      label.name ≠ other.name)
    (definedFirst : LabelsDefined (labelTable 0 first) first)
    (definedSecond : LabelsDefined (labelTable 0 second) second) :
    linkedBytes (labelTable 0 (first ++ second)) 0 (first ++ second) =
      linkedBytes (labelTable 0 first) 0 first ++ linkedBytes (labelTable 0 second) 0 second := by
  have both := labelTable_two first second
  have inFirst : ∀ id name, .word id (some name) ∈ first →
      findLabel (labelTable 0 (first ++ second)) name =
        (findLabel (labelTable 0 first) name).map (AsmLabel.shift 0) := by
    intro id name member
    obtain ⟨label, found⟩ := Option.isSome_iff_exists.mp (definedFirst id name member)
    have here : label.shift 0 = label := by simp [AsmLabel.shift]
    unfold findLabel at found ⊢
    rw [both, List.find?_append, found, Option.map_some, here]
    rfl
  have inSecond : ∀ id name, .word id (some name) ∈ second →
      findLabel (labelTable 0 (first ++ second)) name =
        (findLabel (labelTable 0 second) name).map
          (AsmLabel.shift (itemBytes first).length) := by
    intro id name member
    obtain ⟨other, among, rfl⟩ := findLabel_isSome.mp (definedSecond id name member)
    have absent : findLabel (labelTable 0 first) other.name = none :=
      List.find?_eq_none.mpr fun label inside same =>
        disjoint label inside other among (of_decide_eq_true same)
    rw [← findLabel_shift]
    unfold findLabel at absent ⊢
    rw [both, List.find?_append, absent]
    rfl
  rw [linkedBytes_append, linkedBytes_shift inSecond]
  exact congrArg (· ++ _) (linkedBytes_shift inFirst 0)

/-- Two texts within the limits of the assembler, also one behind the other, that have no label
in common and define those they refer to: the output is that of the first and then that of the
second. -/
theorem assembly_composes {first second : List UInt8} (ends : first.getLast? = some 10)
    {one two both : AsmState} (assembledFirst : asmAssemble (.start first) = .ok one)
    (assembledSecond : asmAssemble (.start second) = .ok two)
    (assembledBoth : asmAssemble (.start (first ++ second)) = .ok both)
    (disjoint : ∀ label ∈ one.labels, ∀ other ∈ two.labels, label.name ≠ other.name)
    (definedFirst : one.Defined) (definedSecond : two.Defined) :
    ∃ outFirst outSecond, asmMain first = .ok outFirst ∧ asmMain second = .ok outSecond ∧
      asmMain (first ++ second) = .ok (outFirst ++ outSecond) := by
  obtain ⟨items, printed, readFirst, holdsFirst⟩ := assemble_holds assembledFirst
  obtain ⟨later, complaints, readSecond, holdsSecond⟩ := assemble_holds assembledSecond
  obtain ⟨all, lines, readBoth, holdsBoth⟩ := assemble_holds assembledBoth
  have split : asmLines (first ++ second) = asmLines first ++ asmLines second := by
    obtain ⟨body, rfl⟩ := List.getLast?_eq_some_iff.mp ends
    rw [List.append_assoc]
    exact asmLines_split body second
  have same : all = items ++ later := by
    rw [split, asmItems_append readFirst readSecond] at readBoth
    cases readBoth
    rfl
  subst same
  have linksFirst := holdsFirst.defined definedFirst
  have linksSecond := holdsSecond.defined definedSecond
  have mainFirst := asmMain_holds assembledFirst holdsFirst linksFirst
  have mainSecond := asmMain_holds assembledSecond holdsSecond linksSecond
  rw [holdsFirst.labels] at linksFirst disjoint mainFirst
  rw [holdsSecond.labels] at linksSecond disjoint mainSecond
  have linksBoth := labelsDefined_two linksFirst linksSecond
  rw [← holdsBoth.labels] at linksBoth
  have mainBoth := asmMain_holds assembledBoth holdsBoth linksBoth
  rw [holdsBoth.labels, linkedBytes_two disjoint linksFirst linksSecond] at mainBoth
  exact ⟨_, _, mainFirst, mainSecond, mainBoth⟩

def otherText : List UInt8 := ascii "y:\nb $r0,y,?\n"

def otherState : AsmState where
  input := otherText
  out := [0, 0, 121, 0x51]
  labels := [⟨ascii "y", 0⟩]
  fixups := [⟨ascii "y", .relO16S8, 0, 0⟩]
  pc := 4
  stderr := []

def bothState : AsmState where
  input := loopText ++ otherText
  out := loopState.out ++ otherState.out
  labels := [⟨ascii "x", 0⟩, ⟨ascii "y", 4⟩]
  fixups := [⟨ascii "x", .relO16S8, 0, 0⟩, ⟨ascii "y", .relO16S8, 4, 4⟩]
  pc := 8
  stderr := []

theorem loops_compose :
    ∃ outFirst outSecond, asmMain loopText = .ok outFirst ∧ asmMain otherText = .ok outSecond ∧
      asmMain (loopText ++ otherText) = .ok (outFirst ++ outSecond) := by
  have one : asmAssemble (.start loopText) = .ok loopState := rfl
  have two : asmAssemble (.start otherText) = .ok otherState := rfl
  have both : asmAssemble (.start (loopText ++ otherText)) = .ok bothState := rfl
  have disjoint : ∀ label ∈ loopState.labels, ∀ other ∈ otherState.labels,
      label.name ≠ other.name := by decide
  have defined : ∀ fixup ∈ loopState.fixups, ∃ label ∈ loopState.labels,
      label.name = fixup.name := by decide
  have otherDefined : ∀ fixup ∈ otherState.fixups, ∃ label ∈ otherState.labels,
      label.name = fixup.name := by decide
  exact assembly_composes rfl one two both disjoint defined otherDefined

end Estros
