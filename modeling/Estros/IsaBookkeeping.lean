import Estros.IsaItems

/-!
The bookkeeping of the assembler: its program counter is the length of the output, and the
tables of labels and fixups are ordered and aligned to words.
-/

namespace Estros

/-- The counter is the length of the output; labels and fixups lie in it, on words and in the
order of the text. -/
structure AsmState.Consistent (state : AsmState) : Prop where
  counted : state.pc.toNat = state.out.length
  aligned : 4 ∣ state.pc.toNat
  labelsSorted : state.labels.Pairwise fun label later => label.pc ≤ later.pc
  labelsInside : ∀ label ∈ state.labels, 4 ∣ label.pc.toNat ∧ label.pc.toNat ≤ state.out.length
  fixupsSorted : state.fixups.Pairwise fun fixup later => fixup.offset < later.offset
  fixupsInside : ∀ fixup ∈ state.fixups, 4 ∣ fixup.offset.toNat ∧ fixup.offset = fixup.pc ∧
    fixup.offset.toNat + 4 ≤ state.out.length

variable {state : AsmState}

theorem start_consistent (input : List UInt8) : (AsmState.start input).Consistent where
  counted := rfl
  aligned := Nat.dvd_zero 4
  labelsSorted := List.Pairwise.nil
  labelsInside _ member := absurd member List.not_mem_nil
  fixupsSorted := List.Pairwise.nil
  fixupsInside _ member := absurd member List.not_mem_nil

theorem AsmState.Consistent.pc_eq (holds : state.Consistent) :
    state.pc = BitVec.ofNat 32 state.out.length := by
  rw [← holds.counted, BitVec.ofNat_toNat, BitVec.setWidth_eq]

theorem pairwise_snoc {α : Type} {relation : α → α → Prop} {items : List α} {last : α}
    (sorted : items.Pairwise relation) (below : ∀ item ∈ items, relation item last) :
    (items ++ [last]).Pairwise relation := by
  rw [List.pairwise_append]
  exact ⟨sorted, List.pairwise_singleton _ _, fun item member other same =>
    List.mem_singleton.mp same ▸ below item member⟩

theorem AsmState.Consistent.addLabel (holds : state.Consistent) (name : List UInt8) :
    (state.add (.label name)).Consistent where
  counted := holds.counted
  aligned := holds.aligned
  labelsSorted := by
    apply pairwise_snoc holds.labelsSorted
    intro label member
    rw [BitVec.le_def, holds.counted]
    exact (holds.labelsInside label member).2
  labelsInside := by
    intro label member
    rcases List.mem_append.mp member with earlier | last
    · exact holds.labelsInside label earlier
    · rw [List.mem_singleton.mp last]
      exact ⟨holds.aligned, Nat.le_of_eq holds.counted⟩
  fixupsSorted := holds.fixupsSorted
  fixupsInside := holds.fixupsInside

theorem AsmState.Consistent.addWord (holds : state.Consistent) (id : InstBytes)
    (target : Option (List UInt8)) (room : state.out.length + 4 ≤ outMaxSize) :
    (state.add (.word id target)).Consistent := by
  have bound : state.out.length + 4 ≤ 2147483647 := room
  have counted : (state.pc + 4).toNat = state.out.length + 4 := by
    rw [BitVec.toNat_add, holds.counted]
    exact Nat.mod_eq_of_lt (show state.out.length + 4 < 4294967296 by omega)
  -- the buffer is smaller than the numbers that count it, so neither wraps
  have offset : (BitVec.ofNat 32 state.out.length).toNat = state.out.length := by
    rw [BitVec.toNat_ofNat]
    exact Nat.mod_eq_of_lt (by omega)
  have length : (state.out ++ id.bytes).length = state.out.length + 4 := List.length_append
  have aligned : 4 ∣ state.out.length := holds.counted ▸ holds.aligned
  constructor
  · exact counted.trans length.symm
  · change 4 ∣ (state.pc + 4).toNat
    rw [counted]
    exact (Nat.dvd_add_right aligned).mpr (Nat.dvd_refl 4)
  · exact holds.labelsSorted
  · intro label member
    obtain ⟨multiple, inside⟩ := holds.labelsInside label member
    refine ⟨multiple, ?_⟩
    change _ ≤ (state.out ++ id.bytes).length
    omega
  · cases target with
    | none =>
        change (state.fixups ++ []).Pairwise _
        rw [List.append_nil]
        exact holds.fixupsSorted
    | some name =>
        apply pairwise_snoc holds.fixupsSorted
        intro fixup member
        rw [BitVec.lt_def, offset]
        exact Nat.lt_of_lt_of_le (Nat.lt_add_of_pos_right (by decide))
          (holds.fixupsInside fixup member).2.2
  · intro fixup member
    change _ ∧ _ ∧ _ ≤ (state.out ++ id.bytes).length
    rw [length]
    rcases List.mem_append.mp member with earlier | last
    · obtain ⟨multiple, same, inside⟩ := holds.fixupsInside fixup earlier
      exact ⟨multiple, same, inside.trans (Nat.le_add_right _ _)⟩
    · cases target with
      | none => cases last
      | some name =>
          rw [List.mem_singleton.mp last]
          exact ⟨offset.symm ▸ aligned, holds.pc_eq.symm, Nat.le_of_eq (by rw [offset])⟩

theorem AsmState.Consistent.add (holds : state.Consistent) {item : AsmItem}
    (fits : state.Fits item) : (state.add item).Consistent := by
  cases item with
  | label name => exact holds.addLabel name
  | word id target => exact holds.addWord id target fits.1

theorem AsmState.Consistent.addAll (holds : state.Consistent) {items : List AsmItem}
    (fits : state.FitsAll items) : (state.addAll items).Consistent := by
  induction items generalizing state with
  | nil => exact holds
  | cons item rest ih => exact ih (holds.add fits.1) fits.2

theorem AsmState.Consistent.print (holds : state.Consistent) (lines : List (List UInt8)) :
    (state.print lines).Consistent :=
  ⟨holds.counted, holds.aligned, holds.labelsSorted, holds.labelsInside, holds.fixupsSorted,
    holds.fixupsInside⟩

theorem AsmState.Consistent.readLines (holds : state.Consistent) {lines : List (List UInt8)}
    {next : AsmState} (read : lines.foldlM asmReadLine state = .ok next) : next.Consistent := by
  obtain ⟨items, printed, _, fits, rfl⟩ := readLines_iff.mp read
  exact (holds.print printed).addAll ((AsmState.fitsAll_print _ _ _).mpr fits)

/-- After each line of a source text that the buffers and tables of the assembler have room
for, its bookkeeping is consistent. -/
theorem bookkeeping_consistent (input : List UInt8) (count : Nat) {state : AsmState}
    (processed : ((asmLines input).take count).foldlM asmReadLine (.start input) = .ok state) :
    state.Consistent :=
  (start_consistent input).readLines processed

def loopText : List UInt8 := ascii "x:\nb $r0,x,?\n"

def loopState : AsmState where
  input := loopText
  out := [0, 0, 120, 0x51]
  labels := [⟨ascii "x", 0⟩]
  fixups := [⟨ascii "x", .relO16S8, 0, 0⟩]
  pc := 4
  stderr := []

theorem loopText_consistent : loopState.Consistent := bookkeeping_consistent loopText 2 rfl

end Estros
