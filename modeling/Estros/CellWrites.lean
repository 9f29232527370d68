import Mathlib.Logic.Function.Basic

/-!
Loops that write one cell of a map in each round, and loops that copy cells, where a round may
read what an earlier one has written. Nothing here names a particular program.
-/

namespace Estros

variable {κ β : Type} [DecidableEq κ]

/-- Round `i` writes the cell `dst i`; what it writes may depend on the cells by then. -/
def writeRounds (dst : Nat → κ) (value : Nat → (κ → β) → β) : Nat → (κ → β) → κ → β
  | 0, cells => cells
  | rounds + 1, cells =>
      let now := writeRounds dst value rounds cells
      Function.update now (dst rounds) (value rounds now)

def copyRounds (dst src : Nat → κ) : Nat → (κ → β) → κ → β :=
  writeRounds dst fun i now => now (src i)

theorem fold_eq_writeRounds (dst : Nat → κ) (value : Nat → (κ → β) → β) (rounds : Nat)
    (cells : κ → β) :
    rounds.fold (fun i _ now => Function.update now (dst i) (value i now)) cells =
      writeRounds dst value rounds cells := by
  induction rounds with
  | zero => rfl
  | succ rounds ih => rw [Nat.fold_succ, ih, writeRounds]

section Writes

variable {dst : Nat → κ} {value : Nat → (κ → β) → β} {rounds : Nat} {cells : κ → β} {cell : κ}

theorem writeRounds_later {first : Nat} (before : first ≤ rounds)
    (apart : ∀ i, first ≤ i → i < rounds → dst i ≠ cell) :
    writeRounds dst value rounds cells cell = writeRounds dst value first cells cell := by
  induction rounds with
  | zero => rw [Nat.le_zero.mp before]
  | succ rounds ih =>
      rcases Nat.lt_or_eq_of_le before with earlier | rfl
      · have low := Nat.le_of_lt_succ earlier
        have differs := apart rounds low (Nat.lt_succ_self rounds)
        rw [writeRounds, Function.update_of_ne (Ne.symm differs)]
        exact ih low fun i above below => apart i above (Nat.lt_succ_of_lt below)
      · rfl

theorem writeRounds_other (apart : ∀ i < rounds, dst i ≠ cell) :
    writeRounds dst value rounds cells cell = cells cell :=
  writeRounds_later (Nat.zero_le rounds) fun i _ below => apart i below

/-- Where the cells differ, each of them ends with what its round has written. -/
theorem writeRounds_written (distinct : ∀ i < rounds, ∀ j < rounds, dst i = dst j → i = j) {i : Nat}
    (below : i < rounds) : writeRounds dst value rounds cells (dst i) =
      value i (writeRounds dst value i cells) := by
  have later := @writeRounds_later κ β _ dst value rounds cells (dst i) (i + 1) below
    fun j above high same => absurd (distinct j high i below same) (by omega)
  rw [later, writeRounds, Function.update_self]

theorem writeRounds_same (same : ∀ i now, value i now = now (dst i)) :
    writeRounds dst value rounds cells = cells := by
  induction rounds with
  | zero => rfl
  | succ rounds ih => rw [writeRounds, ih, same, Function.update_eq_self]

theorem copyRounds_congr {dst' src src' : Nat → κ} (targets : ∀ i < rounds, dst i = dst' i)
    (sources : ∀ i < rounds, src i = src' i) :
    copyRounds dst src rounds cells = copyRounds dst' src' rounds cells := by
  induction rounds with
  | zero => rfl
  | succ rounds ih =>
      have before := ih (fun i below => targets i (Nat.lt_succ_of_lt below))
        fun i below => sources i (Nat.lt_succ_of_lt below)
      simp only [copyRounds, writeRounds] at before ⊢
      rw [before, targets rounds (Nat.lt_succ_self rounds), sources rounds (Nat.lt_succ_self rounds)]

end Writes

section Copies

variable {dst src : Nat → κ} {rounds : Nat} {cells : κ → β} {i : Nat}

theorem copyRounds_apart (distinct : ∀ i < rounds, ∀ j < rounds, dst i = dst j → i = j)
    (below : i < rounds) (apart : ∀ j < i, dst j ≠ src i) :
    copyRounds dst src rounds cells (dst i) = cells (src i) := by
  have written := @writeRounds_written κ β _ dst (fun i now => now (src i)) rounds cells distinct i
    below
  exact written.trans (writeRounds_other apart)

theorem copyRounds_overlap (distinct : ∀ i < rounds, ∀ j < rounds, dst i = dst j → i = j)
    (below : i < rounds) {j : Nat} (earlier : j < i) (meets : dst j = src i) :
    copyRounds dst src rounds cells (dst i) = copyRounds dst src rounds cells (dst j) := by
  have later := @writeRounds_written κ β _ dst (fun i now => now (src i)) rounds cells distinct i
    below
  have first := @writeRounds_written κ β _ dst (fun i now => now (src i)) rounds cells distinct j
    (Nat.lt_trans earlier below)
  have middle := @writeRounds_written κ β _ dst (fun i now => now (src i)) i cells
    (fun a low b high => distinct a (Nat.lt_trans low below) b (Nat.lt_trans high below)) j earlier
  rw [meets] at middle
  exact later.trans (middle.trans first.symm)

end Copies

section Shifts

variable {cell : Nat → κ} {distance count : Nat} {cells : κ → β}

/-- Copying upwards, from below: the bytes are right exactly if they are where the blocks overlap. -/
theorem copyUp_iff (distinct : ∀ i < distance + count, ∀ j < distance + count,
      cell i = cell j → i = j) (apart : 0 < distance) :
    (∀ i < count, copyRounds (fun i => cell (distance + i)) cell count cells (cell (distance + i)) =
        cells (cell i)) ↔
      ∀ i, distance + i < count → cells (cell (distance + i)) = cells (cell i) := by
  let copied := copyRounds (fun i => cell (distance + i)) cell count cells
  have targets : ∀ i < count, ∀ j < count, cell (distance + i) = cell (distance + j) → i = j :=
    fun i low j high same => Nat.add_left_cancel (distinct _ (by omega) _ (by omega) same)
  have front : ∀ i < count, i < distance → copied (cell (distance + i)) = cells (cell i) :=
    fun i below before => copyRounds_apart targets below fun j earlier same =>
      absurd (distinct _ (by omega) _ (by omega) same) (by omega)
  have passed : ∀ i, distance + i < count →
      copied (cell (distance + (distance + i))) = copied (cell (distance + i)) :=
    fun i below => copyRounds_overlap targets below (by omega) rfl
  constructor
  · intro right i below
    exact (right _ below).symm.trans ((passed i below).trans (right i (by omega)))
  · intro agree i
    induction i using Nat.strongRecOn with
    | ind i ih =>
        intro below
        by_cases before : i < distance
        · exact front i below before
        · obtain ⟨k, rfl⟩ := Nat.exists_eq_add_of_le (Nat.not_lt.mp before)
          exact (passed k below).trans ((ih k (by omega) (by omega)).trans (agree k below).symm)

theorem copyDown_iff (distinct : ∀ i ≤ distance + count, ∀ j ≤ distance + count,
      cell i = cell j → i = j) (apart : 0 < distance) :
    ((∀ i < count, copyRounds (fun i => cell (count - i)) (fun i => cell (distance + (count - i)))
          count cells (cell i) = cells (cell (distance + i))) ∧
        copyRounds (fun i => cell (count - i)) (fun i => cell (distance + (count - i)))
          count cells (cell count) = cells (cell count)) ↔
      (0 < count → ∀ i ≤ count, (i = 0 ∨ i = count ∨ distance < i) →
        cells (cell i) = cells (cell (distance + i))) := by
  let copied := copyRounds (fun i => cell (count - i)) (fun i => cell (distance + (count - i)))
    count cells
  have targets : ∀ i < count, ∀ j < count, cell (count - i) = cell (count - j) → i = j :=
    fun i low j high same => by
      have equal := distinct _ (by omega) _ (by omega) same
      omega
  have untouched : copied (cell 0) = cells (cell 0) :=
    writeRounds_other fun i below same => absurd (distinct _ (by omega) _ (by omega) same) (by omega)
  -- The rounds by the index that they write.
  have back : ∀ i, 0 < i → i ≤ count → count < distance + i →
      copied (cell i) = cells (cell (distance + i)) := by
    intro i above inside behind
    have value := @copyRounds_apart κ β _ (fun i => cell (count - i))
      (fun i => cell (distance + (count - i))) count cells (count - i) targets (by omega)
      fun j earlier same => absurd (distinct _ (by omega) _ (by omega) same) (by omega)
    rwa [Nat.sub_sub_self inside] at value
  have passed : ∀ i, 0 < i → distance + i ≤ count →
      copied (cell i) = copied (cell (distance + i)) := by
    intro i above inside
    have meets : cell (count - (count - (distance + i))) =
        cell (distance + (count - (count - i))) := by
      rw [Nat.sub_sub_self inside, Nat.sub_sub_self (by omega)]
    have value := @copyRounds_overlap κ β _ (fun i => cell (count - i))
      (fun i => cell (distance + (count - i))) count cells (count - i) targets (by omega)
      (count - (distance + i)) (by omega) meets
    rwa [Nat.sub_sub_self inside, Nat.sub_sub_self (by omega)] at value
  constructor
  · rintro ⟨right, kept⟩ some i inside (rfl | rfl | beyond)
    · exact untouched.symm.trans (right 0 some)
    · exact kept.symm.trans (back i some (Nat.le_refl i) (by omega))
    · obtain ⟨k, rfl⟩ := Nat.exists_eq_add_of_le (Nat.le_of_lt beyond)
      rcases Nat.lt_or_eq_of_le inside with before | rfl
      · exact (right k (by omega)).symm.trans ((passed k (by omega) inside).trans (right _ before))
      · exact kept.symm.trans (back _ some (Nat.le_refl _) (by omega))
  · intro agree
    rcases Nat.eq_zero_or_pos count with rfl | some
    · exact ⟨fun i below => absurd below (Nat.not_lt_zero i), rfl⟩
    · have all := agree some
      -- by how far the index is from the top: what a cell gets was copied there before
      have right : ∀ left i, count - i = left → i ≤ count →
          copied (cell i) = cells (cell (distance + i)) := by
        intro left
        induction left using Nat.strongRecOn with
        | ind left ih =>
            intro i size inside
            rcases Nat.eq_zero_or_pos i with rfl | above
            · exact untouched.trans (all 0 (Nat.zero_le _) (Or.inl rfl))
            · rcases Nat.lt_or_ge count (distance + i) with behind | before
              · exact back i above inside behind
              · have next := ih (count - (distance + i)) (by omega) (distance + i) rfl before
                have same := all (distance + i) before (Or.inr (Or.inr (by omega)))
                exact (passed i above before).trans (next.trans same.symm)
      refine ⟨fun i below => right _ i rfl (Nat.le_of_lt below), ?_⟩
      have last := all count (Nat.le_refl _) (Or.inr (Or.inl rfl))
      exact (right _ count rfl (Nat.le_refl _)).trans last.symm

end Shifts

end Estros
