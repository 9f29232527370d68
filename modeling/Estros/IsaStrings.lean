import Estros.IsaBlocks

/-!
When the loop of `strcpy` ends, and what it has copied. It reads the memory that it writes: a byte
that was copied is not zero, so the end of the string has to be a byte that no earlier round has
overwritten.
-/

namespace Estros

/-- Some byte from `b` on is zero and is not one of those that are written from `a` on before it
is read. -/
def StringEnds (mem : Memory) (a b : Word) : Prop :=
  ∃ n : Nat, cpuRead8 mem (b + BitVec.ofNat 32 n) = 0 ∧
    ∀ i < n, cpuTranslate (a + BitVec.ofNat 32 i) ≠ cpuTranslate (b + BitVec.ofNat 32 n)

structure StrcpyCopied (start : Memory) (a : Word) (rounds : Nat) (mem : Memory) : Prop where
  kept : ∀ addr, (∀ i < rounds, cpuTranslate (a + BitVec.ofNat 32 i) ≠ cpuTranslate addr) →
    cpuRead8 mem addr = cpuRead8 start addr
  written : ∀ addr, (∃ i < rounds, cpuTranslate (a + BitVec.ofNat 32 i) = cpuTranslate addr) →
    cpuRead8 mem addr ≠ 0

variable {start mem : Memory} {a b : Word} {rounds : Nat}

theorem strcpyCopied_start (start : Memory) (a : Word) : StrcpyCopied start a 0 start := by
  constructor
  · intro addr _
    rfl
  · rintro addr ⟨i, before, _⟩
    exact absurd before (Nat.not_lt_zero i)

theorem StrcpyCopied.step (copied : StrcpyCopied start a rounds mem) {c : UInt8} (more : c ≠ 0) :
    StrcpyCopied start a (rounds + 1) (cpuWrite8 mem (a + BitVec.ofNat 32 rounds) c) := by
  constructor
  · intro addr apart
    have last := apart rounds (Nat.lt_succ_self rounds)
    rw [cpuRead8_write8, if_neg (Ne.symm last)]
    exact copied.kept addr fun i before => apart i (Nat.lt_succ_of_lt before)
  · rintro addr ⟨i, before, same⟩
    rw [cpuRead8_write8]
    split
    · exact more
    · rename_i differs
      have earlier : i < rounds := by
        rcases Nat.lt_succ_iff_lt_or_eq.mp before with earlier | rfl
        · exact earlier
        · exact absurd same.symm differs
      exact copied.written addr ⟨i, earlier, same⟩

theorem StrcpyCopied.ends (copied : StrcpyCopied start a rounds mem)
    (zero : cpuRead8 mem (b + BitVec.ofNat 32 rounds) = 0) : StringEnds start a b := by
  have apart : ∀ i < rounds,
      cpuTranslate (a + BitVec.ofNat 32 i) ≠ cpuTranslate (b + BitVec.ofNat 32 rounds) :=
    fun i before same => copied.written _ ⟨i, before, same⟩ zero
  exact ⟨rounds, (copied.kept _ apart).symm.trans zero, apart⟩

/-- What holds when the loop evaluates its condition. -/
def StrcpyHolds (start : Memory) (a b : Word) (state : StrcpyState) : Prop :=
  if state.c = 0 then StringEnds start a b else StrcpyCopied start a state.i state.mem

theorem strcpyRound_holds {state : StrcpyState}
    (copied : StrcpyCopied start a state.i state.mem) :
    StrcpyHolds start a b (strcpyRound a b state) := by
  unfold StrcpyHolds strcpyRound
  by_cases zero : cpuRead8 state.mem (b + BitVec.ofNat 32 state.i) = 0
  · simp only [zero, if_true]
    exact copied.ends zero
  · simp only [zero, if_false]
    exact copied.step zero

theorem strcpyRound_kept {state : StrcpyState} (holds : StrcpyHolds start a b state)
    (continues : state.c ≠ 0) : StrcpyHolds start a b (strcpyRound a b state) := by
  rw [StrcpyHolds, if_neg continues] at holds
  exact strcpyRound_holds holds

theorem strcpy_first (start : Memory) (a b : Word) :
    StrcpyHolds start a b (strcpyRound a b ⟨0, 0, start⟩) :=
  strcpyRound_holds (strcpyCopied_start start a)

def StrcpyFinishes (start : Memory) (a b : Word) : Prop :=
  Finishes (fun state => state.c ≠ 0) (strcpyRound a b) (strcpyRound a b ⟨0, 0, start⟩)

theorem stringEnds_of_finishes (finishes : StrcpyFinishes start a b) : StringEnds start a b := by
  obtain ⟨fuel, stopped⟩ := finishes
  have holds := whileLoop_invariant (StrcpyHolds start a b)
    (fun state holds continues => strcpyRound_kept holds (of_decide_eq_true continues)) fuel
    (strcpy_first start a b)
  rw [StrcpyHolds, if_pos (of_not_not (of_decide_eq_false stopped))] at holds
  exact holds

def strcpyLeft (n : Nat) (state : StrcpyState) : Nat := if state.c = 0 then 0 else n + 1 - state.i

/-- At the end of the string the loop reads a zero, so no round goes behind it. -/
theorem strcpyRound_left {n : Nat} {state : StrcpyState}
    (zero : cpuRead8 start (b + BitVec.ofNat 32 n) = 0)
    (apart : ∀ i < n, cpuTranslate (a + BitVec.ofNat 32 i) ≠ cpuTranslate (b + BitVec.ofNat 32 n))
    (copied : StrcpyCopied start a state.i state.mem) (inside : state.i ≤ n) :
    strcpyLeft n (strcpyRound a b state) < n + 1 - state.i ∧
      ((strcpyRound a b state).c ≠ 0 → (strcpyRound a b state).i ≤ n) := by
  by_cases last : cpuRead8 state.mem (b + BitVec.ofNat 32 state.i) = 0
  · simp only [strcpyLeft, strcpyRound, last, if_true]
    exact ⟨by omega, fun more => absurd rfl more⟩
  · have before : state.i < n := by
      rcases Nat.lt_or_eq_of_le inside with before | same
      · exact before
      · rw [same] at copied last
        exact absurd ((copied.kept _ apart).trans zero) last
    simp only [strcpyLeft, strcpyRound, last, if_false]
    exact ⟨by omega, fun _ => before⟩

theorem finishes_of_stringEnds (ends : StringEnds start a b) : StrcpyFinishes start a b := by
  obtain ⟨n, zero, apart⟩ := ends
  have inside : ∀ {now}, Reaches (fun state => state.c ≠ 0) (strcpyRound a b)
      (strcpyRound a b ⟨0, 0, start⟩) now →
      StrcpyHolds start a b now ∧ (now.c ≠ 0 → now.i ≤ n) := by
    intro now reached
    refine reached.invariant (fun now => StrcpyHolds start a b now ∧ (now.c ≠ 0 → now.i ≤ n))
      ?_ ⟨strcpy_first start a b, ?_⟩
    · rintro state ⟨holds, bound⟩ continues
      have more : state.c ≠ 0 := of_decide_eq_true continues
      have copied := holds
      rw [StrcpyHolds, if_neg more] at copied
      exact ⟨strcpyRound_kept holds more, (strcpyRound_left zero apart copied (bound more)).2⟩
    · exact (@strcpyRound_left start a b n ⟨0, 0, start⟩ zero apart (strcpyCopied_start start a)
        (Nat.zero_le n)).2
  apply finishes_of_shrinks (strcpyLeft n)
  intro now reached continues
  have more : now.c ≠ 0 := of_decide_eq_true continues
  obtain ⟨holds, bound⟩ := inside reached
  rw [StrcpyHolds, if_neg more] at holds
  have left : strcpyLeft n now = n + 1 - now.i := if_neg more
  rw [left]
  exact (strcpyRound_left zero apart holds (bound more)).1

theorem strcpyFinishes_iff : StrcpyFinishes start a b ↔ StringEnds start a b :=
  ⟨stringEnds_of_finishes, finishes_of_stringEnds⟩

section Copies

variable {sim : SimState} {ds : CpuDecodeR4x4} {n : Nat}

def strcpyAfter (mem : Memory) (a b : Word) (rounds : Nat) : StrcpyState where
  i := if cpuRead8 mem (b + BitVec.ofNat 32 rounds) = 0 then rounds else rounds + 1
  c := cpuRead8 mem (b + BitVec.ofNat 32 rounds)
  mem := copyRounds (cellFrom a) (cellFrom b) (rounds + 1) mem

theorem strcpyRound_copies (apart : CellsApart a b (n + 1)) (inside : rounds ≤ n) (c : UInt8) :
    strcpyRound a b ⟨rounds, c, copyRounds (cellFrom a) (cellFrom b) rounds start⟩ =
      strcpyAfter start a b rounds := by
  -- A round reads a byte that no earlier one has written.
  have unread : cpuRead8 (copyRounds (cellFrom a) (cellFrom b) rounds start)
      (b + BitVec.ofNat 32 rounds) = cpuRead8 start (b + BitVec.ofNat 32 rounds) :=
    writeRounds_other fun i before => apart i (by omega) rounds (by omega)
  have written : cpuWrite8 (copyRounds (cellFrom a) (cellFrom b) rounds start)
      (a + BitVec.ofNat 32 rounds) (cpuRead8 start (b + BitVec.ofNat 32 rounds)) =
      copyRounds (cellFrom a) (cellFrom b) (rounds + 1) start := by
    rw [← unread]
    rfl
  rw [strcpyRound, unread, written]
  rfl

theorem strcpyLoop_copies (apart : CellsApart a b (n + 1))
    (least : ∀ i < n, cpuRead8 start (b + BitVec.ofNat 32 i) ≠ 0) {fuel : Nat}
    (inside : rounds + fuel ≤ n) :
    whileLoop (fun state => state.c ≠ 0) (strcpyRound a b) fuel (strcpyAfter start a b rounds) =
      strcpyAfter start a b (rounds + fuel) := by
  induction fuel generalizing rounds with
  | zero => rfl
  | succ fuel ih =>
      have more := least rounds (by omega)
      have next : strcpyRound a b (strcpyAfter start a b rounds) =
          strcpyAfter start a b (rounds + 1) := by
        rw [strcpyAfter, if_neg more]
        exact strcpyRound_copies apart (by omega) _
      have unrolled : whileLoop (fun state => state.c ≠ 0) (strcpyRound a b) (fuel + 1)
          (strcpyAfter start a b rounds) = whileLoop (fun state => state.c ≠ 0) (strcpyRound a b)
            fuel (strcpyRound a b (strcpyAfter start a b rounds)) := if_pos (decide_eq_true more)
      rw [unrolled, next, ih (by omega), Nat.add_right_comm]
      rfl

/-- `strcpy` ends after exactly `n + 1` rounds, each of which copies one byte, and has copied the
string with its end. -/
theorem strcpy_copies (sim : SimState) (id : InstBytes) (n : Nat)
    (zero : cpuRead8 sim.mem ((cpuDecodeR4x4 sim id).b + BitVec.ofNat 32 n) = 0)
    (least : ∀ i < n, cpuRead8 sim.mem ((cpuDecodeR4x4 sim id).b + BitVec.ofNat 32 i) ≠ 0)
    (distinct : CellsDistinct (cpuDecodeR4x4 sim id).a (n + 1))
    (apart : CellsApart (cpuDecodeR4x4 sim id).a (cpuDecodeR4x4 sim id).b (n + 1)) :
    ∃ after, (∀ fuel, cpuExecStrcpy fuel sim id =
        if n ≤ fuel then .ok (.continue, after) else .error .unfinished) ∧
      BlockWritten sim after (cpuDecodeR4x4 sim id) (n + 1)
        fun i => cpuRead8 sim.mem ((cpuDecodeR4x4 sim id).b + BitVec.ofNat 32 i) := by
  let ds := cpuDecodeR4x4 sim id
  refine ⟨_, fun fuel => ?_, copyRounds_written distinct apart⟩
  have first : strcpyRound ds.a ds.b ⟨0, 0, sim.mem⟩ = strcpyAfter sim.mem ds.a ds.b 0 :=
    strcpyRound_copies apart (Nat.zero_le n) 0
  have reaches : ∀ fuel ≤ n, whileLoop (fun state => state.c ≠ 0) (strcpyRound ds.a ds.b) fuel
      (strcpyRound ds.a ds.b ⟨0, 0, sim.mem⟩) = strcpyAfter sim.mem ds.a ds.b fuel := by
    intro fuel inside
    rw [first, strcpyLoop_copies apart least (by omega), Nat.zero_add]
  rw [cpuExecStrcpy]
  by_cases enough : n ≤ fuel
  · have last := reaches n (Nat.le_refl n)
    have stopped : decide ((strcpyAfter sim.mem ds.a ds.b n).c ≠ 0) = false :=
      decide_eq_false (not_not_intro zero)
    obtain ⟨more, rfl⟩ := Nat.exists_eq_add_of_le enough
    rw [if_pos enough, whileLoop_more (by rw [last]; exact stopped) more, last]
    exact if_pos zero
  · rw [if_neg enough, reaches fuel (by omega)]
    exact if_neg (least fuel (by omega))

theorem blockSim_string :
    ∃ after, (∀ fuel, cpuExecStrcpy fuel (blockSim (simRamBase + 1000) (simRamBase + 253) 0)
          (blockId 0x35) = if 3 ≤ fuel then .ok (.continue, after) else .error .unfinished) ∧
      BlockWritten (blockSim (simRamBase + 1000) (simRamBase + 253) 0) after
        ⟨0, simRamBase + 1000, simRamBase + 253, 0⟩ 4
        fun i => cpuRead8 (blockSim (simRamBase + 1000) (simRamBase + 253) 0).mem
          (simRamBase + 253 + BitVec.ofNat 32 i) := by
  have distinct : CellsDistinct (simRamBase + 1000) 4 := by
    unfold CellsDistinct
    decide +kernel
  have apart : CellsApart (simRamBase + 1000) (simRamBase + 253) 4 := by
    unfold CellsApart
    decide +kernel
  have copies := strcpy_copies (blockSim (simRamBase + 1000) (simRamBase + 253) 0) (blockId 0x35) 3
  rw [blockSim_decode] at copies
  exact copies (by decide +kernel) (by decide +kernel) distinct apart

end Copies

end Estros
