import Estros.IsaHazards

/-!
Counting and reversing: the loops of `cpu_i_popcount`, `cpu_i_clz` and `cpu_i_clo` and the masked
shifts of `cpu_i_bswap` on all words. The loops of `cpu_i_clz` and `cpu_i_clo` are the same and
begin at bit 0.
-/

namespace Estros

def runFrom (p : Nat → Bool) : Nat → Nat → Nat
  | 0, _ => 0
  | rounds + 1, i => if p i then runFrom p rounds (i + 1) + 1 else 0

theorem runFrom_le (p : Nat → Bool) (rounds i : Nat) : runFrom p rounds i ≤ rounds := by
  induction rounds generalizing i with
  | zero => exact Nat.le_refl 0
  | succ rounds ih =>
      unfold runFrom
      split
      · exact Nat.succ_le_succ (ih (i + 1))
      · exact Nat.zero_le _

theorem runFrom_inside {p : Nat → Bool} {rounds i j : Nat} (inside : j < runFrom p rounds i) :
    p (i + j) = true := by
  induction rounds generalizing i j with
  | zero => exact absurd inside (Nat.not_lt_zero j)
  | succ rounds ih =>
      unfold runFrom at inside
      split at inside
      · cases j with
        | zero => assumption
        | succ j =>
            have next := ih (Nat.lt_of_succ_lt_succ inside)
            rwa [Nat.add_right_comm] at next
      · exact absurd inside (Nat.not_lt_zero j)

theorem runFrom_end {p : Nat → Bool} {rounds i : Nat} (stops : runFrom p rounds i < rounds) :
    p (i + runFrom p rounds i) = false := by
  induction rounds generalizing i with
  | zero => exact absurd stops (Nat.not_lt_zero _)
  | succ rounds ih =>
      unfold runFrom at stops ⊢
      cases here : p i with
      | true =>
          simp only [here, if_true] at stops ⊢
          rw [← Nat.add_assoc, Nat.add_right_comm]
          exact ih (Nat.lt_of_succ_lt_succ stops)
      | false => simp [here]

theorem runFrom_eq {p : Nat → Bool} {rounds k : Nat} (bound : k ≤ rounds)
    (inside : ∀ i < k, p i = true) (stop : k < rounds → p k = false) : runFrom p rounds 0 = k := by
  rcases Nat.lt_trichotomy (runFrom p rounds 0) k with less | same | more
  · have ended := runFrom_end (Nat.lt_of_lt_of_le less bound)
    rw [Nat.zero_add, inside _ less] at ended
    cases ended
  · exact same
  · have held := runFrom_inside more
    rw [Nat.zero_add, stop (Nat.lt_of_lt_of_le more (runFrom_le p rounds 0))] at held
    cases held

theorem runFrom_agree (p q : Nat → Bool) (rounds : Nat) :
    runFrom p rounds 0 = runFrom q rounds 0 ↔
      ∃ k ≤ rounds, (∀ i < k, p i = true ∧ q i = true) ∧
        (k < rounds → p k = false ∧ q k = false) := by
  constructor
  · intro same
    refine ⟨runFrom p rounds 0, runFrom_le p rounds 0, fun i inside => ?_, fun stops => ?_⟩
    · have one := runFrom_inside inside
      have two := runFrom_inside (same ▸ inside)
      rw [Nat.zero_add] at one two
      exact ⟨one, two⟩
    · have one := runFrom_end stops
      have two := runFrom_end (same ▸ stops)
      rw [Nat.zero_add] at one two
      exact ⟨one, same ▸ two⟩
  · rintro ⟨k, bound, inside, stop⟩
    rw [runFrom_eq bound (fun i small => (inside i small).1) fun small => (stop small).1,
      runFrom_eq bound (fun i small => (inside i small).2) fun small => (stop small).2]

/-- The zero bits above the most significant one bit. -/
def leadingZeros (v : Word) : Nat := runFrom (fun i => !v.getMsbD i) 32 0

/-- The one bits from bit 31 on. -/
def leadingOnes (v : Word) : Nat := runFrom v.getMsbD 32 0

/-- What `cpu_i_clz` and `cpu_i_clo` are for, on one word. -/
def LeadingCounts (v : Word) : Prop :=
  (cpuIClz v).toNat = leadingZeros v ∧ (cpuIClo v).toNat = leadingOnes v ∧
    cpuIClo v = cpuIClz (~~~v)

theorem cpuICountLoop_eq (v : Word) (rounds i : Nat) (c : Word) (bound : i + rounds ≤ 32) :
    cpuICountLoop v rounds i c =
      c + BitVec.ofNat 32 (runFrom (fun i => !v.getLsbD i) rounds i) := by
  -- The loop counts the zero bits from bit `i` upwards.
  -- `c` is what the rounds before have counted
  induction rounds generalizing i c with
  | zero => exact (BitVec.add_zero c).symm
  | succ rounds ih =>
      unfold cpuICountLoop runFrom
      cases bit : v.getLsbD i with
      | true =>
          rw [if_pos ((and_bit_ne_zero v (by omega)).mpr bit)]
          exact (BitVec.add_zero c).symm
      | false =>
          have clear : ¬ v &&& (1#32 <<< i) ≠ 0 := by
            rw [and_bit_ne_zero v (by omega), bit]
            exact Bool.false_ne_true
          rw [if_neg clear, ih (i + 1) (c + 1) (by omega), Bool.not_false, if_pos rfl,
            BitVec.ofNat_add, BitVec.add_assoc, BitVec.add_comm 1]
          rfl

/-- Both functions count the zero bits below the least significant one bit. -/
theorem cpuIClz_eq (v : Word) : (cpuIClz v).toNat = runFrom (fun i => !v.getLsbD i) 32 0 := by
  have bound := runFrom_le (fun i => !v.getLsbD i) 32 0
  have counted := cpuICountLoop_eq v 32 0 0#32 (Nat.le_refl 32)
  rw [BitVec.zero_add] at counted
  rw [show cpuIClz v = _ from counted, BitVec.toNat_ofNat, Nat.mod_eq_of_lt (by omega)]

theorem cpuIClo_ne (v : Word) : cpuIClo v ≠ cpuIClz (~~~v) := by
  intro same
  have counts :
      runFrom (fun i => !v.getLsbD i) 32 0 = runFrom (fun i => !(~~~v).getLsbD i) 32 0 := by
    rw [← cpuIClz_eq, ← cpuIClz_eq]
    exact congrArg BitVec.toNat same
  obtain ⟨k, -, inside, stop⟩ := (runFrom_agree _ _ 32).mp counts
  -- bit 0 is one in `v` or in `~v`, not in both: one of the two runs has no length
  have apart : (~~~v).getLsbD 0 = !v.getLsbD 0 := by simp
  rcases Nat.eq_zero_or_pos k with rfl | some
  · have ends := stop (by decide)
    rw [apart, Bool.not_not] at ends
    rw [ends.2] at ends
    exact absurd ends.1 (by decide)
  · have holds := inside 0 some
    rw [apart, Bool.not_not] at holds
    rw [holds.2] at holds
    exact absurd holds.1 (by decide)

/-- `cpu_i_clz` is right of the words that have as many zero bits below their lowest one bit as
above their highest, `cpu_i_clo` of those that have as many zero bits below as one bits on top,
and of no word is all right that is said of them. -/
theorem countLoops_iff (v : Word) :
    ((cpuIClz v).toNat = leadingZeros v ↔
      ∃ k ≤ 32, (∀ i < k, v.getLsbD i = false ∧ v.getMsbD i = false) ∧
        (k < 32 → v.getLsbD k = true ∧ v.getMsbD k = true)) ∧
    ((cpuIClo v).toNat = leadingOnes v ↔
      ∃ k ≤ 32, (∀ i < k, v.getLsbD i = false ∧ v.getMsbD i = true) ∧
        (k < 32 → v.getLsbD k = true ∧ v.getMsbD k = false)) ∧
    ¬ LeadingCounts v := by
  refine ⟨?_, ?_, fun counts => cpuIClo_ne v counts.2.2⟩
  · rw [cpuIClz_eq, leadingZeros, runFrom_agree]
    simp only [Bool.not_eq_true', Bool.not_eq_false']
  · -- the two loops are the same text in the source
    rw [show cpuIClo v = cpuIClz v from rfl, cpuIClz_eq, leadingOnes, runFrom_agree]
    simp only [Bool.not_eq_true', Bool.not_eq_false']

/-- Of the word whose only one bit is bit 31 both functions return 31. -/
theorem countLoops_top : cpuIClz 0x80000000 = 31 ∧ leadingZeros 0x80000000 = 0 ∧
    cpuIClo 0x80000000 = 31 ∧ leadingOnes 0x80000000 = 1 ∧ cpuIClz (~~~0x80000000) = 0 ∧
    ¬ LeadingCounts 0x80000000 := by
  refine ⟨by decide, by decide, by decide, by decide, by decide, ?_⟩
  exact fun counts => absurd counts.1 (by decide)

/-- The number of one bits of a word. -/
def oneBits (v : Word) : Nat := (List.range 32).countP v.getLsbD

def wordByte (v : Word) (i : Nat) : BitVec 8 := v.extractLsb' (8 * i) 8

theorem cpop_countP (v : Word) : v.cpop.toNat = oneBits v := by
  have counted : ∀ n, v.cpopNatRec n 0 = (List.range n).countP v.getLsbD := by
    intro n
    induction n with
    | zero => rfl
    | succ n ih =>
        rw [BitVec.cpopNatRec_succ, BitVec.cpopNatRec_eq, ih, List.range_succ, List.countP_append,
          List.countP_singleton, Nat.zero_add]
        cases v.getLsbD n <;> rfl
  rw [BitVec.toNat_cpop]
  exact counted 32

theorem byte_low {w : Nat} (high : BitVec w) (low : BitVec 8) :
    (high ++ low).extractLsb' 0 8 = low :=
  (BitVec.extractLsb'_append_eq_of_add_le (by decide)).trans BitVec.extractLsb'_eq_self

theorem byte_above {w : Nat} (high : BitVec w) (low : BitVec 8) (i : Nat) :
    (high ++ low).extractLsb' (8 * (i + 1)) 8 = high.extractLsb' (8 * i) 8 := by
  rw [BitVec.extractLsb'_append_eq_of_le (by omega), show 8 * (i + 1) - 8 = 8 * i by omega]

theorem appended_bytes (a b c d : BitVec 8) :
    wordByte (a ++ b ++ c ++ d) 0 = d ∧ wordByte (a ++ b ++ c ++ d) 1 = c ∧
      wordByte (a ++ b ++ c ++ d) 2 = b ∧ wordByte (a ++ b ++ c ++ d) 3 = a := by
  refine ⟨byte_low _ d, ?_, ?_, ?_⟩
  · exact (byte_above _ d 0).trans (byte_low _ c)
  · exact (byte_above _ d 1).trans ((byte_above _ c 0).trans (byte_low a b))
  · exact (byte_above _ d 2).trans ((byte_above _ c 1).trans
      ((byte_above a b 0).trans BitVec.extractLsb'_eq_self))

theorem word_bytes (v : Word) :
    wordByte v 3 ++ wordByte v 2 ++ wordByte v 1 ++ wordByte v 0 = v := by
  have two : v.extractLsb' 24 8 ++ v.extractLsb' 16 8 = v.extractLsb' 16 16 :=
    BitVec.extractLsb'_append_extractLsb'_eq_extractLsb' (by decide)
  have three : v.extractLsb' 16 16 ++ v.extractLsb' 8 8 = v.extractLsb' 8 24 :=
    BitVec.extractLsb'_append_extractLsb'_eq_extractLsb' (by decide)
  have all : v.extractLsb' 8 24 ++ v.extractLsb' 0 8 = v.extractLsb' 0 32 :=
    BitVec.extractLsb'_append_extractLsb'_eq_extractLsb' (by decide)
  change v.extractLsb' 24 8 ++ v.extractLsb' 16 8 ++ v.extractLsb' 8 8 ++ v.extractLsb' 0 8 = v
  rw [two, three]
  exact all.trans BitVec.extractLsb'_eq_self

theorem byteReverse_bytes (v : Word) {i : Nat} (small : i < 4) :
    wordByte (byteReverse v) i = wordByte v (3 - i) := by
  obtain ⟨zero, one, two, three⟩ :=
    appended_bytes (wordByte v 0) (wordByte v 1) (wordByte v 2) (wordByte v 3)
  match i with
  | 0 => exact zero
  | 1 => exact one
  | 2 => exact two
  | 3 => exact three

theorem byteReverse_twice (v : Word) : byteReverse (byteReverse v) = v := by
  have byte : ∀ i < 4, wordByte (byteReverse v) i = wordByte v (3 - i) :=
    fun i small => byteReverse_bytes v small
  calc byteReverse (byteReverse v)
      = wordByte (byteReverse v) 0 ++ wordByte (byteReverse v) 1 ++ wordByte (byteReverse v) 2 ++
          wordByte (byteReverse v) 3 := rfl
    _ = wordByte v 3 ++ wordByte v 2 ++ wordByte v 1 ++ wordByte v 0 := by
        rw [byte 0 (by decide), byte 1 (by decide), byte 2 (by decide), byte 3 (by decide)]
    _ = v := word_bytes v

theorem cpop_byteReverse (v : Word) : (byteReverse v).cpop.toNat = v.cpop.toNat := by
  have append : ∀ a b c d : BitVec 8, (a ++ b ++ c ++ d).cpop.toNat =
      a.cpop.toNat + b.cpop.toNat + c.cpop.toNat + d.cpop.toNat := by
    intro a b c d
    rw [BitVec.toNat_cpop_append, BitVec.toNat_cpop_append, BitVec.toNat_cpop_append]
  have reversed := append (wordByte v 0) (wordByte v 1) (wordByte v 2) (wordByte v 3)
  have straight := append (wordByte v 3) (wordByte v 2) (wordByte v 1) (wordByte v 0)
  have whole := congrArg (fun w : Word => w.cpop.toNat) (word_bytes v)
  have same : (byteReverse v).cpop.toNat = _ := reversed
  have parts : v.cpop.toNat = _ := whole.symm.trans straight
  omega

theorem cpuExecAlu_stores (value : Word → Word → Option Word) (sim : SimState) (id : InstBytes)
    {result : Word} (stored : value (cpuDecodeR4x2i8Ifhbs sim id).a
      (cpuDecodeR4x2i8Ifhbs sim id).b = some result) :
    ∃ after, cpuExecAlu value sim id = .ok (.continue, after) ∧
      after.r (lowNibble id.id1) = result := by
  have dp : (cpuDecodeR4x2i8Ifhbs sim id).dp = lowNibble id.id1 := by
    unfold cpuDecodeR4x2i8Ifhbs
    split <;> rfl
  refine ⟨_, cpuExecAlu_some stored, ?_⟩
  rw [← dp]
  exact Function.update_self ..

theorem pcnt_ipcnt (sim : SimState) (id : InstBytes) :
    ∃ counted rest, cpuExecPcnt sim id = .ok (.continue, counted) ∧
      cpuExecIpcnt sim id = .ok (.continue, rest) ∧
      (counted.r (lowNibble id.id1)).toNat + (rest.r (lowNibble id.id1)).toNat = 32 := by
  obtain ⟨counted, one, ones⟩ :=
    cpuExecAlu_stores (fun a b => some (cpuIPopcount (a + b))) sim id rfl
  obtain ⟨rest, two, zeros⟩ :=
    cpuExecAlu_stores (fun a b => some (32 - cpuIPopcount (a + b))) sim id rfl
  refine ⟨counted, rest, one, two, ?_⟩
  rw [ones, zeros, cpuIPopcount_eq, BitVec.toNat_sub]
  have bound := BitVec.toNat_cpop_le
    ((cpuDecodeR4x2i8Ifhbs sim id).a + (cpuDecodeR4x2i8Ifhbs sim id).b)
  change _ + (4294967296 - _ + 32) % 4294967296 = 32
  omega

/-- On every word `cpu_i_popcount` counts the one bits, and `cpu_i_bswap` reverses the bytes,
undoes itself and keeps the count; on all operands `pcnt` and `ipcnt` add up to 32. -/
theorem popcount_bswap (v : Word) :
    (cpuIPopcount v).toNat = oneBits v ∧
    (∀ i < 4, wordByte (cpuIBswap v) i = wordByte v (3 - i)) ∧
    cpuIBswap (cpuIBswap v) = v ∧
    cpuIPopcount (cpuIBswap v) = cpuIPopcount v ∧
    ∀ sim id, ∃ counted rest, cpuExecPcnt sim id = .ok (.continue, counted) ∧
      cpuExecIpcnt sim id = .ok (.continue, rest) ∧
      (counted.r (lowNibble id.id1)).toNat + (rest.r (lowNibble id.id1)).toNat = 32 := by
  refine ⟨?_, ?_, ?_, ?_, pcnt_ipcnt⟩
  · rw [cpuIPopcount_eq, cpop_countP]
  · intro i small
    rw [cpuIBswap_eq, byteReverse_bytes v small]
  · rw [cpuIBswap_eq, cpuIBswap_eq, byteReverse_twice]
  · rw [cpuIPopcount_eq, cpuIPopcount_eq, cpuIBswap_eq]
    exact BitVec.eq_of_toNat_eq (cpop_byteReverse v)

end Estros
