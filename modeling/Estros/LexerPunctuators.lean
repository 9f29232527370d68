import Mathlib.Data.List.Nodup
import Estros.LexerSpans

/-!
Punctuators. The chain of branches takes the first entry of `TOKEN_LIST` that fits; the order of
the table makes that the longest punctuator that the text goes on with.
-/

namespace Estros

section FirstMatch

variable {α : Type} {rel : α → α → Prop} {test : α → Bool} {list : List α} {first : α}

theorem find?_first (same : ∀ item, rel item item) (sorted : list.Pairwise rel)
    (found : list.find? test = some first) :
    ∀ other ∈ list, test other = true → rel first other := by
  induction list with
  | nil => exact fun _ member => absurd member List.not_mem_nil
  | cons head tail ih =>
      intro other member passes
      have ordered := List.pairwise_cons.mp sorted
      cases here : test head with
      | true =>
          rw [List.find?_cons_of_pos here, Option.some.injEq] at found
          rw [← found]
          cases List.mem_cons.mp member with
          | inl head => exact head ▸ same _
          | inr tail => exact ordered.1 other tail
      | false =>
          have out : ¬ test head = true := ne_true_of_eq_false here
          rw [List.find?_cons_of_neg out] at found
          cases List.mem_cons.mp member with
          | inl head => exact absurd (head ▸ passes) out
          | inr tail => exact ih ordered.2 found other tail passes

end FirstMatch

/-- A punctuator has only punctuators before it, and they are no shorter. -/
def TokenEntry.Precedes (earlier later : TokenEntry) : Prop :=
  later.keyword = false →
    earlier.keyword = false ∧ later.bytes.length ≤ earlier.bytes.length

instance (earlier later : TokenEntry) : Decidable (earlier.Precedes later) :=
  inferInstanceAs (Decidable (_ → _))

theorem TokenEntry.precedes_self (entry : TokenEntry) : entry.Precedes entry :=
  fun punctuator => ⟨punctuator, Nat.le_refl _⟩

theorem TokenEntry.Precedes.trans {earlier middle later : TokenEntry}
    (one : earlier.Precedes middle) (other : middle.Precedes later) : earlier.Precedes later := by
  intro punctuator
  have before := other punctuator
  have first := one before.1
  exact ⟨first.1, Nat.le_trans before.2 first.2⟩

instance : Trans TokenEntry.Precedes TokenEntry.Precedes TokenEntry.Precedes :=
  ⟨TokenEntry.Precedes.trans⟩

theorem tokenList_sorted : tokenList.Pairwise TokenEntry.Precedes := by
  -- the relation is transitive, so neighbours are enough
  have neighbours : tokenList.IsChain TokenEntry.Precedes := by decide +kernel
  exact List.isChain_iff_pairwise.mp neighbours

theorem tokenList_texts :
    ((tokenList.filter fun entry => !entry.keyword).map TokenEntry.bytes).Nodup := by
  decide +kernel

theorem tokenList_short : (tokenList.all fun entry =>
    entry.keyword || decide (entry.bytes.length ≤ 3)) = true := by
  decide +kernel

structure PunctuatorAt (data : List UInt8) (p : Nat) (entry : TokenEntry) : Prop where
  listed : entry ∈ tokenList
  punctuator : entry.keyword = false
  spelled : entry.bytes <+: data.drop p

structure LongestAt (data : List UInt8) (p : Nat) (entry : TokenEntry) : Prop extends
    PunctuatorAt data p entry where
  longest : ∀ other, PunctuatorAt data p other → other.bytes.length ≤ entry.bytes.length

section Branches

variable {data : List UInt8} {p : Nat} {entry other : TokenEntry}

theorem matchesAt_prefix (matched : entry.matchesAt data p = true) :
    entry.bytes <+: data.drop p := by
  simp only [TokenEntry.matchesAt, Bool.and_eq_true, decide_eq_true_eq] at matched
  exact List.prefix_iff_eq_take.mpr matched.1.2.symm

theorem PunctuatorAt.matchesAt (stands : PunctuatorAt data p entry)
    (room : p + 3 < data.length) : entry.matchesAt data p = true := by
  have short := List.all_eq_true.mp tokenList_short entry stands.listed
  rw [stands.punctuator, Bool.false_or, decide_eq_true_eq] at short
  have inside : p + entry.bytes.length < data.length := by omega
  have text := List.prefix_iff_eq_take.mp stands.spelled
  rw [TokenEntry.matchesAt, stands.punctuator, decide_eq_true inside, ← text]
  simp

theorem longest_of_find (stands : PunctuatorAt data p entry) (room : p + 3 < data.length)
    (found : (tokenList.find? fun entry => entry.matchesAt data p) = some other) :
    LongestAt data p other := by
  have before := find?_first TokenEntry.precedes_self tokenList_sorted found
  have precedes {later : TokenEntry} (standing : PunctuatorAt data p later) :=
    before later standing.listed (standing.matchesAt room) standing.punctuator
  have matched := List.find?_some found
  exact {
    listed := List.mem_of_find?_eq_some found
    punctuator := (precedes stands).1
    spelled := matchesAt_prefix matched
    longest := fun _ standing => (precedes standing).2 }

theorem LongestAt.unique (one : LongestAt data p entry) (another : LongestAt data p other) :
    entry = other := by
  have length := Nat.le_antisymm (another.longest entry one.toPunctuatorAt)
    (one.longest other another.toPunctuatorAt)
  -- both texts begin at `p`, and no two punctuators are spelled alike
  have text : entry.bytes = other.bytes :=
    (List.prefix_of_prefix_length_le one.spelled another.spelled (Nat.le_of_eq length)).eq_of_length
      length
  exact List.inj_on_of_nodup_map tokenList_texts
    (List.mem_filter.mpr ⟨one.listed, by simp [one.punctuator]⟩)
    (List.mem_filter.mpr ⟨another.listed, by simp [another.punctuator]⟩) text

theorem scanToken_longest (stands : PunctuatorAt data p entry) (room : p + 3 < data.length) :
    ∃ longest, LongestAt data p longest ∧
      ccScanToken data p = (p + longest.bytes.length, longest.type) := by
  cases found : tokenList.find? fun entry => entry.matchesAt data p with
  | none =>
      have out := List.find?_eq_none.mp found entry stands.listed
      exact absurd (stands.matchesAt room) out
  | some first => exact ⟨first, longest_of_find stands room found, by rw [ccScanToken, found]⟩

end Branches

section Runs

variable {data : List UInt8} {lexer : CcLexer} {scan : CcScan}

def CcScan.Scanned (data : List UInt8) (scan : CcScan) : Prop :=
  scan = scanOf scan.start (ccScanToken data scan.start).1 (ccScanToken data scan.start).2

theorem step_scanned (before : ∀ scan ∈ lexer.scans, scan.Scanned data) :
    ∀ scan ∈ (ccTokenizeStep data lexer).scans, scan.Scanned data := by
  intro scan member
  unfold ccTokenizeStep at member
  dsimp only at member
  split at member
  · rcases List.mem_append.mp member with old | new
    · exact before scan old
    · rw [List.mem_singleton.mp new]
      rfl
  · exact before scan member

theorem reached_scanned (reached : LexerReaches data lexer) :
    ∀ scan ∈ lexer.scans, scan.Scanned data := by
  induction reached with
  | start => exact fun _ member => absurd member List.not_mem_nil
  | next _ _ ih => exact step_scanned ih

/-- Punctuators are matched longest first: the token has the type and the length of the longest
one that stands where the token begins. -/
theorem punctuator_longest (reached : LexerReaches data lexer) (pushed : scan ∈ lexer.scans)
    (room : scan.start + 3 < data.length) (stands : ∃ entry, PunctuatorAt data scan.start entry) :
    (∃ entry, LongestAt data scan.start entry) ∧
      ∀ entry, LongestAt data scan.start entry →
        scan.token.type = entry.type ∧ scan.stop = scan.start + entry.bytes.length := by
  obtain ⟨entry, standing⟩ := stands
  obtain ⟨first, longest, scanned⟩ := scanToken_longest standing room
  have made := reached_scanned reached scan pushed
  rw [CcScan.Scanned, scanned] at made
  refine ⟨⟨first, longest⟩, fun other another => ?_⟩
  rw [← longest.unique another, made]
  exact ⟨rfl, rfl⟩

end Runs

theorem punctuator_longest_lshift :
    (∃ entry, LongestAt (ascii "a <<= b;\n") 2 entry) ∧
      ∀ entry, LongestAt (ascii "a <<= b;\n") 2 entry →
        CcTokenType.assignLshift = entry.type ∧ 5 = 2 + entry.bytes.length := by
  have pushed : scanOf 2 5 .assignLshift ∈ (ccTokenizeRounds 2 (ascii "a <<= b;\n")).scans := by
    decide +kernel
  have stands : PunctuatorAt (ascii "a <<= b;\n") 2 (.elem .assignLshift "<<=") :=
    ⟨by simp [tokenList], rfl, by decide +kernel⟩
  have reached : LexerReaches (ascii "a <<= b;\n") (ccTokenizeRounds 2 (ascii "a <<= b;\n")) :=
    Reaches.start.whileLoop 2
  exact punctuator_longest reached pushed (by decide) ⟨_, stands⟩

end Estros
