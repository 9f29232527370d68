import Estros.Lexer

/-!
The spans of the tokens. On ASCII they cover everything but the blanks; and the lexer ends
unless a round starts at a NUL, where it stays for ever.
-/

namespace Estros

theorem utf8Len_pos (c : Int) : 0 < ccUtf8Len c := by
  unfold ccUtf8Len
  split
  · decide
  · split
    · decide
    · split <;> decide

theorem lt_nextChar (data : List UInt8) (p : Nat) : p < nextChar data p :=
  Nat.lt_add_of_pos_right (utf8Len_pos _)

section Skips

variable {cls : UInt8 → Bool} {data : List UInt8} {p : Nat}

theorem le_skipWhile (cls : UInt8 → Bool) (data : List UInt8) (p : Nat) :
    p ≤ skipWhile cls data p :=
  whileLoop_invariant (fun now => p ≤ now)
    (fun now low _ => Nat.le_trans low (Nat.le_of_lt (lt_nextChar data now))) _ (Nat.le_refl p)

theorem skipWhile_stops (cls : UInt8 → Bool) (data : List UInt8) (p : Nat)
    (below : skipWhile cls data p < data.length) :
    cls (byteAt data (skipWhile cls data p)) = false := by
  let goesOn (now : Nat) : Bool := cls (byteAt data now) && now < data.length
  have shrinks : ∀ now, goesOn now = true →
      data.length - nextChar data now < data.length - now := by
    intro now continues
    have low : now < data.length := by simpa using (Bool.and_eq_true_iff.mp continues).2
    have moved := lt_nextChar data now
    omega
  have stopped : goesOn (skipWhile cls data p) = false :=
    whileLoop_stops (fun now => data.length - now) shrinks (Nat.le_refl _)
  simp only [goesOn, decide_eq_true below, Bool.and_true] at stopped
  exact stopped

theorem skipWhile_stay (out : cls (byteAt data p) = false) : skipWhile cls data p = p :=
  whileLoop_false (by rw [out, Bool.false_and]) _

theorem skipWhile_moves (here : cls (byteAt data p) = true) (below : p < data.length) :
    p < skipWhile cls data p := by
  have same : p ≠ skipWhile cls data p := by
    intro same
    have stopped := skipWhile_stops cls data p (same ▸ below)
    rw [← same, here] at stopped
    cases stopped
  exact Nat.lt_of_le_of_ne (le_skipWhile cls data p) same

end Skips

def IsAscii (data : List UInt8) : Prop := ∀ byte ∈ data, byte < 128

instance (data : List UInt8) : Decidable (IsAscii data) :=
  List.decidableBAll (fun byte => byte < 128) data

theorem IsAscii.byteAt {data : List UInt8} (ascii : IsAscii data) (p : Nat) :
    byteAt data p < 128 := by
  rw [Estros.byteAt, List.getD_eq_getElem?_getD]
  cases found : data[p]? with
  | none => decide
  | some byte => exact ascii byte (List.mem_of_getElem? found)

theorem nextChar_ascii {data : List UInt8} {p : Nat} (small : byteAt data p < 128) :
    nextChar data p = p + 1 := by
  have bound : (byteAt data p).toNat < 128 := small
  rw [nextChar, charInt, if_pos small, ccUtf8Len, if_pos (by omega)]

theorem IsAscii.nextChar {data : List UInt8} (ascii : IsAscii data) (p : Nat) :
    nextChar data p = p + 1 :=
  nextChar_ascii (ascii.byteAt p)

theorem skipWhile_passes {data : List UInt8} (cls : UInt8 → Bool)
    (plain : ∀ i, cls (byteAt data i) = true → byteAt data i < 128) {p : Nat}
    (inside : p ≤ data.length) :
    skipWhile cls data p ≤ data.length ∧
      ∀ i, p ≤ i → i < skipWhile cls data p → cls (byteAt data i) = true := by
  refine whileLoop_invariant (fun now => now ≤ data.length ∧ ∀ i, p ≤ i → i < now →
    cls (byteAt data i) = true) (fun now holds continues => ?_) _
    ⟨inside, fun i low high => absurd high (Nat.not_lt.mpr low)⟩
  obtain ⟨here, below⟩ := Bool.and_eq_true_iff.mp continues
  rw [nextChar_ascii (plain now here)]
  refine ⟨of_decide_eq_true below, fun i low high => ?_⟩
  rcases Nat.lt_or_eq_of_le (Nat.le_of_lt_succ high) with before | rfl
  · exact holds.2 i low before
  · exact here

theorem IsAscii.skipWhile {data : List UInt8} (ascii : IsAscii data) (cls : UInt8 → Bool) {p : Nat}
    (inside : p ≤ data.length) :
    skipWhile cls data p ≤ data.length ∧
      ∀ i, p ≤ i → i < skipWhile cls data p → cls (Estros.byteAt data i) = true :=
  skipWhile_passes cls (fun i _ => ascii.byteAt i) inside

theorem tokenList_visible : (tokenList.all fun entry =>
    decide (0 < entry.bytes.length) && entry.bytes.all fun byte => !isspace byte) = true := by
  decide +kernel

theorem tokenList_bytes : ∀ entry ∈ tokenList, 0 < entry.bytes.length ∧
    ∀ byte ∈ entry.bytes, isspace byte = false := by
  intro entry member
  have checked := List.all_eq_true.mp tokenList_visible entry member
  obtain ⟨some, visible⟩ := Bool.and_eq_true_iff.mp checked
  refine ⟨of_decide_eq_true some, fun byte inside => ?_⟩
  exact Bool.not_eq_true' _ ▸ List.all_eq_true.mp visible byte inside

theorem matchesAt_bytes {entry : TokenEntry} {data : List UInt8} {p : Nat}
    (matched : entry.matchesAt data p = true) :
    p + entry.bytes.length < data.length ∧
      ∀ k (below : k < entry.bytes.length), byteAt data (p + k) = entry.bytes[k] := by
  simp only [TokenEntry.matchesAt, Bool.and_eq_true, decide_eq_true_eq] at matched
  obtain ⟨⟨inside, text⟩, _⟩ := matched
  refine ⟨inside, fun k below => ?_⟩
  have same : ((data.drop p).take entry.bytes.length)[k]? = entry.bytes[k]? := by rw [text]
  rw [List.getElem?_take, if_pos below, List.getElem?_drop, List.getElem?_eq_getElem below] at same
  rw [byteAt, List.getD_eq_getElem?_getD, same, Option.getD_some]

theorem scanToken_cases (data : List UInt8) (p : Nat) :
    (∃ entry ∈ tokenList, entry.matchesAt data p = true ∧
        ccScanToken data p = (p + entry.bytes.length, entry.type)) ∨
      (∀ entry ∈ tokenList, entry.matchesAt data p = false) ∧
        (isdigit (byteAt data p) = true ∧ ccScanToken data p = (literalEnd data p, .literal) ∨
          isdigit (byteAt data p) = false ∧ ccScanToken data p = (identEnd data p, .ident)) := by
  cases found : tokenList.find? fun entry => entry.matchesAt data p with
  | some entry =>
      have matched := List.find?_some found
      refine .inl ⟨entry, List.mem_of_find?_eq_some found, matched, ?_⟩
      rw [ccScanToken, found]
  | none =>
      have none := List.find?_eq_none.mp found
      refine .inr ⟨fun entry member => eq_false_of_ne_true (none entry member), ?_⟩
      rw [ccScanToken, found]
      cases isdigit (byteAt data p) with
      | true => exact .inl ⟨rfl, rfl⟩
      | false => exact .inr ⟨rfl, rfl⟩

theorem scanToken_moves (data : List UInt8) (p : Nat) : p < (ccScanToken data p).1 := by
  rcases scanToken_cases data p with ⟨entry, member, -, scanned⟩ | ⟨-, ⟨-, scanned⟩ | ⟨-, scanned⟩⟩
  · rw [scanned]
    exact Nat.lt_add_of_pos_right (tokenList_bytes entry member).1
  · rw [scanned]
    exact Nat.lt_of_lt_of_le (lt_nextChar data p) (le_skipWhile isnumber data _)
  · rw [scanned]
    exact Nat.lt_of_lt_of_le (lt_nextChar data p) (le_skipWhile identGoesOn data _)

theorem isspace_of_isdigit {byte : UInt8} (digit : isdigit byte = true) : isspace byte = false := by
  simp only [isdigit, isspace] at *
  grind

theorem IsAscii.scanToken {data : List UInt8} (ascii : IsAscii data) {p : Nat}
    (below : p < data.length) (here : isspace (Estros.byteAt data p) = false) :
    (ccScanToken data p).1 ≤ data.length ∧
      ∀ i, p ≤ i → i < (ccScanToken data p).1 → isspace (Estros.byteAt data i) = false := by
  -- The first character, and then those of a class without blanks.
  have run (cls : UInt8 → Bool) (plain : ∀ byte, cls byte = true → isspace byte = false) :
      Estros.skipWhile cls data (Estros.nextChar data p) ≤ data.length ∧
        ∀ i, p ≤ i → i < Estros.skipWhile cls data (Estros.nextChar data p) →
          isspace (Estros.byteAt data i) = false := by
    rw [ascii.nextChar p]
    obtain ⟨inside, all⟩ := ascii.skipWhile cls (Nat.succ_le_of_lt below)
    refine ⟨inside, fun i low high => ?_⟩
    rcases Nat.eq_or_lt_of_le low with rfl | later
    · exact here
    · exact plain _ (all i later high)
  rcases scanToken_cases data p with
    ⟨entry, member, matched, scanned⟩ | ⟨-, ⟨-, scanned⟩ | ⟨-, scanned⟩⟩
  · rw [scanned]
    obtain ⟨inside, bytes⟩ := matchesAt_bytes matched
    refine ⟨Nat.le_of_lt inside, fun i low high => ?_⟩
    obtain ⟨k, rfl⟩ := Nat.exists_eq_add_of_le low
    have short : k < entry.bytes.length := Nat.lt_of_add_lt_add_left high
    rw [bytes k short]
    exact (tokenList_bytes entry member).2 _ (List.getElem_mem short)
  · rw [scanned]
    exact run isnumber fun byte => isspace_of_isdigit
  · rw [scanned]
    refine run identGoesOn fun byte holds => ?_
    simpa using (Bool.and_eq_true_iff.mp holds).2

section Rounds

variable {data : List UInt8} {lexer : CcLexer}

theorem step_moves (below : lexer.p < data.length) (named : byteAt data lexer.p ≠ 0) :
    lexer.p < (ccTokenizeStep data lexer).p := by
  have low := le_skipWhile isspace data lexer.p
  simp only [ccTokenizeStep]
  cases space : isspace (byteAt data lexer.p) with
  | true =>
      have moved : lexer.p < skipSpace data lexer.p := skipWhile_moves space below
      split
      · exact Nat.lt_trans moved (scanToken_moves data _)
      · exact moved
  | false =>
      have stay : skipSpace data lexer.p = lexer.p := skipWhile_stay space
      rw [stay, if_pos ⟨named, below⟩]
      exact scanToken_moves data _

/-- The states in which `cc_tokenize` evaluates the condition of its outer loop. -/
def LexerReaches (data : List UInt8) (lexer : CcLexer) : Prop :=
  Reaches (ccTokenizeGoesOn data) (ccTokenizeStep data) CcLexer.start lexer

theorem goesOn_iff : ccTokenizeGoesOn data lexer = true ↔ lexer.p < data.length :=
  decide_eq_true_iff

theorem tokenize_returns_iff (state : CcState) :
    (∃ rounds after, ccTokenize rounds state = some after) ↔
      Finishes (ccTokenizeGoesOn state.data) (ccTokenizeStep state.data) CcLexer.start := by
  refine exists_congr fun rounds => ?_
  change (∃ after, (if ccTokenizeGoesOn state.data (ccTokenizeRounds rounds state.data) then none
    else some _) = some after) ↔ ccTokenizeGoesOn state.data (ccTokenizeRounds rounds state.data) = false
  cases ccTokenizeGoesOn state.data (ccTokenizeRounds rounds state.data) with
  | true => simp
  | false => simp

theorem tokenize_returns (state : CcState)
    (named : ∀ lexer, LexerReaches state.data lexer → lexer.p < state.data.length →
      byteAt state.data lexer.p ≠ 0) : ∃ rounds after, ccTokenize rounds state = some after := by
  rw [tokenize_returns_iff]
  refine finishes_of_shrinks (fun lexer => state.data.length - lexer.p) fun lexer reached continues => ?_
  have below := goesOn_iff.mp continues
  have moved := step_moves below (named lexer reached below)
  omega

/-- What the spans of the tokens are to the first `limit` bytes. -/
structure Spans (data : List UInt8) (limit : Nat) (scans : List CcScan) : Prop where
  nonempty : ∀ scan ∈ scans, scan.start < scan.stop
  ordered : scans.Pairwise fun first second => first.stop ≤ second.start
  inside : ∀ scan ∈ scans, scan.stop ≤ limit
  noSpace : ∀ scan ∈ scans, ∀ i, scan.start ≤ i → i < scan.stop → isspace (byteAt data i) = false
  outside : ∀ i < limit, (∀ scan ∈ scans, ¬ (scan.start ≤ i ∧ i < scan.stop)) →
    isspace (byteAt data i) = true
  recorded : ∀ scan ∈ scans, scan.token.data.pos.toNat = scan.start % 2 ^ 24 ∧
    scan.token.data.len.toNat = (scan.stop - scan.start) % 2 ^ 8

theorem Spans.blanks {limit more : Nat} {scans : List CcScan} (spans : Spans data limit scans)
    (low : limit ≤ more) (blank : ∀ i, limit ≤ i → i < more → isspace (byteAt data i) = true) :
    Spans data more scans := by
  refine { spans with inside := ?_, outside := ?_ }
  · exact fun scan member => Nat.le_trans (spans.inside scan member) low
  · intro i below none
    rcases Nat.lt_or_ge i limit with before | behind
    · exact spans.outside i before none
    · exact blank i behind below

theorem Spans.push {limit stop : Nat} {scans : List CcScan} (spans : Spans data limit scans)
    (moves : limit < stop) (solid : ∀ i, limit ≤ i → i < stop → isspace (byteAt data i) = false)
    (type : CcTokenType) : Spans data stop (scans ++ [scanOf limit stop type]) := by
  have each {holds : CcScan → Prop} (old : ∀ scan ∈ scans, holds scan)
      (new : holds (scanOf limit stop type)) :
      ∀ scan ∈ scans ++ [scanOf limit stop type], holds scan := by
    intro scan member
    rcases List.mem_append.mp member with before | last
    · exact old scan before
    · exact List.mem_singleton.mp last ▸ new
  constructor
  · exact each spans.nonempty moves
  · refine List.pairwise_append.mpr ⟨spans.ordered, List.pairwise_singleton _ _, ?_⟩
    intro scan member last here
    rw [List.mem_singleton.mp here]
    exact spans.inside scan member
  · exact each (fun scan member => Nat.le_trans (spans.inside scan member) (Nat.le_of_lt moves))
      (Nat.le_refl stop)
  · exact each spans.noSpace solid
  · intro i below none
    rcases Nat.lt_or_ge i limit with before | behind
    · exact spans.outside i before fun scan member => none scan (List.mem_append_left _ member)
    · exact absurd ⟨behind, below⟩ (none _ (List.mem_append_right _ (List.mem_singleton_self _)))
  · exact each spans.recorded ⟨BitVec.toNat_ofNat _ _, BitVec.toNat_ofNat _ _⟩

theorem step_spans (ascii : IsAscii data) (below : lexer.p < data.length)
    (spans : Spans data lexer.p lexer.scans) :
    (ccTokenizeStep data lexer).p ≤ data.length ∧
      Spans data (ccTokenizeStep data lexer).p (ccTokenizeStep data lexer).scans := by
  obtain ⟨inside, blank⟩ := ascii.skipWhile isspace (Nat.le_of_lt below)
  have skipped := spans.blanks (le_skipWhile isspace data lexer.p) blank
  simp only [ccTokenizeStep]
  split
  · rename_i both
    have here := skipWhile_stops isspace data lexer.p both.2
    obtain ⟨reaches, solid⟩ := ascii.scanToken both.2 here
    exact ⟨reaches, skipped.push (scanToken_moves data _) solid _⟩
  · exact ⟨inside, skipped⟩

/-- The run lemma. -/
theorem reached_spans (ascii : IsAscii data) (reached : LexerReaches data lexer) :
    lexer.p ≤ data.length ∧ Spans data lexer.p lexer.scans := by
  refine reached.invariant (fun lexer => lexer.p ≤ data.length ∧ Spans data lexer.p lexer.scans)
    (fun lexer holds continues => step_spans ascii (goesOn_iff.mp continues) holds.2) ⟨Nat.zero_le _, ?_⟩
  refine ⟨?_, .nil, ?_, ?_, fun i below => absurd below (Nat.not_lt_zero i), ?_⟩
  all_goals exact fun _ member => absurd member List.not_mem_nil

end Rounds

theorem byteAt_mem {data : List UInt8} {p : Nat} (below : p < data.length) :
    byteAt data p ∈ data := by
  rw [byteAt, List.getD_eq_getElem?_getD, List.getElem?_eq_getElem below, Option.getD_some]
  exact List.getElem_mem below

theorem tokenize_some {state after : CcState} {rounds : Nat}
    (ran : ccTokenize rounds state = some after) :
    ∃ last, LexerReaches state.data last ∧ state.data.length ≤ last.p ∧
      after = { state with tokens := state.tokens ++ last.scans.map CcScan.token } := by
  -- What returns has pushed the tokens of the state in which the outer loop ended.
  refine ⟨ccTokenizeRounds rounds state.data, Reaches.start.whileLoop rounds, ?_⟩
  rw [ccTokenize] at ran
  cases goesOn : ccTokenizeGoesOn state.data (ccTokenizeRounds rounds state.data) with
  | true =>
      simp only [goesOn] at ran
      cases ran
  | false =>
      simp only [goesOn] at ran
      exact ⟨Nat.not_lt.mp (of_decide_eq_false goesOn), (Option.some.inj ran).symm⟩

end Estros
