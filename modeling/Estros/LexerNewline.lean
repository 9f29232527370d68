import Estros.LexerEnd

/-!
The lexer on a file and on the same file with a newline at its end: they go in step until a
token starts at a listed text that ends the file, and from there they differ.
-/

namespace Estros

section Runs

variable {data : List UInt8} {lexer : CcLexer}

structure Together (data : List UInt8) (lexer : CcLexer) : Prop where
  here : LexerReaches data lexer
  there : LexerReaches (data ++ [10]) lexer
  edge : Edge data lexer.p

def Parts (data : List UInt8) : Prop :=
  ∃ early, Together data early ∧ early.p < data.length ∧ Ends data (skipSpace data early.p)

/-- What is known of a state of the run without the newline. -/
inductive InStep (data : List UInt8) (lexer : CcLexer) : Prop where
  | together (both : Together data lexer)
  | done (ended : lexer.p = data.length)
      (there : LexerReaches (data ++ [10]) ⟨data.length + 1, lexer.scans⟩)
  | parted (parts : Parts data)

theorem step_token (named : ∀ byte ∈ data, byte ≠ 0) {p : Nat} (begins : skipSpace data lexer.p = p)
    (below : p < data.length) :
    ccTokenizeStep data lexer = ⟨(ccScanToken data p).1,
      lexer.scans ++ [scanOf p (ccScanToken data p).1 (ccScanToken data p).2]⟩ := by
  rw [ccTokenizeStep, begins, if_pos ⟨named _ (byteAt_mem below), below⟩]

theorem step_blank {p : Nat} (begins : skipSpace data lexer.p = p) (beyond : data.length ≤ p) :
    ccTokenizeStep data lexer = ⟨p, lexer.scans⟩ := by
  rw [ccTokenizeStep, begins, if_neg fun both => absurd both.2 (Nat.not_lt.mpr beyond)]

theorem named_newline (named : ∀ byte ∈ data, byte ≠ 0) : ∀ byte ∈ data ++ [10], byte ≠ 0 := by
  intro byte member
  rcases List.mem_append.mp member with before | last
  · exact named byte before
  · rw [List.mem_singleton.mp last]
    decide

theorem step_newline_end (ascii : IsAscii data) (inside : lexer.p ≤ data.length)
    (blank : ¬ skipSpace data lexer.p < data.length) :
    ccTokenizeStep (data ++ [10]) lexer = ⟨data.length + 1, lexer.scans⟩ := by
  -- At the end of the file the newline is one more blank.
  have begins := ascii.skipSpace_newline inside
  rw [if_neg blank] at begins
  exact step_blank begins (by simp)

/-- The run lemma. -/
theorem in_step (ascii : IsAscii data) (named : ∀ byte ∈ data, byte ≠ 0)
    (reached : LexerReaches data lexer) : InStep data lexer := by
  induction reached with
  | start =>
      refine .together ⟨.start, .start, fun _ => ?_⟩
      refine .inr ⟨0, Nat.le_refl 0, fun i _ below => ?_, .inl rfl⟩
      exact absurd below (Nat.not_lt_zero i)
  | @next lexer reached continues ih =>
      have below := goesOn_iff.mp continues
      cases ih with
      | parted parts => exact .parted parts
      | done ended _ => exact absurd below (by omega)
      | together both =>
          have continues' : ccTokenizeGoesOn (data ++ [10]) lexer = true :=
            goesOn_iff.mpr (by simp; omega)
          have there := both.there.next continues'
          have inside := Nat.le_of_lt below
          by_cases begins : skipSpace data lexer.p < data.length
          · by_cases ends : Ends data (skipSpace data lexer.p)
            · exact .parted ⟨lexer, both, below, ends⟩
            · have begins' := ascii.skipSpace_newline inside
              rw [if_pos begins] at begins'
              have same : ccTokenizeStep (data ++ [10]) lexer = ccTokenizeStep data lexer := by
                rw [step_token named rfl begins, step_token (named_newline named) begins'
                  (by simp; omega), ascii.scanToken_newline begins fun entry member ends' =>
                    ends ⟨entry, member, ends'⟩]
              refine .together ⟨reached.next continues, same ▸ there, ?_⟩
              rw [step_token named rfl begins]
              exact (both.edge.skip ascii inside).scan ascii begins ends
          · rw [step_newline_end ascii inside begins] at there
            have last : skipSpace data lexer.p = data.length :=
              Nat.le_antisymm (ascii.skipWhile isspace inside).1 (Nat.not_lt.mp begins)
            rw [step_blank last (Nat.le_refl _)]
            exact .done rfl there

/-! ### The outcome -/

structure Lexes (data : List UInt8) (last : CcLexer) : Prop where
  reached : LexerReaches data last
  ended : data.length ≤ last.p

theorem Lexes.behind {last now : CcLexer} (lexes : Lexes data last)
    (reached : LexerReaches data now) :
    Reaches (ccTokenizeGoesOn data) (ccTokenizeStep data) now last := by
  rcases reached.linear lexes.reached with ahead | back
  · exact ahead
  · rcases back.cases_first with rfl | ⟨continues, _⟩
    · exact .start
    · exact absurd (goesOn_iff.mp continues) (Nat.not_lt.mpr lexes.ended)

theorem Lexes.unique {one other : CcLexer} (first : Lexes data one) (second : Lexes data other) :
    one = other := by
  rcases (second.behind first.reached).cases_first with same | ⟨continues, _⟩
  · exact same.symm
  · exact absurd (goesOn_iff.mp continues) (Nat.not_lt.mpr first.ended)

def lexed (data : List UInt8) (last : CcLexer) : CcState :=
  { CcState.start data [] with tokens := last.scans.map CcScan.token }

theorem tokenize_start_iff (named : ∀ byte ∈ data, byte ≠ 0) (after : CcState) :
    (∃ rounds, ccTokenize rounds (CcState.start data []) = some after) ↔
      ∃ last, Lexes data last ∧ after = lexed data last := by
  constructor
  · rintro ⟨rounds, ran⟩
    obtain ⟨last, reached, ended, rfl⟩ := tokenize_some ran
    exact ⟨last, ⟨reached, ended⟩, rfl⟩
  · rintro ⟨last, lexes, rfl⟩
    obtain ⟨rounds, found, ran⟩ := tokenize_returns (CcState.start data []) fun _ _ below =>
      named _ (byteAt_mem below)
    obtain ⟨other, reached, ended, rfl⟩ := tokenize_some ran
    exact ⟨rounds, lexes.unique ⟨reached, ended⟩ ▸ ran⟩

theorem exists_lexes (named : ∀ byte ∈ data, byte ≠ 0) : ∃ last, Lexes data last := by
  obtain ⟨rounds, after, ran⟩ := tokenize_returns (CcState.start data []) fun _ _ below =>
    named _ (byteAt_mem below)
  obtain ⟨last, lexes, -⟩ := (tokenize_start_iff named after).mp ⟨rounds, ran⟩
  exact ⟨last, lexes⟩

def tokenTexts (state : CcState) : List (CcTokenType × List UInt8) :=
  state.tokens.map fun token => (token.type, ccStrviewGet state token.data)

/-- `cc_tokenize` returns on both files, with tokens of the same types and texts. -/
def PushesSame (data other : List UInt8) : Prop :=
  ∃ after after', (∃ rounds, ccTokenize rounds (CcState.start data []) = some after) ∧
    (∃ rounds, ccTokenize rounds (CcState.start other []) = some after') ∧
    tokenTexts after = tokenTexts after'

theorem pushesSame_iff {other : List UInt8} (named : ∀ byte ∈ data, byte ≠ 0)
    (named' : ∀ byte ∈ other, byte ≠ 0) :
    PushesSame data other ↔ ∃ last last', Lexes data last ∧ Lexes other last' ∧
      tokenTexts (lexed data last) = tokenTexts (lexed other last') := by
  simp only [PushesSame, tokenize_start_iff named, tokenize_start_iff named']
  constructor
  · rintro ⟨_, _, ⟨last, lexes, rfl⟩, ⟨last', lexes', rfl⟩, same⟩
    exact ⟨last, last', lexes, lexes', same⟩
  · rintro ⟨last, last', lexes, lexes', same⟩
    exact ⟨_, _, ⟨last, lexes, rfl⟩, ⟨last', lexes', rfl⟩, same⟩

theorem texts_newline (ascii : IsAscii data) {last : CcLexer} (lexes : Lexes data last) (p : Nat) :
    tokenTexts (lexed (data ++ [10]) ⟨p, last.scans⟩) = tokenTexts (lexed data last) := by
  obtain ⟨inside, spans⟩ := reached_spans ascii lexes.reached
  simp only [tokenTexts, lexed, List.map_map]
  refine List.map_inj_left.mpr fun scan member => ?_
  obtain ⟨position, length⟩ := spans.recorded scan member
  have high := spans.inside scan member
  have some := spans.nonempty scan member
  have low := Nat.mod_le scan.start (2 ^ 24)
  have short := Nat.mod_le (scan.stop - scan.start) (2 ^ 8)
  simp only [Function.comp, ccStrviewGet, CcState.start]
  rw [take_drop_append _ (by omega)]

theorem same_of_in_step (ascii : IsAscii data) {last : CcLexer} (lexes : Lexes data last)
    (whole : ¬ Parts data) (named : ∀ byte ∈ data, byte ≠ 0) :
    ∃ last', Lexes (data ++ [10]) last' ∧ last'.scans = last.scans := by
  have inside := (reached_spans ascii lexes.reached).1
  cases in_step ascii named lexes.reached with
  | parted parts => exact absurd parts whole
  | done _ there => exact ⟨_, ⟨there, by simp⟩, rfl⟩
  | together both =>
      have blank : ¬ skipSpace data last.p < data.length := fun below => by
        have low := le_skipWhile isspace data last.p
        have ended := lexes.ended
        simp only [skipSpace] at below
        omega
      have there := both.there.next (goesOn_iff.mpr (by simp; omega))
      rw [step_newline_end ascii inside blank] at there
      exact ⟨_, ⟨there, by simp⟩, rfl⟩

theorem differ_of_parts (ascii : IsAscii data) (named : ∀ byte ∈ data, byte ≠ 0)
    (parts : Parts data) {last last' : CcLexer} (lexes : Lexes data last)
    (lexes' : Lexes (data ++ [10]) last') :
    tokenTexts (lexed data last) ≠ tokenTexts (lexed (data ++ [10]) last') := by
  obtain ⟨early, both, below, entry, member, ends⟩ := parts
  have begins := (ends.first member).1
  have begins' := ascii.skipSpace_newline (Nat.le_of_lt below)
  rw [if_pos begins] at begins'
  have next := both.here.next (goesOn_iff.mpr below)
  have next' := both.there.next (goesOn_iff.mpr (by simp; omega))
  rw [step_token named rfl begins] at next
  rw [step_token (named_newline named) begins' (by simp; omega)] at next'
  obtain ⟨more, grown⟩ := (reaches_keeps (lexes.behind next)).2
  obtain ⟨more', grown'⟩ := (reaches_keeps (lexes'.behind next')).2
  intro same
  have types := congrArg (List.map Prod.fst) same
  have kinds := scanType_newline member ends
  simp only [tokenTexts, lexed, List.map_map] at types
  rw [← grown, ← grown'] at types
  simp only [List.map_append, List.append_assoc] at types
  have rest := List.append_cancel_left types
  exact kinds (List.head_eq_of_cons_eq rest)

theorem scans_started (named : ∀ byte ∈ data, byte ≠ 0) (reached : LexerReaches data lexer) :
    ∀ scan ∈ lexer.scans, ∃ early, LexerReaches data early ∧ early.p < data.length ∧
      skipSpace data early.p = scan.start ∧ scan.start < data.length ∧
      scan.stop = (ccScanToken data scan.start).1 := by
  induction reached with
  | start => exact fun _ member => absurd member List.not_mem_nil
  | @next lexer reached continues ih =>
      intro scan member
      by_cases begins : skipSpace data lexer.p < data.length
      · rw [step_token named rfl begins] at member
        rcases List.mem_append.mp member with old | new
        · exact ih scan old
        · cases List.mem_singleton.mp new
          exact ⟨lexer, reached, goesOn_iff.mp continues, rfl, begins, rfl⟩
      · rw [step_blank rfl (Nat.not_lt.mp begins)] at member
        exact ih scan member

theorem scan_kinds (ascii : IsAscii data) {p : Nat} (below : p < data.length) :
    (∃ entry ∈ tokenList, entry.matchesAt data p = true ∧
        (ccScanToken data p).1 = p + entry.bytes.length) ∨
      (∀ i, p ≤ i → i < (ccScanToken data p).1 → isdigit (byteAt data i) = true) ∨
      (∀ entry ∈ tokenList, entry.matchesAt data p = false) ∧ isdigit (byteAt data p) = false ∧
        ∀ i, p < i → i < (ccScanToken data p).1 → identGoesOn (byteAt data i) = true := by
  rcases scanToken_cases data p with
    ⟨entry, member, matched, scanned⟩ | ⟨none, ⟨digit, scanned⟩ | ⟨plain, scanned⟩⟩
  · rw [scanned]
    exact .inl ⟨entry, member, matched, rfl⟩
  · rw [scanned]
    exact .inr (.inl (literal_digits ascii below digit))
  · rw [scanned]
    refine .inr (.inr ⟨none, plain, fun i low high => ?_⟩)
    change i < skipWhile identGoesOn data (nextChar data p) at high
    rw [ascii.nextChar] at high
    exact (ascii.skipWhile identGoesOn (Nat.succ_le_of_lt below)).2 i low high

theorem operator_matches {p : Nat} (operator : isOperator (byteAt data p) = true)
    (behind : p + 1 < data.length) : ∃ entry ∈ tokenList, entry.matchesAt data p = true := by
  obtain ⟨entry, member, single⟩ := List.any_eq_true.mp operator
  simp only [Bool.and_eq_true, Bool.not_eq_true', beq_iff_eq] at single
  refine ⟨entry, member, ?_⟩
  have text : (data.drop p).take 1 = [byteAt data p] := by
    rw [List.drop_eq_getElem_cons (Nat.lt_of_succ_lt behind), List.take_succ_cons, List.take_zero,
      byteAt, ← List.getElem_eq_getD]
  simp [TokenEntry.matchesAt, single.1, single.2, behind, text]

theorem operator_bytes {byte : UInt8} (operator : isOperator byte = true) :
    ispunct byte = true ∧ ccIsIdentifier byte = false := by
  obtain ⟨entry, member, single⟩ := List.any_eq_true.mp operator
  simp only [Bool.and_eq_true, Bool.not_eq_true', beq_iff_eq] at single
  exact (tokenList_operator member single.1 (by rw [single.2]; exact List.mem_singleton_self _)).2

theorem identifier_of_isdigit {byte : UInt8} (digit : isdigit byte = true) :
    ccIsIdentifier byte = true := by
  simp [ccIsIdentifier, digit]

theorem matched_byte {entry : TokenEntry} {s i : Nat} (matched : entry.matchesAt data s = true)
    (low : s ≤ i) (high : i < s + entry.bytes.length) :
    ∃ below : i - s < entry.bytes.length, byteAt data i = entry.bytes[i - s] := by
  refine ⟨by omega, ?_⟩
  have bytes := (matchesAt_bytes matched).2 (i - s) (by omega)
  rwa [Nat.add_sub_cancel' low] at bytes

section PassedOver

variable {s p : Nat} {entry : TokenEntry}

theorem underscore_not_passed (ascii : IsAscii data) (below : s < data.length) (after : s < p)
    (before : p < (ccScanToken data s).1) (member : entry ∈ tokenList)
    (keyword : entry.keyword = true) (ends : EndsAt data p entry) : byteAt data p ≠ 95 := by
  -- No token passes over the underscore of a keyword.
  intro underscore
  obtain ⟨-, some, first⟩ := ends.first member
  rw [underscore] at first
  rcases scan_kinds ascii below with ⟨other, listed, matched, stop⟩ | passed | ⟨-, -, goesOn⟩
  · rw [stop] at before
    obtain ⟨short, same⟩ := matched_byte matched (Nat.le_of_lt after) before
    rw [underscore] at same
    cases kind : other.keyword with
    | false =>
        have letter := (tokenList_operator listed kind (List.getElem_mem short)).2.2
        rw [← same] at letter
        cases letter
    | true =>
        -- The byte behind the underscore would be a capital and a small letter.
        obtain ⟨next, small⟩ := tokenList_underscore listed kind short same.symm
        obtain ⟨next', capital⟩ := tokenList_underscore member keyword some first.symm
        have one := (ends.bytes next').2
        obtain ⟨_, two⟩ := matched_byte (i := p + 1) matched (by omega) (by omega)
        have index : p + 1 - s = p - s + 1 := by omega
        simp only [index] at two
        have meet : other.bytes[p - s + 1] = entry.bytes[0 + 1] := two.symm.trans one
        have zero := small.mp (meet ▸ capital.mpr rfl)
        omega
  · have digit := passed p (Nat.le_of_lt after) before
    rw [underscore] at digit
    cases digit
  · have goes := goesOn p after before
    rw [underscore] at goes
    cases goes

theorem edge_not_passed (ascii : IsAscii data) (below : s < data.length)
    (here : isspace (byteAt data s) = false) (after : s < p) (inside : p < data.length)
    (before : p < (ccScanToken data s).1) (start : ccIsStartIdentifier (byteAt data p) = true)
    {q : Nat} (low : q ≤ p) (digits : ∀ i, q ≤ i → i < p → isdigit (byteAt data i) = true) :
    ¬ (q = 0 ∨ isspace (byteAt data (q - 1)) = true ∨ isOperator (byteAt data (q - 1)) = true) := by
  -- No token passes over a letter that digits, and before them a blank or an operator, precede.
  have letter : ccIsIdentifier (byteAt data p) = true := by
    simp only [ccIsStartIdentifier, ccIsIdentifier, Bool.or_eq_true] at *
    exact .inl start
  have noDigit := not_isdigit_of_start start
  intro edge
  -- A token that starts before the digits has the blank or the operator inside.
  have operator : s < q → s ≤ q - 1 ∧ q - 1 < p ∧ isOperator (byteAt data (q - 1)) = true := by
    intro early
    refine ⟨by omega, by omega, ?_⟩
    rcases edge with zero | blank | operator
    · omega
    · have solid := (ascii.scanToken below here).2 (q - 1) (by omega) (by omega)
      rw [blank] at solid
      cases solid
    · exact operator
  -- a listed text, a number or an identifier passes over `p`: each has a byte it cannot have
  rcases scan_kinds ascii below with ⟨other, listed, matched, stop⟩ | passed | ⟨none, plain, goesOn⟩
  · rw [stop] at before
    obtain ⟨short, same⟩ := matched_byte matched (Nat.le_of_lt after) before
    rw [same] at letter
    cases keyword : other.keyword with
    | false =>
        rw [(tokenList_operator listed keyword (List.getElem_mem short)).2.2] at letter
        cases letter
    | true =>
        rcases Nat.lt_or_ge s q with early | late
        · obtain ⟨first, last, listedByte⟩ := operator early
          obtain ⟨short', same'⟩ := matched_byte matched first (by omega)
          have letter' := tokenList_keyword other listed keyword _ (List.getElem_mem short')
          rw [← same', (operator_bytes listedByte).2] at letter'
          cases letter'
        · have digit := digits s late after
          obtain ⟨short', same'⟩ := matched_byte matched (Nat.le_refl s) (by omega)
          simp only [Nat.sub_self] at same'
          rw [same', not_isdigit_of_start (tokenList_start listed keyword (by omega))] at digit
          cases digit
  · rw [passed p (Nat.le_of_lt after) before] at noDigit
    cases noDigit
  · rcases Nat.lt_or_ge s q with early | late
    · obtain ⟨first, last, listedByte⟩ := operator early
      rcases Nat.eq_or_lt_of_le first with same | later
      · obtain ⟨entry, member, matched⟩ := operator_matches (same ▸ listedByte) (by omega)
        rw [none entry member] at matched
        cases matched
      · have goes := goesOn (q - 1) later (by omega)
        rw [identGoesOn, (operator_bytes listedByte).1] at goes
        cases goes
    · rw [digits s late after] at plain
      cases plain

end PassedOver

/-- Where the runs stay in step to the end, no token starts at a listed text that ends the file. -/
def NeverEnds (data : List UInt8) : Prop :=
  ∀ early, LexerReaches data early → early.p < data.length → ¬ Ends data (skipSpace data early.p)

theorem neverEnds_of_whole (ascii : IsAscii data) (named : ∀ byte ∈ data, byte ≠ 0)
    (whole : ¬ Parts data) : NeverEnds data := by
  intro early reached below ends
  cases in_step ascii named reached with
  | together both => exact whole ⟨early, both, below, ends⟩
  | done ended _ => omega
  | parted parts => exact whole parts

theorem token_of_byte (ascii : IsAscii data) (named : ∀ byte ∈ data, byte ≠ 0) {last : CcLexer}
    (lexes : Lexes data last) {p : Nat} (below : p < data.length)
    (solid : isspace (byteAt data p) = false) :
    ∃ early, LexerReaches data early ∧ early.p < data.length ∧
      skipSpace data early.p < data.length ∧ skipSpace data early.p ≤ p ∧
      p < (ccScanToken data (skipSpace data early.p)).1 := by
  obtain ⟨inside, spans⟩ := reached_spans ascii lexes.reached
  by_contra none
  have blank := spans.outside p (Nat.lt_of_lt_of_le below lexes.ended) fun scan member both => by
    obtain ⟨early, reached, before, starts, room, stops⟩ :=
      scans_started named lexes.reached scan member
    refine none ⟨early, reached, before, ?_, ?_, ?_⟩
    · rwa [starts]
    · rw [starts]
      exact both.1
    · rw [starts, ← stops]
      exact both.2
  rw [solid] at blank
  cases blank

theorem same_iff_whole (ascii : IsAscii data) (named : ∀ byte ∈ data, byte ≠ 0) :
    PushesSame data (data ++ [10]) ↔ ¬ Parts data := by
  rw [pushesSame_iff named (named_newline named)]
  constructor
  · rintro ⟨last, last', lexes, lexes', same⟩ parts
    exact differ_of_parts ascii named parts lexes lexes' same
  · intro whole
    obtain ⟨last, lexes⟩ := exists_lexes named
    obtain ⟨last', lexes', scans⟩ := same_of_in_step ascii lexes whole named
    refine ⟨last, last', lexes, lexes', ?_⟩
    have texts := texts_newline ascii lexes last'.p
    rw [← scans] at texts
    exact texts.symm

theorem no_operator_at_end (ascii : IsAscii data) (named : ∀ byte ∈ data, byte ≠ 0)
    (never : NeverEnds data) {last : CcLexer} (lexes : Lexes data last) (some : 0 < data.length) :
    isOperator (byteAt data (data.length - 1)) = false := by
  by_contra listed
  have operator := eq_true_of_ne_false listed
  obtain ⟨punct, noLetter⟩ := operator_bytes operator
  have solid : isspace (byteAt data (data.length - 1)) = false := by
    simp only [ispunct, isspace] at *
    grind
  obtain ⟨early, reached, below, begins, low, high⟩ :=
    token_of_byte ascii named lexes (Nat.sub_one_lt (Nat.ne_of_gt some)) solid
  rcases scan_kinds ascii begins with ⟨other, member, matched, stop⟩ | passed | ⟨-, -, goesOn⟩
  · have room := (matchesAt_bytes matched).1
    omega
  · have letter := identifier_of_isdigit (passed _ low high)
    rw [noLetter] at letter
    cases letter
  · rcases Nat.eq_or_lt_of_le low with same | later
    · obtain ⟨entry, member, single⟩ := List.any_eq_true.mp operator
      simp only [Bool.and_eq_true, beq_iff_eq] at single
      refine never early reached below ⟨entry, member, .inl ?_⟩
      rw [single.2, ← same]
      exact drop_last begins (by omega)
    · have goes := goesOn _ later high
      rw [identGoesOn, punct] at goes
      cases goes

/-- A newline at the end changes nothing exactly if no operator ends the file, and no keyword, or
keyword and one more letter, that starts a word. -/
theorem pushesSame_newline_iff (ascii : IsAscii data) (named : ∀ byte ∈ data, byte ≠ 0) :
    PushesSame data (data ++ [10]) ↔ ∀ entry ∈ tokenList, ∀ p, EndsAt data p entry →
      entry.keyword = true ∧ ¬ StartsWord data p := by
  rw [same_iff_whole ascii named]
  constructor
  · intro whole entry member p ends
    have never := neverEnds_of_whole ascii named whole
    obtain ⟨last, lexes⟩ := exists_lexes named
    have visible := (tokenList_bytes entry member).2
    obtain ⟨inside, some, first⟩ := ends.first member
    have keyword : entry.keyword = true := by
      by_contra kind
      have operator := eq_false_of_ne_true kind
      have closed : data.drop p = entry.bytes := ends.resolve_right fun both => kind both.1
      have length := congrArg List.length closed
      rw [List.length_drop] at length
      have final := (ends.bytes (Nat.sub_one_lt (Nat.ne_of_gt some))).2
      rw [show p + (entry.bytes.length - 1) = data.length - 1 by omega] at final
      have listed := (tokenList_operator member operator
        (List.getElem_mem (Nat.sub_one_lt (Nat.ne_of_gt some)))).1
      rw [← final, no_operator_at_end ascii named never lexes (by omega)] at listed
      cases listed
    refine ⟨keyword, fun starts => ?_⟩
    have start := tokenList_start member keyword some
    rw [← first] at start
    obtain ⟨early, reached, below, begins, low, high⟩ := token_of_byte ascii named lexes inside
      (first ▸ visible _ (List.getElem_mem some))
    have here := skipWhile_stops isspace data early.p begins
    rcases Nat.eq_or_lt_of_le low with same | after
    · exact never early reached below ⟨entry, member, same ▸ ends⟩
    · rcases starts with underscore | ⟨q, before, digits, edge⟩
      · exact underscore_not_passed ascii begins after high member keyword ends underscore
      · exact edge_not_passed ascii begins here after inside high start before digits edge
  · rintro condition ⟨early, both, below, entry, member, ends⟩
    obtain ⟨keyword, noWord⟩ := condition entry member _ ends
    obtain ⟨-, some, first⟩ := ends.first member
    refine noWord (both.edge.skip ascii (Nat.le_of_lt below) ?_)
    rw [first]
    exact tokenList_keyword entry member keyword _ (List.getElem_mem some)

end Runs

theorem pushesSame_newline_assignment :
    PushesSame (ascii "a = b") (ascii "a = b" ++ [10]) ↔ ∀ entry ∈ tokenList, ∀ p,
      EndsAt (ascii "a = b") p entry → entry.keyword = true ∧ ¬ StartsWord (ascii "a = b") p :=
  pushesSame_newline_iff (by decide +kernel) (by decide +kernel)

/-- A semicolon that ends the file is pushed as an identifier. -/
theorem semicolon_at_end : ¬ PushesSame (ascii ";") (ascii ";" ++ [10]) := by
  have named : ∀ byte ∈ ascii ";", byte ≠ 0 := by decide +kernel
  have parts : Parts (ascii ";") := by
    refine ⟨CcLexer.start, ⟨.start, .start, fun letter => ?_⟩, by decide +kernel,
      .elem .semi ";", ?_, .inl ?_⟩
    · cases letter
    · simp [tokenList]
    · rfl
  exact fun same => (same_iff_whole (by decide +kernel) named).mp same parts

end Estros
