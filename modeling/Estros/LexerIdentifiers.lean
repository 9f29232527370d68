import Estros.LexerSpans

/-!
Identifiers. The keywords and `cc_is_identifier` take the underscore for a letter, the loop
that consumes an identifier takes it for punctuation and stops there.
-/

namespace Estros

section Identifiers

variable {data : List UInt8} {start len : Nat}

/-- From `start` on there are `len` letters, digits and underscores, the first of them no digit,
and then another character. -/
structure IdentifierRun (data : List UInt8) (start len : Nat) : Prop where
  nonempty : 0 < len
  first : ccIsStartIdentifier (byteAt data start) = true
  all : ∀ i, start ≤ i → i < start + len → ccIsIdentifier (byteAt data i) = true
  behind : ccIsIdentifier (byteAt data (start + len)) = false

def NotKeyword (data : List UInt8) (start len : Nat) : Prop :=
  ∀ entry ∈ tokenList, entry.keyword = true → entry.bytes ≠ (data.drop start).take len

instance (data : List UInt8) (start len : Nat) : Decidable (NotKeyword data start len) :=
  inferInstanceAs (Decidable (∀ entry ∈ tokenList, entry.keyword = true → _))

theorem tokenList_letters : (tokenList.all fun entry =>
    if entry.keyword then entry.bytes.all ccIsIdentifier
    else entry.bytes.head?.all fun byte => !ccIsStartIdentifier byte) = true := by
  decide +kernel

theorem tokenList_elem : ∀ entry ∈ tokenList, entry.keyword = false →
    ∀ byte ∈ entry.bytes.head?, ccIsStartIdentifier byte = false := by
  intro entry member operator byte first
  have checked := List.all_eq_true.mp tokenList_letters entry member
  simpa [operator, Option.mem_def.mp first] using checked

theorem tokenList_keyword : ∀ entry ∈ tokenList, entry.keyword = true →
    ∀ byte ∈ entry.bytes, ccIsIdentifier byte = true := by
  intro entry member keyword byte inside
  have checked := List.all_eq_true.mp tokenList_letters entry member
  rw [if_pos keyword] at checked
  exact List.all_eq_true.mp checked byte inside

theorem run_not_listed (run : IdentifierRun data start len) (notKeyword : NotKeyword data start len)
    (behind : start + len + 2 ≤ data.length) {entry : TokenEntry} (member : entry ∈ tokenList) :
    entry.matchesAt data start = false := by
  by_contra taken
  have matched := eq_true_of_ne_false taken
  obtain ⟨inside, bytes⟩ := matchesAt_bytes matched
  have some := (tokenList_bytes entry member).1
  cases keyword : entry.keyword with
  | false =>
      have first := bytes 0 some
      rw [Nat.add_zero] at first
      have other := tokenList_elem entry member keyword entry.bytes[0]
        (List.head?_eq_getElem? ▸ List.getElem?_eq_getElem some)
      rw [← first, run.first] at other
      cases other
  | true =>
      have letters := tokenList_keyword entry member keyword
      -- A keyword that were longer than the run would go on behind it.
      have short : entry.bytes.length ≤ len := by
        by_contra longer
        have here := bytes len (Nat.not_le.mp longer)
        have other := run.behind
        rw [here, letters _ (List.getElem_mem _)] at other
        cases other
      rcases Nat.lt_or_eq_of_le short with shorter | same
      · have goesOn := run.all (start + entry.bytes.length) (Nat.le_add_right _ _) (by omega)
        simp only [TokenEntry.matchesAt, keyword, goesOn, Bool.and_eq_true, Bool.or_eq_true,
          decide_eq_true_eq, Bool.not_true, Bool.false_eq_true, or_false, false_or] at matched
        omega
      · simp only [TokenEntry.matchesAt, Bool.and_eq_true, decide_eq_true_eq] at matched
        have text := matched.1.2
        rw [same] at text
        exact notKeyword entry member keyword text.symm

theorem run_scanned (run : IdentifierRun data start len) (notKeyword : NotKeyword data start len)
    (behind : start + len + 2 ≤ data.length) :
    ccScanToken data start = (identEnd data start, .ident) := by
  have none : tokenList.find? (fun entry => entry.matchesAt data start) = none := by
    rw [List.find?_eq_none]
    intro entry member
    rw [run_not_listed run notKeyword behind member]
    decide
  have noDigit : isdigit (byteAt data start) = false := by
    have first := run.first
    simp only [ccIsStartIdentifier, isalpha, isdigit] at *
    grind
  simp only [ccScanToken, none, noDigit]
  rfl

theorem identGoesOn_letter {byte : UInt8} (letter : ccIsIdentifier byte = true) :
    identGoesOn byte = true ↔ byte ≠ 95 := by
  constructor
  · rintro goesOn rfl
    cases goesOn
  · intro other
    simp only [ccIsIdentifier, identGoesOn, isalpha, isdigit, ispunct, isspace, Bool.and_eq_true,
      Bool.or_eq_true, Bool.not_eq_true', Bool.or_eq_false_iff, Bool.and_eq_false_iff,
      decide_eq_true_eq, decide_eq_false_iff_not, UInt8.le_iff_toNat_le, ne_eq, ← UInt8.toNat_inj,
      UInt8.reduceToNat] at *
    omega

/-- The conditions under which the loop stops where the run ends: no underscore behind the first
character, and punctuation or a blank behind the run. -/
def StopsBehind (data : List UInt8) (start len : Nat) : Prop :=
  (∀ i, start < i → i < start + len → byteAt data i ≠ 95) ∧
    (ispunct (byteAt data (start + len)) = true ∨ isspace (byteAt data (start + len)) = true)

theorem identEnd_iff (ascii : IsAscii data) (run : IdentifierRun data start len)
    (behind : start + len + 2 ≤ data.length) :
    identEnd data start = start + len ↔ StopsBehind data start len := by
  have some := run.nonempty
  have below : start + 1 ≤ data.length := by omega
  have low := le_skipWhile identGoesOn data (start + 1)
  obtain ⟨inside, all⟩ := ascii.skipWhile identGoesOn below
  have stops := skipWhile_stops identGoesOn data (start + 1)
  have classes : identGoesOn (byteAt data (start + len)) = false ↔
      (ispunct (byteAt data (start + len)) = true ∨ isspace (byteAt data (start + len)) = true) := by
    simp only [identGoesOn, Bool.and_eq_false_iff, Bool.not_eq_false']
  rw [identEnd, ascii.nextChar]
  constructor
  · intro same
    rw [same] at all stops
    refine ⟨fun i after before => ?_, classes.mp (stops (by omega))⟩
    exact (identGoesOn_letter (run.all i (Nat.le_of_lt after) before)).mp (all i after before)
  · rintro ⟨plain, next⟩
    apply Nat.le_antisymm
    · by_contra beyond
      have goesOn := all (start + len) (by omega) (Nat.not_le.mp beyond)
      rw [classes.mpr next] at goesOn
      cases goesOn
    · by_contra early
      have before := Nat.not_le.mp early
      have stopped := stops (by omega)
      have letter := run.all _ (Nat.le_of_succ_le low) before
      rw [(identGoesOn_letter letter).mpr (plain _ low before)] at stopped
      cases stopped

def CcScan.meets (low high : Nat) (scan : CcScan) : Bool := scan.start < high && low < scan.stop

def PushedWhole (data : List UInt8) (start len : Nat) : Prop :=
  (∃ now, LexerReaches data now ∧ start + len ≤ now.p) ∧
    ∀ now, LexerReaches data now → start + len ≤ now.p →
      ∃ scan, now.scans.filter (CcScan.meets start (start + len)) = [scan] ∧
        scan.start = start ∧ scan.stop = start + len ∧ scan.token.type = .ident ∧
        scan.token.data.pos.toNat = start ∧ scan.token.data.len.toNat = len

theorem step_keeps (data : List UInt8) (lexer : CcLexer) :
    lexer.p ≤ (ccTokenizeStep data lexer).p ∧ lexer.scans <+: (ccTokenizeStep data lexer).scans := by
  have low := le_skipWhile isspace data lexer.p
  simp only [ccTokenizeStep]
  split
  · exact ⟨Nat.le_trans low (Nat.le_of_lt (scanToken_moves data _)), List.prefix_append _ _⟩
  · exact ⟨low, List.prefix_refl _⟩

theorem reaches_keeps {earlier later : CcLexer}
    (reached : Reaches (ccTokenizeGoesOn data) (ccTokenizeStep data) earlier later) :
    earlier.p ≤ later.p ∧ earlier.scans <+: later.scans := by
  refine reached.invariant (fun now => earlier.p ≤ now.p ∧ earlier.scans <+: now.scans)
    (fun now holds _ => ?_) ⟨Nat.le_refl _, List.prefix_refl _⟩
  have step := step_keeps data now
  exact ⟨Nat.le_trans holds.1 step.1, holds.2.trans step.2⟩

section Round

variable {lexer : CcLexer}

theorem step_run (begins : skipSpace data lexer.p = start) (run : IdentifierRun data start len)
    (notKeyword : NotKeyword data start len) (behind : start + len + 2 ≤ data.length) :
    ccTokenizeStep data lexer =
      ⟨identEnd data start, lexer.scans ++ [scanOf start (identEnd data start) .ident]⟩ := by
  have named : byteAt data start ≠ 0 := by
    intro nul
    have first := run.first
    rw [nul] at first
    cases first
  rw [ccTokenizeStep, begins, if_pos ⟨named, by omega⟩, run_scanned run notKeyword behind]

theorem reached_behind (reached : LexerReaches data lexer) (below : lexer.p < start + len)
    {now : CcLexer} (reachedNow : LexerReaches data now) (past : start + len ≤ now.p) :
    Reaches (ccTokenizeGoesOn data) (ccTokenizeStep data) (ccTokenizeStep data lexer) now := by
  rcases reached.linear reachedNow with ahead | back
  · rcases ahead.cases_first with rfl | ⟨_, later⟩
    · exact absurd past (Nat.not_le.mpr below)
    · exact later
  · exact absurd (reaches_keeps back).1 (by omega)

theorem scans_of_run (ascii : IsAscii data) (reached : LexerReaches data lexer)
    (begins : skipSpace data lexer.p = start) (stepped : ccTokenizeStep data lexer =
      ⟨start + len, lexer.scans ++ [scanOf start (start + len) .ident]⟩) (some : 0 < len)
    {now : CcLexer} (reachedNow : LexerReaches data now)
    (later : Reaches (ccTokenizeGoesOn data) (ccTokenizeStep data) (ccTokenizeStep data lexer) now) :
    now.scans.filter (CcScan.meets start (start + len)) = [scanOf start (start + len) .ident] := by
  obtain ⟨more, split⟩ := (reaches_keeps later).2
  rw [stepped] at split
  simp only at split
  have ordered := (reached_spans ascii reachedNow).2.ordered
  rw [← split] at ordered ⊢
  have low : lexer.p ≤ start := begins ▸ le_skipWhile isspace data lexer.p
  have front : lexer.scans.filter (CcScan.meets start (start + len)) = [] := by
    refine List.filter_eq_nil_iff.mpr fun scan member meets => ?_
    have stop := (reached_spans ascii reached).2.inside scan member
    have above := (Bool.and_eq_true_iff.mp meets).2
    exact absurd (of_decide_eq_true above) (by omega)
  have back : more.filter (CcScan.meets start (start + len)) = [] := by
    refine List.filter_eq_nil_iff.mpr fun scan member meets => ?_
    have behind := (List.pairwise_append.mp ordered).2.2 (scanOf start (start + len) .ident)
      (List.mem_append_right _ (List.mem_singleton_self _)) scan member
    have below := (Bool.and_eq_true_iff.mp meets).1
    exact absurd (of_decide_eq_true below) (Nat.not_lt.mpr behind)
  have own : CcScan.meets start (start + len) (scanOf start (start + len) .ident) = true := by
    simp [CcScan.meets, scanOf, some]
  rw [List.filter_append, List.filter_append, front, back, List.filter_cons_of_pos own]
  rfl

/-- A run at which a token starts, and which is not a keyword, is pushed as one `IDENT` if and only
if it has no underscore behind its first character, punctuation or a blank follows it, and its
position fits into 24 bits. -/
theorem identifier_whole_iff (ascii : IsAscii data) (reached : LexerReaches data lexer)
    (begins : skipSpace data lexer.p = start) (run : IdentifierRun data start len)
    (notKeyword : NotKeyword data start len) (short : len ≤ 255)
    (behind : start + len + 2 ≤ data.length) :
    PushedWhole data start len ↔ StopsBehind data start len ∧ start < 2 ^ 24 := by
  have some := run.nonempty
  have low : lexer.p ≤ start := begins ▸ le_skipWhile isspace data lexer.p
  have stepped := step_run begins run notKeyword behind
  have next : LexerReaches data (ccTokenizeStep data lexer) :=
    reached.next (goesOn_iff.mpr (by omega))
  rw [← identEnd_iff ascii run behind]
  constructor
  · rintro ⟨⟨now, reachedNow, past⟩, pushed⟩
    obtain ⟨scan, meets, starts, stops, _, position, _⟩ := pushed now reachedNow past
    have later := reached_behind reached (by omega) reachedNow past
    -- The token that the round pushed is the one that meets the run.
    have member : scanOf start (identEnd data start) .ident ∈ now.scans := by
      refine (reaches_keeps later).2.subset ?_
      rw [stepped]
      exact List.mem_append_right _ (List.mem_singleton_self _)
    have moves := scanToken_moves data start
    rw [run_scanned run notKeyword behind] at moves
    have own : CcScan.meets start (start + len) (scanOf start (identEnd data start) .ident) =
        true := by
      simp [CcScan.meets, scanOf, some, moves]
    have same := List.mem_filter.mpr ⟨member, own⟩
    rw [meets, List.mem_singleton] at same
    subst same
    refine ⟨stops, ?_⟩
    rw [← position]
    exact BitVec.isLt _
  · rintro ⟨stops, fits⟩
    rw [stops] at stepped
    refine ⟨⟨_, next, by rw [stepped]⟩, fun now reachedNow past => ?_⟩
    have later := reached_behind reached (by omega) reachedNow past
    refine ⟨_, scans_of_run ascii reached begins stepped some reachedNow later, rfl, rfl, rfl, ?_, ?_⟩
    · exact (BitVec.toNat_ofNat _ _).trans (Nat.mod_eq_of_lt fits)
    · have length : start + len - start = len := Nat.add_sub_cancel_left _ _
      rw [scanOf, length]
      exact (BitVec.toNat_ofNat _ _).trans (Nat.mod_eq_of_lt (by omega))

end Round

end Identifiers

theorem identifier_whole_count :
    PushedWhole (ascii "count = 1;\n") 0 5 ↔ StopsBehind (ascii "count = 1;\n") 0 5 ∧ 0 < 2 ^ 24 := by
  have letters : ∀ i < 5, ccIsIdentifier (byteAt (ascii "count = 1;\n") i) = true := by decide
  have run : IdentifierRun (ascii "count = 1;\n") 0 5 :=
    ⟨by decide, by decide, fun i _ below => letters i (by omega), by decide⟩
  have reached : LexerReaches (ascii "count = 1;\n") CcLexer.start := .start
  exact identifier_whole_iff (by decide +kernel) reached rfl run (by decide +kernel) (by decide)
    (by decide)

/-- `my_var` becomes two tokens. -/
theorem identifier_split :
    LexerReaches (ascii "my_var = 1;\n") CcLexer.start ∧
      skipSpace (ascii "my_var = 1;\n") 0 = 0 ∧ NotKeyword (ascii "my_var = 1;\n") 0 6 ∧
      (∀ i < 6, ccIsIdentifier (byteAt (ascii "my_var = 1;\n") i) = true) ∧
      ¬ PushedWhole (ascii "my_var = 1;\n") 0 6 := by
  refine ⟨.start, rfl, by decide +kernel, by decide, fun whole => ?_⟩
  have reached : LexerReaches (ascii "my_var = 1;\n")
      (ccTokenizeRounds 2 (ascii "my_var = 1;\n")) := Reaches.start.whileLoop 2
  have past : 0 + 6 ≤ (ccTokenizeRounds 2 (ascii "my_var = 1;\n")).p := by decide +kernel
  obtain ⟨scan, one, _⟩ := whole.2 _ reached past
  have two : ((ccTokenizeRounds 2 (ascii "my_var = 1;\n")).scans.filter
      (CcScan.meets 0 (0 + 6))).length = 2 := by decide +kernel
  rw [one] at two
  cases two

end Estros
