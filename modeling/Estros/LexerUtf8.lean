import Estros.LexerNewline

/-!
The lexer on UTF-8. As a `char` a byte of a character beyond ASCII is negative, for which
`cc_utf8_len` returns four: from such a byte the lexer steps four bytes on, however long the
character is.
-/

namespace Estros

def utf8 (chars : List Char) : List UInt8 := chars.flatMap String.utf8EncodeChar

/-- A position in the bytes of the text, or their end, at which no character is split. -/
def Boundary (chars : List Char) (p : Nat) : Prop :=
  ∃ front back, chars = front ++ back ∧ p = (utf8 front).length

/-- A span consists of whole characters, and in an identifier a blank or a punctuation mark can
only be the first. -/
structure ScanWhole (chars : List Char) (scan : CcScan) : Prop where
  start : Boundary chars scan.start
  stop : Boundary chars scan.stop
  inside : scan.token.type = .ident → ∀ i, scan.start < i → i < scan.stop →
    isspace (byteAt (utf8 chars) i) = false ∧ ispunct (byteAt (utf8 chars) i) = false

def SteppedWhole (chars : List Char) : Prop :=
  ∀ lexer, LexerReaches (utf8 chars) lexer → ∀ scan ∈ lexer.scans, ScanWhole chars scan

/-- In steps of one byte from an ASCII character and of four from every other byte, the bytes
are used up exactly. -/
def fits : List UInt8 → Bool
  | [] => true
  | byte :: rest =>
      if byte < 128 then fits rest
      else match rest with
        | _ :: _ :: _ :: more => fits more
        | _ => false

def wordAt (data : List UInt8) (p : Nat) : List UInt8 := (data.drop p).takeWhile identGoesOn

def StartsRun (data : List UInt8) (p : Nat) : Prop :=
  p = 0 ∨ identGoesOn (byteAt data (p - 1)) = false

def WordsFit (data : List UInt8) : Prop :=
  ∀ p, StartsRun data p → fits (wordAt data p) = true

theorem small_of_isspace {byte : UInt8} (blank : isspace byte = true) : byte < 128 := by
  simp only [isspace] at blank
  grind

theorem small_of_ispunct {byte : UInt8} (punct : ispunct byte = true) : byte < 128 := by
  simp only [ispunct] at punct
  grind

theorem small_of_isdigit {byte : UInt8} (digit : isdigit byte = true) : byte < 128 := by
  simp only [isdigit] at digit
  grind

theorem small_of_identifier {byte : UInt8} (letter : ccIsIdentifier byte = true) : byte < 128 := by
  simp only [ccIsIdentifier, isalpha, isdigit] at letter
  grind

theorem small_of_stop {byte : UInt8} (stops : identGoesOn byte = false) : byte < 128 := by
  simp only [identGoesOn, Bool.and_eq_false_iff, Bool.not_eq_false'] at stops
  exact stops.elim small_of_ispunct small_of_isspace

theorem goesOn_of_large {byte : UInt8} (large : 128 ≤ byte) : identGoesOn byte = true := by
  by_contra stops
  exact absurd (small_of_stop (eq_false_of_ne_true stops)) (UInt8.not_lt.mpr large)

theorem tokenList_small {entry : TokenEntry} (member : entry ∈ tokenList) {byte : UInt8}
    (inside : byte ∈ entry.bytes) : byte < 128 := by
  cases keyword : entry.keyword with
  | true => exact small_of_identifier (tokenList_keyword entry member keyword byte inside)
  | false => exact small_of_ispunct (tokenList_operator member keyword inside).2.1

theorem encodeChar_cases (char : Char) :
    (∃ byte < 128, String.utf8EncodeChar char = [byte]) ∨ char.utf8Size ≠ 1 ∧
      ∀ byte ∈ String.utf8EncodeChar char, 128 ≤ byte := by
  rw [← String.length_utf8EncodeChar]
  unfold String.utf8EncodeChar
  simp only
  split
  · rename_i small
    refine .inl ⟨_, ?_, rfl⟩
    simp [UInt8.lt_iff_toNat_lt] at small ⊢
    omega
  · refine .inr ?_
    split
    · simp [UInt8.le_iff_toNat_le]
      omega
    · split
      · simp [UInt8.le_iff_toNat_le]
        omega
      · simp [UInt8.le_iff_toNat_le]
        omega

section Boundaries

variable {chars : List Char}

theorem utf8_cons (char : Char) (rest : List Char) :
    utf8 (char :: rest) = String.utf8EncodeChar char ++ utf8 rest := List.flatMap_cons

theorem utf8_append (front back : List Char) : utf8 (front ++ back) = utf8 front ++ utf8 back :=
  List.flatMap_append

theorem Boundary.zero (chars : List Char) : Boundary chars 0 := ⟨[], chars, rfl, rfl⟩

theorem Boundary.last (chars : List Char) : Boundary chars (utf8 chars).length :=
  ⟨chars, [], (List.append_nil chars).symm, rfl⟩

theorem Boundary.le {p : Nat} (boundary : Boundary chars p) : p ≤ (utf8 chars).length := by
  obtain ⟨front, back, rfl, rfl⟩ := boundary
  simp [utf8]

theorem Boundary.cons {p : Nat} (boundary : Boundary chars p) (char : Char) :
    Boundary (char :: chars) ((String.utf8EncodeChar char).length + p) := by
  obtain ⟨front, back, rfl, rfl⟩ := boundary
  exact ⟨char :: front, back, rfl, by rw [utf8_cons, List.length_append]⟩

theorem boundary_ascii {p : Nat} (below : p < (utf8 chars).length)
    (small : byteAt (utf8 chars) p < 128) : Boundary chars p ∧ Boundary chars (p + 1) := by
  induction chars generalizing p with
  | nil => exact absurd below (Nat.not_lt_zero p)
  | cons char rest ih =>
      rw [utf8_cons] at below small
      rcases Nat.lt_or_ge p (String.utf8EncodeChar char).length with first | later
      · rw [byteAt_append first] at small
        rcases encodeChar_cases char with ⟨byte, -, single⟩ | ⟨-, large⟩
        · have after := (Boundary.zero rest).cons char
          simp only [single, List.length_singleton, Nat.add_zero] at first after
          rw [Nat.lt_one_iff.mp first]
          exact ⟨.zero _, after⟩
        · exact absurd small (UInt8.not_lt.mpr (large _ (byteAt_mem first)))
      · obtain ⟨k, rfl⟩ := Nat.exists_eq_add_of_le later
        rw [← byteAt_drop, List.drop_left] at small
        rw [List.length_append] at below
        obtain ⟨here, next⟩ := ih (Nat.lt_of_add_lt_add_left below) small
        exact ⟨here.cons char, next.cons char⟩

theorem boundary_large {p : Nat} (boundary : Boundary chars p)
    (large : 128 ≤ byteAt (utf8 chars) p) :
    ∃ char ∈ chars, char.utf8Size ≠ 1 ∧ Boundary chars (p + char.utf8Size) ∧
      ∀ i, p ≤ i → i < p + char.utf8Size → 128 ≤ byteAt (utf8 chars) i := by
  obtain ⟨front, back, rfl, rfl⟩ := boundary
  have bytes (k : Nat) : byteAt (utf8 (front ++ back)) ((utf8 front).length + k) =
      byteAt (utf8 back) k := by
    rw [← byteAt_drop, utf8_append, List.drop_left]
  cases back with
  | nil =>
      rw [List.append_nil, byteAt_beyond (Nat.le_refl _)] at large
      exact absurd large (by decide)
  | cons char rest =>
      rcases encodeChar_cases char with ⟨byte, small, single⟩ | ⟨several, all⟩
      · have first := bytes 0
        rw [Nat.add_zero, utf8_cons, single] at first
        rw [first] at large
        exact absurd small (UInt8.not_lt.mpr large)
      · have after : (utf8 front).length + char.utf8Size = (utf8 (front ++ [char])).length := by
          rw [utf8_append, List.length_append, utf8_cons, List.length_append,
            String.length_utf8EncodeChar]
          rfl
        have boundary : Boundary (front ++ char :: rest) ((utf8 front).length + char.utf8Size) :=
          ⟨front ++ [char], rest, by simp, after⟩
        refine ⟨char, by simp, several, boundary, fun i low high => ?_⟩
        obtain ⟨k, rfl⟩ := Nat.exists_eq_add_of_le low
        have short : k < (String.utf8EncodeChar char).length := by
          rw [String.length_utf8EncodeChar]
          exact Nat.lt_of_add_lt_add_left high
        rw [bytes, utf8_cons, byteAt_append short]
        exact all _ (byteAt_mem short)

end Boundaries

theorem fits_ascii {byte : UInt8} (small : byte < 128) (rest : List UInt8) :
    fits (byte :: rest) = fits rest := by
  rw [fits.eq_def]
  simp only [if_pos small]

theorem fits_large {byte : UInt8} (large : 128 ≤ byte) (rest : List UInt8) :
    fits (byte :: rest) = true ↔ ∃ a b c more, rest = a :: b :: c :: more ∧ fits more = true := by
  rw [fits.eq_def]
  simp only [if_neg (UInt8.not_lt.mpr large)]
  constructor
  · intro holds
    split at holds
    · exact ⟨_, _, _, _, rfl, holds⟩
    · cases holds
  · rintro ⟨a, b, c, more, rfl, holds⟩
    exact holds

section Words

variable {data : List UInt8} {p : Nat}

theorem wordAt_beyond (beyond : data.length ≤ p) : wordAt data p = [] := by
  rw [wordAt, List.drop_eq_nil_of_le beyond, List.takeWhile_nil]

theorem wordAt_more (below : p < data.length) (goesOn : identGoesOn (byteAt data p) = true) :
    wordAt data p = byteAt data p :: wordAt data (p + 1) := by
  rw [wordAt, List.drop_eq_getElem_cons below, getElem_eq_byteAt below,
    List.takeWhile_cons_of_pos goesOn, wordAt]

theorem wordAt_stop (stops : identGoesOn (byteAt data p) = false) : wordAt data p = [] := by
  rcases Nat.lt_or_ge p data.length with below | beyond
  · rw [wordAt, List.drop_eq_getElem_cons below, getElem_eq_byteAt below,
      List.takeWhile_cons_of_neg (Bool.not_eq_true _ ▸ stops)]
  · exact wordAt_beyond beyond

theorem wordAt_cons {byte : UInt8} {rest : List UInt8} (word : wordAt data p = byte :: rest) :
    p < data.length ∧ identGoesOn (byteAt data p) = true ∧ wordAt data (p + 1) = rest := by
  have below : p < data.length := by
    by_contra beyond
    rw [wordAt_beyond (Nat.not_lt.mp beyond)] at word
    cases word
  have goesOn : identGoesOn (byteAt data p) = true := by
    by_contra stops
    rw [wordAt_stop (eq_false_of_ne_true stops)] at word
    cases word
  rw [wordAt_more below goesOn] at word
  exact ⟨below, goesOn, (List.cons.inj word).2⟩

/-- The four bytes of a step are in one word. -/
def StaysIn (data : List UInt8) (p : Nat) : Prop :=
  p + 4 ≤ data.length ∧ ∀ i, p < i → i < p + 4 → identGoesOn (byteAt data i) = true

theorem fits_word_ascii (below : p < data.length) (small : byteAt data p < 128)
    (goesOn : identGoesOn (byteAt data p) = true) :
    fits (wordAt data p) = fits (wordAt data (p + 1)) := by
  rw [wordAt_more below goesOn, fits_ascii small]

theorem fits_word_large (below : p < data.length) (large : 128 ≤ byteAt data p) :
    fits (wordAt data p) = true ↔ StaysIn data p ∧ fits (wordAt data (p + 4)) = true := by
  rw [wordAt_more below (goesOn_of_large large), fits_large large]
  constructor
  · rintro ⟨a, b, c, more, word, holds⟩
    obtain ⟨_, one, word⟩ := wordAt_cons word
    obtain ⟨_, two, word⟩ := wordAt_cons word
    obtain ⟨inside, three, word⟩ := wordAt_cons word
    refine ⟨⟨inside, fun i low high => ?_⟩, word ▸ holds⟩
    obtain rfl | rfl | rfl : i = p + 1 ∨ i = p + 1 + 1 ∨ i = p + 1 + 1 + 1 := by omega
    · exact one
    · exact two
    · exact three
  · rintro ⟨⟨inside, goesOn⟩, holds⟩
    have one := wordAt_more (p := p + 1) (by omega) (goesOn _ (by omega) (by omega))
    have two := wordAt_more (p := p + 2) (by omega) (goesOn _ (by omega) (by omega))
    have three := wordAt_more (p := p + 3) (by omega) (goesOn _ (by omega) (by omega))
    exact ⟨_, _, _, wordAt data (p + 4), by rw [one, two, three], holds⟩

/-! ### The walk of the lexer -/

def Walks (data : List UInt8) (p : Nat) : Prop :=
  Reaches (fun now => decide (now < data.length)) (nextChar data) 0 p

def WalksWhole (data : List UInt8) : Prop :=
  ∀ p, Walks data p → 128 ≤ byteAt data p → StaysIn data p

theorem nextChar_large (large : 128 ≤ byteAt data p) : nextChar data p = p + 4 := by
  have bound := (byteAt data p).toNat_lt
  rw [nextChar, charInt, if_neg (UInt8.not_lt.mpr large), ccUtf8Len, if_neg (by omega),
    if_neg (by omega), if_neg (by omega)]

theorem below_of_large (large : 128 ≤ byteAt data p) : p < data.length := by
  by_contra beyond
  rw [byteAt_beyond (Nat.not_lt.mp beyond)] at large
  exact absurd large (by decide)

theorem Walks.step (walks : Walks data p) (below : p < data.length) :
    Walks data (nextChar data p) :=
  walks.next (decide_eq_true below)

theorem Walks.ascii (walks : Walks data p) (below : p < data.length)
    (small : byteAt data p < 128) : Walks data (p + 1) :=
  nextChar_ascii small ▸ walks.step below

theorem Walks.large (walks : Walks data p) (large : 128 ≤ byteAt data p) : Walks data (p + 4) :=
  nextChar_large large ▸ walks.step (below_of_large large)

theorem Walks.le (walks : Walks data p) (whole : WalksWhole data) : p ≤ data.length := by
  induction walks with
  | start => exact Nat.zero_le _
  | @next now walks continues _ =>
      have below := of_decide_eq_true continues
      rcases UInt8.lt_or_le (byteAt data now) 128 with small | large
      · exact nextChar_ascii small ▸ Nat.succ_le_of_lt below
      · exact nextChar_large large ▸ (whole now walks large).1

theorem walk_covers (inside : p ≤ data.length) :
    Walks data p ∨ ∃ now, Walks data now ∧ 128 ≤ byteAt data now ∧ now < p ∧ p < now + 4 := by
  induction p with
  | zero => exact .inl .start
  | succ p ih =>
      rcases ih (Nat.le_of_lt inside) with walks | ⟨now, walks, large, low, high⟩
      · rcases UInt8.lt_or_le (byteAt data p) 128 with small | large
        · exact .inl (walks.ascii inside small)
        · exact .inr ⟨p, walks, large, by omega, by omega⟩
      · rcases Nat.lt_or_eq_of_le (Nat.succ_le_of_lt high) with further | last
        · exact .inr ⟨now, walks, large, by omega, further⟩
        · have next := walks.large large
          rw [← last] at next
          exact .inl next

theorem walks_stop (whole : WalksWhole data) (below : p < data.length)
    (stops : identGoesOn (byteAt data p) = false) : Walks data p := by
  -- A walk that stays in the words comes to every blank and punctuation mark.
  rcases walk_covers (Nat.le_of_lt below) with walks | ⟨now, walks, large, low, high⟩
  · exact walks
  · rw [(whole now walks large).2 p low high] at stops
    cases stops

theorem walks_fit (whole : WalksWhole data) (walks : Walks data p) :
    fits (wordAt data p) = true := by
  induction left : data.length - p using Nat.strongRecOn generalizing p with
  | ind left ih =>
      rcases Nat.lt_or_ge p data.length with below | beyond
      · cases goesOn : identGoesOn (byteAt data p) with
        | false => rw [wordAt_stop goesOn, fits]
        | true =>
            rcases UInt8.lt_or_le (byteAt data p) 128 with small | large
            · rw [fits_word_ascii below small goesOn]
              exact ih _ (by omega) (walks.ascii below small) rfl
            · exact (fits_word_large below large).mpr
                ⟨whole p walks large, ih _ (by omega) (walks.large large) rfl⟩
      · rw [wordAt_beyond beyond, fits]

/-- The walk stays in the words exactly if each word fits. -/
theorem walksWhole_iff : WalksWhole data ↔ WordsFit data := by
  constructor
  · intro whole p starts
    cases p with
    | zero => exact walks_fit whole .start
    | succ p =>
        have stops : identGoesOn (byteAt data p) = false := starts.resolve_left (Nat.succ_ne_zero p)
        rcases Nat.lt_or_ge p data.length with below | beyond
        · exact walks_fit whole ((walks_stop whole below stops).ascii below (small_of_stop stops))
        · rw [wordAt_beyond (Nat.le_succ_of_le beyond), fits]
  · intro words p walks large
    have below := below_of_large large
    have kept : fits (wordAt data p) = true := by
      refine walks.invariant (fun now => fits (wordAt data now) = true)
        (fun now holds continues => ?_) (words 0 (.inl rfl))
      have before := of_decide_eq_true continues
      rcases UInt8.lt_or_le (byteAt data now) 128 with small | large
      · rw [nextChar_ascii small]
        cases goesOn : identGoesOn (byteAt data now) with
        | false => exact words (now + 1) (.inr goesOn)
        | true => exact fits_word_ascii before small goesOn ▸ holds
      · rw [nextChar_large large]
        exact ((fits_word_large before large).mp holds).2
    exact ((fits_word_large below large).mp kept).1

end Words

/-- Texts whose characters all have one byte or four are stepped over whole. -/
theorem wordsFit_of_sizes {chars : List Char}
    (sizes : ∀ char ∈ chars, char.utf8Size = 1 ∨ char.utf8Size = 4) : WordsFit (utf8 chars) := by
  have boundary {p : Nat} (walks : Walks (utf8 chars) p) : Boundary chars p := by
    refine walks.invariant (Boundary chars) (fun now boundary continues => ?_) (.zero chars)
    rcases UInt8.lt_or_le (byteAt (utf8 chars) now) 128 with small | large
    · rw [nextChar_ascii small]
      exact (boundary_ascii (of_decide_eq_true continues) small).2
    · obtain ⟨char, member, several, next, -⟩ := boundary_large boundary large
      rw [nextChar_large large, ← (sizes char member).resolve_left several]
      exact next
  rw [← walksWhole_iff]
  intro p walks large
  obtain ⟨char, member, several, next, all⟩ := boundary_large (boundary walks) large
  rw [(sizes char member).resolve_left several] at next all
  exact ⟨next.le, fun i low high => goesOn_of_large (all i (Nat.le_of_lt low) high)⟩

example : WordsFit (utf8 ['😁', '😁', ' ', '=', ' ', '6', ';']) :=
  wordsFit_of_sizes (by simp [Char.utf8Size])

section Tokens

variable {data : List UInt8} {p : Nat}

theorem Walks.skip (walks : Walks data p) (cls : UInt8 → Bool) :
    Walks data (skipWhile cls data p) :=
  whileLoop_invariant (Walks data)
    (fun _ walks continues => walks.next (Bool.and_eq_true_iff.mp continues).2) _ walks

theorem Walks.text (walks : Walks data p) {entry : TokenEntry} (member : entry ∈ tokenList)
    (matched : entry.matchesAt data p = true) : Walks data (p + entry.bytes.length) := by
  obtain ⟨room, bytes⟩ := matchesAt_bytes matched
  have steps : ∀ k ≤ entry.bytes.length, Walks data (p + k) := by
    intro k
    induction k with
    | zero => exact fun _ => walks
    | succ k ih =>
        intro short
        refine (ih (Nat.le_of_lt short)).ascii (by omega) ?_
        rw [bytes k short]
        exact tokenList_small member (List.getElem_mem short)
  exact steps _ (Nat.le_refl _)

theorem Walks.token (walks : Walks data p) (below : p < data.length) :
    Walks data (ccScanToken data p).1 := by
  rcases scanToken_cases data p with
    ⟨entry, member, matched, scanned⟩ | ⟨-, ⟨-, scanned⟩ | ⟨-, scanned⟩⟩
  · rw [scanned]
    exact walks.text member matched
  · rw [scanned]
    exact (walks.step below).skip isnumber
  · rw [scanned]
    exact (walks.step below).skip identGoesOn

theorem reaches_le {start stop : Nat}
    (reached : Reaches (fun now => decide (now < data.length)) (nextChar data) start stop) :
    start ≤ stop :=
  reached.invariant (fun now => start ≤ now)
    (fun now low _ => Nat.le_trans low (Nat.le_of_lt (lt_nextChar data now))) (Nat.le_refl start)

theorem Walks.next_le {stop : Nat} (walks : Walks data p) (later : Walks data stop)
    (before : p < stop) : nextChar data p ≤ stop := by
  rcases walks.linear later with ahead | back
  · rcases ahead.cases_first with same | ⟨-, onwards⟩
    · exact absurd same (Nat.ne_of_gt before)
    · exact reaches_le onwards
  · exact absurd before (Nat.not_lt.mpr (reaches_le back))

theorem step_inside (whole : WalksWhole data) (walks : Walks data p) :
    ∀ i, p < i → i < nextChar data p → identGoesOn (byteAt data i) = true := by
  intro i low high
  rcases UInt8.lt_or_le (byteAt data p) 128 with small | large
  · rw [nextChar_ascii small] at high
    omega
  · rw [nextChar_large large] at high
    exact (whole p walks large).2 i low high

theorem ident_inside (whole : WalksWhole data) (walks : Walks data p) (below : p < data.length) :
    ∀ i, p < i → i < identEnd data p → identGoesOn (byteAt data i) = true := by
  refine (whileLoop_invariant
    (fun now => Walks data now ∧ ∀ i, p < i → i < now → identGoesOn (byteAt data i) = true)
    (fun now holds continues => ?_) _ ⟨walks.step below, step_inside whole walks⟩).2
  obtain ⟨here, before⟩ := Bool.and_eq_true_iff.mp continues
  refine ⟨holds.1.next before, fun i low high => ?_⟩
  rcases Nat.lt_trichotomy i now with early | rfl | late
  · exact holds.2 i low early
  · exact here
  · exact step_inside whole holds.1 i late high

theorem token_inside (whole : WalksWhole data) (walks : Walks data p) (below : p < data.length)
    (ident : (ccScanToken data p).2 = .ident) :
    ∀ i, p < i → i < (ccScanToken data p).1 → identGoesOn (byteAt data i) = true := by
  rcases scanToken_cases data p with ⟨entry, member, -, scanned⟩ | ⟨-, ⟨-, scanned⟩ | ⟨-, scanned⟩⟩
  · rw [scanned] at ident
    exact absurd ident (tokenList_type member).1
  · rw [scanned] at ident
    cases ident
  · rw [scanned]
    exact ident_inside whole walks below

theorem ident_of_large (below : p < data.length) {i : Nat} (low : p ≤ i)
    (high : i < (ccScanToken data p).1) (large : 128 ≤ byteAt data i) :
    (ccScanToken data p).2 = .ident := by
  rcases scanToken_cases data p with
    ⟨entry, member, matched, scanned⟩ | ⟨-, ⟨digit, scanned⟩ | ⟨-, scanned⟩⟩
  · rw [scanned] at high
    obtain ⟨short, same⟩ := matched_byte matched low high
    rw [same] at large
    exact absurd (tokenList_small member (List.getElem_mem short)) (UInt8.not_lt.mpr large)
  · rw [scanned, literalEnd, nextChar_ascii (small_of_isdigit digit)] at high
    have digits := (skipWhile_passes isnumber (fun _ => small_of_isdigit)
      (Nat.succ_le_of_lt below)).2
    have here : isdigit (byteAt data i) = true := by
      rcases Nat.eq_or_lt_of_le low with rfl | later
      · exact digit
      · exact digits i later high
    exact absurd (small_of_isdigit here) (UInt8.not_lt.mpr large)
  · rw [scanned]

theorem skipSpace_large (inside : p ≤ data.length) {i : Nat} (low : p ≤ i)
    (high : i < skipSpace data p) : ¬ 128 ≤ byteAt data i := by
  have blank := (skipWhile_passes isspace (fun _ => small_of_isspace) inside).2 i low high
  exact UInt8.not_le.mpr (small_of_isspace blank)

def Covered (data : List UInt8) (limit : Nat) (scans : List CcScan) : Prop :=
  ∀ i < limit, 128 ≤ byteAt data i → ∃ scan ∈ scans,
    scan.token.type = .ident ∧ scan.start ≤ i ∧ i < scan.stop ∧ Walks data scan.stop

/-- The run lemma for all files. -/
theorem reached_covered (named : ∀ byte ∈ data, byte ≠ 0) {lexer : CcLexer}
    (reached : LexerReaches data lexer) :
    Walks data lexer.p ∧ Covered data lexer.p lexer.scans := by
  refine reached.invariant (fun lexer => Walks data lexer.p ∧ Covered data lexer.p lexer.scans)
    (fun lexer holds continues => ?_) ⟨.start, fun i below => absurd below (Nat.not_lt_zero i)⟩
  obtain ⟨walks, covered⟩ := holds
  have inside := Nat.le_of_lt (goesOn_iff.mp continues)
  have starts : Walks data (skipSpace data lexer.p) := walks.skip isspace
  have skipped : Covered data (skipSpace data lexer.p) lexer.scans := by
    intro i below large
    rcases Nat.lt_or_ge i lexer.p with before | behind
    · exact covered i before large
    · exact absurd large (skipSpace_large inside behind below)
  rcases Nat.lt_or_ge (skipSpace data lexer.p) data.length with begins | beyond
  · rw [step_token named rfl begins]
    have ends := starts.token begins
    refine ⟨ends, fun i below large => ?_⟩
    rcases Nat.lt_or_ge i (skipSpace data lexer.p) with before | behind
    · obtain ⟨scan, member, covers⟩ := skipped i before large
      exact ⟨scan, List.mem_append_left _ member, covers⟩
    · exact ⟨_, List.mem_append_right _ (List.mem_singleton_self _),
        ident_of_large begins behind below large, behind, below, ends⟩
  · rw [step_blank rfl beyond]
    exact ⟨starts, skipped⟩

end Tokens

section Runs

variable {chars : List Char} {lexer : CcLexer}

theorem Boundary.skip {cls : UInt8 → Bool} (plain : ∀ byte, cls byte = true → byte < 128) {p : Nat}
    (boundary : Boundary chars p) : Boundary chars (skipWhile cls (utf8 chars) p) := by
  refine whileLoop_invariant (Boundary chars) (fun now _ continues => ?_) _ boundary
  obtain ⟨here, below⟩ := Bool.and_eq_true_iff.mp continues
  have small := plain _ here
  rw [nextChar_ascii small]
  exact (boundary_ascii (of_decide_eq_true below) small).2

theorem Boundary.token (whole : WalksWhole (utf8 chars)) {p : Nat} (walks : Walks (utf8 chars) p)
    (below : p < (utf8 chars).length) : Boundary chars (ccScanToken (utf8 chars) p).1 := by
  have walked := walks.token below
  rcases scanToken_cases (utf8 chars) p with
    ⟨entry, member, matched, scanned⟩ | ⟨-, ⟨digit, scanned⟩ | ⟨-, scanned⟩⟩
  · rw [scanned]
    obtain ⟨room, bytes⟩ := matchesAt_bytes matched
    have some := (tokenList_bytes entry member).1
    have last := bytes (entry.bytes.length - 1) (Nat.sub_one_lt (Nat.ne_of_gt some))
    have small := tokenList_small member (List.getElem_mem (Nat.sub_one_lt (Nat.ne_of_gt some)))
    have after := (boundary_ascii (by omega) (last ▸ small)).2
    rwa [Nat.add_assoc, Nat.sub_add_cancel some] at after
  · rw [scanned]
    have small := small_of_isdigit digit
    refine Boundary.skip (fun _ => small_of_isdigit) ?_
    rw [nextChar_ascii small]
    exact (boundary_ascii below small).2
  · rw [scanned] at walked ⊢
    rcases Nat.lt_or_eq_of_le (walked.le whole) with before | last
    · have stops := skipWhile_stops identGoesOn (utf8 chars) _ before
      exact (boundary_ascii before (small_of_stop stops)).1
    · exact last ▸ .last chars

theorem reached_whole (whole : WalksWhole (utf8 chars))
    (reached : LexerReaches (utf8 chars) lexer) :
    Walks (utf8 chars) lexer.p ∧ Boundary chars lexer.p ∧
      ∀ scan ∈ lexer.scans, ScanWhole chars scan := by
  refine reached.invariant (fun lexer => Walks (utf8 chars) lexer.p ∧ Boundary chars lexer.p ∧
    ∀ scan ∈ lexer.scans, ScanWhole chars scan) (fun lexer holds _ => ?_)
    ⟨.start, .zero chars, fun _ member => absurd member List.not_mem_nil⟩
  obtain ⟨walks, boundary, scans⟩ := holds
  have starts : Walks (utf8 chars) (skipSpace (utf8 chars) lexer.p) := walks.skip isspace
  have begins : Boundary chars (skipSpace (utf8 chars) lexer.p) :=
    boundary.skip fun _ => small_of_isspace
  simp only [ccTokenizeStep]
  split
  · rename_i both
    have ends := Boundary.token whole starts both.2
    refine ⟨starts.token both.2, ends, fun scan member => ?_⟩
    rcases List.mem_append.mp member with before | last
    · exact scans scan before
    · rw [List.mem_singleton.mp last]
      refine ⟨begins, ends, fun ident i low high => ?_⟩
      have goesOn := token_inside whole starts both.2 ident i low high
      simpa [identGoesOn, and_comm] using goesOn
  · exact ⟨starts, begins, scans⟩

theorem walksWhole_of_stepped (named : ∀ byte ∈ utf8 chars, byte ≠ 0)
    (stepped : SteppedWhole chars) : WalksWhole (utf8 chars) := by
  intro p walks large
  obtain ⟨last, lexes⟩ := exists_lexes named
  have below := Nat.lt_of_lt_of_le (below_of_large large) lexes.ended
  obtain ⟨scan, member, ident, low, high, ends⟩ :=
    (reached_covered named lexes.reached).2 p below large
  have whole := stepped last lexes.reached scan member
  have next := walks.next_le ends high
  rw [nextChar_large large] at next
  refine ⟨Nat.le_trans next whole.stop.le, fun i after before => ?_⟩
  obtain ⟨solid, plain⟩ := whole.inside ident i (Nat.lt_of_le_of_lt low after)
    (Nat.lt_of_lt_of_le before next)
  rw [identGoesOn, solid, plain]
  rfl

/-- The spans consist of whole characters exactly if each word is used up by steps of one byte
from ASCII characters and of four from all other bytes. -/
theorem steppedWhole_iff (named : ∀ byte ∈ utf8 chars, byte ≠ 0) :
    SteppedWhole chars ↔ WordsFit (utf8 chars) := by
  rw [← walksWhole_iff]
  constructor
  · exact walksWhole_of_stepped named
  · intro whole lexer reached
    exact (reached_whole whole reached).2.2

end Runs

theorem steppedWhole_emoji : SteppedWhole ['i', 'n', 't', ' ', '😁', ';', '\n'] ↔
    WordsFit (utf8 ['i', 'n', 't', ' ', '😁', ';', '\n']) :=
  steppedWhole_iff (by decide +kernel)

/-- Behind a character of two bytes the identifier goes on with the plus sign. -/
theorem not_steppedWhole_accent : ¬ SteppedWhole ['é', '+', '1', ';', '\n'] := by
  intro stepped
  have reached : LexerReaches (utf8 ['é', '+', '1', ';', '\n'])
      (ccTokenizeStep (utf8 ['é', '+', '1', ';', '\n']) CcLexer.start) :=
    Reaches.start.next (by decide +kernel)
  have scans : (ccTokenizeStep (utf8 ['é', '+', '1', ';', '\n']) CcLexer.start).scans =
      [scanOf 0 4 .ident] := by
    decide +kernel
  have whole := stepped _ reached (scanOf 0 4 .ident) (scans ▸ List.mem_singleton_self _)
  have plain := (whole.inside rfl 2 (by decide) (by decide)).2
  revert plain
  decide +kernel

end Estros
