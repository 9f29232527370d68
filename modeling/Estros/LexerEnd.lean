import Mathlib.Data.List.Find
import Estros.LexerIdentifiers

/-!
The end of the file. Every branch of `cc_tokenize` wants a byte behind the text that it
matches, so what stands last is scanned as if it were not listed; and the look-ahead of a
keyword takes the last byte for the end. Appending a newline shows both.
-/

namespace Estros

def isOperator (byte : UInt8) : Bool :=
  tokenList.any fun entry => !entry.keyword && entry.bytes == [byte]

def EndsAt (data : List UInt8) (p : Nat) (entry : TokenEntry) : Prop :=
  data.drop p = entry.bytes ∨ entry.keyword = true ∧
    ∃ byte, ccIsIdentifier byte = true ∧ data.drop p = entry.bytes ++ [byte]

/-- An underscore, or behind the start of the file, a blank or an operator; digits, which make
a literal of their own, may stand between. -/
def StartsWord (data : List UInt8) (p : Nat) : Prop :=
  byteAt data p = 95 ∨ ∃ q ≤ p, (∀ i, q ≤ i → i < p → isdigit (byteAt data i) = true) ∧
    (q = 0 ∨ isspace (byteAt data (q - 1)) = true ∨ isOperator (byteAt data (q - 1)) = true)

section Newline

variable {data : List UInt8} {p : Nat}

theorem byteAt_append (below : p < data.length) (more : List UInt8) :
    byteAt (data ++ more) p = byteAt data p := by
  rw [byteAt, byteAt, List.getD_eq_getElem?_getD, List.getD_eq_getElem?_getD,
    List.getElem?_append_left below]

theorem byteAt_beyond (beyond : data.length ≤ p) : byteAt data p = 0 := by
  rw [byteAt, List.getD_eq_getElem?_getD, List.getElem?_eq_none beyond]
  rfl

theorem byteAt_newline (data : List UInt8) : byteAt (data ++ [10]) data.length = 10 := by
  simp [byteAt]

theorem IsAscii.newline (ascii : IsAscii data) : IsAscii (data ++ [10]) := by
  intro byte member
  rcases List.mem_append.mp member with before | last
  · exact ascii byte before
  · rw [List.mem_singleton.mp last]
    decide

theorem IsAscii.skipWhile_eq (ascii : IsAscii data) {cls : UInt8 → Bool} {stop : Nat}
    (low : p ≤ stop) (high : stop ≤ data.length)
    (all : ∀ i, p ≤ i → i < stop → cls (Estros.byteAt data i) = true)
    (ends : stop < data.length → cls (Estros.byteAt data stop) = false) :
    Estros.skipWhile cls data p = stop := by
  obtain ⟨inside, passed⟩ := ascii.skipWhile cls (Nat.le_trans low high)
  rcases Nat.lt_trichotomy (Estros.skipWhile cls data p) stop with early | same | late
  · have stopped := skipWhile_stops cls data p (Nat.lt_of_lt_of_le early high)
    rw [all _ (le_skipWhile cls data p) early] at stopped
    cases stopped
  · exact same
  · have passes := passed stop low late
    rw [ends (Nat.lt_of_lt_of_le late inside)] at passes
    cases passes

theorem IsAscii.skipWhile_newline (ascii : IsAscii data) {cls : UInt8 → Bool}
    (stops : cls 10 = false) (inside : p ≤ data.length) :
    Estros.skipWhile cls (data ++ [10]) p = Estros.skipWhile cls data p := by
  -- A loop that stops at newlines does not see that one was appended.
  obtain ⟨high, all⟩ := ascii.skipWhile cls inside
  refine ascii.newline.skipWhile_eq (le_skipWhile cls data p)
    (Nat.le_trans high (by simp)) (fun i low below => ?_) fun _ => ?_
  · rw [byteAt_append (Nat.lt_of_lt_of_le below high)]
    exact all i low below
  · rcases Nat.lt_or_eq_of_le high with before | last
    · rw [byteAt_append before]
      exact skipWhile_stops cls data p before
    · rw [last, byteAt_newline]
      exact stops

theorem IsAscii.skipSpace_newline (ascii : IsAscii data) (inside : p ≤ data.length) :
    Estros.skipSpace (data ++ [10]) p =
      if Estros.skipSpace data p < data.length then Estros.skipSpace data p
      else data.length + 1 := by
  obtain ⟨high, all⟩ := ascii.skipWhile isspace inside
  have low := le_skipWhile isspace data p
  split
  · rename_i before
    refine ascii.newline.skipWhile_eq low (Nat.le_trans high (by simp)) (fun i after below => ?_)
      fun _ => ?_
    · rw [byteAt_append (Nat.lt_of_lt_of_le below high)]
      exact all i after below
    · rw [byteAt_append before]
      exact skipWhile_stops isspace data p before
  · rename_i behind
    have last : Estros.skipWhile isspace data p = data.length :=
      Nat.le_antisymm high (Nat.not_lt.mp behind)
    refine ascii.newline.skipWhile_eq (by omega) (by simp) (fun i after below => ?_)
      fun beyond => ?_
    · rcases Nat.lt_or_eq_of_le (Nat.le_of_lt_succ below) with before | same
      · rw [byteAt_append before]
        exact all i after (last ▸ before)
      · rw [same, byteAt_newline]
        rfl
    · simp at beyond

theorem take_drop_append (more : List UInt8) {len : Nat} (inside : p + len ≤ data.length) :
    ((data ++ more).drop p).take len = (data.drop p).take len := by
  rw [List.drop_append_of_le_length (by omega), List.take_append_of_le_length (by simp; omega)]

theorem drop_eq_of_take {text : List UInt8} (found : (data.drop p).take text.length = text) :
    data.drop p = text ++ data.drop (p + text.length) := by
  conv_lhs => rw [← List.take_append_drop text.length (data.drop p), found, List.drop_drop]

theorem drop_last (before : p < data.length) (last : data.length ≤ p + 1) :
    data.drop p = [byteAt data p] := by
  rw [List.drop_eq_getElem_cons before, List.drop_eq_nil_of_le last, byteAt, ← List.getElem_eq_getD]

/-- A branch is taken alike unless its text ends the file. -/
theorem matchesAt_newline {entry : TokenEntry} (elsewhere : ¬ EndsAt data p entry) :
    entry.matchesAt (data ++ [10]) p = entry.matchesAt data p := by
  simp only [TokenEntry.matchesAt, List.length_append, List.length_singleton]
  rcases Nat.lt_trichotomy (p + entry.bytes.length) data.length with before | last | behind
  · rw [take_drop_append _ (Nat.le_of_lt before), byteAt_append before]
    by_cases found : (data.drop p).take entry.bytes.length = entry.bytes
    · have look : (!entry.keyword || (decide (p + entry.bytes.length + 1 ≥ data.length + 1) ||
          !ccIsIdentifier (byteAt data (p + entry.bytes.length)))) =
          (!entry.keyword || (decide (p + entry.bytes.length + 1 ≥ data.length) ||
            !ccIsIdentifier (byteAt data (p + entry.bytes.length)))) := by
        rcases Nat.lt_or_eq_of_le (Nat.succ_le_of_lt before) with further | next
        · simp only [ge_iff_le, Nat.not_le.mpr further, Nat.not_le.mpr (Nat.lt_succ_of_lt further),
            decide_false]
        · -- One byte is left behind the text.
          have rest := drop_last before (Nat.le_of_eq next.symm)
          have plain : entry.keyword = true →
              ccIsIdentifier (byteAt data (p + entry.bytes.length)) = false := by
            intro keyword
            by_contra letter
            exact elsewhere (.inr ⟨keyword, _, eq_true_of_ne_false letter,
              rest ▸ drop_eq_of_take found⟩)
          cases keyword : entry.keyword with
          | false => rfl
          | true => rw [plain keyword]; simp
      rw [look, decide_eq_true before, decide_eq_true (Nat.lt_succ_of_lt before)]
    · simp [found]
  · have whole : (data.drop p).take entry.bytes.length = data.drop p :=
      List.take_of_length_le (by simp; omega)
    have other : data.drop p ≠ entry.bytes := fun same => elsewhere (.inl same)
    rw [take_drop_append _ (Nat.le_of_eq last), whole, decide_eq_false other]
    simp [last]
  · simp [Nat.not_lt.mpr (Nat.le_of_lt behind), Nat.not_lt.mpr (Nat.succ_le_of_lt behind)]

theorem IsAscii.scanToken_newline (ascii : IsAscii data) (below : p < data.length)
    (elsewhere : ∀ entry ∈ tokenList, ¬ EndsAt data p entry) :
    ccScanToken (data ++ [10]) p = ccScanToken data p := by
  have matched : ∀ entry ∈ tokenList,
      entry.matchesAt (data ++ [10]) p = entry.matchesAt data p := fun entry member =>
    matchesAt_newline (elsewhere entry member)
  have first : Estros.nextChar (data ++ [10]) p = Estros.nextChar data p := by
    rw [ascii.newline.nextChar, ascii.nextChar]
  have inside : Estros.nextChar data p ≤ data.length := ascii.nextChar p ▸ Nat.succ_le_of_lt below
  rw [ccScanToken, ccScanToken, List.find?_congr matched, literalEnd, literalEnd, identEnd,
    identEnd, first, ascii.skipWhile_newline rfl inside, ascii.skipWhile_newline rfl inside,
    byteAt_append below]

theorem byteAt_drop (data : List UInt8) (p i : Nat) :
    byteAt (data.drop p) i = byteAt data (p + i) := by
  simp [byteAt]

theorem scanType_eq (data : List UInt8) (p : Nat) :
    (ccScanToken data p).2 = match tokenList.find? fun entry => entry.matchesAt data p with
      | some entry => entry.type
      | none => if isdigit (byteAt data p) then .literal else .ident := by
  rw [ccScanToken]
  cases tokenList.find? fun entry => entry.matchesAt data p with
  | some entry => rfl
  | none => exact apply_ite Prod.snd _ _ _

theorem scanType_drop (inside : p ≤ data.length) :
    (ccScanToken data p).2 = (ccScanToken (data.drop p) 0).2 := by
  -- Only what is left counts for the type.
  have matched : ∀ entry ∈ tokenList,
      entry.matchesAt data p = entry.matchesAt (data.drop p) 0 := by
    intro entry _
    have room : decide (p + entry.bytes.length < data.length) =
        decide (entry.bytes.length < data.length - p) := decide_eq_decide.mpr (by omega)
    have look : decide (p + entry.bytes.length + 1 ≥ data.length) =
        decide (entry.bytes.length + 1 ≥ data.length - p) := decide_eq_decide.mpr (by omega)
    simp only [TokenEntry.matchesAt, List.drop_zero, byteAt_drop, List.length_drop, Nat.zero_add,
      room, look]
  rw [scanType_eq, scanType_eq, List.find?_congr matched, byteAt_drop, Nat.add_zero]

/-! What the table is like. -/

theorem tokenList_types : (tokenList.all fun entry =>
    entry.type != .ident && entry.type != .literal) = true := by
  decide

theorem tokenList_operators : (tokenList.all fun entry => entry.keyword ||
    entry.bytes.all fun byte => isOperator byte && (ispunct byte && !ccIsIdentifier byte)) =
      true := by
  decide

theorem tokenList_starts : (tokenList.all fun entry => !entry.keyword ||
    entry.bytes.head?.all fun byte => ccIsStartIdentifier byte) = true := by
  decide

theorem tokenList_underscores : (tokenList.all fun entry => !entry.keyword ||
    (List.range entry.bytes.length).all fun k => byteAt entry.bytes k != 95 ||
      if k = 0 then 0 < byteAt entry.bytes 1 && byteAt entry.bytes 1 < 97
      else 97 ≤ byteAt entry.bytes (k + 1)) = true := by
  decide

/-- Longer texts stand before the ones that they begin with. -/
theorem tokenList_order : (tokenList.all fun entry =>
    (ccScanToken entry.bytes 0).2 != (ccScanToken (entry.bytes ++ [10]) 0).2) = true := by
  decide +kernel

theorem scanToken_some {data : List UInt8} {p : Nat} {entry : TokenEntry}
    (member : entry ∈ tokenList) (matched : entry.matchesAt data p = true) :
    ∃ found ∈ tokenList, found.matchesAt data p = true ∧
      ccScanToken data p = (p + found.bytes.length, found.type) := by
  cases taken : tokenList.find? fun entry => entry.matchesAt data p with
  | none => exact absurd matched (List.find?_eq_none.mp taken entry member)
  | some found =>
      have matches_ := List.find?_some taken
      exact ⟨found, List.mem_of_find?_eq_some taken, matches_, by rw [ccScanToken, taken]⟩

theorem tokenList_type {entry : TokenEntry} (member : entry ∈ tokenList) :
    entry.type ≠ .ident ∧ entry.type ≠ .literal := by
  have checked := List.all_eq_true.mp tokenList_types entry member
  simpa using checked

theorem tokenList_operator {entry : TokenEntry} (member : entry ∈ tokenList)
    (operator : entry.keyword = false) {byte : UInt8} (inside : byte ∈ entry.bytes) :
    isOperator byte = true ∧ ispunct byte = true ∧ ccIsIdentifier byte = false := by
  have checked := List.all_eq_true.mp tokenList_operators entry member
  rw [operator, Bool.false_or] at checked
  simpa using List.all_eq_true.mp checked byte inside

theorem tokenList_start {entry : TokenEntry} (member : entry ∈ tokenList)
    (keyword : entry.keyword = true) (some : 0 < entry.bytes.length) :
    ccIsStartIdentifier entry.bytes[0] = true := by
  have checked := List.all_eq_true.mp tokenList_starts entry member
  rw [keyword, Bool.not_true, Bool.false_or, List.head?_eq_getElem?,
    List.getElem?_eq_getElem some] at checked
  exact checked

theorem not_isdigit_of_start {byte : UInt8} (start : ccIsStartIdentifier byte = true) :
    isdigit byte = false := by
  simp only [ccIsStartIdentifier, isalpha, isdigit] at *
  grind

theorem letters_not_listed {text : List UInt8} (letters : ∀ byte ∈ text, ccIsIdentifier byte = true)
    (whole : ∀ other ∈ tokenList, other.bytes ≠ text) {other : TokenEntry}
    (member : other ∈ tokenList) : other.matchesAt (text ++ [10]) 0 = false := by
  -- Before a newline no branch is taken for letters that are no keyword as a whole.
  by_contra taken
  have matched := eq_true_of_ne_false taken
  obtain ⟨room, bytes⟩ := matchesAt_bytes matched
  have some := (tokenList_bytes other member).1
  simp only [TokenEntry.matchesAt, List.drop_zero, Nat.zero_add, Bool.and_eq_true,
    decide_eq_true_eq, List.length_append, List.length_singleton] at matched
  obtain ⟨⟨short, found⟩, look⟩ := matched
  rw [List.take_append_of_le_length (Nat.le_of_lt_succ short)] at found
  rcases Nat.lt_or_eq_of_le (Nat.le_of_lt_succ short) with shorter | same
  · have next : ccIsIdentifier (byteAt (text ++ [10]) other.bytes.length) = true := by
      rw [byteAt_append shorter]
      exact letters _ (byteAt_mem shorter)
    cases keyword : other.keyword with
    | true =>
        rw [keyword, next, Bool.not_true, Bool.false_or, Bool.or_false, decide_eq_true_eq] at look
        omega
    | false =>
        have first := bytes 0 some
        rw [Nat.zero_add, byteAt_append (Nat.lt_trans some shorter)] at first
        have letter := letters _ (byteAt_mem (Nat.lt_trans some shorter))
        rw [first, (tokenList_operator member keyword (List.getElem_mem some)).2.2] at letter
        cases letter
  · rw [same, List.take_length] at found
    exact whole other member found.symm

theorem scanType_letter {entry : TokenEntry} (member : entry ∈ tokenList)
    (keyword : entry.keyword = true) {byte : UInt8} (letter : ccIsIdentifier byte = true)
    (whole : ∀ other ∈ tokenList, other.bytes ≠ entry.bytes ++ [byte]) :
    (ccScanToken (entry.bytes ++ [byte]) 0).2 ≠
      (ccScanToken (entry.bytes ++ [byte] ++ [10]) 0).2 := by
  -- A keyword and one more letter: a keyword at the end of the file, else an identifier.
  have some := (tokenList_bytes entry member).1
  have matched : entry.matchesAt (entry.bytes ++ [byte]) 0 = true := by
    simp [TokenEntry.matchesAt]
  have letters : ∀ other ∈ entry.bytes ++ [byte], ccIsIdentifier other = true := by
    intro other inside
    rcases List.mem_append.mp inside with before | last
    · exact tokenList_keyword entry member keyword other before
    · exact List.mem_singleton.mp last ▸ letter
  obtain ⟨found, listed, -, scanned⟩ := scanToken_some member matched
  have none : tokenList.find? (fun other => other.matchesAt (entry.bytes ++ [byte] ++ [10]) 0) =
      none := by
    rw [List.find?_eq_none]
    intro other inside
    rw [letters_not_listed letters whole inside]
    decide
  have first : byteAt (entry.bytes ++ [byte] ++ [10]) 0 = entry.bytes[0] := by
    rw [byteAt_append (by simp), byteAt_append some, byteAt, ← List.getElem_eq_getD]
  have noDigit := not_isdigit_of_start (tokenList_start member keyword some)
  rw [scanned, ccScanToken, none, first, noDigit]
  exact (tokenList_type listed).1

theorem getElem_eq_byteAt {text : List UInt8} {k : Nat} (below : k < text.length) :
    text[k] = byteAt text k := by
  rw [byteAt, ← List.getElem_eq_getD]

theorem tokenList_underscore {entry : TokenEntry} (member : entry ∈ tokenList)
    (keyword : entry.keyword = true) {k : Nat} (below : k < entry.bytes.length)
    (underscore : entry.bytes[k] = 95) :
    ∃ next : k + 1 < entry.bytes.length, (entry.bytes[k + 1] < 97 ↔ k = 0) := by
  have checked := List.all_eq_true.mp tokenList_underscores entry member
  rw [keyword, Bool.not_true, Bool.false_or] at checked
  have here := List.all_eq_true.mp checked k (List.mem_range.mpr below)
  rw [← getElem_eq_byteAt below, underscore] at here
  by_cases first : k = 0
  · subst first
    simp only [bne_self_eq_false, if_pos, Bool.false_or, Bool.and_eq_true,
      decide_eq_true_eq] at here
    have next : 0 + 1 < entry.bytes.length := by
      by_contra beyond
      rw [byteAt_beyond (p := 1) (Nat.not_lt.mp beyond)] at here
      exact absurd here.1 (by decide)
    refine ⟨next, fun _ => rfl, fun _ => ?_⟩
    rw [getElem_eq_byteAt next]
    exact here.2
  · simp only [bne_self_eq_false, first, Bool.false_or, if_false, decide_eq_true_eq] at here
    have next : k + 1 < entry.bytes.length := by
      by_contra beyond
      rw [byteAt_beyond (Nat.not_lt.mp beyond)] at here
      exact absurd here (by decide)
    refine ⟨next, fun capital => ?_, fun zero => absurd zero first⟩
    rw [getElem_eq_byteAt next] at capital
    exact absurd here (UInt8.not_le.mpr capital)

theorem EndsAt.text {entry : TokenEntry} (ends : EndsAt data p entry) :
    ∃ rest, data.drop p = entry.bytes ++ rest := by
  rcases ends with text | ⟨_, byte, _, text⟩
  · exact ⟨[], by rw [text, List.append_nil]⟩
  · exact ⟨[byte], text⟩

theorem EndsAt.bytes {entry : TokenEntry} (ends : EndsAt data p entry) {k : Nat}
    (below : k < entry.bytes.length) :
    p + k < data.length ∧ byteAt data (p + k) = entry.bytes[k] := by
  obtain ⟨rest, text⟩ := ends.text
  have length := congrArg List.length text
  rw [List.length_drop, List.length_append] at length
  refine ⟨by omega, ?_⟩
  rw [← byteAt_drop, text, byteAt_append below, byteAt, ← List.getElem_eq_getD]

theorem EndsAt.first {entry : TokenEntry} (ends : EndsAt data p entry)
    (member : entry ∈ tokenList) :
    p < data.length ∧ ∃ some : 0 < entry.bytes.length, byteAt data p = entry.bytes[0] := by
  have some := (tokenList_bytes entry member).1
  obtain ⟨inside, first⟩ := ends.bytes some
  exact ⟨inside, some, first⟩

/-- What ends the file is scanned as something else than before a newline. -/
theorem scanType_newline {entry : TokenEntry} (member : entry ∈ tokenList)
    (ends : EndsAt data p entry) :
    (ccScanToken data p).2 ≠ (ccScanToken (data ++ [10]) p).2 := by
  have inside := Nat.le_of_lt (ends.first member).1
  have listed (other : TokenEntry) (found : other ∈ tokenList) :
      (ccScanToken other.bytes 0).2 ≠ (ccScanToken (other.bytes ++ [10]) 0).2 := by
    simpa using List.all_eq_true.mp tokenList_order other found
  have inside' : p ≤ (data ++ [10]).length := by
    rw [List.length_append]
    exact Nat.le_add_right_of_le inside
  rw [scanType_drop inside, scanType_drop inside', List.drop_append_of_le_length inside]
  by_cases whole : ∃ other ∈ tokenList, other.bytes = data.drop p
  · obtain ⟨other, found, text⟩ := whole
    rw [← text]
    exact listed other found
  · rcases ends with text | ⟨keyword, byte, letter, text⟩
    · exact absurd ⟨entry, member, text.symm⟩ whole
    · rw [text] at whole ⊢
      exact scanType_letter member keyword letter fun other found same => whole ⟨other, found, same⟩

/-! ### Where tokens start -/

def Ends (data : List UInt8) (p : Nat) : Prop := ∃ entry ∈ tokenList, EndsAt data p entry

def Edge (data : List UInt8) (p : Nat) : Prop :=
  ccIsIdentifier (byteAt data p) = true → StartsWord data p

theorem Edge.skip (ascii : IsAscii data) (inside : p ≤ data.length) (edge : Edge data p) :
    Edge data (skipSpace data p) := by
  obtain ⟨-, all⟩ := ascii.skipWhile isspace inside
  rcases Nat.eq_or_lt_of_le (le_skipWhile isspace data p) with same | moved
  · rw [skipSpace, ← same]
    exact edge
  · intro _
    refine .inr ⟨skipSpace data p, Nat.le_refl _, fun i low high => absurd high (by omega), .inr ?_⟩
    exact .inl (all _ (Nat.le_sub_one_of_lt moved) (Nat.sub_one_lt (Nat.ne_zero_of_lt moved)))

theorem underscore_of_stop {byte : UInt8} (stops : identGoesOn byte = false)
    (letter : ccIsIdentifier byte = true) : byte = 95 := by
  by_contra other
  rw [(identGoesOn_letter letter).mpr other] at stops
  cases stops

theorem literal_digits (ascii : IsAscii data) (below : p < data.length)
    (digit : isdigit (byteAt data p) = true) :
    ∀ i, p ≤ i → i < literalEnd data p → isdigit (byteAt data i) = true := by
  intro i low high
  rw [literalEnd, ascii.nextChar] at high
  rcases Nat.eq_or_lt_of_le low with rfl | later
  · exact digit
  · exact (ascii.skipWhile isnumber (Nat.succ_le_of_lt below)).2 i later high

theorem Edge.scan (ascii : IsAscii data) (below : p < data.length) (edge : Edge data p)
    (elsewhere : ¬ Ends data p) : Edge data (ccScanToken data p).1 := by
  intro letter
  rcases scanToken_cases data p with
    ⟨entry, member, matched, scanned⟩ | ⟨-, ⟨digit, scanned⟩ | ⟨-, scanned⟩⟩
  · rw [scanned] at letter ⊢
    obtain ⟨room, bytes⟩ := matchesAt_bytes matched
    have some := (tokenList_bytes entry member).1
    cases keyword : entry.keyword with
    | true =>
        -- The look-ahead took the last byte for the end.
        refine absurd ⟨entry, member, .inr ⟨keyword, _, letter, ?_⟩⟩ elsewhere
        simp only [TokenEntry.matchesAt, keyword, letter, Bool.and_eq_true, decide_eq_true_eq,
          Bool.not_true, Bool.false_or, Bool.or_false] at matched
        rw [drop_eq_of_take matched.1.2, drop_last room matched.2]
    | false =>
        refine .inr ⟨_, Nat.le_refl _, fun i low high => absurd high (by omega), .inr (.inr ?_)⟩
        have last := bytes (entry.bytes.length - 1) (by omega)
        rw [show p + entry.bytes.length - 1 = p + (entry.bytes.length - 1) by omega, last]
        exact (tokenList_operator member keyword (List.getElem_mem _)).1
  · have moves := scanToken_moves data p
    rw [scanned] at letter moves ⊢
    rcases edge (by simp [ccIsIdentifier, digit]) with underscore | ⟨q, low, digits, behind⟩
    · rw [underscore] at digit
      cases digit
    · have passed := literal_digits ascii below digit
      refine .inr ⟨q, Nat.le_trans low (Nat.le_of_lt moves), fun i after before => ?_, behind⟩
      rcases Nat.lt_or_ge i p with early | late
      · exact digits i after early
      · exact passed i late before
  · rw [scanned] at letter ⊢
    rcases Nat.lt_or_ge (identEnd data p) data.length with before | beyond
    · exact .inl (underscore_of_stop (skipWhile_stops identGoesOn data _ before) letter)
    · rw [byteAt_beyond beyond] at letter
      cases letter

end Newline

end Estros
