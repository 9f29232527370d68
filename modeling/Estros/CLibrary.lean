import Mathlib.Data.List.TakeWhile

/-!
What the programs use of C and its library: words, strings as lists of bytes, and decimal
numerals.
-/

namespace Estros

abbrev Word := BitVec 32

def toByte {width : Nat} (value : BitVec width) : UInt8 := UInt8.ofBitVec (value.setWidth 8)

def ofByte (byte : UInt8) : Word := byte.toBitVec.setWidth 32

def ofSignedByte (byte : UInt8) : Word := byte.toBitVec.signExtend 32

theorem ofByte_toNat (byte : UInt8) : (ofByte byte).toNat = byte.toNat := by
  rw [ofByte, BitVec.toNat_setWidth]
  exact Nat.mod_eq_of_lt (byte.toNat_lt.trans (by decide))

/-- What `strcpy` and `strcmp` see of a buffer: the bytes up to the first NUL. -/
def cString (bytes : List UInt8) : List UInt8 := bytes.takeWhile (· ≠ 0)

def ascii (text : String) : List UInt8 := text.toList.map fun char => UInt8.ofNat char.toNat

/-- `strpbrk` with what its callers make of the result: the bytes before the one that is found,
where they put a NUL, and the bytes after it. -/
def strpbrk (accept : List UInt8) : List UInt8 → Option (List UInt8 × List UInt8)
  | [] => none
  | byte :: rest =>
      if byte ∈ accept then some ([], rest)
      else (strpbrk accept rest).map fun parts => (byte :: parts.1, parts.2)

def strchr (char : UInt8) (text : List UInt8) : Option (List UInt8 × List UInt8) :=
  strpbrk [char] text

theorem strpbrk_found {accept before : List UInt8} {char : UInt8} (found : char ∈ accept)
    (free : ∀ byte ∈ before, byte ∉ accept) (after : List UInt8) :
    strpbrk accept (before ++ char :: after) = some (before, after) := by
  induction before with
  | nil => simp [strpbrk, found]
  | cons byte rest ih =>
      have first := free byte List.mem_cons_self
      have others := ih fun byte member => free byte (List.mem_cons_of_mem _ member)
      simp [strpbrk, first, others]

theorem strpbrk_none {accept text : List UInt8} (free : ∀ byte ∈ text, byte ∉ accept) :
    strpbrk accept text = none := by
  induction text with
  | nil => rfl
  | cons byte rest ih =>
      have first := free byte List.mem_cons_self
      have others := ih fun byte member => free byte (List.mem_cons_of_mem _ member)
      simp [strpbrk, first, others]

def isspace (byte : UInt8) : Bool := byte = 32 || (9 ≤ byte && byte ≤ 13)

def isdigit (byte : UInt8) : Bool := 48 ≤ byte && byte ≤ 57

def leadingDigits (text : List UInt8) : Nat :=
  (text.takeWhile isdigit).foldl (fun value digit => 10 * value + (digit.toNat - 48)) 0

/-- `atoll`: blanks, an optional sign, then digits. -/
def atoll (text : List UInt8) : Int :=
  match text.dropWhile isspace with
  | 45 :: rest => -(leadingDigits rest : Int)
  | 43 :: rest => leadingDigits rest
  | rest => leadingDigits rest

def decimal (value : Nat) : List UInt8 := ascii (toString value)

theorem not_isspace_of_isdigit {byte : UInt8} (digit : isdigit byte = true) :
    isspace byte = false := by
  simp only [isdigit, isspace, Bool.and_eq_true, decide_eq_true_eq, Bool.or_eq_false_iff,
    Bool.and_eq_false_iff, decide_eq_false_iff_not, UInt8.le_iff_toNat_le, ← UInt8.toNat_inj,
    UInt8.reduceToNat] at *
  omega

theorem atoll_of_digits {text : List UInt8} (digits : ∀ byte ∈ text, isdigit byte = true) :
    atoll text = leadingDigits text := by
  cases text with
  | nil => rfl
  | cons byte rest =>
      have digit := digits byte List.mem_cons_self
      have kept : (byte :: rest).dropWhile isspace = byte :: rest := by
        simp [not_isspace_of_isdigit digit]
      rw [atoll, kept]
      split
      · next same => cases same; cases digit
      · next same => cases same; cases digit
      · rfl

theorem decimal_eq (value : Nat) :
    decimal value = (Nat.toDigits 10 value).map fun char => UInt8.ofNat char.toNat := by
  simp [decimal, ascii]

theorem isdigit_ofNat {char : Char} (digit : char.isDigit = true) :
    isdigit (UInt8.ofNat char.toNat) = true ∧ (UInt8.ofNat char.toNat).toNat = char.toNat := by
  have range : 48 ≤ char.toNat ∧ char.toNat ≤ 57 := by
    simp only [Char.isDigit, Bool.and_eq_true, decide_eq_true_eq, ge_iff_le,
      UInt32.le_iff_toNat_le] at digit
    exact digit
  have value : (UInt8.ofNat char.toNat).toNat = char.toNat := by
    rw [UInt8.toNat_ofNat']
    omega
  refine ⟨?_, value⟩
  simp only [isdigit, Bool.and_eq_true, decide_eq_true_eq, UInt8.le_iff_toNat_le, value,
    UInt8.reduceToNat]
  exact range

theorem decimal_digits (value : Nat) : ∀ byte ∈ decimal value, isdigit byte = true := by
  rw [decimal_eq]
  intro byte member
  obtain ⟨char, inside, rfl⟩ := List.mem_map.mp member
  exact (isdigit_ofNat (Nat.isDigit_of_mem_toDigits (by decide) (by decide) inside)).1

theorem decimal_ne_nil (value : Nat) : decimal value ≠ [] := by
  simp [decimal_eq]

theorem decimal_length (value digits : Nat) (positive : 0 < digits) (small : value < Nat.pow 10 digits) :
    (decimal value).length ≤ digits := by
  rw [decimal_eq, List.length_map]
  exact (Nat.length_toDigits_le_iff (by decide) positive).mpr small

theorem atoll_decimal (value : Nat) : atoll (decimal value) = value := by
  have whole : (decimal value).takeWhile isdigit = decimal value :=
    List.takeWhile_eq_self_iff.mpr (decimal_digits value)
  rw [atoll_of_digits (decimal_digits value), leadingDigits, whole, decimal_eq, List.foldl_map]
  have same : ∀ (chars : List Char) (start : Nat), (∀ char ∈ chars, char.isDigit = true) →
      chars.foldl (fun total char => 10 * total + ((UInt8.ofNat char.toNat).toNat - 48)) start =
        Nat.ofDigitChars 10 chars start := by
    intro chars start digits
    induction chars generalizing start with
    | nil => simp
    | cons char rest ih =>
        rw [List.foldl_cons, Nat.ofDigitChars_cons,
          (isdigit_ofNat (digits char List.mem_cons_self)).2]
        exact ih _ fun char member => digits char (List.mem_cons_of_mem _ member)
  rw [same _ 0 fun char member => Nat.isDigit_of_mem_toDigits (by decide) (by decide) member,
    Nat.ofDigitChars_toDigits (by decide) (by decide)]

end Estros
