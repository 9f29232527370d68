import Estros.CompilerState
import Estros.Loops

/-!
The lexer of lexer.c on the bytes of a source file. The outer loop of `cc_tokenize` need
not end, so the function takes the number of rounds that it may make. The byte behind the
last one is read in some conditions; it is 0 here, and no result depends on it.
-/

namespace Estros

/-- A `char` as an `int`. It is signed. -/
def charInt (byte : UInt8) : Int :=
  if byte < 128 then byte.toNat else byte.toNat - 256

def isalpha (byte : UInt8) : Bool := (65 ≤ byte && byte ≤ 90) || (97 ≤ byte && byte ≤ 122)

def ispunct (byte : UInt8) : Bool :=
  (33 ≤ byte && byte ≤ 47) || (58 ≤ byte && byte ≤ 64) || (91 ≤ byte && byte ≤ 96) ||
    (123 ≤ byte && byte ≤ 126)

/-- `isnumber`, which is `isdigit` here. -/
def isnumber (byte : UInt8) : Bool := isdigit byte

/-- Not called anywhere. -/
def ccIsStartIdentifier (byte : UInt8) : Bool := isalpha byte || byte = 95

def ccIsIdentifier (byte : UInt8) : Bool := isalpha byte || byte = 95 || isdigit byte

def ccUtf8Len (c : Int) : Nat :=
  if 0x00 ≤ c ∧ c ≤ 0xbf then 1
  else if 0xc0 ≤ c ∧ c ≤ 0xdf then 2
  else if 0xe0 ≤ c ∧ c ≤ 0xef then 3
  else 4

structure TokenEntry where
  keyword : Bool
  type : CcTokenType
  text : String

def TokenEntry.elem (type : CcTokenType) (text : String) : TokenEntry := ⟨false, type, text⟩

def TokenEntry.kw (type : CcTokenType) (text : String) : TokenEntry := ⟨true, type, text⟩

def tokenList : List TokenEntry :=
  [.elem .ellipsis "...", .elem .assignLshift "<<=", .elem .assignRshift ">>=",
    .elem .doubleColon "::", .elem .increment "++", .elem .decrement "--", .elem .condLte "<=",
    .elem .condGte ">=", .elem .condEq "==", .elem .condNeq "!=", .elem .condOr "||",
    .elem .condAnd "&&", .elem .assignAdd "+=", .elem .assignSub "-=", .elem .assignDiv "/=",
    .elem .assignRem "%=", .elem .assignMul "*=", .elem .assignAnd "&=", .elem .assignXor "^=",
    .elem .assignOr "|=", .elem .lshift "<<", .elem .rshift ">>", .elem .arrow "->",
    .elem .condNot "!", .elem .not "~", .elem .add "+", .elem .sub "-", .elem .div "/",
    .elem .rem "%", .elem .asterisk "*", .elem .ampersand "&", .elem .bitXor "^", .elem .bitOr "|",
    .elem .qmark "?", .elem .colon ":", .elem .semi ";", .elem .comma ",", .elem .condLt "<",
    .elem .condGt ">", .elem .assign "=", .elem .lbrace "\x7b", .elem .rbrace "\x7d",
    .elem .lparen "(", .elem .rparen ")", .elem .lbracket "[", .elem .rbracket "]",
    .elem .hashtag "#", .elem .dot ".", .kw .kwStaticAssertOld "_Static_assert",
    .kw .kwThreadLocalOld "_Thread_local", .kw .kwTypeofUnqual "typeof_unqual",
    .kw .kwStaticAssert "static_assert", .kw .kwThreadLocal "thread_local",
    .kw .kwDecimal128 "_Decimal128", .kw .kwImaginary "_Imaginary", .kw .kwDecimal64 "_Decimal64",
    .kw .kwDecimal32 "_Decimal32", .kw .kwNoreturn "_Noreturn", .kw .kwConstexpr "constexpr",
    .kw .kwGeneric "_Generic", .kw .kwComplex "_Complex", .kw .kwAlignofOld "_Alignof",
    .kw .kwAlignasOld "_Alignas", .kw .kwVolatile "volatile", .kw .kwUnsigned "unsigned",
    .kw .kwRestrict "restrict", .kw .kwRegister "register", .kw .kwContinue "continue",
    .kw .kwBitInt "_BitInt", .kw .kwAtomic "_Atomic", .kw CcTokenType.kwTypedef "typedef",
    .kw .kwNullptr "nullptr", .kw .kwDefault "default", .kw .kwAlignof "alignof",
    .kw .kwAlignas "alignas", .kw .kwTypeof "typeof", .kw .kwSwitch "switch",
    .kw .kwStruct "struct", .kw .kwStatic "static", .kw .kwSizeof "sizeof", .kw .kwSigned "signed",
    .kw .kwReturn "return", .kw .kwInline "inline", .kw .kwExtern "extern", .kw .kwDouble "double",
    .kw .kwBoolOld "_Bool", .kw .kwWhile "while", .kw .kwUnion "union", .kw .kwShort "short",
    .kw .kwFloat "float", .kw .kwFalse "false", .kw .kwConst "const", .kw .kwBreak "break",
    .kw .kwVoid "void", .kw .kwTrue "true", .kw .kwLong "long", .kw .kwGoto "goto",
    .kw .kwEnum "enum", .kw .kwElse "else", .kw .kwChar "char", .kw .kwCase "case",
    .kw .kwBool "bool", .kw .kwAuto "auto", .kw .kwInt "int", .kw .kwFor "for", .kw .kwIf "if",
    .kw .kwDo "do"]

def TokenEntry.bytes (entry : TokenEntry) : List UInt8 := ascii entry.text

def byteAt (data : List UInt8) (p : Nat) : UInt8 := data.getD p 0

/-- The condition under which the branch of an entry is taken: there is a byte behind the
text, and behind a keyword it is the last of all or does not go on with an identifier. -/
def TokenEntry.matchesAt (entry : TokenEntry) (data : List UInt8) (p : Nat) : Bool :=
  let len := entry.bytes.length
  p + len < data.length && (data.drop p).take len = entry.bytes &&
    (!entry.keyword || (p + len + 1 ≥ data.length || !ccIsIdentifier (byteAt data (p + len))))

def nextChar (data : List UInt8) (p : Nat) : Nat := p + ccUtf8Len (charInt (byteAt data p))

/-- `while (class(*p) && p < end) p += cc_utf8_len(*p);` -/
def skipWhile (cls : UInt8 → Bool) (data : List UInt8) (p : Nat) : Nat :=
  whileLoop (fun p => cls (byteAt data p) && p < data.length) (nextChar data) (data.length - p) p

def skipSpace (data : List UInt8) (p : Nat) : Nat := skipWhile isspace data p

/-- `do p += cc_utf8_len(*p); while (isnumber(*p) && p < end);` -/
def literalEnd (data : List UInt8) (p : Nat) : Nat := skipWhile isnumber data (nextChar data p)

def identGoesOn (byte : UInt8) : Bool := !ispunct byte && !isspace byte

/-- `do p += cc_utf8_len(*p); while (!ispunct(*p) && !isspace(*p) && p < end);` -/
def identEnd (data : List UInt8) (p : Nat) : Nat := skipWhile identGoesOn data (nextChar data p)

/-- The chain of branches: where the token that starts at `p` ends, and its type. -/
def ccScanToken (data : List UInt8) (p : Nat) : Nat × CcTokenType :=
  match tokenList.find? fun entry => entry.matchesAt data p with
  | some entry => (p + entry.bytes.length, entry.type)
  | none =>
      if isdigit (byteAt data p) then (literalEnd data p, .literal)
      else (identEnd data p, .ident)

structure CcScan where
  start : Nat
  stop : Nat
  token : CcToken
  deriving DecidableEq

structure CcLexer where
  p : Nat
  scans : List CcScan

def CcLexer.start : CcLexer := ⟨0, []⟩

/-- The token of a span: its position is stored in 24 bits and its length in eight. -/
def scanOf (start stop : Nat) (type : CcTokenType) : CcScan :=
  ⟨start, stop, ⟨⟨BitVec.ofNat 24 start, BitVec.ofNat 8 (stop - start)⟩, type⟩⟩

def ccTokenizeStep (data : List UInt8) (lexer : CcLexer) : CcLexer :=
  let p := skipSpace data lexer.p
  if byteAt data p ≠ 0 ∧ p < data.length then
    let scanned := ccScanToken data p
    ⟨scanned.1, lexer.scans ++ [scanOf p scanned.1 scanned.2]⟩
  else
    ⟨p, lexer.scans⟩

def ccTokenizeGoesOn (data : List UInt8) (lexer : CcLexer) : Bool := lexer.p < data.length

def ccTokenizeRounds (rounds : Nat) (data : List UInt8) : CcLexer :=
  whileLoop (ccTokenizeGoesOn data) (ccTokenizeStep data) rounds CcLexer.start

/-- `cc_tokenize`, if it returns within the given number of rounds. -/
def ccTokenize (rounds : Nat) (state : CcState) : Option CcState :=
  let lexer := ccTokenizeRounds rounds state.data
  if ccTokenizeGoesOn state.data lexer then none
  else some { state with tokens := state.tokens ++ lexer.scans.map CcScan.token }

end Estros
