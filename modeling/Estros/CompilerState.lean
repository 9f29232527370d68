import Mathlib.Data.Vector.Basic
import Estros.CLibrary
import Estros.Machine

/-!
The data of the C compiler under `cc/`: tokens (lexer.h), AST nodes (ast.h), SSA
tokens (ssa.h) and the state record that owns them (state.h). Fields that no
modelled function reads, and the text the dumps print, are left out.
An `unsigned _BitInt(N)` is a `BitVec N`; a `size_t` counter is a `Nat`.
-/

namespace Estros

/-- `cc_strview_t`: a slice of the source buffer. -/
structure CcStrview where
  pos : BitVec 24
  len : BitVec 8
  deriving DecidableEq, Inhabited

/-- `enum cc_token_type`, in the order of `TOKEN_LIST`. -/
inductive CcTokenType where
  | invalid | ident | literal
  | ellipsis | assignLshift | assignRshift | doubleColon | increment | decrement
  | condLte | condGte | condEq | condNeq | condOr | condAnd
  | assignAdd | assignSub | assignDiv | assignRem | assignMul
  | assignAnd | assignXor | assignOr
  | lshift | rshift | arrow | condNot | not | add | sub | div | rem
  | asterisk | ampersand | bitXor | bitOr | qmark | colon | semi | comma
  | condLt | condGt | assign | lbrace | rbrace | lparen | rparen | lbracket | rbracket
  | hashtag | dot
  | kwStaticAssertOld | kwThreadLocalOld | kwTypeofUnqual | kwStaticAssert | kwThreadLocal
  | kwDecimal128 | kwImaginary | kwDecimal64 | kwDecimal32 | kwNoreturn | kwConstexpr
  | kwGeneric | kwComplex | kwAlignofOld | kwAlignasOld | kwVolatile | kwUnsigned
  | kwRestrict | kwRegister | kwContinue | kwBitInt | kwAtomic | kwTypedef | kwNullptr
  | kwDefault | kwAlignof | kwAlignas | kwTypeof | kwSwitch | kwStruct | kwStatic
  | kwSizeof | kwSigned | kwReturn | kwInline | kwExtern | kwDouble | kwBoolOld | kwWhile
  | kwUnion | kwShort | kwFloat | kwFalse | kwConst | kwBreak | kwVoid | kwTrue | kwLong
  | kwGoto | kwEnum | kwElse | kwChar | kwCase | kwBool | kwAuto | kwInt | kwFor | kwIf
  | kwDo
  deriving DecidableEq, Inhabited

/-- `cc_token_t`; `{0}` is the invalid token. -/
structure CcToken where
  data : CcStrview := ⟨0, 0⟩
  type : CcTokenType := .invalid
  deriving DecidableEq, Inhabited

/-- `cc_ast_node_ref_t`: an index into the node array, truncated to sixteen bits. -/
abbrev CcAstNodeRef := BitVec 16

inductive CcAstBinop where
  | assign | add | sub | mul | div | rem | bitAnd | bitXor | bitOr | lshift | rshift
  | condEq | condNeq | condGt | condLt | condGte | condLte | condAnd | condOr | condXor
  deriving DecidableEq

inductive CcAstUnop where
  | bitNot | condNot | plus | minus
  deriving DecidableEq

/-- A `childs` pointer: `none` is `NULL`, `some i` the i-th array that `realloc` returned.
An array is always allocated with `n_childs` elements, so its length is `n_childs`. -/
abbrev ChildArray := Option Nat

/-- `cc_ast_node_t`: the type tag with the union member it selects. The all-zero node
is `invalid`. -/
inductive CcAstNode where
  | invalid
  | newVar (name : CcStrview) (init typeDef : CcAstNodeRef) (flags : BitVec 32)
  | newType (returnType : CcAstNodeRef) (childs : ChildArray) (flags : BitVec 32)
  | refType (name : CcStrview)
  | refVar (name : CcStrview)
  | block (childs : ChildArray)
  | ifExpr (cond thenRef elseRef : CcAstNodeRef)
  | cast (child : CcAstNodeRef)
  | ret (retval : CcAstNodeRef)
  | literalFloat
  | literalInteger (ull : BitVec 64)
  | binop (op : CcAstBinop) (lhs rhs : CcAstNodeRef)
  | unop (op : CcAstUnop) (child : CcAstNodeRef)
  deriving DecidableEq, Inhabited

def ccAstTypeFlagsFunction : BitVec 32 := 0x23

structure CcSsaArgument where
  id : BitVec 12
  width : BitVec 4
  deriving DecidableEq, Inhabited

structure CcRawDataView where
  pos : BitVec 24
  len : BitVec 8
  deriving DecidableEq, Inhabited

structure CcSsaTokenView where
  pos : BitVec 24
  len : BitVec 8
  deriving DecidableEq, Inhabited

inductive CcSsaTokenType where
  | none | ret | call | branch | phi | identity | not
  | add | sub | mul | div | rem | lshift | rshift | and | xor | or
  | fadd | fsub | fmul | fdiv | rawData
  deriving DecidableEq, Inhabited

abbrev ccSsaMaxArgs : Nat := 8

theorem maxArgs_ne_zero : ccSsaMaxArgs ≠ 0 := by decide

instance : @NeZero Nat Zero.ofOfNat0 ccSsaMaxArgs := ⟨maxArgs_ne_zero⟩

/-- `cc_ssa_token_t`. `args` and `raw` share their bytes in the source; a token has
`raw` exactly when its type is `rawData`, and no function reads the other member. -/
structure CcSsaToken where
  result : CcSsaArgument
  args : Vector CcSsaArgument ccSsaMaxArgs := Vector.replicate ccSsaMaxArgs ⟨0, 0⟩
  raw : CcRawDataView := ⟨0, 0⟩
  type : CcSsaTokenType
  deriving DecidableEq

def CcSsaToken.arg (tok : CcSsaToken) (k : Fin ccSsaMaxArgs) : CcSsaArgument := tok.args[k]

/-- The all-zero token, which is also what untouched token memory holds. -/
instance : Inhabited CcSsaToken := ⟨{ result := ⟨0, 0⟩, type := .none }⟩

structure CcSsaFunction where
  name : CcStrview
  tokens : CcSsaTokenView
  deriving DecidableEq, Inhabited

def ccSsaIdNull : BitVec 12 := 0

/-- `CC_SSA_ID_PARAM(N)`, stored in a twelve-bit id. -/
def ccSsaIdParam (n : Nat) : BitVec 12 := BitVec.ofNat 12 (n + 2)

def ccSsaFirstTemporal : BitVec 12 := 32

/-- `CC_SSA_WIDTH_SET(N)`. The chain of the macro ends in a comma operator, `(.. , 0)`, so its
value is 0 for every `N`. -/
def ccSsaWidthSet (_n : Nat) : BitVec 4 := 0

def ccSsaWidth32 : BitVec 4 := ccSsaWidthSet 32

/-- `cc_state_t`. `nodes` is the part of the mapped node array written so far; entries
from `nNodes` on are popped nodes that are still in memory. `childArrays` holds the
arrays returned by `realloc`, in allocation order. -/
structure CcState where
  data : List UInt8
  tokens : List CcToken
  curTok : Nat
  nodes : List CcAstNode
  nNodes : Nat
  childArrays : List (List CcAstNodeRef)
  ssaFuncs : List CcSsaFunction
  ssaTokens : List CcSsaToken
  rawData : List UInt8
  nodesWritten : nNodes ≤ nodes.length

/-- The state in which `cc_driver_parse_file` calls the parser. -/
def CcState.start (data : List UInt8) (tokens : List CcToken) : CcState where
  data := data
  tokens := tokens
  curTok := 0
  nodes := []
  nNodes := 0
  childArrays := []
  ssaFuncs := []
  ssaTokens := []
  rawData := []
  nodesWritten := Nat.le_refl 0

inductive AssertSite where
  | ccAstPopNode | ccAstPushChildrenToBlock | ccAstPushChildrenToType
  | ccAstPushChildrenToBlockCoalesce | ccAstCopyNode
  | ccParseConditionalExpression | ccParseAssignmentOperator | ccParseParameterDeclaration
  | ccParseDirectDeclarator | ccParseStorageClassSpecifier | ccParseTypeSpecifier
  | ccParseDeclarationSpecifiers | ccParseFunctionDefinition
  | ccSsaGetFuncParameterIndex | ccSsaFromAstVar | ccSsaOptimiseIdentity
  | ccSsaIsLastUse | ccAsmRegfree
  deriving DecidableEq

/-- Why a run stops early. `outOfFuel` is not an outcome of the program: it marks a
recursion that the fuel of the model cut off. -/
inductive Halt where
  | abort
  | assertion (site : AssertSite)
  | outOfFuel
  deriving DecidableEq

/-- `state->nodes[ref]`; memory that was never written is zero. -/
def CcState.node (state : CcState) (ref : CcAstNodeRef) : CcAstNode :=
  state.nodes.getD ref.toNat .invalid

def CcState.childs (state : CcState) : ChildArray → List CcAstNodeRef
  | none => []
  | some index => state.childArrays.getD index []

def CcState.ssaToken (state : CcState) (index : Nat) : CcSsaToken :=
  state.ssaTokens.getD index default

/-- The bytes that `cc_strview_get` copies before it adds the terminator. -/
def ccStrviewGet (state : CcState) (view : CcStrview) : List UInt8 :=
  (state.data.drop view.pos.toNat).take view.len.toNat

end Estros
