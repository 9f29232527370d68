import Estros.ExpressionSyntax
import Estros.Parser

/-!
The declaration language of parser.c, on token lists: specifiers, declarators with their
parameter lists, statements, function bodies and the top level of a translation unit.
-/

namespace Estros

def isSpecifier (type : CcTokenType) : Bool :=
  (storageClassFlag type).isSome || (typeSpecifierFlag type).isSome

def startsSpecifier (toks : List CcToken) : Bool := isSpecifier (headType toks)

def dropSpecifiers (toks : List CcToken) : List CcToken := toks.dropWhile fun tok => isSpecifier tok.type

/-- A declarator was read, with or without a parameter list in it; none starts here; the
parser aborts; or a parameter position holds no specifier. -/
inductive DeclaratorReply where
  | yes (parameters : Bool) (rest : List CcToken)
  | no
  | abort
  | bareParameter

def parseClosing : DeclaratorReply → DeclaratorReply
  | .yes parameters rest =>
      if headType rest = .rparen then .yes parameters rest.tail else .abort
  | reply => reply

def parseRequired : DeclaratorReply → DeclaratorReply
  | .no => .abort
  | reply => reply

def parseParameter (declarator : List CcToken → DeclaratorReply) (toks : List CcToken) :
    DeclaratorReply :=
  if startsSpecifier toks then parseRequired (declarator (dropSpecifiers toks)) else .bareParameter

/-- `parameter {, parameter}`. Each round reads a token, so one unit of fuel for each token
suffices here and below. -/
def parseParameters (declarator : List CcToken → DeclaratorReply) :
    Nat → List CcToken → DeclaratorReply
  | 0, _ => .abort
  | fuel + 1, toks =>
      match parseParameter declarator toks with
      | .yes _ rest =>
          if headType rest = .comma then parseParameters declarator fuel rest.tail
          else .yes true rest
      | reply => reply

def parseDeclarator : Nat → List CcToken → DeclaratorReply
  | 0, _ => .abort
  | fuel + 1, toks =>
      if headType toks = .ident then
        -- Only a name can be followed by a parameter list.
        if headType toks.tail = .lparen then
          parseClosing (parseParameters (parseDeclarator fuel) fuel toks.tail.tail)
        else .yes false toks.tail
      else if headType toks = .lparen then
        parseClosing (parseRequired (parseDeclarator fuel toks.tail))
      else .no

def parseStatement (data : List UInt8) (toks : List CcToken) : Reply (Option Tree) :=
  if headType toks = .kwReturn then
    if headType toks.tail = .semi then .yes none toks.tail.tail
    else
      match parseExpression data toks.tail with
      | .yes tree rest => if headType rest = .semi then .yes (some tree) rest.tail else .abort
      | _ => .abort
  else .no

def parseStatements (data : List UInt8) : Nat → List CcToken → Reply (List (Option Tree))
  | 0, _ => .abort
  | fuel + 1, toks =>
      match parseStatement data toks with
      | .yes value rest =>
          match parseStatements data fuel rest with
          | .yes values left => .yes (value :: values) left
          | reply => reply
      | .no => .yes [] toks
      | .abort => .abort

def parseStatementList (data : List UInt8) (fuel : Nat) (toks : List CcToken) :
    Reply (List (Option Tree)) :=
  match parseStatement data toks with
  | .yes value rest =>
      match parseStatements data fuel rest with
      | .yes values left => .yes (value :: values) left
      | reply => reply
  | .no => .no
  | .abort => .abort

def parseBody (data : List UInt8) (toks : List CcToken) : Reply (List (Option Tree)) :=
  if headType toks = .lbrace then
    if headType toks.tail = .rbrace then .yes [] toks.tail.tail
    else
      match parseStatementList data (toks.length + 1) toks.tail with
      | .yes values rest => if headType rest = .rbrace then .yes values rest.tail else .abort
      | _ => .abort
  else .no

/-- A function definition was read; something else was, up to `rest`; the parser aborts; a
parameter position holds no specifier; or a parameter list is not followed by a body. -/
inductive ExternalReply where
  | definition (rest : List CcToken)
  | other (rest : List CcToken)
  | abort
  | bareParameter
  | bodiless
  deriving DecidableEq

/-- The two declarations that break the order of the node stack. -/
def ExternalReply.Misuses (reply : ExternalReply) : Prop :=
  reply = .bareParameter ∨ reply = .bodiless

instance (reply : ExternalReply) : Decidable reply.Misuses :=
  inferInstanceAs (Decidable (_ ∨ _))

def parseDefinition (data : List UInt8) : DeclaratorReply → List CcToken → ExternalReply
  | .yes parameters rest, _ =>
      match parseBody data rest with
      | .yes _ left => .definition left
      -- Without a body the declaration ends in front of the token that is no brace.
      | .no => if parameters then .bodiless else .other rest
      | .abort => .abort
  | .no, toks => .other toks
  | .abort, _ => .abort
  | .bareParameter, _ => .bareParameter

def parseExternal (data : List UInt8) (toks : List CcToken) : ExternalReply :=
  parseDefinition data (parseDeclarator (toks.length + 1) (dropSpecifiers toks))
    (dropSpecifiers toks)

/-- The first external declaration that is no function definition. -/
def firstOther (data : List UInt8) : Nat → List CcToken → ExternalReply
  | 0, _ => .abort
  | fuel + 1, toks =>
      match parseExternal data toks with
      | .definition rest => firstOther data fuel rest
      | reply => reply

def firstNonDefinition (data : List UInt8) (toks : List CcToken) : ExternalReply :=
  firstOther data (toks.length + 1) toks

end Estros
