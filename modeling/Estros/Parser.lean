import Estros.AstNodes

/-!
The recursive-descent parser of parser.c, function by function.
The functions that call themselves or loop take `fuel`; each recursive call and each
loop iteration uses one unit, and `outOfFuel` marks a run that was cut off.
-/

namespace Estros

open Machine

def ccPeekToken (offset : Nat) : ParseM CcToken := do
  let state ← get
  pure (state.tokens.getD (state.curTok + offset) {})

def ccNextToken : ParseM Unit := modify CcState.advance advance_step

structure CcAstNewBlockResult where
  ref : CcAstNodeRef
  isNew : Bool

def ccAstPushBlockCoalesce (outerExpr : CcAstNodeRef) : ParseM CcAstNewBlockResult := do
  let state ← get
  match state.node outerExpr with
  | .block childs =>
      if (state.childs childs).length = 0 then
        pure ⟨outerExpr, false⟩
      else
        let ref ← ccAstPushNode (.block none)
        pure ⟨ref, true⟩
  | _ =>
      let ref ← ccAstPushNode (.block none)
      pure ⟨ref, true⟩

def ccAstPopBlockCoalesce (res : CcAstNewBlockResult) : ParseM Unit :=
  if res.isNew then ccAstPopNode res.ref else pure ()

def ccParsePrimaryExpression (expr : CcAstNodeRef) : ParseM Bool := do
  let tok ← ccPeekToken 0
  if tok.type = .ident then
    let primary ← ccAstPushNode (.refVar tok.data)
    ccNextToken
    ccAstPushChildrenToBlock expr primary
    pure true
  else if tok.type = .literal then
    let state ← get
    let primary ← ccAstPushNode
      (.literalInteger (BitVec.ofInt 64 (atoll (cString (ccStrviewGet state tok.data)))))
    ccNextToken
    ccAstPushChildrenToBlock expr primary
    pure true
  else
    pure false

def ccParsePostfixExpression (expr : CcAstNodeRef) : ParseM Bool := do
  let inner ← ccAstPushBlockCoalesce expr
  if ← ccParsePrimaryExpression inner.ref then
    pure true
  else
    ccAstPopBlockCoalesce inner
    pure false

def ccParseUnaryExpression (expr : CcAstNodeRef) : ParseM Bool := do
  let inner ← ccAstPushBlockCoalesce expr
  if ← ccParsePostfixExpression inner.ref then
    pure true
  else
    ccAstPopBlockCoalesce inner
    pure false

def ccParseCastExpression (expr : CcAstNodeRef) (_lock : Bool) : ParseM Bool :=
  ccParseUnaryExpression expr

/-- The right operand of `CC_PARSE_BINOP_DEFINE`, once `lhsExpr` is parsed and the next
token is the level's operator. -/
def ccParseBinopRhs (next : CcAstNodeRef → Bool → ParseM Bool) (nodeType : CcAstBinop)
    (expr lhsExpr : CcAstNodeRef) : ParseM Bool := do
  let rhsExpr ← ccAstPushNode (.block none)
  let opExpr ← ccAstPushNode (.binop nodeType lhsExpr rhsExpr)
  ccNextToken
  if ← next rhsExpr false then
    ccAstPushChildrenToBlock expr opExpr
    pure true
  else
    halt .abort

/-- One level of `CC_PARSE_BINOP_DEFINE`, whose second attempt at the left operand is
`retry`. -/
def ccParseBinopLevel (next : CcAstNodeRef → Bool → ParseM Bool) (nodeType : CcAstBinop)
    (tokType : CcTokenType) (retry : CcAstNodeRef → ParseM Bool) (expr : CcAstNodeRef) :
    ParseM Bool := do
  let lhsExpr ← ccAstPushNode (.block none)
  if ← next lhsExpr false then
    let tok ← ccPeekToken 0
    if tok.type = tokType then
      ccParseBinopRhs next nodeType expr lhsExpr
    else
      ccAstPushChildrenToBlockCoalesce expr lhsExpr
      pure true
  else if ← retry lhsExpr then
    ccParseBinopRhs next nodeType expr lhsExpr
  else
    ccAstPopNode lhsExpr
    pure false

/-- `CC_PARSE_BINOP_DEFINE`: with the lock set there is no second attempt, without it the
second attempt is the same level with the lock set. -/
def ccParseBinopDefine (next : CcAstNodeRef → Bool → ParseM Bool) (nodeType : CcAstBinop)
    (tokType : CcTokenType) (expr : CcAstNodeRef) (lock : Bool) : ParseM Bool :=
  let locked := ccParseBinopLevel next nodeType tokType (fun _ => pure false)
  if lock then
    locked expr
  else
    ccParseBinopLevel next nodeType tokType (fun lhsExpr => do
      if ← locked lhsExpr then
        let tok ← ccPeekToken 0
        pure (tok.type = tokType)
      else
        pure false) expr

def ccParseMultiplicativeExpression2 :=
  ccParseBinopDefine ccParseCastExpression .mul .asterisk
def ccParseMultiplicativeExpression1 :=
  ccParseBinopDefine ccParseMultiplicativeExpression2 .div .div
def ccParseAdditiveExpression2 :=
  ccParseBinopDefine ccParseMultiplicativeExpression1 .sub .sub
def ccParseAdditiveExpression1 :=
  ccParseBinopDefine ccParseAdditiveExpression2 .add .add
def ccParseShiftExpression2 :=
  ccParseBinopDefine ccParseAdditiveExpression1 .lshift .lshift
def ccParseShiftExpression1 :=
  ccParseBinopDefine ccParseShiftExpression2 .rshift .rshift
def ccParseRelationalExpression3 :=
  ccParseBinopDefine ccParseShiftExpression1 .condLte .condLte
def ccParseRelationalExpression2 :=
  ccParseBinopDefine ccParseRelationalExpression3 .condGte .condGte
def ccParseRelationalExpression1 :=
  ccParseBinopDefine ccParseRelationalExpression2 .condLt .condLt
def ccParseEqualityExpression2 :=
  ccParseBinopDefine ccParseRelationalExpression1 .condGt .condGt
def ccParseEqualityExpression1 :=
  ccParseBinopDefine ccParseEqualityExpression2 .condNeq .condNeq
def ccParseAndExpression :=
  ccParseBinopDefine ccParseEqualityExpression1 .bitAnd .ampersand
def ccParseExclusiveOrExpression :=
  ccParseBinopDefine ccParseAndExpression .bitXor .bitXor
def ccParseInclusiveOrExpression :=
  ccParseBinopDefine ccParseExclusiveOrExpression .bitOr .bitOr
def ccParseLogcalAndExpression :=
  ccParseBinopDefine ccParseInclusiveOrExpression .condAnd .condAnd
def ccParseLogcalOrExpression :=
  ccParseBinopDefine ccParseLogcalAndExpression .condOr .condOr

/-- The compound assignment operators, which the parser recognises only to abort. -/
def isCompoundAssignment : CcTokenType → Bool
  | .assignAdd | .assignSub | .assignMul | .assignDiv | .assignRem | .assignLshift
  | .assignRshift | .assignAnd | .assignOr | .assignXor => true
  | _ => false

def ccParseAssignmentOperator (expr : CcAstNodeRef) : ParseM Bool := do
  let tok ← ccPeekToken 0
  let state ← get
  match state.node expr with
  | .binop _ lhs rhs =>
      if tok.type = .assign then
        ccNextToken
        modify (fun s => s.setNode expr (.binop .assign lhs rhs)) (setNode_step _ _)
        pure true
      else if isCompoundAssignment tok.type then
        halt .abort
      else
        pure false
  -- The assertion is `type >= CC_AST_NODE_BINOP`, so a unary node would pass it too;
  -- its operand shares the bytes of `binop.lhs`.
  | .unop _ child =>
      if tok.type = .assign then
        ccNextToken
        modify (fun s => s.setNode expr (.binop .assign child 0)) (setNode_step _ _)
        pure true
      else if isCompoundAssignment tok.type then
        halt .abort
      else
        pure false
  | _ => halt (.assertion .ccParseAssignmentOperator)

/-- The branches of `cc_parse_conditional_expression`, once the condition is parsed and
the next token is `?`. -/
def ccParseConditionalBranches (parseThen parseElse : CcAstNodeRef → ParseM Bool)
    (expr condExpr : CcAstNodeRef) : ParseM Bool := do
  let thenExpr ← ccAstPushNode (.block none)
  let elseExpr ← ccAstPushNode (.block none)
  let ifExpr ← ccAstPushNode (.ifExpr condExpr thenExpr elseExpr)
  ccNextToken
  if ← parseThen thenExpr then
    let colon ← ccPeekToken 0
    if colon.type = .colon then
      ccNextToken
      if ← parseElse elseExpr then
        ccAstPushChildrenToBlock expr ifExpr
        pure true
      else
        halt .abort
    else
      halt .abort
  else
    halt .abort

mutual

def ccParseConditionalExpression : Nat → CcAstNodeRef → ParseM Bool
  | 0, _ => halt .outOfFuel
  | fuel + 1, expr => do
      let condExpr ← ccAstPushNode (.block none)
      if ← ccParseLogcalOrExpression condExpr false then
        let tok ← ccPeekToken 0
        check (condExpr ≠ expr) (.assertion .ccParseConditionalExpression)
        if tok.type = .qmark then
          ccParseConditionalBranches (ccParseExpression fuel · false)
            (ccParseConditionalExpression fuel) expr condExpr
        else
          ccAstPushChildrenToBlock expr condExpr
          pure true
      else
        ccAstPopNode condExpr
        pure false

def ccParseAssignmentExpression : Nat → CcAstNodeRef → ParseM Bool
  | 0, _ => halt .outOfFuel
  | fuel + 1, expr => do
      if ← ccParseConditionalExpression fuel expr then
        pure true
      else
        let lhsExpr ← ccAstPushNode (.block none)
        let rhsExpr ← ccAstPushNode (.block none)
        -- The source stores the left operand in both places.
        let assignExpr ← ccAstPushNode (.binop .assign lhsExpr lhsExpr)
        if ← ccParseUnaryExpression lhsExpr then
          if ← ccParseAssignmentOperator assignExpr then
            -- The result of the right operand is not looked at.
            let _ ← ccParseAssignmentExpression fuel rhsExpr
            ccAstPushChildrenToBlock expr assignExpr
            pure true
          else
            halt .abort
        else
          ccAstPopNode assignExpr
          ccAstPopNode rhsExpr
          ccAstPopNode lhsExpr
          pure false

def ccParseExpression : Nat → CcAstNodeRef → Bool → ParseM Bool
  | 0, _, _ => halt .outOfFuel
  | fuel + 1, expr, lock => do
      if ← ccParseAssignmentExpression fuel expr then
        pure true
      else if lock then
        pure false
      -- A second attempt at the same tokens, with the lock against a third.
      else if ← ccParseExpression fuel expr true then
        halt .abort
      else
        pure false

end

/-! ### Statements -/

def ccParseJumpStatment (fuel : Nat) (expr : CcAstNodeRef) : ParseM Bool := do
  let tok ← ccPeekToken 0
  if tok.type = .kwReturn then
    let innerRetExpr ← ccAstPushNode (.block none)
    let retExpr ← ccAstPushNode (.ret innerRetExpr)
    ccNextToken
    let after ← ccPeekToken 0
    if after.type = .semi then
      ccNextToken
      ccAstPushChildrenToBlock expr retExpr
      pure true
    else if ← ccParseExpression fuel innerRetExpr false then
      let semi ← ccPeekToken 0
      if semi.type = .semi then
        ccNextToken
        ccAstPushChildrenToBlock expr retExpr
        pure true
      else
        halt .abort
    else
      halt .abort
  else
    pure false

def ccParseStatment (fuel : Nat) (expr : CcAstNodeRef) : ParseM Bool :=
  ccParseJumpStatment fuel expr

def ccParseStatmentLoop : Nat → CcAstNodeRef → ParseM Unit
  | 0, _ => halt .outOfFuel
  | fuel + 1, inner => do
      if ← ccParseStatment fuel inner then
        ccParseStatmentLoop fuel inner
      else
        pure ()

def ccParseStatmentList (fuel : Nat) (expr : CcAstNodeRef) : ParseM Bool := do
  let inner ← ccAstPushBlockCoalesce expr
  if ← ccParseStatment fuel inner.ref then
    ccParseStatmentLoop fuel inner.ref
    pure true
  else
    ccAstPopBlockCoalesce inner
    pure false

def ccParseDeclarationList (_expr : CcAstNodeRef) : ParseM Bool := pure false

def ccParseCompoundStatement (fuel : Nat) (expr : CcAstNodeRef) : ParseM Bool := do
  let tok ← ccPeekToken 0
  if tok.type = .lbrace then
    ccNextToken
    let after ← ccPeekToken 0
    if after.type = .rbrace then
      ccNextToken
      pure true
    else
      if ← ccParseStatmentList fuel expr then
        pure ()
      else if ← ccParseDeclarationList expr then
        let _ ← ccParseStatmentList fuel expr
        pure ()
      else
        halt .abort
      let close ← ccPeekToken 0
      if close.type = .rbrace then
        ccNextToken
        pure true
      else
        halt .abort
  else
    pure false

/-- The flag that each storage-class keyword adds, `CC_AST_VAR_FLAGS_*`; `register` and
`auto` add none. -/
def storageClassFlag : CcTokenType → Option (BitVec 32)
  | .kwTypedef => some 0x01
  | .kwThreadLocal | .kwThreadLocalOld => some 0x04
  | .kwExtern => some 0x10
  | .kwStatic => some 0x02
  | .kwRegister | .kwAuto => some 0
  | _ => none

/-- The flag that each type keyword adds, `CC_AST_TYPE_FLAGS_*`. For `long` the source
tests `new_var.flags` of a type node, which lies in padding of `new_type` and reads zero,
so the `LONG_LONG` case is never taken. -/
def typeSpecifierFlag : CcTokenType → Option (BitVec 32)
  | .kwVoid => some 0
  | .kwChar => some 2
  | .kwShort => some 3
  | .kwInt => some 4
  | .kwLong => some 5
  | .kwFloat => some 7
  | .kwDouble => some 8
  | .kwBool | .kwBoolOld => some 1
  | _ => none

def ccParseStorageClassSpecifier (decl : CcAstNodeRef) : ParseM Bool := do
  let tok ← ccPeekToken 0
  let state ← get
  match state.node decl with
  | .newVar name init typeDef flags =>
      match storageClassFlag tok.type with
      | some flag =>
          ccNextToken
          modify (fun s => s.setNode decl (.newVar name init typeDef (flags ||| flag)))
            (setNode_step _ _)
          pure true
      | none => pure false
  | _ => halt (.assertion .ccParseStorageClassSpecifier)

def ccParseTypeSpecifier (typeDef : CcAstNodeRef) : ParseM Bool := do
  let tok ← ccPeekToken 0
  let state ← get
  match state.node typeDef with
  | .newType returnType childs flags =>
      match typeSpecifierFlag tok.type with
      | some flag =>
          ccNextToken
          modify (fun s => s.setNode typeDef (.newType returnType childs (flags ||| flag)))
            (setNode_step _ _)
          pure true
      | none => pure false
  | _ => halt (.assertion .ccParseTypeSpecifier)

def ccParseTypeQualifier : ParseM Bool := pure false

/-- The disjunction of `cc_parse_declaration_specifiers`, with C's short circuit. -/
def ccParseOneSpecifier (decl typeDef : CcAstNodeRef) : ParseM Bool := do
  if ← ccParseStorageClassSpecifier decl then
    pure true
  else if ← ccParseTypeSpecifier typeDef then
    pure true
  else
    ccParseTypeQualifier

def ccParseDeclarationSpecifiers : Nat → CcAstNodeRef → ParseM Bool
  | 0, _ => halt .outOfFuel
  | fuel + 1, decl => do
      let state ← get
      match state.node decl with
      | .newVar _ _ typeDef _ =>
          if ← ccParseOneSpecifier decl typeDef then
            -- The call for the next specifier; its result is dropped.
            let _ ← ccParseDeclarationSpecifiers fuel decl
            pure true
          else
            pure false
      | _ => halt (.assertion .ccParseDeclarationSpecifiers)

/-! ### Declarators -/

def ccParseAbstractDeclarator (_decl : CcAstNodeRef) : ParseM Bool := pure false

def ccParsePointer (_decl : CcAstNodeRef) : ParseM Bool := pure false

/-- `node->data.new_var.name = name`, after the assertion that the node is a `NEW_VAR`. -/
def ccSetVarName (decl : CcAstNodeRef) (name : CcStrview) : ParseM Unit := do
  let state ← get
  match state.node decl with
  | .newVar _ init typeDef flags =>
      modify (fun s => s.setNode decl (.newVar name init typeDef flags)) (setNode_step _ _)
  | _ => pure ()

def CcState.typeDefOf (state : CcState) (decl : CcAstNodeRef) : CcAstNodeRef :=
  match state.node decl with
  | .newVar _ _ typeDef _ => typeDef
  | _ => 0

def CcState.initOf (state : CcState) (decl : CcAstNodeRef) : CcAstNodeRef :=
  match state.node decl with
  | .newVar _ init _ _ => init
  | _ => 0

/-- The declarator's type becomes the return type of a fresh function type. -/
def ccMakeFunctionType (decl : CcAstNodeRef) : ParseM Unit := do
  let state ← get
  let typeDef := state.typeDefOf decl
  let copyType ← ccAstCopyNode typeDef
  let copied ← get
  match copied.node typeDef with
  | .newType _ _ _ =>
      modify (fun s => s.setNode typeDef (.newType copyType none ccAstTypeFlagsFunction))
        (setNode_step _ _)
  | _ => halt (.assertion .ccParseDirectDeclarator)

mutual

def ccParseParameterDeclaration : Nat → CcAstNodeRef → ParseM Bool
  | 0, _ => halt .outOfFuel
  | fuel + 1, decl => do
      let paramTypeDef ← ccAstPushNode (.newType 0 none 0)
      let paramDecl ← ccAstPushNode (.newVar ⟨0, 0⟩ 0 paramTypeDef 0)
      if ← ccParseDeclarationSpecifiers fuel paramDecl then
        let state ← get
        match state.node decl with
        | .newVar _ _ _ _ =>
            if ← ccParseDeclarator fuel paramDecl then
              let after ← get
              ccAstPushChildrenToType (after.typeDefOf decl) paramDecl
              pure true
            else if ← ccParseAbstractDeclarator paramDecl then
              halt .abort
            else
              halt .abort
        | _ => halt (.assertion .ccParseParameterDeclaration)
      else
        -- Not in the order of the pushes: the variable node lies above the type node.
        ccAstPopNode paramTypeDef
        ccAstPopNode paramDecl
        pure false

def ccParseParameterList : Nat → CcAstNodeRef → ParseM Bool
  | 0, _ => halt .outOfFuel
  | fuel + 1, decl => do
      if ← ccParseParameterDeclaration fuel decl then
        let tok ← ccPeekToken 0
        if tok.type = .comma then
          ccNextToken
          -- `continue`; after the loop the source returns false in every case.
          ccParseParameterList fuel decl
        else
          pure false
      else
        pure false

def ccParseParameterTypeList : Nat → CcAstNodeRef → ParseM Bool
  | 0, _ => halt .outOfFuel
  | fuel + 1, decl => do
      if ← ccParseParameterList fuel decl then
        let tok ← ccPeekToken 0
        if tok.type = .comma then
          ccNextToken
          let dots ← ccPeekToken 0
          if dots.type = .ellipsis then
            pure true
          else
            halt .abort
        else
          pure true
      else
        pure false

def ccParseDirectDeclarator : Nat → CcAstNodeRef → ParseM Bool
  | 0, _ => halt .outOfFuel
  | fuel + 1, decl => do
      let tok ← ccPeekToken 0
      let state ← get
      match state.node decl with
      | .newVar _ _ _ _ =>
          if tok.type = .ident then
            ccNextToken
            ccSetVarName decl tok.data
            let after ← ccPeekToken 0
            if after.type = .lparen then
              ccMakeFunctionType decl
              ccNextToken
              let _ ← ccParseParameterTypeList fuel decl
              let close ← ccPeekToken 0
              if close.type = .rparen then
                ccNextToken
                pure true
              else
                halt .abort
            else
              pure true
          else if tok.type = .lparen then
            ccNextToken
            if ← ccParseDeclarator fuel decl then
              let close ← ccPeekToken 0
              if close.type = .rparen then
                ccNextToken
                pure true
              else
                halt .abort
            else
              halt .abort
          else
            pure false
      | _ => halt (.assertion .ccParseDirectDeclarator)

def ccParseDeclarator : Nat → CcAstNodeRef → ParseM Bool
  | 0, _ => halt .outOfFuel
  | fuel + 1, decl => do
      let _ ← ccParsePointer decl
      ccParseDirectDeclarator fuel decl

end

def ccParseFunctionDefinition (fuel : Nat) (decl : CcAstNodeRef) : ParseM Bool := do
  let state ← get
  match state.node decl with
  | .newVar _ _ _ _ =>
      let _ ← ccParseDeclarationSpecifiers fuel decl
      if ← ccParseDeclarator fuel decl then
        let after ← get
        ccParseCompoundStatement fuel (after.initOf decl)
      else
        pure false
  | _ => halt (.assertion .ccParseFunctionDefinition)

def ccAstNil : CcAstNodeRef := 0

def ccParseExternalDeclaration (fuel : Nat) : ParseM CcAstNodeRef := do
  let typeDef ← ccAstPushNode (.newType 0 none 0)
  let declInit ← ccAstPushNode (.block none)
  let decl ← ccAstPushNode (.newVar ⟨0, 0⟩ declInit typeDef 0)
  if ← ccParseFunctionDefinition fuel decl then
    pure decl
  else
    ccAstPopNode decl
    ccAstPopNode declInit
    ccAstPopNode typeDef
    pure ccAstNil

def ccParseUnitLoop : Nat → CcAstNodeRef → ParseM Unit
  | 0, _ => halt .outOfFuel
  | fuel + 1, block => do
      let node ← ccParseExternalDeclaration fuel
      if node ≠ ccAstNil then
        ccAstPushChildrenToBlock block node
        ccParseUnitLoop fuel block
      else
        pure ()

/-- `cc_parse_translation_unit` up to its dump and coalesce steps. -/
def ccParseUnit (fuel : Nat) : ParseM CcAstNodeRef := do
  let _emptyNode ← ccAstPushNode .invalid
  let block ← ccAstPushNode (.block none)
  ccParseUnitLoop fuel block
  pure block

end Estros
