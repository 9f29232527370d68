import Estros.SsaPasses

/-!
The code generator of asm.c: the register table, the lines that the tokens become, and the
text of the lines. The table is the mapped array with its element count; a line keeps the
numbers of its registers, and has a text only if all of them have a name.
-/

namespace Estros

/-! The values of `cc_asm_register_t`: the physical registers in the order of
`CC_ASM_REGISTER_LIST`, and from `CC_ASM_REGISTER_SPILL` on the spills. -/

def ccAsmRegisterF0 : Nat := 0
def ccAsmRegisterF15 : Nat := 15
def ccAsmRegisterT0 : Nat := 16
def ccAsmRegisterT7 : Nat := 23
def ccAsmRegisterA0 : Nat := 24
def ccAsmRegisterA3 : Nat := 27
def ccAsmRegisterRa : Nat := 28
def ccAsmRegisterBp : Nat := 29
def ccAsmRegisterSp : Nat := 30
def ccAsmRegisterTp : Nat := 31
def ccAsmRegisterSpill : Nat := 32

def asmRegname : List String :=
  ["$f0", "$f1", "$f2", "$f3", "$f4", "$f5", "$f6", "$f7", "$f8", "$f9", "$f10", "$f11", "$f12",
    "$f13", "$f14", "$f15", "$t0", "$t1", "$t2", "$t3", "$t4", "$t5", "$t6", "$t7", "$a0", "$a1",
    "$a2", "$a3", "$ra", "$bp", "$sp", "$tp"]

/-- `enum cc_asm_register_category`, the ones that are asked for. -/
inductive CcAsmRegisterCategory where
  | integer | float
  deriving DecidableEq

inductive CcAsmInsn where
  | add | sub | mul | div | rem | shl | shr | xor | or | and
  deriving DecidableEq

def CcAsmInsn.mnemonic : CcAsmInsn → String
  | .add => "add"
  | .sub => "sub"
  | .mul => "mul"
  | .div => "div"
  | .rem => "rem"
  | .shl => "shl"
  | .shr => "shr"
  | .xor => "xor"
  | .or => "or"
  | .and => "and"

/-- What one call of `cc_asm_write` appends, by its format. -/
inductive CcAsmLine where
  | section (name : String)
  | label (name : List UInt8)
  | binop (insn : CcAsmInsn) (res arg0 arg1 : Nat)
  | orZero (res arg0 arg1 : Nat)
  | andMask (res arg0 arg1 : Nat)
  | load (mnemonic : String) (res : Nat) (id : BitVec 12)
  | ret
  | dataLabel (id : BitVec 12)
  /-- `.quad %016x` and its shorter forms, with the bytes as they stand in memory -/
  | data (directive : String) (bytes : List UInt8)
  deriving DecidableEq

def hexByte (byte : UInt8) : List UInt8 :=
  let digit (value : Nat) := UInt8.ofNat (if value < 10 then 48 + value else 87 + value)
  [digit (byte.toNat / 16), digit (byte.toNat % 16)]

/-- `asm_regname[reg]`; behind the end of the table there is no name. -/
def regnameText (reg : Nat) : Option (List UInt8) := asmRegname[reg]?.map ascii

def CcAsmLine.text : CcAsmLine → Option (List UInt8)
  | .section name => some (ascii ".section " ++ ascii name ++ ascii "\n")
  | .label name => some (name ++ ascii ":\n")
  | .binop insn res arg0 arg1 => do
      let res ← regnameText res
      let arg0 ← regnameText arg0
      let arg1 ← regnameText arg1
      pure (ascii "\t" ++ ascii insn.mnemonic ++ ascii " " ++ res ++ ascii "," ++ arg0 ++ ascii "," ++
        arg1 ++ ascii "\n")
  | .orZero res arg0 arg1 => do
      let res ← regnameText res
      let arg0 ← regnameText arg0
      let arg1 ← regnameText arg1
      pure (ascii "\tor " ++ res ++ ascii "," ++ arg0 ++ ascii "," ++ arg1 ++ ascii ",0\n")
  | .andMask res arg0 arg1 => do
      let res ← regnameText res
      let arg0 ← regnameText arg0
      let arg1 ← regnameText arg1
      pure (ascii "\tand " ++ res ++ ascii "," ++ arg0 ++ ascii "," ++ arg1 ++ ascii ",0xff\n")
  | .load mnemonic res id => do
      let res ← regnameText res
      pure (ascii "\t" ++ ascii mnemonic ++ ascii " " ++ res ++ ascii ",D" ++ decimal id.toNat ++
        ascii "\n")
  | .ret => some (ascii "\tret\n")
  | .dataLabel id => some (ascii "D" ++ decimal id.toNat ++ ascii ":\n")
  -- The value is read in the byte order of the host, which is little-endian.
  | .data directive bytes =>
      some (ascii "\t" ++ ascii directive ++ ascii " " ++ bytes.reverse.flatMap hexByte ++ ascii "\n")

def asmText (lines : List CcAsmLine) : Option (List UInt8) :=
  (lines.mapM CcAsmLine.text).map List.flatten

/-- `cc_asm_state_t`. Entries of the table from `nRegInfo` on are memory of earlier
functions that may still hold what these stored. -/
structure CcAsmState where
  asmOut : List CcAsmLine
  regInfo : Nat → CcSsaArgument
  nRegInfo : Nat

def ccAsmWrite (as : CcAsmState) (line : CcAsmLine) : CcAsmState :=
  { as with asmOut := as.asmOut ++ [line] }

/-- `as->reg_info[reg] = arg`. -/
def CcAsmState.setReg (as : CcAsmState) (reg : Nat) (arg : CcSsaArgument) : CcAsmState :=
  { as with regInfo := fun other => if other = reg then arg else as.regInfo other }

/-- The first disjunct asks for `r >= A0 || r <= A3`, not for both. -/
def ccAsmIsFixedReg (r : Nat) : Bool :=
  (r ≥ ccAsmRegisterA0 || r ≤ ccAsmRegisterA3) || r = ccAsmRegisterRa || r = ccAsmRegisterTp ||
    r = ccAsmRegisterBp || r = ccAsmRegisterSp

def CcAsmState.firstEntry (as : CcAsmState) (id : BitVec 12) (first bound : Nat) :
    Option Nat :=
  (List.range' first (bound - first)).find? fun i => (as.regInfo i).id = id

def ccAsmFindFree (as : CcAsmState) (cat : CcAsmRegisterCategory) : Nat × CcAsmState :=
  let physical :=
    match cat with
    | .integer => as.firstEntry 0 ccAsmRegisterT0 ccAsmRegisterT7
    | .float => as.firstEntry 0 ccAsmRegisterF0 ccAsmRegisterF15
  match physical.or (as.firstEntry 0 ccAsmRegisterSpill as.nRegInfo) with
  | some reg => (reg, as)
  | none => (as.nRegInfo, { as with nRegInfo := as.nRegInfo + 1 })

def ccAsmRegalloc (as : CcAsmState) (cat : CcAsmRegisterCategory) (arg : CcSsaArgument) :
    Nat × CcAsmState :=
  let (reg, as) := ccAsmFindFree as cat
  (reg, as.setReg reg arg)

def ccAsmRegfree (as : CcAsmState) (reg : Nat) : Except Halt CcAsmState :=
  if (as.regInfo reg).id ≠ 0 then
    if ccAsmIsFixedReg reg then pure as else pure (as.setReg reg ⟨0, 0⟩)
  else
    throw (.assertion .ccAsmRegfree)

def ccAsmFindUsed (as : CcAsmState) (arg : CcSsaArgument) : Except Halt Nat :=
  match as.firstEntry arg.id 0 as.nRegInfo with
  | some reg => pure reg
  | none => throw .abort

def ccSsaIsUsedIn (tok : CcSsaToken) (arg : CcSsaArgument) : Bool :=
  match tok.type with
  | .rawData => tok.result.id = arg.id
  | _ => tok.args.any (fun used => used.id = arg.id) || tok.result.id = arg.id

def ccSsaIsLastUse (state : CcState) (func : CcSsaFunction) (offset : Nat) (arg : CcSsaArgument) :
    Except Halt Bool :=
  if offset < func.tokens.len.toNat then
    pure ((List.range' offset (func.tokens.len.toNat - offset)).all fun i =>
      !ccSsaIsUsedIn (state.ssaToken (func.at i)) arg)
  else
    throw (.assertion .ccSsaIsLastUse)

/-! ### Lowering -/

/-- The bytes of a raw data view; memory that was never written is zero. -/
def CcState.rawBytes (state : CcState) (raw : CcRawDataView) : List UInt8 :=
  (List.range raw.len.toNat).map fun i => state.rawData.getD (raw.pos.toNat + i) 0

def rawItems (directive : String) (size : Nat) (bytes : List UInt8) : List CcAsmLine × List UInt8 :=
  ((List.range (bytes.length / size)).map fun i =>
      .data directive ((bytes.drop (i * size)).take size),
    bytes.drop (bytes.length / size * size))

def ccAsmWriteRawData (state : CcState) (as : CcAsmState) (raw : CcRawDataView) : CcAsmState :=
  let (quads, rest) := rawItems ".quad" 8 (state.rawBytes raw)
  let (longs, rest) := rawItems ".long" 4 rest
  let (words, rest) := rawItems ".word" 2 rest
  let (singles, _) := rawItems ".byte" 1 rest
  (quads ++ longs ++ words ++ singles).foldl ccAsmWrite as

def ccAsmFreeIfLast (last : Except Halt Bool) (as : CcAsmState) (reg : Nat) :
    Except Halt CcAsmState := do
  if ← last then ccAsmRegfree as reg else pure as

/-- `cc_asm_generic_binop`, given what `cc_ssa_is_last_use` says of an argument. -/
def ccAsmBinop (lastUse : CcSsaArgument → Except Halt Bool) (insn : CcAsmInsn) (tok : CcSsaToken)
    (as : CcAsmState) : Except Halt CcAsmState := do
  let (res, as) := ccAsmRegalloc as .integer tok.result
  let arg0 ← ccAsmFindUsed as (tok.arg 0)
  let arg1 ← ccAsmFindUsed as (tok.arg 1)
  let as := ccAsmWrite as (.binop insn res arg0 arg1)
  let as ← ccAsmFreeIfLast (lastUse (tok.arg 0)) as arg0
  ccAsmFreeIfLast (lastUse (tok.arg 1)) as arg1

/-- The copy of a parameter. `param_reg` is computed from the operand, whatever it is. -/
def ccAsmIdentity (tok : CcSsaToken) (as : CcAsmState) : Except Halt CcAsmState :=
  let (reg, as) := ccAsmRegalloc as .integer tok.result
  let paramReg := ccAsmRegisterA0 + (tok.arg 0).id.toNat - 2
  if ccAsmRegisterA0 ≤ paramReg ∧ paramReg ≤ ccAsmRegisterA3 then
    if (tok.arg 0).width = ccSsaWidthSet 32 then
      pure (ccAsmWrite as (.orZero reg paramReg paramReg))
    else if (tok.arg 0).width = ccSsaWidthSet 16 then
      pure (ccAsmWrite as (.orZero reg paramReg paramReg))
    else if (tok.arg 0).width = ccSsaWidthSet 8 then
      pure (ccAsmWrite (ccAsmWrite as (.orZero reg paramReg paramReg)) (.andMask reg reg reg))
    else
      throw .abort
  else
    pure as

def ccAsmRawData (tok : CcSsaToken) (as : CcAsmState) : Except Halt CcAsmState :=
  let (reg, as) := ccAsmRegalloc as .integer tok.result
  if tok.result.width = ccSsaWidthSet 32 then
    pure (ccAsmWrite as (.load "ldl" reg tok.result.id))
  else if tok.result.width = ccSsaWidthSet 16 then
    pure (ccAsmWrite as (.load "ldw" reg tok.result.id))
  else
    throw .abort

/-- The switch of `cc_asm_lower_func`. -/
def ccAsmSwitch (lastUse : CcSsaArgument → Except Halt Bool) (tok : CcSsaToken) (as : CcAsmState) :
    Except Halt CcAsmState :=
  match tok.type with
  | .identity => ccAsmIdentity tok as
  | .rawData => ccAsmRawData tok as
  | .add => ccAsmBinop lastUse .add tok as
  | .sub => ccAsmBinop lastUse .sub tok as
  | .mul => ccAsmBinop lastUse .mul tok as
  | .div => ccAsmBinop lastUse .div tok as
  | .rem => ccAsmBinop lastUse .rem tok as
  | .lshift => ccAsmBinop lastUse .shl tok as
  | .rshift => ccAsmBinop lastUse .shr tok as
  | .xor => ccAsmBinop lastUse .xor tok as
  | .or => ccAsmBinop lastUse .or tok as
  | .and => ccAsmBinop lastUse .and tok as
  | .ret => pure (ccAsmWrite as .ret)
  | _ => pure as

/-- The body of the loop of `cc_asm_lower_func`. -/
def ccAsmLowerAt (state : CcState) (func : CcSsaFunction) (i : Nat) (as : CcAsmState) :
    Except Halt CcAsmState :=
  ccAsmSwitch (ccSsaIsLastUse state func (i + 1)) (state.ssaToken (func.at i)) as

def ccAsmDataAt (state : CcState) (func : CcSsaFunction) (i : Nat) (as : CcAsmState) : CcAsmState :=
  let tok := state.ssaToken (func.at i)
  if tok.type = .rawData then
    ccAsmWriteRawData state (ccAsmWrite as (.dataLabel tok.result.id)) tok.raw
  else
    as

def ccAsmFuncHeader (state : CcState) (func : CcSsaFunction) (as : CcAsmState) : CcAsmState :=
  ccAsmWrite (ccAsmWrite as (.section ".text")) (.label (cString (ccStrviewGet state func.name)))

def ccAsmLowerFunc (state : CcState) (func : CcSsaFunction) (as : CcAsmState) :
    Except Halt CcAsmState := do
  let as := ccAsmFuncHeader state func as
  let as ← countedLoop (ccAsmLowerAt state func) func.tokens.len.toNat 0 as
  let as := ccAsmWrite as (.section ".data")
  pure (countedLoop (ccAsmDataAt state func) func.tokens.len.toNat 0 as : Id CcAsmState)

def CcAsmState.reset (as : CcAsmState) : CcAsmState :=
  { as with
    regInfo := fun reg =>
      if ccAsmRegisterA0 ≤ reg ∧ reg < ccAsmRegisterA0 + 4 then
        ⟨ccSsaIdParam (reg - ccAsmRegisterA0), ccSsaWidthSet 32⟩
      else if reg < ccAsmRegisterSpill then ⟨0, 0⟩
      else as.regInfo reg
    nRegInfo := ccAsmRegisterSpill }

def CcAsmState.init : CcAsmState := ⟨[], fun _ => ⟨0, 0⟩, 0⟩

/-- The body of the loop of `cc_asm_lower_ssa`. -/
def ccAsmLowerSsaAt (state : CcState) (i : Nat) (as : CcAsmState) : Except Halt CcAsmState :=
  ccAsmLowerFunc state (state.ssaFuncs.getD i default) as.reset

/-- What is written up to the end; it is printed only if nothing aborts before. -/
def ccAsmLowerSsa (state : CcState) : Except Halt (List CcAsmLine) := do
  let as ← countedLoop (ccAsmLowerSsaAt state) state.ssaFuncs.length 0 CcAsmState.init
  pure as.asmOut

/-- The tokens for which the switch calls `cc_asm_regalloc`. -/
def CcSsaTokenType.allocates : CcSsaTokenType → Bool
  | .identity | .rawData | .add | .sub | .mul | .div | .rem | .lshift | .rshift | .xor | .or
  | .and => true
  | _ => false

/-- The register that the switch takes for a token, if it takes one. -/
def ccAsmTaken (tok : CcSsaToken) (as : CcAsmState) : List Nat :=
  if tok.type.allocates then [(ccAsmFindFree as .integer).1] else []

/-- The registers that `cc_asm_find_free` chooses in `count` rounds of the loop of
`cc_asm_lower_func`, up to the round that stops the program if there is one. -/
def ccAsmHandedOut (state : CcState) (func : CcSsaFunction) : Nat → Nat → CcAsmState → List Nat
  | 0, _, _ => []
  | count + 1, i, as =>
      ccAsmTaken (state.ssaToken (func.at i)) as ++
        match ccAsmLowerAt state func i as with
        | .ok next => ccAsmHandedOut state func count (i + 1) next
        | .error _ => []

/-- `cc_ssa_is_last_use` for an offset behind which there are the tokens `rest`. -/
def lastUseIn (rest : List CcSsaToken) (arg : CcSsaArgument) : Except Halt Bool :=
  if rest = [] then throw (.assertion .ccSsaIsLastUse)
  else pure (rest.all fun tok => !ccSsaIsUsedIn tok arg)

/-- The loop of `cc_asm_lower_func` over the tokens `front`, behind which there are `back`. -/
def lowerTokens : List CcSsaToken → List CcSsaToken → CcAsmState → Except Halt CcAsmState
  | [], _, as => pure as
  | tok :: rest, back, as => do
      let as ← ccAsmSwitch (lastUseIn (rest ++ back)) tok as
      lowerTokens rest back as

def handedOut : List CcSsaToken → List CcSsaToken → CcAsmState → List Nat
  | [], _, _ => []
  | tok :: rest, back, as =>
      ccAsmTaken tok as ++
        match ccAsmSwitch (lastUseIn (rest ++ back)) tok as with
        | .ok next => handedOut rest back next
        | .error _ => []

theorem lowerTokens_append (first second back : List CcSsaToken) (as : CcAsmState) :
    lowerTokens (first ++ second) back as =
      lowerTokens first (second ++ back) as >>= lowerTokens second back := by
  induction first generalizing as with
  | nil => rfl
  | cons tok rest ih =>
      rw [List.cons_append, lowerTokens, lowerTokens, bind_assoc, List.append_assoc]
      exact bind_congr fun next => ih next

section Views

variable {state : CcState} {func : CcSsaFunction}

theorem funcToken_at (inside : state.ViewInside func) {done tail : List CcSsaToken}
    {tok : CcSsaToken} (split : state.funcTokens func = done ++ tok :: tail) :
    state.ssaToken (func.at done.length) = tok := by
  have same := withFuncTokens_self state func
  rw [split] at same
  have read := ssaToken_at inside done tail tok
  rwa [same] at read

theorem isLastUse_view (inside : state.ViewInside func) {done rest : List CcSsaToken}
    (split : state.funcTokens func = done ++ rest) :
    ccSsaIsLastUse state func done.length = lastUseIn rest := by
  funext arg
  have size := funcTokens_length inside
  rw [split, List.length_append] at size
  rw [ccSsaIsLastUse, lastUseIn]
  by_cases empty : rest = []
  · subst empty
    simp only [List.length_nil, Nat.add_zero] at size
    rw [if_neg (by omega), if_pos rfl]
  · have some := List.length_pos_iff.mpr empty
    have count : func.tokens.len.toNat - done.length = rest.length := by omega
    rw [if_pos (by omega), if_neg empty, count]
    congr 1
    -- The indices behind the offset are those of the tokens behind it.
    clear size empty some count
    induction rest generalizing done with
    | nil => rfl
    | cons tok tail ih =>
        have next := ih (split.trans (List.append_cons done tok tail))
        rw [List.length_append, List.length_singleton] at next
        rw [List.length_cons, List.range'_succ, List.all_cons, List.all_cons, next,
          funcToken_at inside split]

theorem lowerAt_view (inside : state.ViewInside func) (done front back : List CcSsaToken)
    (split : state.funcTokens func = done ++ (front ++ back)) (as : CcAsmState) :
    countedLoop (ccAsmLowerAt state func) front.length done.length as =
      lowerTokens front back as := by
  induction front generalizing done as with
  | nil => rfl
  | cons tok rest ih =>
      have next : state.funcTokens func = (done ++ [tok]) ++ (rest ++ back) :=
        split.trans (List.append_cons done tok (rest ++ back))
      have moved := fun later => ih (done ++ [tok]) next later
      have last := isLastUse_view inside next
      simp only [List.length_append, List.length_singleton] at moved last
      rw [List.length_cons, countedLoop, lowerTokens, ccAsmLowerAt, funcToken_at inside split, last]
      exact bind_congr moved

theorem dataAt_view (inside : state.ViewInside func) (done front back : List CcSsaToken)
    (split : state.funcTokens func = done ++ (front ++ back))
    (plain : ∀ tok ∈ front, tok.type ≠ .rawData) (as : CcAsmState) :
    (countedLoop (ccAsmDataAt state func) front.length done.length as : Id CcAsmState) = as := by
  induction front generalizing done with
  | nil => rfl
  | cons tok rest ih =>
      have next : state.funcTokens func = (done ++ [tok]) ++ (rest ++ back) :=
        split.trans (List.append_cons done tok (rest ++ back))
      have moved := ih (done ++ [tok]) next fun other member => plain other (List.mem_cons_of_mem _ member)
      rw [List.length_append, List.length_singleton] at moved
      have skipped : ccAsmDataAt state func done.length as = as := by
        simp only [ccAsmDataAt, funcToken_at inside split]
        exact if_neg (plain tok List.mem_cons_self)
      change (countedLoop (ccAsmDataAt state func) rest.length (done.length + 1)
        (ccAsmDataAt state func done.length as) : Id CcAsmState) = as
      rw [skipped]
      exact moved

theorem handedOut_view (inside : state.ViewInside func) (done front back : List CcSsaToken)
    (split : state.funcTokens func = done ++ (front ++ back)) (as : CcAsmState) :
    ccAsmHandedOut state func front.length done.length as = handedOut front back as := by
  induction front generalizing done as with
  | nil => rfl
  | cons tok rest ih =>
      have next : state.funcTokens func = (done ++ [tok]) ++ (rest ++ back) :=
        split.trans (List.append_cons done tok (rest ++ back))
      have moved := fun later => ih (done ++ [tok]) next later
      have last := isLastUse_view inside next
      simp only [List.length_append, List.length_singleton] at moved last
      rw [List.length_cons, ccAsmHandedOut, handedOut, ccAsmLowerAt, funcToken_at inside split, last]
      cases ccAsmSwitch (lastUseIn (rest ++ back)) tok as with
      | ok later => exact congrArg _ (moved later)
      | error why => rfl

end Views

end Estros
