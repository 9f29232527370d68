import Mathlib.Data.List.Find
import Estros.AsmRegisters
import Estros.SsaIndependence

/-!
The register table is shared by all functions too, and only a part of it is cleared between
them. The lines of a function nevertheless depend on its name and its tokens only: two runs
that agree on the entries in use write the same lines.
-/

namespace Estros

def rawLines (bytes : List UInt8) : List CcAsmLine :=
  let (quads, rest) := rawItems ".quad" 8 bytes
  let (longs, rest) := rawItems ".long" 4 rest
  let (words, rest) := rawItems ".word" 2 rest
  let (singles, _) := rawItems ".byte" 1 rest
  quads ++ longs ++ words ++ singles

def dataLines (raw : CcRawDataView → List UInt8) (toks : List CcSsaToken) : List CcAsmLine :=
  toks.flatMap fun tok =>
    if tok.type = .rawData then .dataLabel tok.result.id :: rawLines (raw tok.raw) else []

/-- `cc_asm_lower_func` on a name and a list of tokens. -/
def lowerFunction (name : List UInt8) (raw : CcRawDataView → List UInt8) (toks : List CcSsaToken)
    (as : CcAsmState) : Except Halt CcAsmState := do
  let as ← lowerTokens toks [] (ccAsmWrite (ccAsmWrite as (.section ".text")) (.label name))
  pure ((dataLines raw toks).foldl ccAsmWrite (ccAsmWrite as (.section ".data")))

section Views

variable {state : CcState} {func : CcSsaFunction}

theorem dataAt_lines (inside : state.ViewInside func) (done front back : List CcSsaToken)
    (split : state.funcTokens func = done ++ (front ++ back)) (as : CcAsmState) :
    (countedLoop (ccAsmDataAt state func) front.length done.length as : Id CcAsmState) =
      (dataLines state.rawBytes front).foldl ccAsmWrite as := by
  induction front generalizing done as with
  | nil => rfl
  | cons tok rest ih =>
      have next : state.funcTokens func = (done ++ [tok]) ++ (rest ++ back) :=
        split.trans (List.append_cons done tok (rest ++ back))
      have moved := fun later => ih (done ++ [tok]) next later
      rw [List.length_append, List.length_singleton] at moved
      have written : ccAsmDataAt state func done.length as =
          (dataLines state.rawBytes [tok]).foldl ccAsmWrite as := by
        simp only [ccAsmDataAt, funcToken_at inside split, dataLines, List.flatMap_singleton]
        split
        · rfl
        · rfl
      have parts : dataLines state.rawBytes (tok :: rest) =
          dataLines state.rawBytes [tok] ++ dataLines state.rawBytes rest := by
        rw [dataLines, List.flatMap_cons, dataLines, List.flatMap_singleton, dataLines]
      change (countedLoop (ccAsmDataAt state func) rest.length (done.length + 1)
        (ccAsmDataAt state func done.length as) : Id CcAsmState) = _
      rw [written, parts, List.foldl_append]
      exact moved _

theorem lowerFunc_view (inside : state.ViewInside func) (as : CcAsmState) :
    ccAsmLowerFunc state func as = lowerFunction (cString (ccStrviewGet state func.name))
      state.rawBytes (state.funcTokens func) as := by
  have whole : state.funcTokens func = [] ++ (state.funcTokens func ++ []) := by simp
  have code := lowerAt_view inside [] _ [] whole (ccAsmFuncHeader state func as)
  have data := dataAt_lines inside [] _ [] whole
  rw [funcTokens_length inside] at code data
  rw [ccAsmLowerFunc, lowerFunction]
  simp only [List.length_nil] at code data
  rw [code]
  exact bind_congr fun after => congrArg Except.ok (data _)

end Views

/-! ### Two runs that agree on the entries in use -/

/-- Both runs have written the same lines since they had written `left` and `right`, and agree
on the entries of the table that are in use. -/
structure SameRun (left right : List CcAsmLine) (as bs : CcAsmState) : Prop where
  written : ∃ lines, as.asmOut = left ++ lines ∧ bs.asmOut = right ++ lines
  size : bs.nRegInfo = as.nRegInfo
  physical : ccAsmRegisterSpill ≤ as.nRegInfo
  entries : ∀ reg < as.nRegInfo, bs.regInfo reg = as.regInfo reg

section Runs

variable {left right : List CcAsmLine} {as bs : CcAsmState}

theorem reset_same (as bs : CcAsmState) : SameRun as.asmOut bs.asmOut as.reset bs.reset := by
  refine ⟨⟨[], by simp [CcAsmState.reset], by simp [CcAsmState.reset]⟩, rfl, Nat.le_refl _, ?_⟩
  intro reg low
  have physical : reg < ccAsmRegisterSpill := low
  simp only [CcAsmState.reset, if_pos physical]

theorem SameRun.write (same : SameRun left right as bs) (line : CcAsmLine) :
    SameRun left right (ccAsmWrite as line) (ccAsmWrite bs line) := by
  obtain ⟨lines, one, other⟩ := same.written
  refine ⟨⟨lines ++ [line], ?_, ?_⟩, same.size, same.physical, same.entries⟩
  · rw [ccAsmWrite, one, List.append_assoc]
  · rw [ccAsmWrite, other, List.append_assoc]

theorem SameRun.writes (same : SameRun left right as bs) (lines : List CcAsmLine) :
    SameRun left right (lines.foldl ccAsmWrite as) (lines.foldl ccAsmWrite bs) := by
  induction lines generalizing as bs with
  | nil => exact same
  | cons line rest ih => exact ih (same.write line)

theorem SameRun.setReg (same : SameRun left right as bs) (reg : Nat) (arg : CcSsaArgument) :
    SameRun left right (as.setReg reg arg) (bs.setReg reg arg) := by
  refine ⟨same.written, same.size, same.physical, fun other below => ?_⟩
  rw [setReg_regInfo, setReg_regInfo]
  split
  · rfl
  · exact same.entries other below

theorem SameRun.grow (same : SameRun left right as bs) (arg : CcSsaArgument) :
    SameRun left right
      (({ as with nRegInfo := as.nRegInfo + 1 } : CcAsmState).setReg as.nRegInfo arg)
      (({ bs with nRegInfo := bs.nRegInfo + 1 } : CcAsmState).setReg bs.nRegInfo arg) := by
  have size := same.size
  refine ⟨same.written, congrArg (· + 1) size, Nat.le_succ_of_le same.physical, fun reg below => ?_⟩
  rw [setReg_regInfo, setReg_regInfo, size]
  split
  · rfl
  · rename_i other
    exact same.entries reg (Nat.lt_of_le_of_ne (Nat.le_of_lt_succ below) other)

theorem SameRun.firstEntry (same : SameRun left right as bs) (id : BitVec 12) (first : Nat)
    {bound : Nat} (below : bound ≤ as.nRegInfo) :
    bs.firstEntry id first bound = as.firstEntry id first bound := by
  refine List.find?_congr fun reg member => ?_
  have high := List.mem_range'_1.mp member
  rw [same.entries reg (by omega)]

theorem SameRun.alloc (same : SameRun left right as bs) (cat : CcAsmRegisterCategory)
    (arg : CcSsaArgument) :
    (ccAsmRegalloc bs cat arg).1 = (ccAsmRegalloc as cat arg).1 ∧
      SameRun left right (ccAsmRegalloc as cat arg).2 (ccAsmRegalloc bs cat arg).2 := by
  have physical : 32 ≤ as.nRegInfo := same.physical
  have spills : bs.firstEntry 0 ccAsmRegisterSpill bs.nRegInfo =
      as.firstEntry 0 ccAsmRegisterSpill as.nRegInfo := by
    rw [same.size]
    exact same.firstEntry 0 ccAsmRegisterSpill (Nat.le_refl _)
  have temporaries : bs.firstEntry 0 ccAsmRegisterT0 ccAsmRegisterT7 = _ :=
    same.firstEntry 0 ccAsmRegisterT0 (Nat.le_trans (by decide) physical)
  have floats : bs.firstEntry 0 ccAsmRegisterF0 ccAsmRegisterF15 = _ :=
    same.firstEntry 0 ccAsmRegisterF0 (Nat.le_trans (by decide) physical)
  cases cat with
  | integer =>
      simp only [ccAsmRegalloc, ccAsmFindFree, temporaries, spills]
      cases (as.firstEntry 0 ccAsmRegisterT0 ccAsmRegisterT7).or _ with
      | some reg => exact ⟨rfl, same.setReg reg arg⟩
      | none => exact ⟨same.size, same.grow arg⟩
  | float =>
      simp only [ccAsmRegalloc, ccAsmFindFree, floats, spills]
      cases (as.firstEntry 0 ccAsmRegisterF0 ccAsmRegisterF15).or _ with
      | some reg => exact ⟨rfl, same.setReg reg arg⟩
      | none => exact ⟨same.size, same.grow arg⟩

theorem SameRun.findUsed (same : SameRun left right as bs) (arg : CcSsaArgument) :
    ccAsmFindUsed bs arg = ccAsmFindUsed as arg := by
  rw [ccAsmFindUsed, ccAsmFindUsed, same.size, same.firstEntry arg.id 0 (Nat.le_refl _)]

theorem findUsed_below {as : CcAsmState} {arg : CcSsaArgument} {reg : Nat}
    (found : ccAsmFindUsed as arg = .ok reg) : reg < as.nRegInfo := by
  rw [ccAsmFindUsed] at found
  cases search : as.firstEntry arg.id 0 as.nRegInfo with
  | none =>
      rw [search] at found
      cases found
  | some other =>
      rw [search] at found
      cases Except.ok.inj found
      exact (firstEntry_eq_some.mp search).2.1.2

theorem SameRun.freeIfLast (same : SameRun left right as bs) (last : Except Halt Bool) {reg : Nat}
    (below : reg < as.nRegInfo) :
    Matched (fun a b => SameRun left right a b ∧ a.nRegInfo = as.nRegInfo)
      (ccAsmFreeIfLast last as reg) (ccAsmFreeIfLast last bs reg) := by
  rw [ccAsmFreeIfLast, ccAsmFreeIfLast]
  cases last with
  | error why => exact .error why
  | ok free =>
      cases free with
      | false => exact .ok ⟨same, rfl⟩
      | true =>
          change Matched _ (ccAsmRegfree as reg) (ccAsmRegfree bs reg)
          rw [ccAsmRegfree, ccAsmRegfree, same.entries reg below]
          split
          · split
            · exact .ok ⟨same, rfl⟩
            · exact .ok ⟨same.setReg reg _, rfl⟩
          · exact .error _

theorem SameRun.binop (same : SameRun left right as bs)
    (lastUse : CcSsaArgument → Except Halt Bool) (insn : CcAsmInsn) (tok : CcSsaToken) :
    Matched (SameRun left right) (ccAsmBinop lastUse insn tok as)
      (ccAsmBinop lastUse insn tok bs) := by
  obtain ⟨reg, taken⟩ := same.alloc .integer tok.result
  simp only [ccAsmBinop, reg, taken.findUsed]
  generalize (ccAsmRegalloc as .integer tok.result).2 = grown at taken ⊢
  cases found0 : ccAsmFindUsed grown (tok.arg 0) with
  | error why => exact .error why
  | ok arg0 =>
      cases found1 : ccAsmFindUsed grown (tok.arg 1) with
      | error why => exact .error why
      | ok arg1 =>
          have wrote := taken.write
            (.binop insn (ccAsmRegalloc as .integer tok.result).1 arg0 arg1)
          refine (wrote.freeIfLast (lastUse (tok.arg 0)) (findUsed_below found0)).bind ?_
          rintro a b ⟨freed, size⟩
          have below : arg1 < a.nRegInfo := size ▸ findUsed_below found1
          exact (freed.freeIfLast (lastUse (tok.arg 1)) below).mono fun _ _ both => both.1

theorem SameRun.identity (same : SameRun left right as bs) (tok : CcSsaToken) :
    Matched (SameRun left right) (ccAsmIdentity tok as) (ccAsmIdentity tok bs) := by
  obtain ⟨reg, taken⟩ := same.alloc .integer tok.result
  simp only [ccAsmIdentity, reg]
  repeat' split
  · exact .ok (taken.write _)
  · exact .ok (taken.write _)
  · exact .ok ((taken.write _).write _)
  · exact .error _
  · exact .ok taken

theorem SameRun.rawData (same : SameRun left right as bs) (tok : CcSsaToken) :
    Matched (SameRun left right) (ccAsmRawData tok as) (ccAsmRawData tok bs) := by
  obtain ⟨reg, taken⟩ := same.alloc .integer tok.result
  simp only [ccAsmRawData, reg]
  repeat' split
  · exact .ok (taken.write _)
  · exact .ok (taken.write _)
  · exact .error _

theorem SameRun.switch (same : SameRun left right as bs)
    (lastUse : CcSsaArgument → Except Halt Bool) (tok : CcSsaToken) :
    Matched (SameRun left right) (ccAsmSwitch lastUse tok as) (ccAsmSwitch lastUse tok bs) := by
  rw [ccAsmSwitch, ccAsmSwitch]
  cases tok.type with
  | identity => exact same.identity tok
  | rawData => exact same.rawData tok
  | ret => exact .ok (same.write .ret)
  | add | sub | mul | div | rem | lshift | rshift | xor | or | and =>
      exact same.binop lastUse _ tok
  | _ => exact .ok same

theorem SameRun.lowerTokens (same : SameRun left right as bs) (toks back : List CcSsaToken) :
    Matched (SameRun left right) (lowerTokens toks back as) (lowerTokens toks back bs) := by
  induction toks generalizing as bs with
  | nil => exact .ok same
  | cons tok rest ih => exact (same.switch _ tok).bind fun _ _ next => ih next

theorem SameRun.lowerFunction (same : SameRun left right as bs) (name : List UInt8)
    {raw other : CcRawDataView → List UInt8} {toks : List CcSsaToken}
    (bytes : ∀ tok ∈ toks, tok.type = .rawData → other tok.raw = raw tok.raw) :
    Matched (SameRun left right) (lowerFunction name raw toks as)
      (lowerFunction name other toks bs) := by
  have data : dataLines other toks = dataLines raw toks := by
    refine List.flatMap_congr fun tok member => ?_
    split
    · rename_i holds
      rw [bytes tok member holds]
    · rfl
  rw [Estros.lowerFunction, Estros.lowerFunction, data]
  exact (((same.write _).write _).lowerTokens toks []).bind fun _ _ next =>
    .ok ((next.write _).writes _)

end Runs

def LoweredTo (state : CcState) (i : Nat) (lines : List CcAsmLine) : Prop :=
  ∃ before after, countedLoop (ccAsmLowerSsaAt state) i 0 CcAsmState.init = .ok before ∧
    ccAsmLowerSsaAt state i before = .ok after ∧ after.asmOut = before.asmOut ++ lines

theorem lowerSsaAt_view {state : CcState} {func : CcSsaFunction} {i : Nat}
    (here : state.ssaFuncs[i]? = some func) (inside : state.ViewInside func) (as : CcAsmState) :
    ccAsmLowerSsaAt state i as = lowerFunction (cString (ccStrviewGet state func.name))
      state.rawBytes (state.funcTokens func) as.reset := by
  have found : state.ssaFuncs.getD i default = func := by
    rw [List.getD_eq_getElem?_getD, here, Option.getD_some]
  rw [ccAsmLowerSsaAt, found, lowerFunc_view inside]

structure SameFunction (first second : CcState) (func other : CcSsaFunction) : Prop where
  name : ccStrviewGet second other.name = ccStrviewGet first func.name
  toks : second.funcTokens other = first.funcTokens func
  plain : ∀ tok ∈ first.funcTokens func, tok.type ≠ .rawData

section Independence

variable {first second : CcState} {func other : CcSsaFunction} {i j : Nat}

theorem SameFunction.lowered (same : SameFunction first second func other)
    (here : first.ssaFuncs[i]? = some func) (there : second.ssaFuncs[j]? = some other)
    (inside : first.ViewInside func) (insideOther : second.ViewInside other)
    {lines others : List CcAsmLine} (one : LoweredTo first i lines)
    (two : LoweredTo second j others) : lines = others := by
  obtain ⟨before, after, _, round, wrote⟩ := one
  obtain ⟨earlier, later, _, again, rewrote⟩ := two
  rw [lowerSsaAt_view here inside] at round
  rw [lowerSsaAt_view there insideOther, same.name, same.toks] at again
  have matched := ((reset_same before earlier).lowerFunction _ fun tok member raw =>
    absurd raw (same.plain tok member)).results round again
  obtain ⟨common, left, right⟩ := matched.written
  rw [List.append_cancel_left (wrote.symm.trans left),
    List.append_cancel_left (rewrote.symm.trans right)]

theorem SameFunction.optimised (same : SameFunction first second func other)
    (views : first.WellViewed) (otherViews : second.WellViewed) (member : func ∈ first.ssaFuncs)
    (memberOther : other ∈ second.ssaFuncs) {after later : CcState}
    (done : ccSsaOptimise first = .ok after) (doneOther : ccSsaOptimise second = .ok later) :
    SameFunction after later func other := by
  have own := optimise_own views member done
  have ownOther := optimise_own otherViews memberOther doneOther
  rw [same.toks] at ownOther
  have data := (optimise_touches views done).2.1
  have dataOther := (optimise_touches otherViews doneOther).2.1
  refine ⟨?_, Except.ok.inj (ownOther.symm.trans own), fun tok there => ?_⟩
  · rw [ccStrviewGet, dataOther, ccStrviewGet, data]
    exact same.name
  · exact optimiseTokens_plain same.plain own tok there

/-- Functions are compiled independently: what becomes of a function's tokens and which lines it
is lowered to depend on its name and its tokens only, optimising it changes no other token, and
the order of the functions does not matter. -/
theorem functions_independent (views : first.WellViewed) (otherViews : second.WellViewed)
    (here : first.ssaFuncs[i]? = some func) (there : second.ssaFuncs[j]? = some other)
    (same : SameFunction first second func other) :
    (∀ after later, ccSsaOptimise first = .ok after → ccSsaOptimise second = .ok later →
      after.funcTokens func = later.funcTokens other ∧
      ∀ lines others, LoweredTo after i lines → LoweredTo later j others → lines = others) ∧
    (∀ lines others, LoweredTo first i lines → LoweredTo second j others → lines = others) ∧
    (∀ after, ccSsaOptimiseFunc first func = .ok after → ∀ index, ¬ func.segment.Holds index →
      after.ssaTokens[index]? = first.ssaTokens[index]?) ∧
    ∀ order : List CcSsaFunction, order.Perm first.ssaFuncs →
      order.foldlM ccSsaOptimiseFunc first = ccSsaOptimise first := by
  have member := List.mem_of_getElem? here
  have memberOther := List.mem_of_getElem? there
  have inside := views.inside func member
  have insideOther := otherViews.inside other memberOther
  refine ⟨fun after later done doneOther => ?_, fun lines others one two => ?_, ?_, ?_⟩
  · have moved := same.optimised views otherViews member memberOther done doneOther
    obtain ⟨funcs, _, still⟩ := optimise_touches views done
    obtain ⟨funcsOther, _, stillOther⟩ := optimise_touches otherViews doneOther
    rw [← funcs] at here member
    rw [← funcsOther] at there memberOther
    exact ⟨moved.toks.symm, fun lines others one two => moved.lowered here there
      (still.inside func member) (stillOther.inside other memberOther) one two⟩
  · exact same.lowered here there inside insideOther one two
  · exact fun after done index => (optimiseFunc_ok inside done).1.outside index
  · intro order perm
    have back := perm.symm
    rw [optimise_funcs views, (optimiseFunc_commuting first.ssaTokens.length).foldlM_perm back
      views.inside views.apart rfl]

end Independence

def sumBody : List CcSsaToken :=
  [parameterToken ⟨32, ccSsaWidth32⟩ 0, parameterToken ⟨33, ccSsaWidth32⟩ 1,
    binopToken .add ⟨34, ccSsaWidth32⟩ ⟨32, ccSsaWidth32⟩ ⟨33, ccSsaWidth32⟩,
    returnToken ⟨35, ccSsaWidth32⟩ ⟨34, ccSsaWidth32⟩]

def aloneState : CcState :=
  { CcState.start [102] [] with
    ssaFuncs := [⟨⟨0, 1⟩, ⟨0, 4⟩⟩]
    ssaTokens := sumBody }

def besideState : CcState :=
  { CcState.start [103, 102] [] with
    ssaFuncs := [⟨⟨0, 1⟩, ⟨0, 3⟩⟩, ⟨⟨1, 1⟩, ⟨3, 4⟩⟩]
    ssaTokens := [parameterToken ⟨32, ccSsaWidth32⟩ 1,
      binopToken .mul ⟨33, ccSsaWidth32⟩ ⟨32, ccSsaWidth32⟩ ⟨32, ccSsaWidth32⟩,
      returnToken ⟨34, ccSsaWidth32⟩ ⟨33, ccSsaWidth32⟩] ++ sumBody }

theorem functions_independent_beside :
    (∀ after later, ccSsaOptimise aloneState = .ok after → ccSsaOptimise besideState = .ok later →
      after.funcTokens ⟨⟨0, 1⟩, ⟨0, 4⟩⟩ = later.funcTokens ⟨⟨1, 1⟩, ⟨3, 4⟩⟩ ∧
      ∀ lines others, LoweredTo after 0 lines → LoweredTo later 1 others → lines = others) ∧
    (∀ lines others, LoweredTo aloneState 0 lines → LoweredTo besideState 1 others →
      lines = others) ∧
    (∀ after, ccSsaOptimiseFunc aloneState ⟨⟨0, 1⟩, ⟨0, 4⟩⟩ = .ok after →
      ∀ index, ¬ (⟨0, 4⟩ : Segment).Holds index →
        after.ssaTokens[index]? = aloneState.ssaTokens[index]?) ∧
    ∀ order : List CcSsaFunction, order.Perm aloneState.ssaFuncs →
      order.foldlM ccSsaOptimiseFunc aloneState = ccSsaOptimise aloneState := by
  have alone : aloneState.WellViewed := ⟨by decide, List.pairwise_singleton _ _⟩
  have beside : besideState.WellViewed := by
    refine ⟨by decide, List.pairwise_pair.mpr ?_⟩
    rintro index ⟨⟨_, low⟩, high, _⟩
    exact absurd (Nat.lt_of_lt_of_le low high) (Nat.lt_irrefl _)
  have same : SameFunction aloneState besideState ⟨⟨0, 1⟩, ⟨0, 4⟩⟩ ⟨⟨1, 1⟩, ⟨3, 4⟩⟩ :=
    ⟨by decide, by decide, by decide⟩
  exact functions_independent alone beside rfl rfl same

end Estros
