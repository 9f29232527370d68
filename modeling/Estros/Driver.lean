import Estros.AsmOutput
import Estros.Errors
import Estros.LexerSpans
import Estros.SsaViews
import Estros.UnitTrees

/-!
`cc_driver_parse_file` of main.c: the whole compiler, from the bytes of a source file to the
assembly that it prints last. The dumps that it prints before are left out.
-/

namespace Estros

open Machine

section Lexer

variable {data : List UInt8} {lexed : CcState} {rounds : Nat}

theorem LexerReaches.few {lexer : CcLexer} (reached : LexerReaches data lexer) :
    lexer.scans.length ≤ lexer.p ∧ lexer.scans.length ≤ data.length := by
  refine reached.invariant
    (fun lexer => lexer.scans.length ≤ lexer.p ∧ lexer.scans.length ≤ data.length)
    (fun lexer holds continues => ?_) ⟨Nat.le_refl _, Nat.zero_le _⟩
  obtain ⟨moved, inside⟩ := holds
  have below : lexer.p < data.length := goesOn_iff.mp continues
  have low : lexer.p ≤ skipSpace data lexer.p := le_skipWhile isspace data lexer.p
  rw [ccTokenizeStep]
  split
  · have scanned := scanToken_moves data (skipSpace data lexer.p)
    simp only [List.length_append, List.length_singleton]
    omega
  · exact ⟨moved.trans low, inside⟩

end Lexer

abbrev Whole {α : Type} (result : Except Halt α) : Prop := Avoids .outOfFuel result

section Lowerings

variable {lookup : CcStrview → Except Halt Nat}

mutual

theorem lower_whole (found : ∀ name, Whole (lookup name)) : ∀ (tree : Tree) (id : BitVec 12),
    Whole (tree.lower lookup id)
  | .leaf node, id => by
      cases node with
      | refVar name =>
          rw [Tree.lower]
          exact (found name).bind fun _ => .pure _
      | _ => exact .pure _
  | .block children, id => by
      rw [Tree.lower]
      exact (lowerAll_whole found children _).bind fun _ => .pure _
  | .newVar _ init typeDef _, id => by
      rw [Tree.lower]
      exact (lower_whole found typeDef _).bind fun first =>
        (lower_whole found init _).bind fun _ => .pure _
  | .newType returnType children _, id => by
      rw [Tree.lower]
      exact (lower_whole found returnType _).bind fun first =>
        (lowerAll_whole found children _).bind fun _ => .pure _
  | .ifExpr cond thenTree elseTree, id => by
      rw [Tree.lower]
      exact (lower_whole found cond _).bind fun first =>
        (lower_whole found thenTree _).bind fun second =>
          (lower_whole found elseTree _).bind fun _ => .pure _
  | .ret value, id => by
      rw [Tree.lower]
      exact (lower_whole found value _).bind fun _ => .pure _
  | .binop op lhs rhs, id => by
      rw [Tree.lower]
      exact (lower_whole found lhs _).bind fun left =>
        (lower_whole found rhs _).bind fun right => .ite (fun _ => .pure _) fun _ => .error (by decide)

theorem lowerAll_whole (found : ∀ name, Whole (lookup name)) : ∀ (trees : List Tree)
    (id : BitVec 12), Whole (Tree.lowerAll lookup trees id)
  | [], id => by
      rw [Tree.lowerAll]
      exact .pure _
  | tree :: trees, id => by
      rw [Tree.lowerAll]
      exact (lower_whole found tree _).bind fun first =>
        (lowerAll_whole found trees _).bind fun _ => .pure _

end

end Lowerings

section Units

variable {ast : CcState} {inside : Nat → Prop} {fuel more : Nat}

end Units

section Switch

variable {lastUse : CcSsaArgument → Except Halt Bool} (last : ∀ arg, Whole (lastUse arg))

include last

end Switch

section Files

variable {data : List UInt8} {lexed : CcState} {rounds : Nat}

end Files

end Estros
