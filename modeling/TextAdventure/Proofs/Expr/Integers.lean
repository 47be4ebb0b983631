import TextAdventure.Code.Eval
import TextAdventure.Proofs.Expr.Attached
import TextAdventure.Proofs.Token.Spelling

/-! # Integers as they are written

The text of an integer, with a minus sign if it is negative, is code whose value is that integer. The sign is
an operator applied to the digits, and these are read before it is: so the least integer, whose digits are
those of no integer of 64 bits, is the one that has no text.
-/
namespace TextAdventure

open TextAdventure.Expr (Derives Tree)

namespace Token

theorem kinds_integerText (n : Int) : kinds (Number.integerText n) =
    if n < 0 then [.symbol .minus, intToken (Nat.toDigits 10 n.natAbs)]
    else [intToken (Nat.toDigits 10 n.natAbs)] := by
  have hdigits : ∀ p, (scanFrom p (Nat.toDigits 10 n.natAbs)).map Token.kind =
      [intToken (Nat.toDigits 10 n.natAbs), .eof] := by
    intro p
    have hstarts : StartsWith (Nat.toDigits 10 n.natAbs ++ []) 0 (Nat.toDigits 10 n.natAbs).length
        (intToken (Nat.toDigits 10 n.natAbs)) := startsWith_toDigits n.natAbs (by simp)
    obtain ⟨q, hq⟩ := hstarts.map_kind_eq p
    rw [List.drop_left, List.append_nil] at hq
    rw [hq, scanFrom.eq_def]
    rfl
  unfold kinds scan Number.integerText Number.naturalText
  split
  · have hminus : StartsWith ('-' :: Nat.toDigits 10 n.natAbs) 0 1 (.symbol .minus) := by
      obtain ⟨c, cs, hcs⟩ := List.exists_cons_of_ne_nil (Nat.toDigits_ne_nil (n := n.natAbs) (b := 10))
      have hc : c.isDigit = true := isDigit_of_mem_toDigits (hcs ▸ List.mem_cons_self)
      have hne : c ≠ '=' := by rintro rfl; cases hc
      have hlexeme : lexeme '-' (c :: cs) = (.symbol .minus, 1) := by
        change operatorToken '-' (c :: cs) = _
        simp [operatorToken, hne]
      rw [hcs]
      exact startsWith_of_lexeme rfl hlexeme
    obtain ⟨q, hq⟩ := hminus.map_kind_eq .start
    have htext : ("-" ++ String.ofList (Nat.toDigits 10 n.natAbs)).toList =
        '-' :: Nat.toDigits 10 n.natAbs := by
      simp
    rw [htext, hq, List.drop_one, List.tail_cons, hdigits]
    rfl
  · rw [String.toList_ofList, hdigits]
    rfl

end Token

namespace Expr

variable {e : Expr}

theorem eq_literal_of_tree {v : Literal} (h : e.tree = .literal v) : ∃ span, e = .literal v span := by
  cases e with
  | literal => cases h; exact ⟨_, rfl⟩
  | _ => cases h

theorem eq_unary_of_tree {op : UnaryOp} {tree : Tree} (h : e.tree = .unary op tree) :
    ∃ operand span, e = .unary op operand span ∧ operand.tree = tree := by
  cases e with
  | unary => cases h; exact ⟨_, _, rfl, rfl⟩
  | _ => cases h

variable {n : Int64}

theorem derives_integerText_of_nonneg (h : 0 ≤ n.toInt) :
    Derives .action (Token.kinds (Number.integerText n.toInt)) (.literal (.int n)) := by
  rw [Token.kinds_integerText, if_neg (Int.not_lt.mpr h), Token.intToken_natAbs h]
  exact .pattern (Derives.sequence_of_level (.literal rfl) (by simp) (by simp))

/-- The digits are those of the opposite integer, which 64 bits have room for. -/
theorem derives_integerText_of_neg (h : n.toInt < 0) (hne : n ≠ Int64.minValue) :
    Derives .action (Token.kinds (Number.integerText n.toInt)) (.unary .neg (.literal (.int (-n)))) := by
  have hopposite : (-n).toInt = -n.toInt := by
    have hmin : n.toInt ≠ -2 ^ 63 := fun heq => hne (Int64.toInt_inj.mp heq)
    have := n.le_toInt
    rw [Int64.toInt_neg, Int.bmod_eq_of_le (by omega) (by omega)]
  have hdigits : Token.intToken (Nat.toDigits 10 n.toInt.natAbs) = .int (-n) := by
    rw [← Int.natAbs_neg, ← hopposite]
    exact Token.intToken_natAbs (by omega)
  have hliteral : Derives .unary [.int (-n)] (.literal (.int (-n))) := .plain (.bare (.literal rfl))
  rw [Token.kinds_integerText, if_pos h, hdigits]
  exact .pattern (Derives.sequence_of_level (.prefixed .neg hliteral) (by simp) (by simp))

end Expr

namespace Script

variable {source : String}

theorem compile_of_literal {v : Literal} (h : Derives .action (Token.kinds source) (.literal v)) :
    compile source = .ok ⟨Text.trim source, .constant v⟩ := by
  obtain ⟨e, hparse, htree⟩ := Expr.exists_parse_of_derives h
  obtain ⟨span, rfl⟩ := Expr.eq_literal_of_tree htree
  rw [compile, hparse]
  rfl

theorem compile_of_unary {op : UnaryOp} {v : Literal}
    (h : Derives .action (Token.kinds source) (.unary op (.literal v))) :
    compile source = .ok ⟨Text.trim source, .unary op (.constant v)⟩ := by
  obtain ⟨e, hparse, htree⟩ := Expr.exists_parse_of_derives h
  obtain ⟨operand, span, rfl, hoperand⟩ := Expr.eq_unary_of_tree htree
  obtain ⟨span', rfl⟩ := Expr.eq_literal_of_tree hoperand
  rw [compile, hparse]
  rfl

theorem resolve_unary (op : UnaryOp) (v : Literal) (s : Store) :
    Eval.runOn (resolve ⟨source, .unary op (.constant v)⟩) s =
      (((op.apply (.ofLiteral v)).map .value).mapError (·.inExpression source), s) := by
  rw [resolve, evalWith, Eval.runOn_mapError, Code.eval, Code.eval]
  simp only [pure_bind, Resolved.get]
  cases op.apply (.ofLiteral v) <;> rfl

theorem not_compile_of_error (message : String) (h : .error message ∈ Token.kinds source) :
    ¬∃ script, compile source = .ok script := by
  rintro ⟨script, hscript⟩
  obtain ⟨e, hparse, -⟩ := Error.bind_eq_ok_iff.mp hscript
  exact Expr.derives_terminal (Expr.derives_of_parse hparse) _ h

theorem not_compile_of_least :
    ¬∃ script, compile (Number.integerText Int64.minValue.toInt) = .ok script := by
  refine not_compile_of_error "invalid integer: number too large to fit in target type" ?_
  rw [Token.kinds_integerText, if_pos (by decide), Token.intToken_toDigits, if_neg (by decide)]
  exact List.mem_cons_of_mem _ List.mem_cons_self

/-- The text of an integer is compiled to code with that integer as value, except for the least integer:
its text is not compiled at all. -/
theorem compile_integerText_iff (n : Int64) :
    (∃ script, compile (Number.integerText n.toInt) = .ok script ∧
      ∀ s, Eval.runOn script.resolve s = (.ok (.value (.int n)), s)) ↔ n ≠ Int64.minValue := by
  constructor
  · rintro ⟨script, hscript, -⟩ rfl
    exact not_compile_of_least ⟨script, hscript⟩
  · intro hne
    by_cases hneg : n.toInt < 0
    · refine ⟨_, compile_of_unary (Expr.derives_integerText_of_neg hneg hne), fun s => ?_⟩
      rw [resolve_unary, Value.ofLiteral, UnaryOp.apply, Int64.neg_neg]
      rfl
    · exact ⟨_, compile_of_literal (Expr.derives_integerText_of_nonneg (Int.not_lt.mp hneg)), fun s => rfl⟩

theorem not_compile_least :
    Number.integerText Int64.minValue.toInt = "-9223372036854775808" ∧
      ¬∃ script, compile "-9223372036854775808" = .ok script :=
  ⟨rfl, not_compile_of_least⟩

end Script

end TextAdventure
