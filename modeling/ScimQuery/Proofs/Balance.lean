/-
ScimQuery.Proofs.Balance — parentheses and brackets come in pairs.

`Balanced tokens` says that every parenthesis and every bracket of a row is
one of a pair, and that two pairs lie side by side or one inside the other, so
that no parenthesis closes a bracket. The rows of the grammar are balanced:
conditions without brackets have no mark in them at all, and a group and a
bracket put a pair around what is balanced already.
-/
import ScimQuery.Proofs.Spelling

namespace ScimQuery

namespace Token

/-! ## 1. Balanced rows -/

/-- Whether the token opens or closes a group or a bracket. -/
def isMark : Token → Bool
  | .openParen | .closeParen | .openBracket | .closeBracket => true
  | _ => false

/-- The marks of the row are pairs that lie side by side or inside each
other. -/
inductive Balanced : List Token → Prop where
  | nil : Balanced []
  | cons {token : Token} {rest : List Token} :
      token.isMark = false → Balanced rest → Balanced (token :: rest)
  | parens {inner rest : List Token} :
      Balanced inner → Balanced rest → Balanced (.openParen :: (inner ++ .closeParen :: rest))
  | brackets {inner rest : List Token} :
      Balanced inner → Balanced rest → Balanced (.openBracket :: (inner ++ .closeBracket :: rest))

namespace Balanced

variable {front rest tokens : List Token}

/-- Balanced rows lie side by side. -/
theorem append (h : Balanced front) (hrest : Balanced rest) : Balanced (front ++ rest) := by
  induction h with
  | nil => exact hrest
  | cons hmark _ ih => exact .cons hmark ih
  | parens hinner _ _ ih =>
    rw [List.cons_append, List.append_assoc, List.cons_append]
    exact .parens hinner ih
  | brackets hinner _ _ ih =>
    rw [List.cons_append, List.append_assoc, List.cons_append]
    exact .brackets hinner ih

/-- A row without marks is balanced. -/
theorem of_no_mark (h : ∀ token ∈ tokens, token.isMark = false) : Balanced tokens := by
  induction tokens with
  | nil => exact .nil
  | cons token tokens ih =>
    simp only [List.mem_cons, forall_eq_or_imp] at h
    exact .cons h.1 (ih h.2)

/-- A balanced row in parentheses. -/
theorem enclose (h : Balanced tokens) : Balanced (.openParen :: (tokens ++ [.closeParen])) :=
  .parens h .nil

/-- A balanced row in brackets. -/
theorem bracket (h : Balanced tokens) : Balanced (.openBracket :: (tokens ++ [.closeBracket])) :=
  .brackets h .nil

end Balanced

end Token

open Token

/-! ## 2. The rows of the grammar -/

theorem AttributePath.balanced_tokens (path : AttributePath) : Balanced path.tokens := by
  obtain ⟨schema, name, sub⟩ := path
  refine .of_no_mark ?_
  cases schema <;> cases sub <;> simp [tokens, schemaTokens, subTokens, isMark]

theorem Literal.not_isMark_token (l : Literal) : l.token.isMark = false := by
  cases l <;> rfl

theorem AttributeTest.balanced_tail (test : AttributeTest) : Balanced test.tail := by
  refine .of_no_mark ?_
  cases test with
  | present path => simp [tail, isMark]
  | compare path operator l =>
    simp only [tail, List.forall_mem_cons, l.not_isMark_token]
    simp [isMark]

theorem AttributeTest.balanced_tokens (test : AttributeTest) : Balanced test.tokens :=
  test.path.balanced_tokens.append test.balanced_tail

theorem AttributeTest.balanced_of_spells {tokens : List Token} {test : AttributeTest}
    (h : test.Spells tokens) : Balanced tokens :=
  h ▸ test.balanced_tokens

theorem Connective.balanced_tokens (connective : Connective) : Balanced connective.tokens :=
  .of_no_mark (by simp [tokens, isMark])

/-- What opens a group opens one pair. -/
theorem Opens.balanced {negated : Bool} {opening inner : List Token} (h : Opens negated opening)
    (hinner : Balanced inner) : Balanced (opening ++ inner ++ [.closeParen]) := by
  have hgroup := hinner.enclose
  cases h with
  | plain => exact hgroup
  | negated => exact .cons rfl hgroup
  | spaced => exact .cons rfl (.cons rfl hgroup)

/-- Rows that are joined or put in parentheses are balanced if the rows of
the conditions are. -/
theorem rowProperty_balanced {α : Type} {leaf : List Token → α → Prop}
    (h : ∀ {tokens a}, leaf tokens a → Balanced tokens) : RowProperty leaf Balanced where
  leaf := h
  join connective hfront hrest := (hfront.append connective.balanced_tokens).append hrest
  group := Opens.balanced

/-- The rows of filtered values are balanced. -/
theorem balanced_bracketed (path : AttributePath) {inner : List Token}
    (h : Balanced inner) : Balanced (path.tokens ++ .openBracket :: (inner ++ [.closeBracket])) :=
  path.balanced_tokens.append h.bracket

theorem ValueFilter.balanced_of_spells {tokens : List Token} {filter : ValueFilter}
    (h : ValueFilter.Spells tokens filter) : Balanced tokens :=
  Disjunction.Spells.row (rowProperty_balanced AttributeTest.balanced_of_spells) h

/-- **The rows of a condition are balanced.** -/
theorem Condition.balanced_of_spells {tokens : List Token} {c : Condition} (h : c.Spells tokens) :
    Balanced tokens := by
  cases c with
  | test test => exact AttributeTest.balanced_of_spells h
  | values v =>
    obtain ⟨inner, hinner, rfl⟩ := h
    exact balanced_bracketed v.path (ValueFilter.balanced_of_spells hinner)

end ScimQuery
