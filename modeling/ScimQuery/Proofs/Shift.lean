/-
ScimQuery.Proofs.Shift — reading a text from somewhere in it.

The lexer has no memory: what stands in front of the characters that are left
moves the offsets and nothing else (`listFrom_shift`). So where a row of tokens
is read from its own text in front of some rest (`ReadsRow`), the text of both
is read as the row, followed by the tokens of the rest as they are on their
own, moved behind the row. If the rest is refused, so is the whole, for the
same cause and at the same character (`ofText_row`).
-/
import ScimQuery.Proofs.Lexing

namespace ScimQuery

/-- The same token in a text with `n` more characters in front. -/
def Located.shift (n : Nat) (located : Located) : Located :=
  ⟨n + located.offset, located.token⟩

/-- The same error in a text with `n` more characters in front. -/
def LexicalError.shift (n : Nat) (error : LexicalError) : LexicalError :=
  ⟨error.cause, n + error.offset⟩

theorem ReadFailure.shift_add (m n : Nat) (failure : ReadFailure) :
    failure.shift (m + n) = (failure.shift n).shift m := by
  simp only [shift, Nat.add_assoc]

namespace Token

/-! ## 1. More characters in front -/

/-- **What stands in front moves the offsets**, and nothing else. -/
theorem listFrom_shift (n : Nat) :
    ∀ (cs : List Char) (offset pending : Nat), listFrom (n + offset) pending cs =
      match listFrom offset pending cs with
      | .ok located => .ok (located.map (·.shift n))
      | .error failure => .error (failure.shift n)
  | [], _, _ => rfl
  | c :: cs, offset, pending + 1 => by
      rw [listFrom, listFrom, Nat.add_assoc]
      exact listFrom_shift n cs (offset + 1) pending
  | c :: cs, offset, 0 => by
      rw [listFrom, listFrom]
      cases read (c :: cs) with
      | error failure => exact congrArg Except.error (failure.shift_add n offset)
      | ok token =>
        simp only [Nat.add_assoc, listFrom_shift n cs (offset + 1) (token.length - 1)]
        cases listFrom (offset + 1) (token.length - 1) cs <;> rfl

/-! ## 2. A row in front -/

/-- Every token is read from its own text in front of the texts behind it and
the rest. -/
def ReadsRow (rest : List Char) : List Token → Prop
  | [] => True
  | token :: row =>
    token ≠ .eof ∧ token.ReadsBefore ((textOf row).toList ++ rest) ∧ ReadsRow rest row

/-- The tokens of a row at their offsets, the first one at `offset`. -/
def place (offset : Nat) : List Token → List Located
  | [] => []
  | token :: row => ⟨offset, token⟩ :: place (offset + token.length) row

/-- The lexer reads the row and goes on behind it. -/
theorem listFrom_row {rest : List Char} {row : List Token} (h : ReadsRow rest row) (offset : Nat) :
    listFrom offset 0 ((textOf row).toList ++ rest) =
      (listFrom (offset + (textOf row).length) 0 rest).map (place offset row ++ ·) := by
  induction row generalizing offset with
  | nil =>
    show listFrom offset 0 rest = (listFrom offset 0 rest).map _
    cases listFrom offset 0 rest <;> rfl
  | cons token row ih =>
    obtain ⟨heof, hread, hrow⟩ := h
    have hoffset : offset + token.length + (textOf row).length =
        offset + (textOf (token :: row)).length := by
      rw [textOf_cons, String.length_append, Nat.add_assoc]
      rfl
    have hturn := listFrom_append heof hread offset
    rw [ih hrow, hoffset] at hturn
    have htext : (textOf (token :: row)).toList ++ rest =
        token.text.toList ++ ((textOf row).toList ++ rest) := by simp
    rw [htext, hturn]
    cases listFrom (offset + (textOf (token :: row)).length) 0 rest <;> rfl

/-- **A row of tokens and what stands behind it.** -/
theorem ofText_row {row : List Token} {rest : String} (h : ReadsRow rest.toList row) :
    ofText (textOf row ++ rest) =
      match ofText rest with
      | .ok located => .ok (place 0 row ++ located.map (·.shift (textOf row).length))
      | .error error => .error (error.shift (textOf row).length) := by
  simp only [ofText, String.toList_append, listFrom_row h, Nat.zero_add]
  have hshift := listFrom_shift (textOf row).length rest.toList 0 0
  rw [Nat.add_zero] at hshift
  rw [hshift]
  cases listFrom 0 0 rest.toList <;> rfl

end Token

end ScimQuery
