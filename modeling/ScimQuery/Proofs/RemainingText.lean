/-
ScimQuery.Proofs.RemainingText — a session answers by what is left of its text.

Whatever has been done with a session over a text, what it reads from then on is
what a new session over the remaining characters reads, and the offsets differ by
the position that the session has come to. `reader.after front base` is a session
with `front` before its text and `base` below its saved positions. One operation
does the same in both (`answer_after`), as long as it does not reach below the
positions that the inner session has saved, and a row of them follows by
induction. Every session that stays inside its text is a new one after the
characters it has passed (`InBounds.after_eq`).

The reads may be done in place, by positions in the whole text. A word is then
found from its absolute start, and its first four characters and the byte of its
last colon are cut out of the whole text; none of this is seen in the answers.
-/
import ScimQuery.Proofs.SavedPositions
import ScimQuery.Proofs.SessionBounds
import ScimQuery.Proofs.Shift

namespace ScimQuery.Token.Reader

/-! ## 1. More characters in front -/

/-- The same answer in a text with `n` more characters in front. An error keeps
its cause. -/
def Answer.shift (n : Nat) : Answer → Answer
  | .token (.ok found) => .token (.ok found)
  | .token (.error error) => .token (.error (error.shift n))
  | .tokens (.ok located) => .tokens (.ok (located.map (·.shift n)))
  | .tokens (.error error) => .tokens (.error (error.shift n))
  | .silent => .silent

/-- The same session in a text with `front` before it, and with the positions
`base` saved before its own. -/
def after (front : List Char) (base : List Nat) (reader : Reader) : Reader :=
  ⟨front ++ reader.text, front.length + reader.position,
    reader.saved.map (front.length + ·) ++ base⟩

variable {reader : Reader} {level last : Nat}

/-- What is left is the same. -/
@[simp] theorem rest_after (front : List Char) (base : List Nat) (reader : Reader) :
    (reader.after front base).rest = reader.rest := by
  rw [rest, rest, after, ← List.drop_drop, List.drop_left]

/-! ## 2. Operations -/

theorem next_after (front : List Char) (base : List Nat) (reader : Reader) :
    (reader.after front base).answer .next =
      ((reader.answer .next).1.shift front.length, (reader.answer .next).2.after front base) := by
  simp only [answer, next, rest_after]
  cases read reader.rest with
  | ok token => simp only [Answer.shift, after, Nat.add_assoc]
  | error failure =>
    have hshift := failure.shift_add front.length reader.position
    simp only [after, hshift]
    rfl

theorem readAll_after (front : List Char) (base : List Nat) (reader : Reader) :
    (reader.after front base).answer .readAll =
      ((reader.answer .readAll).1.shift front.length,
        (reader.answer .readAll).2.after front base) := by
  have hshift := listFrom_shift front.length reader.rest reader.position 0
  simp only [answer, readAll, rest_after]
  rw [show (reader.after front base).position = front.length + reader.position from rfl, hshift]
  cases listFrom reader.position 0 reader.rest with
  | ok located => simp only [Answer.shift, after, Nat.add_assoc]
  | error failure => rfl

/-- **One operation** does the same behind more characters, unless it reaches
below what the session has saved. -/
theorem answer_after (front : List Char) (base : List Nat) (hsaved : SavesOver [] level reader)
    {operation : Operation} (hlevel : operation.levelAfter level = some last) :
    (reader.after front base).answer operation =
      ((reader.answer operation).1.shift front.length,
        (reader.answer operation).2.after front base) := by
  obtain ⟨saved, hsaved, rfl⟩ := hsaved
  rw [List.append_nil] at hsaved
  cases operation with
  | next => exact next_after front base reader
  | readAll => exact readAll_after front base reader
  | save => rfl
  | forget =>
    cases saved with
    | nil => cases hlevel
    | cons position saved => simp [answer, forget, after, hsaved, Answer.shift]
  | restore =>
    cases saved with
    | nil => cases hlevel
    | cons position saved => simp [answer, restore, after, hsaved, Answer.shift]

/-- A row of operations that stays above what is saved at first. -/
theorem answers_after (front : List Char) (base : List Nat) {operations : List Operation}
    (hsaved : SavesOver [] level reader) (hlevel : levelAfter level operations = some last) :
    (reader.after front base).answers operations =
      ((reader.answers operations).1.map (·.shift front.length),
        (reader.answers operations).2.after front base) := by
  induction operations generalizing level reader with
  | nil => rfl
  | cons operation operations ih =>
    obtain ⟨between, hfirst, hrest⟩ := Option.bind_eq_some_iff.mp hlevel
    simp only [answers, answer_after front base hsaved hfirst, ih (hsaved.answer hfirst) hrest,
      List.map_cons]

/-! ## 3. What is left of a text -/

/-- A session inside its text is a new one over what is left, after the
characters that it has passed. -/
theorem InBounds.after_eq (h : reader.InBounds) :
    (ofText (String.ofList reader.rest)).after (reader.text.take reader.position) reader.saved =
      reader := by
  have hlength : (reader.text.take reader.position).length = reader.position :=
    List.length_take_of_le h.position_le
  simp only [after, ofText, hlength, String.toList_ofList, rest, List.take_append_drop,
    List.map_nil, List.nil_append, Nat.add_zero]

/-- To read all of a new session is to take the text apart. -/
theorem readAll_ofText_fst (source : String) : (ofText source).readAll.1 = Token.ofText source := by
  simp only [readAll, Token.ofText, ofText, rest, List.drop_zero]
  cases listFrom 0 0 source.toList <;> rfl

/-- **Reading depends on what is left of the text only.** After any operations on
a session, the next token and all tokens that are left are those of the remaining
characters as a text of its own, with the position added to every offset, or the
error is the same one with the position added to its offset. So it is with every
row of operations that stays above the positions saved so far, where all reads
are done in place. -/
theorem answers_of_rest (source : String) (operations : List Operation) :
    let reader := ((ofText source).answers operations).2
    let remaining := String.ofList (source.toList.drop reader.position)
    (reader.answer .next).1 = ((ofText remaining).answer .next).1.shift reader.position ∧
    (reader.answer .readAll).1 = (Answer.tokens (Token.ofText remaining)).shift reader.position ∧
    ∀ later last, levelAfter 0 later = some last →
      InPlace.answers? reader later =
        some (((ofText remaining).answers later).1.map (·.shift reader.position),
          ((ofText remaining).answers later).2.after (source.toList.take reader.position)
            reader.saved) := by
  intro reader remaining
  have hbounds : reader.InBounds := (inBounds_ofText source).answers operations
  have htext : reader.text = source.toList := text_answers _ operations
  have hremaining : String.ofList reader.rest = remaining := by rw [rest, htext]
  have hlength : (source.toList.take reader.position).length = reader.position := by
    rw [← htext]
    exact List.length_take_of_le hbounds.position_le
  have hafter : (ofText remaining).after (source.toList.take reader.position) reader.saved =
      reader := by
    rw [← hremaining, ← htext]
    exact hbounds.after_eq
  have hnext := next_after (source.toList.take reader.position) reader.saved (ofText remaining)
  have hreadAll :=
    readAll_after (source.toList.take reader.position) reader.saved (ofText remaining)
  rw [hafter, hlength] at hnext hreadAll
  refine ⟨by rw [hnext], ?_, fun later last hlevel => ?_⟩
  · rw [hreadAll, ← readAll_ofText_fst]
    rfl
  · have hsaved : SavesOver [] 0 (ofText remaining) := savesOver_zero_iff.mpr rfl
    have hanswers :=
      answers_after (source.toList.take reader.position) reader.saved hsaved hlevel
    rw [hafter, hlength] at hanswers
    rw [InPlace.answers?_eq hbounds, hanswers]

/-- A session behind a number without its exponent, with a position saved. What
is left is a schema with a dot in it, an attribute, and a character that starts no
token. -/
theorem answers_of_rest_schema :
    let operations : List Operation := [.save, .next, .next, .next]
    let reader := ((ofText "1e urn:ab:c.d:e ?").answers operations).2
    reader.position = 3 ∧ reader.saved = [0] ∧
    Token.ofText "urn:ab:c.d:e ?" = .error ⟨.strayCharacter '?', 13⟩ ∧
    (reader.answer .readAll).1 = .tokens (.error ⟨.strayCharacter '?', 16⟩) ∧
    levelAfter 0 [.next, .save, .next, .restore] = some 0 ∧
    InPlace.answers? reader [.next, .save, .next, .restore] =
      some ([.token (.ok (.urn "urn:ab:c.d")), .silent, .token (.ok .colon), .silent],
        ⟨"1e urn:ab:c.d:e ?".toList, 13, [0]⟩) := by
  intro operations reader
  have hposition : reader.position = 3 := by decide
  have hsaved : reader.saved = [0] := by decide
  have hremaining : String.ofList ("1e urn:ab:c.d:e ?".toList.drop 3) = "urn:ab:c.d:e ?" := by
    decide
  have hrefused : Token.ofText "urn:ab:c.d:e ?" = .error ⟨.strayCharacter '?', 13⟩ := by decide
  have hanswers : (ofText "urn:ab:c.d:e ?").answers [.next, .save, .next, .restore] =
      ([.token (.ok (.urn "urn:ab:c.d")), .silent, .token (.ok .colon), .silent],
        ⟨"urn:ab:c.d:e ?".toList, 10, []⟩) := by decide
  obtain ⟨-, hreadAll, hlater⟩ := answers_of_rest "1e urn:ab:c.d:e ?" operations
  have hrow := hlater [.next, .save, .next, .restore] 0 rfl
  simp only [show ((ofText "1e urn:ab:c.d:e ?").answers operations).2 = reader from rfl, hposition,
    hsaved, hremaining, hrefused, hanswers] at hreadAll hrow
  exact ⟨hposition, hsaved, hrefused, hreadAll, rfl, hrow⟩

end ScimQuery.Token.Reader
