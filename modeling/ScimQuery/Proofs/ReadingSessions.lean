/-
ScimQuery.Proofs.ReadingSessions — what is done with a reading session, one
operation after the other.

A session over a text is asked for a token or for all tokens that are left, and
it saves positions, drops them, and returns to them. An operation may fail, and
the next one starts from where the failed read stopped. `Reader.answers` is
what a row of operations comes to: the answers, and the session behind them.

To read all tokens is to read one after the other (`readAll_of_error`,
`readAll_of_eof`, `readAll_of_ok`), so where it fails is where the first single
read fails that would be reached from the same position.
-/
import ScimQuery.Proofs.Lexing

namespace ScimQuery.Token.Reader

/-! ## 1. Operations -/

/-- What can be done with a session. -/
inductive Operation where
  | next
  | readAll
  | save
  | forget
  | restore
  deriving DecidableEq, Repr

/-- What it answers. -/
inductive Answer where
  | token (result : Except LexicalError Token)
  | tokens (result : Except LexicalError (List Located))
  /-- Nothing was read. -/
  | silent
  deriving DecidableEq, Repr

/-- The answer to an operation, and the session behind it. -/
def answer (reader : Reader) : Operation → Answer × Reader
  | .next => (.token reader.next.1, reader.next.2)
  | .readAll => (.tokens reader.readAll.1, reader.readAll.2)
  | .save => (.silent, reader.save)
  | .forget => (.silent, reader.forget)
  | .restore => (.silent, reader.restore)

/-- The answers to a row of operations, and the session behind them. -/
def answers (reader : Reader) : List Operation → List Answer × Reader
  | [] => ([], reader)
  | operation :: operations =>
    let behind := (reader.answer operation).2.answers operations
    ((reader.answer operation).1 :: behind.1, behind.2)

variable {reader behind : Reader}

/-- A row behind another one starts with the session that the first one leaves. -/
theorem answers_append (reader : Reader) (front back : List Operation) :
    reader.answers (front ++ back) =
      ((reader.answers front).1 ++ ((reader.answers front).2.answers back).1,
        ((reader.answers front).2.answers back).2) := by
  induction front generalizing reader with
  | nil => rfl
  | cons operation front ih => simp [answers, ih]

/-! ## 2. What a read leaves alone -/

@[simp] theorem text_next (reader : Reader) : reader.next.2.text = reader.text := by
  unfold next
  split <;> rfl

@[simp] theorem text_readAll (reader : Reader) : reader.readAll.2.text = reader.text := by
  unfold readAll
  split <;> rfl

@[simp] theorem saved_next (reader : Reader) : reader.next.2.saved = reader.saved := by
  unfold next
  split <;> rfl

@[simp] theorem saved_readAll (reader : Reader) : reader.readAll.2.saved = reader.saved := by
  unfold readAll
  split <;> rfl

/-- No operation touches the text. -/
@[simp] theorem text_answer (reader : Reader) (operation : Operation) :
    (reader.answer operation).2.text = reader.text := by
  cases operation with
  | next => exact text_next reader
  | readAll => exact text_readAll reader
  | save => rfl
  | forget => rfl
  | restore =>
    show reader.restore.text = reader.text
    unfold restore
    split <;> rfl

@[simp] theorem text_answers (reader : Reader) (operations : List Operation) :
    (reader.answers operations).2.text = reader.text := by
  induction operations generalizing reader with
  | nil => rfl
  | cons operation operations ih => exact (ih _).trans (text_answer reader operation)

/-! ## 3. Token after token -/

/-- A token is read: its text stands at the position, and the session goes on
behind it. -/
theorem next_eq_ok_iff {token : Token} : reader.next = (.ok token, behind) ↔
    read reader.rest = .ok token ∧
      behind = { reader with position := reader.position + token.length } := by
  unfold next
  cases read reader.rest with
  | ok first =>
    simp only [Prod.mk.injEq, Except.ok.injEq]
    constructor
    · rintro ⟨rfl, rfl⟩
      exact ⟨rfl, rfl⟩
    · rintro ⟨rfl, rfl⟩
      exact ⟨rfl, rfl⟩
  | error failure => simp

/-- A read fails: the session is left where the failed read stopped. -/
theorem next_eq_error_iff {error : LexicalError} : reader.next = (.error error, behind) ↔
    ∃ failure, read reader.rest = .error failure ∧
      error = (failure.shift reader.position).error ∧
      behind = { reader with position := (failure.shift reader.position).stop } := by
  unfold next
  cases read reader.rest with
  | ok first => simp
  | error failure => simp [eq_comm]

/-- What is left behind a token. -/
theorem rest_of_next {token : Token} (h : reader.next = (.ok token, behind)) :
    reader.rest = token.text.toList ++ behind.rest := by
  obtain ⟨hread, rfl⟩ := next_eq_ok_iff.mp h
  obtain ⟨-, back, hback⟩ := read_sound hread
  have hdrop : reader.rest.drop token.length = back := by
    rw [← hback, length, ← String.length_toList, List.drop_left]
  rw [← hback, ← hdrop, rest, List.drop_drop]
  rfl

/-- Where the next read fails, reading all tokens fails. -/
theorem readAll_of_error {error : LexicalError} (h : reader.next = (.error error, behind)) :
    reader.readAll = (.error error, behind) := by
  obtain ⟨failure, hread, rfl, rfl⟩ := next_eq_error_iff.mp h
  unfold readAll
  cases hcs : reader.rest with
  | nil =>
    rw [hcs] at hread
    cases hread
  | cons c cs =>
    rw [hcs] at hread
    simp only [listFrom, hread]

/-- At the end of the text, the end is all that is left. -/
theorem readAll_of_eof (h : reader.next = (.ok .eof, behind)) :
    reader.readAll = (.ok [⟨reader.position, .eof⟩], behind) := by
  obtain ⟨hread, rfl⟩ := next_eq_ok_iff.mp h
  have hnil : reader.rest = [] := eq_nil_of_read_eof hread
  unfold readAll
  rw [hnil]
  rfl

/-- **Token after token**: where a token is read, all tokens that are left are
this one and all that are left behind it. -/
theorem readAll_of_ok {token : Token} (h : reader.next = (.ok token, behind))
    (heof : token ≠ .eof) :
    reader.readAll =
      (behind.readAll.1.map (⟨reader.position, token⟩ :: ·), behind.readAll.2) := by
  have hrest := rest_of_next h
  obtain ⟨hread, hbehind⟩ := next_eq_ok_iff.mp h
  have hposition : behind.position = reader.position + token.length := by rw [hbehind]
  have hbefore : token.ReadsBefore behind.rest := by rwa [ReadsBefore, ← hrest]
  have hturn := listFrom_append heof hbefore reader.position
  rw [← hrest, ← hposition] at hturn
  unfold readAll
  rw [hturn]
  cases listFrom behind.position 0 behind.rest with
  | error failure => simp [Except.map, hbehind]
  | ok tokens =>
    have hlength : reader.rest.length = token.length + behind.rest.length := by
      rw [hrest, List.length_append, String.length_toList, length]
    simp only [Except.map, hposition, hlength, Nat.add_assoc]
    simp [hbehind]

end ScimQuery.Token.Reader
