/-
ScimQuery.Proofs.SessionBounds — a reading session stays inside its text.

Whatever is done with a session, and however often it has failed, its position
and the positions it has saved are positions of the text (`InBounds.answers`),
and the errors it answers with lie between the start of the token that cannot be
read and the end of the text. The reads of such a session can be done in place:
all the cuts that they take out of the one text succeed (`answers?_eq`).

Reading all tokens fails on a token that single reads come to. `ReadsTo` is how
they come there, and `exists_readsTo` finds the session in front of the last
read, so what holds of one read holds of all.
-/
import ScimQuery.Proofs.InPlace.Agreement
import ScimQuery.Proofs.ReadingSessions

namespace ScimQuery

/-! ## 1. Sessions in place -/

namespace InPlace

open Token.Reader

/-- Reads one token in place. -/
def next? (reader : Token.Reader) : Option (Except LexicalError Token × Token.Reader) :=
  (read? reader.text reader.position).map fun (result, place) =>
    (result, { reader with position := place })

/-- Reads all tokens that are left, one after the other. The number of turns is
bounded, and there is no answer if they do not suffice. -/
def readTurns? : Nat → Token.Reader → Option (Except LexicalError (List Located) × Token.Reader)
  | 0, _ => none
  | turns + 1, reader =>
    (next? reader).bind fun
      | (.error error, behind) => some (.error error, behind)
      | (.ok token, behind) =>
        if token = .eof then some (.ok [⟨reader.position, .eof⟩], behind)
        else (readTurns? turns behind).map fun (result, last) =>
          (result.map (⟨reader.position, token⟩ :: ·), last)

/-- The answer to an operation, with all reads in place. A text of so many
characters has at most one token more, its end. -/
def answer? (reader : Token.Reader) : Operation → Option (Answer × Token.Reader)
  | .next => (next? reader).map fun (result, behind) => (.token result, behind)
  | .readAll =>
    (readTurns? (reader.text.length + 1) reader).map fun (result, behind) =>
      (.tokens result, behind)
  | operation => some (reader.answer operation)

/-- The answers to a row of operations, with all reads in place. -/
def answers? (reader : Token.Reader) : List Operation → Option (List Answer × Token.Reader)
  | [] => some ([], reader)
  | operation :: operations =>
    (answer? reader operation).bind fun (answer, behind) =>
      (answers? behind operations).map fun (answers, last) => (answer :: answers, last)

end InPlace

namespace Token.Reader

/-! ## 2. Bounds -/

/-- The position and the saved positions are positions of the text. -/
structure InBounds (reader : Reader) : Prop where
  position_le : reader.position ≤ reader.text.length
  saved_le : ∀ position ∈ reader.saved, position ≤ reader.text.length

/-- A session starts in bounds. -/
theorem inBounds_ofText (source : String) : (ofText source).InBounds :=
  ⟨Nat.zero_le _, nofun⟩

variable {reader behind last : Reader}

/-- What is left reaches to the end of the text. -/
theorem position_add_of_le (h : reader.position ≤ reader.text.length) :
    reader.position + reader.rest.length = reader.text.length := by
  rw [rest, List.length_drop]
  omega

theorem InBounds.position_add (h : reader.InBounds) :
    reader.position + reader.rest.length = reader.text.length :=
  position_add_of_le h.position_le

/-- Where a character is left, the position is one of the text. -/
theorem position_le_of_head? {c : Char} (h : reader.rest.head? = some c) :
    reader.position ≤ reader.text.length := by
  by_contra hlt
  rw [rest, List.drop_of_length_le (Nat.le_of_not_le hlt)] at h
  cases h

/-- **One read** keeps the session in bounds, whether or not it fails. -/
theorem InBounds.next (h : reader.InBounds) : reader.next.2.InBounds := by
  refine ⟨?_, fun position hsaved => ?_⟩
  · rw [text_next, ← h.position_add]
    cases hnext : reader.next with
    | mk result behind =>
      cases result with
      | ok token =>
        obtain ⟨hread, rfl⟩ := next_eq_ok_iff.mp hnext
        have hlength := (read_sound hread).2.length_le
        rw [String.length_toList] at hlength
        exact Nat.add_le_add_left hlength _
      | error error =>
        obtain ⟨failure, hread, -, rfl⟩ := next_eq_error_iff.mp hnext
        exact Nat.add_le_add_left (le_length_of_read_eq_error hread).2 _
  · rw [text_next]
    rw [saved_next] at hsaved
    exact h.saved_le position hsaved

/-- An error of one read lies between its start and the end of the text. -/
theorem InBounds.offset_next (h : reader.InBounds) {error : LexicalError}
    (herror : reader.next.1 = .error error) :
    reader.position ≤ error.offset ∧ error.offset ≤ reader.text.length := by
  obtain ⟨failure, hread, rfl, -⟩ :=
    next_eq_error_iff.mp (show reader.next = (.error error, reader.next.2) by rw [← herror])
  rw [← h.position_add]
  exact ⟨Nat.le_add_right _ _,
    Nat.add_le_add_left (le_length_of_read_eq_error hread).1 _⟩

/-! ## 3. Read after read -/

/-- Single reads lead from one session to the other, and none of them comes upon
the end of the text. -/
inductive ReadsTo : Reader → Reader → Prop where
  | refl (reader : Reader) : ReadsTo reader reader
  | next {reader behind last : Reader} {token : Token} (hnext : reader.next = (.ok token, behind))
      (heof : token ≠ .eof) : ReadsTo behind last → ReadsTo reader last

theorem ReadsTo.inBounds (h : ReadsTo reader last) (hreader : reader.InBounds) :
    last.InBounds := by
  induction h with
  | refl => exact hreader
  | next hnext _ _ ih =>
    have hbehind := hreader.next
    rw [hnext] at hbehind
    exact ih hbehind

theorem ReadsTo.text_eq (h : ReadsTo reader last) : last.text = reader.text := by
  induction h with
  | refl => rfl
  | @next reader behind last token hnext _ _ ih =>
    have hbehind := text_next reader
    rw [hnext] at hbehind
    exact ih.trans hbehind

/-- A token that is read leaves less of the text. -/
theorem length_rest_lt {token : Token} (hnext : reader.next = (.ok token, behind))
    (heof : token ≠ .eof) : behind.rest.length < reader.rest.length := by
  have hwell := (read_sound (next_eq_ok_iff.mp hnext).1).1
  have hpos := List.length_pos_iff.mpr (hwell.text_ne_empty heof)
  rw [rest_of_next hnext, List.length_append]
  omega

/-- **The last read**: reading all tokens leaves the session as one last single
read does that single reads come to, and where it fails, this read fails with
the same error. -/
theorem exists_readsTo (reader : Reader) :
    ∃ last, ReadsTo reader last ∧ last.next.2 = reader.readAll.2 ∧
      ∀ error, reader.readAll.1 = .error error → last.next.1 = .error error := by
  induction hn : reader.rest.length using Nat.strong_induction_on generalizing reader with
  | _ n ih =>
    subst hn
    cases hnext : reader.next with
    | mk result behind =>
      cases result with
      | error error =>
        refine ⟨reader, .refl reader, ?_⟩
        rw [readAll_of_error hnext, hnext]
        simp
      | ok token =>
        by_cases heof : token = .eof
        · subst heof
          refine ⟨reader, .refl reader, ?_⟩
          rw [readAll_of_eof hnext, hnext]
          simp
        · obtain ⟨last, hlast, hbehind, herror⟩ := ih _ (length_rest_lt hnext heof) behind rfl
          refine ⟨last, .next hnext heof hlast, ?_⟩
          rw [readAll_of_ok hnext heof]
          exact ⟨hbehind, fun error h => herror error (result_map_eq_error_iff.mp h)⟩

theorem InBounds.readAll (h : reader.InBounds) : reader.readAll.2.InBounds := by
  obtain ⟨last, hlast, hbehind, -⟩ := exists_readsTo reader
  rw [← hbehind]
  exact (hlast.inBounds h).next

/-! ## 4. Operations -/

/-- Every operation keeps the session in bounds. -/
theorem InBounds.answer (h : reader.InBounds) (operation : Operation) :
    (reader.answer operation).2.InBounds := by
  cases operation with
  | next => exact h.next
  | readAll => exact h.readAll
  | save =>
    refine ⟨h.position_le, fun position hsaved => ?_⟩
    rcases List.mem_cons.mp hsaved with rfl | hsaved
    · exact h.position_le
    · exact h.saved_le position hsaved
  | forget =>
    exact ⟨h.position_le, fun position hsaved => h.saved_le position (List.mem_of_mem_tail hsaved)⟩
  | restore =>
    show reader.restore.InBounds
    unfold restore
    split
    · exact h
    · rename_i position saved hsaved
      refine ⟨h.saved_le position (by simp [hsaved]), fun other hother => h.saved_le other ?_⟩
      rw [hsaved]
      exact List.mem_cons_of_mem _ hother

theorem InBounds.answers (h : reader.InBounds) (operations : List Operation) :
    (reader.answers operations).2.InBounds := by
  induction operations generalizing reader with
  | nil => exact h
  | cons operation operations ih => exact ih (h.answer operation)

end Token.Reader

/-! ## 5. Reading in place -/

namespace InPlace

open Token.Reader

variable {reader : Token.Reader}

/-- The next token is read in place, up to the same place. -/
theorem read?_eq_next (h : reader.position ≤ reader.text.length) :
    read? reader.text reader.position = some (reader.next.1, reader.next.2.position) := by
  rw [read?_eq h, Token.Reader.next, rest]
  cases Token.read (reader.text.drop reader.position) <;> rfl

theorem next?_eq (h : reader.position ≤ reader.text.length) :
    next? reader = some reader.next := by
  rw [next?, read?_eq_next h, Option.map_some, Token.Reader.next]
  cases Token.read reader.rest <;> rfl

theorem readTurns?_eq {turns : Nat} (h : reader.InBounds) (hturns : reader.rest.length < turns) :
    readTurns? turns reader = some reader.readAll := by
  induction turns generalizing reader with
  | zero => omega
  | succ turns ih =>
    rw [readTurns?, next?_eq h.position_le, Option.bind_some]
    cases hnext : reader.next with
    | mk result behind =>
      cases result with
      | error error => rw [readAll_of_error hnext]
      | ok token =>
        by_cases heof : token = .eof
        · subst heof
          rw [readAll_of_eof hnext]
          rfl
        · have hbehind := h.next
          rw [hnext] at hbehind
          have hlt : behind.rest.length < turns :=
            (length_rest_lt hnext heof).trans_le (Nat.le_of_lt_succ hturns)
          simp only [if_neg heof, ih hbehind hlt, Option.map_some]
          rw [readAll_of_ok hnext heof]

theorem answer?_eq (h : reader.InBounds) (operation : Operation) :
    answer? reader operation = some (reader.answer operation) := by
  cases operation with
  | next =>
    rw [answer?, next?_eq h.position_le]
    rfl
  | readAll =>
    have hrest := h.position_add
    rw [answer?, readTurns?_eq h (by omega)]
    rfl
  | save => rfl
  | forget => rfl
  | restore => rfl

/-- **A session in bounds is served in place**: no cut is out of range, and the
answers are the same. -/
theorem answers?_eq (h : reader.InBounds) (operations : List Operation) :
    answers? reader operations = some (reader.answers operations) := by
  induction operations generalizing reader with
  | nil => rfl
  | cons operation operations ih =>
    rw [answers?, answer?_eq h, Option.bind_some]
    simp only [ih (h.answer operation)]
    rfl

end InPlace

/-! ## 6. Sessions over a text -/

namespace Token.Reader

/-- The error in an answer. -/
def Answer.error? : Answer → Option LexicalError
  | .token (.error error) => some error
  | .tokens (.error error) => some error
  | _ => none

theorem error?_token_iff {result : Except LexicalError Token} {error : LexicalError} :
    (Answer.token result).error? = some error ↔ result = .error error := by
  cases result <;> simp [Answer.error?]

theorem error?_tokens_iff {result : Except LexicalError (List Located)} {error : LexicalError} :
    (Answer.tokens result).error? = some error ↔ result = .error error := by
  cases result <;> simp [Answer.error?]

/-- The operation fails, on a token that starts at `start`. -/
def FailsAt (reader : Reader) (start : Nat) (error : LexicalError) : Operation → Prop
  | .next => reader.position = start ∧ reader.next.1 = .error error
  | .readAll => ∃ last, ReadsTo reader last ∧ last.position = start ∧ last.next.1 = .error error
  | _ => False

/-- An error is that of a token, and lies between its start and the end of the
text. -/
theorem InBounds.exists_failsAt {reader : Reader} (h : reader.InBounds) {operation : Operation}
    {error : LexicalError} (herror : (reader.answer operation).1.error? = some error) :
    ∃ start, reader.FailsAt start error operation ∧ start ≤ error.offset ∧
      error.offset ≤ reader.text.length := by
  cases operation with
  | next =>
    have hnext := error?_token_iff.mp herror
    exact ⟨reader.position, ⟨rfl, hnext⟩, h.offset_next hnext⟩
  | readAll =>
    obtain ⟨last, hlast, -, hfails⟩ := exists_readsTo reader
    have hnext := hfails error (error?_tokens_iff.mp herror)
    have hbounds := (hlast.inBounds h).offset_next hnext
    rw [hlast.text_eq] at hbounds
    exact ⟨last.position, ⟨last, hlast, rfl, hnext⟩, hbounds⟩
  | save => cases herror
  | forget => cases herror
  | restore => cases herror

/-- **A session stays inside its text.** After any operations on it, failed ones
included, its position and the saved ones are positions of the text; all that
it has read could be cut out of the text; and whatever is asked of it next, the
error it may answer with lies between the start of the token that cannot be read
and the end of the text. -/
theorem session_inBounds (source : String) (operations : List Operation) :
    let reader := ((ofText source).answers operations).2
    reader.position ≤ source.length ∧ (∀ position ∈ reader.saved, position ≤ source.length) ∧
      InPlace.answers? (ofText source) operations = some ((ofText source).answers operations) ∧
      ∀ operation error, (reader.answer operation).1.error? = some error →
        ∃ start, reader.FailsAt start error operation ∧ start ≤ error.offset ∧
          error.offset ≤ source.length := by
  intro reader
  have hstart := inBounds_ofText source
  have hreader : reader.InBounds := hstart.answers operations
  have hlength : reader.text.length = source.length := by
    rw [text_answers, ofText, String.length_toList]
  rw [← hlength]
  exact ⟨hreader.position_le, hreader.saved_le, InPlace.answers?_eq hstart operations,
    fun operation error herror => hreader.exists_failsAt herror⟩

/-- A session that a number without its exponent has left behind the digit, in
front of the offset of the error. All tokens that are left are read from there,
up to a string that cannot be read, and the error lies inside the string. -/
theorem session_inBounds_failing :
    let operations : List Operation := [.next, .next, .save, .next]
    let reader := ((ofText "a 1e \"\\x").answers operations).2
    reader.position = 3 ∧ reader.saved = [2] ∧
      InPlace.answers? (ofText "a 1e \"\\x") operations =
        some ([.token (.ok (.attribute "a")), .token (.ok .space), .silent,
          .token (.error ⟨.exponentDigitMissing, 4⟩)], reader) ∧
      ∃ start, reader.FailsAt start ⟨.unknownEscape, 6⟩ .readAll ∧ start ≤ 6 := by
  intro operations reader
  obtain ⟨-, -, hserved, herrors⟩ := session_inBounds "a 1e \"\\x" operations
  have herror : (reader.answer .readAll).1.error? = some ⟨.unknownEscape, 6⟩ := by decide
  obtain ⟨start, hfails, hstart, -⟩ := herrors .readAll _ herror
  have hanswers : ((ofText "a 1e \"\\x").answers operations).1 =
      [.token (.ok (.attribute "a")), .token (.ok .space), .silent,
        .token (.error ⟨.exponentDigitMissing, 4⟩)] := by decide
  refine ⟨by decide, by decide, ?_, start, hfails, hstart⟩
  rw [hserved, ← hanswers]

end Token.Reader

end ScimQuery
