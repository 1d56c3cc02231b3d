/-
ScimQuery.Proofs.SavedPositions — positions are saved and returned to as
brackets are opened and closed.

`levelAfter` counts how many positions are saved over those that were there at
first, and gives up when an operation reaches below them. Between a save and
the return that belongs to it the count starts and ends with nothing
(`IsNested`), whatever is read in between, and whether or not it can be read:
reading moves the position and never touches what is saved. So the return finds
the position of that very save on top (`saved_answers_of_isNested`), and what has
been done in between can be done again with the same answers.
-/
import ScimQuery.Proofs.ReadingSessions

namespace ScimQuery.Token.Reader

/-! ## 1. Levels -/

/-- How many positions are saved over the first ones after an operation, of
`level` in front of it. -/
def Operation.levelAfter (level : Nat) : Operation → Option Nat
  | .next | .readAll => some level
  | .save => some (level + 1)
  | .forget | .restore =>
    match level with
    | 0 => none
    | level + 1 => some level

/-- How many positions are saved over the first ones after a row of operations,
if none of them reaches below. -/
def levelAfter (level : Nat) : List Operation → Option Nat
  | [] => some level
  | operation :: operations => (operation.levelAfter level).bind (levelAfter · operations)

/-- The operations drop or return to every position they have saved, and to no
other one. -/
def IsNested (operations : List Operation) : Prop :=
  levelAfter 0 operations = some 0

/-- So many positions are saved over those of `base`. -/
def SavesOver (base : List Nat) (level : Nat) (reader : Reader) : Prop :=
  ∃ front, reader.saved = front ++ base ∧ front.length = level

variable {base : List Nat} {level last : Nat} {reader : Reader}

/-- With nothing saved over them, the first positions are what is saved. -/
theorem savesOver_zero_iff : SavesOver base 0 reader ↔ reader.saved = base := by
  constructor
  · intro h
    obtain ⟨front, hsaved, hlength⟩ := h
    rw [hsaved, List.eq_nil_of_length_eq_zero hlength, List.nil_append]
  · intro h
    exact ⟨[], h, rfl⟩

/-- The level is kept by an operation as it is counted. -/
theorem SavesOver.answer (h : SavesOver base level reader) {operation : Operation}
    (hlevel : operation.levelAfter level = some last) :
    SavesOver base last (reader.answer operation).2 := by
  obtain ⟨front, hsaved, rfl⟩ := h
  cases operation with
  | next =>
    cases hlevel
    exact ⟨front, (saved_next reader).trans hsaved, rfl⟩
  | readAll =>
    cases hlevel
    exact ⟨front, (saved_readAll reader).trans hsaved, rfl⟩
  | save =>
    cases hlevel
    exact ⟨reader.position :: front, congrArg _ hsaved, rfl⟩
  | forget =>
    cases front with
    | nil => cases hlevel
    | cons position front =>
      cases hlevel
      exact ⟨front, congrArg List.tail hsaved, rfl⟩
  | restore =>
    cases front with
    | nil => cases hlevel
    | cons position front =>
      cases hlevel
      refine ⟨front, ?_, rfl⟩
      show reader.restore.saved = front ++ base
      simp [restore, hsaved]

/-- And so it is by a row of operations. -/
theorem SavesOver.answers {operations : List Operation} (h : SavesOver base level reader)
    (hlevel : levelAfter level operations = some last) :
    SavesOver base last (reader.answers operations).2 := by
  induction operations generalizing level reader with
  | nil =>
    cases hlevel
    exact h
  | cons operation operations ih =>
    obtain ⟨between, hfirst, hrest⟩ := Option.bind_eq_some_iff.mp hlevel
    exact ih (h.answer hfirst) hrest

/-! ## 2. Brackets -/

/-- Nested operations leave what is saved as it is. -/
theorem saved_answers_of_isNested {operations : List Operation} (h : IsNested operations)
    (reader : Reader) : (reader.answers operations).2.saved = reader.saved :=
  savesOver_zero_iff.mp ((savesOver_zero_iff.mpr rfl).answers h)

/-- **A save and its return are brackets.** Whatever is done between them, as
long as it is nested itself, the session behind the return is the session in
front of the save. Dropping the position instead leaves the session where it has
come to, with the positions saved that were saved before. And since the session
is the same, the whole answers the same when it is done again. -/
theorem answers_nested {operations : List Operation} (h : IsNested operations) (reader : Reader) :
    let inner := reader.save.answers operations
    let bracket := .save :: (operations ++ [.restore])
    reader.answers bracket = (.silent :: (inner.1 ++ [.silent]), reader) ∧
      reader.answers (.save :: (operations ++ [.forget])) =
        (.silent :: (inner.1 ++ [.silent]), { reader with position := inner.2.position }) ∧
      reader.answers (bracket ++ bracket) =
        ((reader.answers bracket).1 ++ (reader.answers bracket).1, reader) := by
  intro inner bracket
  have hsaved : inner.2.saved = reader.position :: reader.saved :=
    saved_answers_of_isNested h reader.save
  have htext : inner.2.text = reader.text := text_answers reader.save operations
  have hrestore : inner.2.restore = reader := by
    simp only [restore, hsaved, htext]
  have hforget : inner.2.forget = { reader with position := inner.2.position } := by
    simp only [forget, hsaved, htext, List.tail_cons]
  -- What a closing operation leaves is what it leaves behind the inner row.
  have hclose (last : Operation) : reader.answers (.save :: (operations ++ [last])) =
      (.silent :: (inner.1 ++ [(inner.2.answer last).1]), (inner.2.answer last).2) := by
    show (Answer.silent :: (reader.save.answers (operations ++ [last])).1,
      (reader.save.answers (operations ++ [last])).2) = _
    rw [answers_append]
    rfl
  have hbracket : reader.answers bracket = (.silent :: (inner.1 ++ [.silent]), reader) := by
    rw [hclose .restore]
    exact congrArg (Prod.mk _) hrestore
  refine ⟨hbracket, ?_, ?_⟩
  · rw [hclose .forget]
    exact congrArg (Prod.mk _) hforget
  · rw [answers_append, hbracket]
    simp only [hbracket]

/-- A session that stands behind the first two characters, with a position
saved. Inside the bracket a read fails and leaves the session on a backslash,
another save is returned to, and a third one is dropped. -/
theorem answers_nested_failing :
    let reader := ((ofText "a \"\\x\"").answers [.save, .next, .next]).2
    let operations : List Operation :=
      [.next, .save, .readAll, .restore, .save, .next, .forget]
    reader.position = 2 ∧ reader.saved = [0] ∧ IsNested operations ∧
      (reader.save.answers operations).2.position = 3 ∧
      (reader.answers (.save :: (operations ++ [.restore]))).2 = reader ∧
      (reader.answers (.save :: (operations ++ [.forget]))).2 = ⟨reader.text, 3, [0]⟩ := by
  intro reader operations
  have hnested : IsNested operations := rfl
  have hposition : (reader.save.answers operations).2.position = 3 := by decide
  obtain ⟨hrestore, hforget, -⟩ := answers_nested hnested reader
  refine ⟨by decide, by decide, hnested, hposition, by rw [hrestore], ?_⟩
  rw [hforget, hposition]
  rfl

end ScimQuery.Token.Reader
