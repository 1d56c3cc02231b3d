/-
ScimQuery.Proofs.QualifiedNames — a schema, a colon and an attribute.

A URN may be written with colons, dots, parentheses and question marks, so the
schema, the colon and the name behind it are mostly a URN as a whole, and one
run of characters. The lexer takes such a run apart at its last colon, and
reads what stands behind the colon again, where a dot ends the name. The names
may be reserved words, which are keywords then.

`ofText_qualified` is about any rest at which the run ends: the text is read as
the parts of the qualified name, each at its offset, and then as the rest.
-/
import ScimQuery.Filter
import ScimQuery.Proofs.Shift

namespace ScimQuery.Token

open CharClass

/-! ## 1. Words -/

/-- The token of a word that is spelled like a name. -/
def ofName (name : String) : Token :=
  match Keyword.ofWord? name with
  | some k => .keyword k
  | none => .attribute name

/-- The word is the text of its token. -/
@[simp] theorem text_ofName (name : String) : (ofName name).text = name := by
  unfold ofName
  cases hword : Keyword.ofWord? name with
  | none => rfl
  | some k => exact Keyword.word_of_ofWord? hword

theorem ofName_ne_eof (name : String) : ofName name ≠ .eof := by
  unfold ofName
  cases Keyword.ofWord? name <;> simp

/-- A word is read in front of everything that ends a plain word. -/
theorem readsBefore_ofName {name : String} (h : AttributeName.isValid name.toList = true)
    {rest : List Char} (hrest : Stops Word.isPlainRun rest) : ReadsBefore (ofName name) rest := by
  unfold ofName
  cases hword : Keyword.ofWord? name with
  | none => exact readsBefore_attribute ⟨h, hword⟩ hrest
  | some k => exact readsBefore_keyword k hrest

/-! ## 2. Sub-attributes -/

/-- A dot and the word behind it, or nothing. -/
def subRow : Option String → List Token
  | none => []
  | some name => [.dot, ofName name]

/-- The same at their offsets. -/
def subLocated (offset : Nat) : Option String → List Located
  | none => []
  | some name => [⟨offset, .dot⟩, ⟨offset + 1, ofName name⟩]

variable {urn name : String} {sub : Option String} {rest : List Char}

@[simp] theorem textOf_subRow (sub : Option String) : textOf (subRow sub) = subText sub := by
  cases sub with
  | none => rfl
  | some name =>
    show "." ++ ((ofName name).text ++ "") = "." ++ name
    rw [text_ofName, String.append_empty]

theorem place_subRow (offset : Nat) (sub : Option String) :
    place offset (subRow sub) = subLocated offset sub := by
  cases sub <;> rfl

theorem readsRow_subRow (hsub : ∀ word ∈ sub, AttributeName.isValid word.toList = true)
    (hrest : Stops isRun rest) : ReadsRow rest (subRow sub) := by
  cases sub with
  | none => trivial
  | some word =>
    have hword := readsBefore_ofName (hsub word rfl) (Word.stops_isPlainRun hrest)
    exact ⟨by simp, readsBefore_dot _, ofName_ne_eof word, by simpa using hword, trivial⟩

/-! ## 3. Qualified names -/

/-- A schema, a colon, a name and a sub-attribute. -/
def qualifiedRow (urn name : String) (sub : Option String) : List Token :=
  .urn urn :: .colon :: ofName name :: subRow sub

theorem textOf_qualifiedRow (urn name : String) (sub : Option String) :
    textOf (qualifiedRow urn name sub) = urn ++ ":" ++ name ++ subText sub := by
  show urn ++ (":" ++ ((ofName name).text ++ textOf (subRow sub))) = _
  rw [text_ofName, textOf_subRow, String.append_assoc, String.append_assoc]

theorem readsRow_qualifiedRow (hurn : SchemaUrn.isValid urn.toList = true)
    (hname : AttributeName.isValid name.toList = true)
    (hsub : ∀ word ∈ sub, AttributeName.isValid word.toList = true) (hrest : Stops isRun rest) :
    ReadsRow rest (qualifiedRow urn name sub) := by
  have hbehind : (subText sub).toList = [] ∨
      ∃ word, AttributeName.isValid word = true ∧ (subText sub).toList = '.' :: word := by
    cases sub with
    | none => exact .inl rfl
    | some word => exact .inr ⟨word.toList, hsub word rfl, by simp [subText]⟩
  -- The name stops at the dot or where the run does.
  have hstops : Stops Word.isPlainRun ((subText sub).toList ++ rest) := by
    obtain hnil | ⟨word, -, hdot⟩ := hbehind
    · rw [hnil]
      exact Word.stops_isPlainRun hrest
    · rw [hdot]
      exact Stops.cons_iff.mpr (by decide)
  obtain ⟨htail, htake⟩ := Word.tail_of_isValid hname hbehind
  have hschema := readsBefore_urn hurn htail (by rwa [htake]) hrest
  have hcolon : (textOf (.colon :: ofName name :: subRow sub)).toList =
      ':' :: (name.toList ++ (subText sub).toList) := by
    show (":" ++ ((ofName name).text ++ textOf (subRow sub))).toList = _
    rw [text_ofName, textOf_subRow]
    simp
  refine ⟨by simp, ?_, by simp, readsBefore_colon _, ofName_ne_eof name, ?_,
    readsRow_subRow hsub hrest⟩
  · rwa [hcolon, List.cons_append]
  · rw [textOf_subRow]
    exact readsBefore_ofName hname hstops

/-- **A qualified name is taken apart** into its schema, the colon, the name and
the sub-attribute, whatever characters the schema is written with. Behind it
the text goes on as it would alone. -/
theorem ofText_qualified {rest : String} (hurn : SchemaUrn.isValid urn.toList = true)
    (hname : AttributeName.isValid name.toList = true)
    (hsub : ∀ word ∈ sub, AttributeName.isValid word.toList = true)
    (hrest : Stops isRun rest.toList) :
    let front := urn ++ ":" ++ name ++ subText sub
    ofText (front ++ rest) =
      match ofText rest with
      | .ok located => .ok (⟨0, .urn urn⟩ :: ⟨urn.length, .colon⟩ ::
          ⟨urn.length + 1, ofName name⟩ :: (subLocated (urn.length + 1 + name.length) sub ++
            located.map (·.shift front.length)))
      | .error error => .error (error.shift front.length) := by
  have hplace : place 0 (qualifiedRow urn name sub) = ⟨0, .urn urn⟩ :: ⟨urn.length, .colon⟩ ::
      ⟨urn.length + 1, ofName name⟩ :: subLocated (urn.length + 1 + name.length) sub := by
    have hlength : (ofName name).length = name.length := by
      rw [length, text_ofName]
    simp only [qualifiedRow, place, place_subRow, hlength, Nat.zero_add]
    rfl
  have hrow := ofText_row (readsRow_qualifiedRow hurn hname hsub hrest)
  rw [textOf_qualifiedRow, hplace] at hrow
  exact hrow

/-- The text up to the space is a URN as a whole, with joints and with reserved
words behind its last colon, in front of a rest that is read and of one that is
refused. -/
theorem ofText_qualified_joints :
    SchemaUrn.isValid "urn:a-c:b.(c):d?+e#f:pr.not".toList = true ∧
    ofText "urn:a-c:b.(c):d?+e#f:pr.not eq" = .ok [⟨0, .urn "urn:a-c:b.(c):d?+e#f"⟩,
      ⟨20, .colon⟩, ⟨21, .keyword .present⟩, ⟨23, .dot⟩, ⟨24, .keyword .negation⟩, ⟨27, .space⟩,
      ⟨28, .keyword (.comparison .equal)⟩, ⟨30, .eof⟩] ∧
    ofText "urn:a-c:b.(c):d?+e#f:pr.not ?" = .error ⟨.strayCharacter '?', 28⟩ := by
  have hurn : SchemaUrn.isValid "urn:a-c:b.(c):d?+e#f".toList = true := by decide
  have hname : AttributeName.isValid "pr".toList = true := by decide
  have hsub : ∀ word ∈ some "not", AttributeName.isValid word.toList = true := by
    rintro word ⟨⟩
    decide
  have hspace (rest : List Char) : Stops isRun (' ' :: rest) := Stops.cons_iff.mpr (by decide)
  have hspaceEq : Stops isRun " eq".toList := hspace "eq".toList
  have hspaceStray : Stops isRun " ?".toList := hspace "?".toList
  have hread := ofText_qualified hurn hname hsub hspaceEq
  have hrefused := ofText_qualified hurn hname hsub hspaceStray
  have hrest : ofText " eq" = .ok [⟨0, .space⟩, ⟨1, .keyword (.comparison .equal)⟩, ⟨3, .eof⟩] := by
    decide
  have hstray : ofText " ?" = .error ⟨.strayCharacter '?', 1⟩ := by decide
  rw [hrest] at hread
  rw [hstray] at hrefused
  exact ⟨by decide, hread, hrefused⟩

end ScimQuery.Token
