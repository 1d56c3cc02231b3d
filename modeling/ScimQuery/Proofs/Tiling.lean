/-
ScimQuery.Proofs.Tiling — the tokens of a text cover it without gaps and
without overlaps.

`Tiles located text` says so of a list of tokens with their offsets: side by
side their texts are the text, each of them but the end takes a character or
more, each stands where the ones in front of it stop, and the end of the text
is the last token and no other one. `ofText_tiles` is that the lexer answers
with such a list whenever it answers with tokens at all, by itself and in a
session over the text.

What a token takes follows from the text that it keeps, so a schema that is cut
off a longer run, a number in front of a dot and a string with escape sequences
are all covered by one statement about `Token.text`. A reader that keeps to places
in the text moves by what it looks at, two characters or six behind a backslash
and back to the last colon of a run. It comes to the same places
(`Readable.read?_eq`).
-/
import ScimQuery.Proofs.SessionBounds

namespace ScimQuery.Token

/-- The tokens lie side by side over the text. -/
structure Tiles (located : List Located) (text : String) : Prop where
  /-- No character is lost, added or read twice. -/
  textOf_eq : textOf (located.map Located.token) = text
  /-- Every token but the end takes a character or more. -/
  text_ne_empty : ∀ entry ∈ located, entry.token ≠ .eof → entry.token.text ≠ ""
  /-- A token stands behind as many characters as the tokens in front of it
  take. -/
  offset_eq : ∀ front entry back, located = front ++ entry :: back →
    entry.offset = (textOf (front.map Located.token)).length
  /-- The end of the text comes last, behind all characters, and only once. -/
  ends : ∃ front, located = front ++ [⟨text.length, .eof⟩] ∧
    ∀ entry ∈ front, entry.token ≠ .eof

/-! ## 1. Offsets of a row -/

/-- The token that stands behind some others of a row. -/
theorem offset_of_locate {tokens : List Token} {offset : Nat} {front back : List Located}
    {entry : Located} (h : locate offset tokens = front ++ entry :: back) :
    entry.offset = offset + (textOf (front.map Located.token)).length := by
  induction front generalizing tokens offset with
  | nil =>
    cases tokens with
    | nil =>
      obtain ⟨rfl, -⟩ := List.cons.inj h
      rfl
    | cons token rest =>
      obtain ⟨rfl, -⟩ := List.cons.inj h
      rfl
  | cons first front ih =>
    cases tokens with
    | nil =>
      obtain ⟨-, hnil⟩ := List.cons.inj h
      simp at hnil
    | cons token rest =>
      obtain ⟨rfl, hrest⟩ := List.cons.inj h
      rw [ih hrest, List.map_cons, textOf_cons, String.length_append, Nat.add_assoc]
      rfl

/-- A row and the end of the text behind it. -/
theorem exists_locate_eq (offset : Nat) (tokens : List Token) :
    ∃ front, locate offset tokens = front ++ [⟨offset + (textOf tokens).length, .eof⟩] ∧
      front.map Located.token = tokens := by
  induction tokens generalizing offset with
  | nil => exact ⟨[], rfl, rfl⟩
  | cons token rest ih =>
    obtain ⟨front, hlocate, hfront⟩ := ih (offset + token.length)
    refine ⟨⟨offset, token⟩ :: front, ?_, by rw [List.map_cons, hfront]⟩
    rw [locate, hlocate, textOf_cons, String.length_append, length, Nat.add_assoc]
    rfl

/-! ## 2. The lexer -/

/-- A readable row tiles its text. -/
theorem Readable.tiles {tokens : List Token} (h : Readable tokens) :
    Tiles (locate 0 tokens) (textOf tokens) := by
  obtain ⟨front, hlocate, hfront⟩ := exists_locate_eq 0 tokens
  have hmem {entry : Located} (hentry : entry ∈ front) : entry.token ∈ tokens :=
    hfront ▸ List.mem_map_of_mem hentry
  rw [Nat.zero_add] at hlocate
  refine ⟨?_, fun entry hentry heof hempty => ?_, fun front entry back hsplit => ?_,
    front, hlocate, fun entry hentry => (h.forall_mem _ (hmem hentry)).1⟩
  · simp [text]
  · rw [hlocate, List.mem_append, List.mem_singleton] at hentry
    rcases hentry with hentry | rfl
    · exact (h.forall_mem _ (hmem hentry)).2.text_ne_empty heof (by rw [hempty]; rfl)
    · exact heof rfl
  · rw [offset_of_locate hsplit, Nat.zero_add]

/-- Where a token of a readable row stands, it is read. -/
theorem Readable.read_drop {tokens : List Token} (h : Readable tokens) {offset : Nat}
    {entry : Located} (hentry : entry ∈ locate offset tokens) :
    ∃ n, entry.offset = offset + n ∧ n ≤ (textOf tokens).length ∧
      read ((textOf tokens).toList.drop n) = .ok entry.token := by
  induction tokens generalizing offset with
  | nil =>
    obtain rfl := List.mem_singleton.mp hentry
    exact ⟨0, rfl, Nat.le_refl 0, rfl⟩
  | cons token rest ih =>
    obtain ⟨-, hread, hrest⟩ := h
    rcases List.mem_cons.mp hentry with rfl | hentry
    · refine ⟨0, rfl, Nat.zero_le _, ?_⟩
      rw [List.drop_zero, textOf_cons, String.toList_append]
      exact hread
    · obtain ⟨n, hoffset, hn, hread⟩ := ih hrest hentry
      refine ⟨token.length + n, by rw [hoffset, Nat.add_assoc], ?_, ?_⟩
      · rw [textOf_cons, String.length_append]
        exact Nat.add_le_add_left hn _
      · rw [textOf_cons, String.toList_append, length, ← String.length_toList, ← List.drop_drop,
          List.drop_left]
        exact hread

/-- **In place, the tokens of a readable row lead from one to the next**: where one
stands it is read, and the place behind it is as far off as its text is long. -/
theorem Readable.read?_eq {tokens : List Token} (h : Readable tokens) {entry : Located}
    (hentry : entry ∈ locate 0 tokens) :
    InPlace.read? (textOf tokens).toList entry.offset =
      some (.ok entry.token, entry.offset + entry.token.length) := by
  obtain ⟨n, hoffset, hn, hread⟩ := h.read_drop hentry
  obtain rfl : entry.offset = n := by rw [hoffset, Nat.zero_add]
  rw [← String.length_toList] at hn
  rw [InPlace.read?_eq hn, hread]
  rfl

/-- A session over a text starts with all of it left. -/
theorem Reader.readAll_ofText {source : String} {located : List Located}
    (h : Token.ofText source = .ok located) :
    (Reader.ofText source).readAll = (.ok located, ⟨source.toList, source.length, []⟩) := by
  cases hlist : listFrom 0 0 source.toList with
  | error failure => simp [Token.ofText, hlist] at h
  | ok tokens =>
    rw [Token.ofText, hlist] at h
    obtain rfl := Except.ok.inj h
    simp [readAll, Reader.ofText, rest, hlist, String.length_toList]

/-- **The lexer is lossless**: the tokens that it answers with tile the text,
and a session that reads them all has come to the end. Read in place, every token
is found at its offset and takes the reader as far as its text is long, and so do
all of them one after the other. -/
theorem ofText_tiles {source : String} {located : List Located}
    (h : Token.ofText source = .ok located) :
    Tiles located source ∧
      (Reader.ofText source).readAll = (.ok located, ⟨source.toList, source.length, []⟩) ∧
      (∀ entry ∈ located, InPlace.read? source.toList entry.offset =
        some (.ok entry.token, entry.offset + entry.token.length)) ∧
      InPlace.answer? (Reader.ofText source) .readAll =
        some (.tokens (.ok located), ⟨source.toList, source.length, []⟩) := by
  obtain ⟨tokens, hreadable, rfl, rfl⟩ := ofText_eq_ok_iff.mp h
  have hall := Reader.readAll_ofText h
  refine ⟨hreadable.tiles, hall, fun entry hentry => hreadable.read?_eq hentry, ?_⟩
  rw [InPlace.answer?_eq (Reader.inBounds_ofText _), Reader.answer, hall]

/-- A schema that is cut off its run, a number in front of a dot, and a string
with an escape sequence and a character outside ASCII. -/
theorem ofText_tiles_schema :
    Token.ofText "urn:ab:c:d 1.\"é\\n\"" = .ok [⟨0, .urn "urn:ab:c"⟩, ⟨8, .colon⟩,
      ⟨9, .attribute "d"⟩, ⟨10, .space⟩, ⟨11, .number "1"⟩, ⟨12, .dot⟩,
      ⟨13, .string "\"é\\n\""⟩, ⟨18, .eof⟩] ∧
    Tiles [⟨0, .urn "urn:ab:c"⟩, ⟨8, .colon⟩, ⟨9, .attribute "d"⟩, ⟨10, .space⟩,
      ⟨11, .number "1"⟩, ⟨12, .dot⟩, ⟨13, .string "\"é\\n\""⟩, ⟨18, .eof⟩]
      "urn:ab:c:d 1.\"é\\n\"" ∧
    InPlace.read? "urn:ab:c:d 1.\"é\\n\"".toList 0 = some (.ok (.urn "urn:ab:c"), 8) ∧
    InPlace.read? "urn:ab:c:d 1.\"é\\n\"".toList 13 = some (.ok (.string "\"é\\n\""), 18) := by
  have h : Token.ofText "urn:ab:c:d 1.\"é\\n\"" = .ok [⟨0, .urn "urn:ab:c"⟩, ⟨8, .colon⟩,
      ⟨9, .attribute "d"⟩, ⟨10, .space⟩, ⟨11, .number "1"⟩, ⟨12, .dot⟩,
      ⟨13, .string "\"é\\n\""⟩, ⟨18, .eof⟩] := by decide
  obtain ⟨htiles, -, hplaces, -⟩ := ofText_tiles h
  exact ⟨h, htiles, hplaces ⟨0, .urn "urn:ab:c"⟩ (by simp),
    hplaces ⟨13, .string "\"é\\n\""⟩ (by simp)⟩

end ScimQuery.Token
