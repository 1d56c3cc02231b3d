/-
ScimQuery.Proofs.Neighbours — which tokens stand side by side.

A word, that is a keyword or an attribute name, reaches as far as its run, and a
run stops at a joint or at what is no run character (`Word.stops_of_run_append`).
So the token behind a word starts with neither a letter, a digit nor a colon: no
two words, no word and a number, and no word and a colon stand side by side.

A run that is an attempt at a URN does not stop at joints. Either the URN is the
whole run, and what stands behind it is no parenthesis and no dot either; or it is
the schema of a qualified name, and then the tokens behind it are the colon and
the name, since what is left of the run is read again as a word
(`Readable.behind_urn`). This is what lets a parser take a URN and a colon for the
front of an attribute path.
-/
import ScimQuery.Proofs.QualifiedNames

namespace ScimQuery

open CharClass

/-! ## 1. Kinds of tokens -/

namespace Token

/-- A keyword, or an attribute name. -/
def isWord : Token → Bool
  | .keyword _ | .attribute _ => true
  | _ => false

/-- What may stand directly behind a word. -/
def endsWord : Token → Bool
  | .space | .openParen | .closeParen | .openBracket | .closeBracket | .dot | .string _ | .eof =>
    true
  | _ => false

/-- What may stand directly behind a URN that is a whole run. -/
def endsUrn : Token → Bool
  | .space | .openBracket | .closeBracket | .string _ | .eof => true
  | _ => false

theorem isWord_ofName (name : String) : (ofName name).isWord = true := by
  unfold ofName
  cases Keyword.ofWord? name <;> rfl

/-! ## 2. First characters -/

theorem isPlainRun_of_isNameChar {c : Char} (h : isNameChar c = true) :
    Word.isPlainRun c = true := by
  simp [Word.isPlainRun, isRun_of_isNameChar h, not_isJoint_of_isNameChar h]

/-- Words, URNs and numbers start with a character of names. -/
theorem IsWellFormed.exists_isNameChar {token : Token} (h : token.IsWellFormed)
    (hkind : token.isWord = true ∨ (∃ schema, token = .urn schema) ∨
      ∃ literal, token = .number literal) :
    ∃ c ∈ token.text.toList.head?, isNameChar c = true := by
  rcases hkind with hword | ⟨schema, rfl⟩ | ⟨literal, rfl⟩
  · cases token with
    | keyword keyword =>
      have hall : Keyword.all.all (·.word.toList.head?.any isNameChar) = true := by decide
      simp only [List.all_eq_true, Option.any_eq_true] at hall
      exact hall keyword (Keyword.mem_all keyword)
    | «attribute» name =>
      obtain ⟨c, tail, hcs⟩ := List.exists_cons_of_ne_nil (h.text_ne_empty (by simp))
      rw [hcs]
      exact ⟨c, rfl, Word.isNameChar_of_isValid h.1 c (hcs ▸ List.mem_cons_self)⟩
    | _ => cases hword
  · obtain ⟨u, r, n, rest, hcs, hu, -⟩ :=
      SchemaUrn.exists_of_isAttempt (SchemaUrn.isAttempt_of_isValid h)
    exact ⟨u, by simp [text, hcs], isNameChar_of_isAlpha hu⟩
  · obtain ⟨sign, whole, frac, exp, hsign, hwhole, -, -, hcs⟩ := h
    obtain ⟨d, tail, rfl, hd⟩ := hwhole.exists_cons
    rcases hsign with rfl | rfl
    · exact ⟨d, by simp [text, hcs], by simp [isNameChar, hd]⟩
    · exact ⟨'-', by simp [text, hcs], by decide⟩

/-- A token that does not end a word prolongs it. -/
theorem IsWellFormed.endsWord_or {token : Token} (h : token.IsWellFormed) :
    token.endsWord = true ∨ ∃ c ∈ token.text.toList.head?, Word.isPlainRun c = true := by
  have hname (hkind : token.isWord = true ∨ (∃ schema, token = .urn schema) ∨
      ∃ literal, token = .number literal) :
      ∃ c ∈ token.text.toList.head?, Word.isPlainRun c = true := by
    obtain ⟨c, hc, hchar⟩ := h.exists_isNameChar hkind
    exact ⟨c, hc, isPlainRun_of_isNameChar hchar⟩
  cases token with
  | keyword | «attribute» => exact .inr (hname (.inl rfl))
  | urn schema => exact .inr (hname (.inr (.inl ⟨schema, rfl⟩)))
  | number literal => exact .inr (hname (.inr (.inr ⟨literal, rfl⟩)))
  | colon => exact .inr ⟨':', rfl, by decide⟩
  | _ => exact .inl rfl

/-- A token that does not end a URN prolongs it, and parentheses and the dot do
so too. -/
theorem IsWellFormed.endsUrn_or {token : Token} (h : token.IsWellFormed) :
    token.endsUrn = true ∨ ∃ c ∈ token.text.toList.head?, isRun c = true := by
  cases token with
  | openParen => exact .inr ⟨'(', rfl, by decide⟩
  | closeParen => exact .inr ⟨')', rfl, by decide⟩
  | dot => exact .inr ⟨'.', rfl, by decide⟩
  | _ =>
    refine h.endsWord_or.imp id fun h => ?_
    obtain ⟨c, hc, hplain⟩ := h
    simp only [Word.isPlainRun, Bool.and_eq_true] at hplain
    exact ⟨c, hc, hplain.1⟩

/-! ## 3. The token behind a run -/

/-- Where a scan stops, the next token is one that ends it. -/
theorem Readable.exists_ends {p : Char → Bool} {ends : Token → Bool} (heof : ends .eof = true)
    (hends : ∀ {token : Token}, token.IsWellFormed →
      ends token = true ∨ ∃ c ∈ token.text.toList.head?, p c = true)
    {tokens : List Token} (h : Readable tokens) (hstops : Stops p (textOf tokens).toList) :
    ∃ next back, tokens ++ [.eof] = next :: back ∧ ends next = true := by
  cases tokens with
  | nil => exact ⟨.eof, [], rfl, heof⟩
  | cons next rest =>
    refine ⟨next, rest ++ [.eof], rfl, (hends h.2.1.isWellFormed).resolve_right fun hfirst => ?_⟩
    obtain ⟨c, hc, hp⟩ := hfirst
    have hhead : c ∈ (textOf (next :: rest)).toList.head? := by
      obtain ⟨tail, hcs⟩ := List.head?_eq_some_iff.mp hc
      simp [hcs]
    rw [hstops c hhead] at hp
    cases hp

/-! ## 4. What a word is read from -/

/-- Words and URNs are classified from the run that the text starts with. -/
theorem classify_of_read {cs : List Char} {token : Token} (h : read cs = .ok token)
    (hkind : token.isWord = true ∨ ∃ schema, token = .urn schema) :
    Word.classify (Word.run cs) = .ok token := by
  cases cs with
  | nil =>
    cases h
    simp [isWord] at hkind
  | cons c rest =>
    by_cases hmark : c ∈ [' ', '(', ')', '[', ']', '.', ':']
    · simp only [List.mem_cons, List.not_mem_nil, or_false] at hmark
      rcases hmark with rfl | rfl | rfl | rfl | rfl | rfl | rfl <;> cases h <;>
        simp [isWord] at hkind
    · rw [read_of_not_mark hmark] at h
      split at h
      · obtain ⟨_, _, rfl⟩ := result_map_eq_ok_iff.mp h
        simp [isWord] at hkind
      · split at h
        · obtain ⟨_, _, rfl⟩ := result_map_eq_ok_iff.mp h
          simp [isWord] at hkind
        · split at h
          · exact Word.read_eq_ok_iff.mp h
          · cases h

/-- A word is a whole run. A URN is a whole run, or the schema of one that goes on
with a colon and a name. -/
theorem classify_cases {run : List Char} {token : Token} (h : Word.classify run = .ok token) :
    (token.isWord = true ∧ run = token.text.toList) ∨
      ∃ schema, token = .urn schema ∧ SchemaUrn.isAttempt run = true ∧
        (run = schema.toList ∨ ∃ tail, run = Word.qualified schema.toList tail ∧
          AttributeName.isValid (tail.takeWhile (· != '.')) = true) := by
  unfold Word.classify at h
  split at h
  · rename_i keyword hk
    cases h
    exact .inl ⟨rfl, by simp [text, Keyword.word_of_ofWord? hk]⟩
  · split at h
    · cases h
      exact .inl ⟨rfl, by simp [text]⟩
    · split at h
      · rename_i hattempt
        split at h
        · rename_i schema hschema
          cases h
          obtain ⟨tail, hrun, -, -, hname⟩ := Word.schema?_eq_some_iff.mp hschema
          exact .inr ⟨_, rfl, hattempt, .inr ⟨tail, by simpa using hrun, hname⟩⟩
        · split at h
          · cases h
            exact .inr ⟨_, rfl, hattempt, .inl (by simp)⟩
          · cases h
      · cases h

/-- The first token of a row is the one that its text starts with. -/
theorem Readable.exists_cons {tokens : List Token} (h : Readable tokens) {token : Token}
    (hread : read (textOf tokens).toList = .ok token) (heof : token ≠ .eof) :
    ∃ rest, tokens = token :: rest := by
  cases tokens with
  | nil =>
    cases hread
    exact absurd rfl heof
  | cons first rest =>
    have hfirst : read (textOf (first :: rest)).toList = .ok first := by
      rw [textOf_cons, String.toList_append]
      exact h.2.1
    rw [hread] at hfirst
    exact ⟨rest, by rw [Except.ok.inj hfirst]⟩

/-! ## 5. Neighbours -/

/-- **What stands behind a word.** -/
theorem Readable.behind_word {token : Token} {rest : List Token} (h : Readable (token :: rest))
    (hword : token.isWord = true) :
    ∃ next back, rest ++ [.eof] = next :: back ∧ next.endsWord = true := by
  obtain ⟨-, hread, hrest⟩ := h
  rcases classify_cases (classify_of_read hread (.inl hword)) with ⟨-, hrun⟩ | ⟨schema, rfl, -⟩
  · exact hrest.exists_ends rfl IsWellFormed.endsWord_or (Word.stops_of_run_append hrun).1
  · cases hword

/-- What is left of the run of a qualified name starts with the name, and the name
ends where a word does. -/
theorem stops_behind_name {tail rest : List Char} (hrest : Stops isRun rest) :
    Stops Word.isPlainRun (tail.dropWhile (· != '.') ++ rest) := by
  have hdot := stops_dropWhile (· != '.') tail
  cases hdrop : tail.dropWhile (· != '.') with
  | nil => exact Word.stops_isPlainRun hrest
  | cons c behind =>
    rw [hdrop, Stops.cons_iff, bne_eq_false_iff_eq] at hdot
    subst hdot
    exact Stops.cons_iff.mpr (by decide)

/-- The colon and what is left of the run are read as a colon and a word. -/
theorem Readable.of_qualified {rest : List Token} (h : Readable rest) {tail behind : List Char}
    (htext : (textOf rest).toList = ':' :: (tail ++ behind))
    (hname : AttributeName.isValid (tail.takeWhile (· != '.')) = true)
    (hbehind : Stops isRun behind) :
    ∃ word back, rest = .colon :: word :: back ∧ word.isWord = true := by
  have hcolon : read (textOf rest).toList = .ok .colon := by
    rw [htext]
    rfl
  obtain ⟨rest, rfl⟩ := h.exists_cons hcolon (by simp)
  have htail : (textOf rest).toList = tail ++ behind := by simpa [text] using htext
  have hword : (ofName (String.ofList (tail.takeWhile (· != '.')))).ReadsBefore
      (tail.dropWhile (· != '.') ++ behind) :=
    readsBefore_ofName (by rwa [String.toList_ofList]) (stops_behind_name hbehind)
  rw [ReadsBefore, text_ofName, String.toList_ofList, ← List.append_assoc,
    List.takeWhile_append_dropWhile, ← htail] at hword
  obtain ⟨back, rfl⟩ := h.2.2.exists_cons hword (ofName_ne_eof _)
  exact ⟨_, back, rfl, isWord_ofName _⟩

/-- **What stands behind a URN**: the colon and the name of a qualified name, or
what ends the run. -/
theorem Readable.behind_urn {schema : String} {rest : List Token}
    (h : Readable (.urn schema :: rest)) :
    (∃ word back, rest = .colon :: word :: back ∧ word.isWord = true) ∨
      ∃ next back, rest ++ [.eof] = next :: back ∧ next.endsUrn = true := by
  obtain ⟨-, hread, hrest⟩ := h
  rcases classify_cases (classify_of_read hread (.inr ⟨schema, rfl⟩)) with
    ⟨hword, -⟩ | ⟨_, heq, hattempt, hrun⟩
  · cases hword
  · cases heq
    obtain ⟨behind, hbehind⟩ := Word.run_isPrefix ((urn schema).text.toList ++ (textOf rest).toList)
    -- The text is the run and what is behind it, and the run is an attempt.
    have hstops : Stops isRun behind :=
      (Word.stops_of_run_append (congrArg Word.run hbehind)).2 hattempt
    rcases hrun with hrun | ⟨tail, hrun, hname⟩
    · rw [hrun] at hbehind
      rw [List.append_cancel_left hbehind] at hstops
      exact .inr (hrest.exists_ends rfl IsWellFormed.endsUrn_or hstops)
    · rw [hrun, Word.qualified, List.append_assoc, List.cons_append] at hbehind
      exact .inl (hrest.of_qualified (List.append_cancel_left hbehind).symm hname hstops)

/-! ## 6. The tokens of a text -/

/-- A token of a row with its end, other than the end, and what stands behind it. -/
theorem exists_row_of_split {tokens front back : List Token} {token : Token}
    (h : tokens ++ [.eof] = front ++ token :: back) (heof : token ≠ .eof) :
    ∃ rest, tokens = front ++ token :: rest ∧ back = rest ++ [.eof] := by
  rcases List.eq_nil_or_concat back with rfl | ⟨rest, last, rfl⟩
  · have hlast := (List.append_inj' h rfl).2
    exact absurd (List.cons.inj hlast).1.symm heof
  · have hrow : tokens ++ [.eof] = (front ++ token :: rest) ++ [last] := by simpa using h
    obtain ⟨rfl, hlast⟩ := List.append_inj' hrow rfl
    exact ⟨rest, rfl, by rw [hlast]; simp⟩

/-- What is behind the front of a readable row is a readable row. -/
theorem Readable.of_append {front rest : List Token} (h : Readable (front ++ rest)) :
    Readable rest := by
  induction front with
  | nil => exact h
  | cons token front ih => exact ih h.2.2

/-- **The shape of a row of tokens.** Every token that a text is read as is well
formed. Behind a keyword or an attribute name there is never another word, a
number or a colon. Behind a URN there are a colon and a word, or the URN goes up
to a space, a bracket, a string or the end. -/
theorem ofText_neighbours {source : String} {located : List Located}
    (h : ofText source = .ok located) :
    (∀ entry ∈ located, entry.token.IsWellFormed) ∧
    ∀ front token back, located.map Located.token = front ++ token :: back →
      (token.isWord = true → ∃ next rest, back = next :: rest ∧ next.endsWord = true) ∧
      ∀ schema, token = .urn schema →
        (∃ word rest, back = .colon :: word :: rest ∧ word.isWord = true) ∨
          ∃ next rest, back = next :: rest ∧ next.endsUrn = true := by
  obtain ⟨tokens, hreadable, -, rfl⟩ := ofText_eq_ok_iff.mp h
  refine ⟨fun entry hentry => ?_, fun front token back hsplit => ?_⟩
  · have hmem := List.mem_map_of_mem (f := Located.token) hentry
    rw [map_token_locate, List.mem_append, List.mem_singleton] at hmem
    rcases hmem with hmem | heof
    · exact (hreadable.forall_mem _ hmem).2
    · rw [heof]
      trivial
  · rw [map_token_locate] at hsplit
    refine ⟨fun hword => ?_, fun schema hschema => ?_⟩
    · obtain ⟨rest, rfl, rfl⟩ := exists_row_of_split hsplit fun heof => by
        rw [heof] at hword
        cases hword
      exact hreadable.of_append.behind_word hword
    · subst hschema
      obtain ⟨rest, rfl, rfl⟩ := exists_row_of_split hsplit (by simp)
      rcases hreadable.of_append.behind_urn with ⟨word, more, rfl, hword⟩ | hends
      · exact .inl ⟨word, more ++ [.eof], rfl, hword⟩
      · exact .inr hends

/-- A qualified name whose schema has a dot in it and whose name is reserved, and a
URN with parentheses in front of a bracket. -/
theorem ofText_neighbours_schemas :
    ofText "urn:ab:c.d:not.e urn:a-b:(g)]1" = .ok [⟨0, .urn "urn:ab:c.d"⟩, ⟨10, .colon⟩,
      ⟨11, .keyword .negation⟩, ⟨14, .dot⟩, ⟨15, .attribute "e"⟩, ⟨16, .space⟩,
      ⟨17, .urn "urn:a-b:(g)"⟩, ⟨28, .closeBracket⟩, ⟨29, .number "1"⟩, ⟨30, .eof⟩] ∧
    (urn "urn:a-b:(g)").IsWellFormed ∧
    (∃ next rest, [dot, .attribute "e", .space, .urn "urn:a-b:(g)", .closeBracket, .number "1",
      .eof] = next :: rest ∧ next.endsWord = true) ∧
    ((∃ word rest, [closeBracket, .number "1", .eof] = .colon :: word :: rest ∧
        word.isWord = true) ∨
      ∃ next rest, [closeBracket, .number "1", .eof] = next :: rest ∧ next.endsUrn = true) := by
  have h : ofText "urn:ab:c.d:not.e urn:a-b:(g)]1" = .ok [⟨0, .urn "urn:ab:c.d"⟩, ⟨10, .colon⟩,
      ⟨11, .keyword .negation⟩, ⟨14, .dot⟩, ⟨15, .attribute "e"⟩, ⟨16, .space⟩,
      ⟨17, .urn "urn:a-b:(g)"⟩, ⟨28, .closeBracket⟩, ⟨29, .number "1"⟩, ⟨30, .eof⟩] := by decide
  obtain ⟨hwell, hbehind⟩ := ofText_neighbours h
  exact ⟨h, hwell ⟨17, .urn "urn:a-b:(g)"⟩ (by simp),
    (hbehind [.urn "urn:ab:c.d", .colon] (.keyword .negation) _ rfl).1 rfl,
    (hbehind [.urn "urn:ab:c.d", .colon, .keyword .negation, .dot, .attribute "e", .space]
      (.urn "urn:a-b:(g)") _ rfl).2 _ rfl⟩

end Token

end ScimQuery
