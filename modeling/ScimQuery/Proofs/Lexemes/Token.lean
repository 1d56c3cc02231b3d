/-
ScimQuery.Proofs.Lexemes.Token — which tokens can be read, and in front of
what.

`IsWellFormed` says of each token on its own what its text has to be. Every
token that is read is well formed and stands at the start of the text
(`read_sound`); conversely a well-formed token is read back from its own
text, under a condition on what follows:

* marks and quoted strings: none;
* keywords and attribute names: no character that prolongs a plain word;
* numbers: no character that prolongs a number;
* URNs: a colon and a name, up to the end of the run.
-/
import ScimQuery.Proofs.Lexemes.Number
import ScimQuery.Proofs.Lexemes.Quoted
import ScimQuery.Proofs.Lexemes.Word
import ScimQuery.Token.Reader

namespace ScimQuery

open CharClass

/-! ## 1. Well-formed tokens -/

/-- An attribute name that is no keyword. -/
def AttributeName.IsFree (name : String) : Prop :=
  AttributeName.isValid name.toList = true ∧ Keyword.ofWord? name = none

namespace Token

/-- Whether the text of a token is as its kind has it. -/
def IsWellFormed : Token → Prop
  | .urn schema => SchemaUrn.isValid schema.toList = true
  | .attribute name => AttributeName.IsFree name
  | .string literal => Quoted.IsQuoted literal.toList
  | .number literal => Number.IsNumber literal.toList
  | _ => True

/-! ## 2. The reader by the first character -/

/-- The reader on a text that starts with no mark. -/
theorem read_of_not_mark {c : Char} (hc : c ∉ [' ', '(', ')', '[', ']', '.', ':'])
    (rest : List Char) :
    read (c :: rest) =
      if c == '"' then (Quoted.read (c :: rest)).map (.string <| String.ofList ·)
      else if c.isDigit || c == '-' then (Number.read (c :: rest)).map (.number <| String.ofList ·)
      else if c.isAlpha then Word.read (c :: rest)
      else .error (.of (.strayCharacter c) 0 0) := by
  rw [read]
  all_goals
    rintro rfl
    exact hc (by decide)

/-- A letter is no digit. -/
theorem not_isDigit_of_isAlpha {c : Char} (h : c.isAlpha = true) : c.isDigit = false := by
  rw [← Bool.not_eq_true]
  intro hd
  have halpha : (decide (c.val ≥ 'A'.val ∧ c.val ≤ 'Z'.val) ||
      (decide (c.val ≥ 'a'.val) && decide (c.val ≤ 'z'.val))) = true := h
  have hdigit : (decide (c.val ≥ '0'.val) && decide (c.val ≤ '9'.val)) = true := hd
  simp only [Bool.or_eq_true, Bool.and_eq_true, decide_eq_true_eq, ge_iff_le,
    UInt32.le_iff_toNat_le, Char.reduceVal, UInt32.reduceToNat] at halpha hdigit
  omega

/-- A letter starts a word. -/
theorem read_of_isAlpha {c : Char} (hc : c.isAlpha = true) (rest : List Char) :
    read (c :: rest) = Word.read (c :: rest) := by
  have hne {d : Char} (hd : d.isAlpha = false) : c ≠ d := by
    rintro rfl
    rw [hc] at hd
    cases hd
  have hquote : c ≠ '"' := hne (by decide)
  have hminus : c ≠ '-' := hne (by decide)
  rw [read_of_not_mark]
  · simp [hquote, hminus, not_isDigit_of_isAlpha hc, hc]
  · simp only [List.mem_cons, not_or, List.not_mem_nil, not_false_eq_true, and_true]
    exact ⟨hne (by decide), hne (by decide), hne (by decide), hne (by decide), hne (by decide),
      hne (by decide), hne (by decide)⟩

/-- A digit or a minus sign starts a number. -/
theorem read_of_isDigit {c : Char} (hc : c.isDigit = true ∨ c = '-') (rest : List Char) :
    read (c :: rest) = (Number.read (c :: rest)).map (.number <| String.ofList ·) := by
  have hne {d : Char} (hd : d.isDigit = false) (hm : d ≠ '-') : c ≠ d := by
    rintro rfl
    rcases hc with hc | hc
    · rw [hc] at hd
      cases hd
    · exact hm hc
  have hquote : c ≠ '"' := hne (by decide) (by decide)
  rw [read_of_not_mark]
  · simp [hquote, hc]
  · simp only [List.mem_cons, not_or, List.not_mem_nil, not_false_eq_true, and_true]
    exact ⟨hne (by decide) (by decide), hne (by decide) (by decide), hne (by decide) (by decide),
      hne (by decide) (by decide), hne (by decide) (by decide), hne (by decide) (by decide),
      hne (by decide) (by decide)⟩

/-- A quote starts a string. -/
theorem read_of_quote (rest : List Char) :
    read ('"' :: rest) = (Quoted.read ('"' :: rest)).map (.string <| String.ofList ·) := by
  rw [read_of_not_mark (by decide)]
  rfl

/-! ## 3. What is read -/

/-- What a run is classified as is well formed, and stands at its start. -/
theorem classify_sound {run : List Char} {token : Token} (h : Word.classify run = .ok token) :
    token.IsWellFormed ∧ token.text.toList <+: run := by
  unfold Word.classify at h
  split at h
  · rename_i keyword hk
    simp only [Except.ok.injEq] at h
    subst h
    have hword := Keyword.word_of_ofWord? hk
    exact ⟨trivial, by simp [text, hword]⟩
  · rename_i hfree
    split at h
    · rename_i hname
      simp only [Except.ok.injEq] at h
      subst h
      exact ⟨⟨by simpa using hname, hfree⟩, by simp [text]⟩
    · split at h
      · split at h
        · rename_i schema hschema
          simp only [Except.ok.injEq] at h
          subst h
          simp only [Word.schema?, Option.ite_none_right_eq_some, Option.some.injEq,
            Bool.and_eq_true] at hschema
          obtain ⟨⟨hvalid, -⟩, rfl⟩ := hschema
          exact ⟨by simpa [IsWellFormed] using hvalid,
            by simpa [text] using Word.beforeLastColon_isPrefix run⟩
        · split at h
          · rename_i hvalid
            simp only [Except.ok.injEq] at h
            subst h
            exact ⟨by simpa [IsWellFormed] using hvalid, by simp [text]⟩
          · cases h
      · cases h

/-- No word is the end. -/
theorem classify_ne_eof (run : List Char) : Word.classify run ≠ .ok .eof := by
  unfold Word.classify
  split
  · simp
  · split
    · simp
    · split
      · split
        · simp
        · split <;> simp
      · simp

/-- **The reader is sound**: what it reads is a well-formed token, and its
text stands at the start of what is read from. -/
theorem read_sound {cs : List Char} {token : Token} (h : read cs = .ok token) :
    token.IsWellFormed ∧ token.text.toList <+: cs := by
  fun_cases read cs with
  | case1 | case2 | case3 | case4 | case5 | case6 | case7 | case8 =>
    simp only [read, Except.ok.injEq] at h
    subst h
    exact ⟨trivial, by simp [text]⟩
  | case9 c rest _ _ _ _ _ _ _ hquote =>
    obtain rfl : c = '"' := by simpa using hquote
    rw [read_of_quote] at h
    obtain ⟨string, hread, rfl⟩ := result_map_eq_ok_iff.mp h
    obtain ⟨hquoted, hpre⟩ := Quoted.read_sound hread
    exact ⟨by simpa [IsWellFormed] using hquoted, by simpa [text] using hpre⟩
  | case10 c rest _ _ _ _ _ _ _ _ hdigit =>
    rw [read_of_isDigit (by simpa using hdigit)] at h
    obtain ⟨number, hread, rfl⟩ := result_map_eq_ok_iff.mp h
    obtain ⟨hnumber, hpre⟩ := Number.read_sound hread
    exact ⟨by simpa [IsWellFormed] using hnumber, by simpa [text] using hpre⟩
  | case11 c rest _ _ _ _ _ _ _ _ _ halpha =>
    rw [read_of_isAlpha halpha] at h
    obtain ⟨hwell, hpre⟩ := classify_sound (Word.read_eq_ok_iff.mp h)
    exact ⟨hwell, hpre.trans (Word.run_isPrefix _)⟩
  | case12 c rest h₁ h₂ h₃ h₄ h₅ h₆ h₇ hquote hdigit halpha =>
    rw [read_of_not_mark (by simp_all)] at h
    simp [hquote, hdigit, halpha] at h

/-- The end is read at the end only. -/
theorem eq_nil_of_read_eof {cs : List Char} (h : read cs = .ok .eof) : cs = [] := by
  cases cs with
  | nil => rfl
  | cons c rest =>
    by_cases hmark : c ∈ [' ', '(', ')', '[', ']', '.', ':']
    · simp only [List.mem_cons, List.not_mem_nil, or_false] at hmark
      rcases hmark with rfl | rfl | rfl | rfl | rfl | rfl | rfl <;> cases h
    · rw [read_of_not_mark hmark] at h
      split at h
      · obtain ⟨_, _, h⟩ := result_map_eq_ok_iff.mp h
        cases h
      · split at h
        · obtain ⟨_, _, h⟩ := result_map_eq_ok_iff.mp h
          cases h
        · split at h
          · exact absurd (Word.read_eq_ok_iff.mp h) (classify_ne_eof _)
          · cases h

/-- A well-formed token other than the end has some text. -/
theorem IsWellFormed.text_ne_empty {token : Token} (h : token.IsWellFormed) (heof : token ≠ .eof) :
    token.text.toList ≠ [] := by
  cases token with
  | eof => exact absurd rfl heof
  | keyword keyword =>
    have hall : ∀ k ∈ Keyword.all, k.word.toList ≠ [] := by decide
    exact hall keyword (Keyword.mem_all keyword)
  | urn schema =>
    intro hnil
    simp only [text] at hnil
    simp only [IsWellFormed, hnil] at h
    exact absurd h (by decide)
  | «attribute» name =>
    intro hnil
    simp only [text] at hnil
    have := h.1
    rw [hnil] at this
    exact absurd this (by decide)
  | string literal =>
    obtain ⟨body, -, heq⟩ := h
    simp [text, heq]
  | number literal =>
    obtain ⟨sign, whole, frac, exp, -, hwhole, -, -, heq⟩ := h
    obtain ⟨c, tail, rfl, -⟩ := hwhole.exists_cons
    simp [text, heq]
  | _ => decide

/-! ## 4. What is read back -/

/-- The token is read from its own text in front of `rest`. -/
def ReadsBefore (token : Token) (rest : List Char) : Prop :=
  read (token.text.toList ++ rest) = .ok token

theorem readsBefore_space (rest : List Char) : ReadsBefore .space rest := rfl

theorem readsBefore_openParen (rest : List Char) : ReadsBefore .openParen rest := rfl

theorem readsBefore_closeParen (rest : List Char) : ReadsBefore .closeParen rest := rfl

theorem readsBefore_openBracket (rest : List Char) : ReadsBefore .openBracket rest := rfl

theorem readsBefore_closeBracket (rest : List Char) : ReadsBefore .closeBracket rest := rfl

theorem readsBefore_dot (rest : List Char) : ReadsBefore .dot rest := rfl

theorem readsBefore_colon (rest : List Char) : ReadsBefore .colon rest := rfl

theorem readsBefore_keyword (keyword : Keyword) {rest : List Char}
    (hrest : Stops Word.isPlainRun rest) : ReadsBefore (.keyword keyword) rest := by
  have hall : Keyword.all.all (·.word.toList.head?.any Char.isAlpha) = true := by decide
  simp only [List.all_eq_true, Option.any_eq_true] at hall
  obtain ⟨c, hc, halpha⟩ := hall keyword (Keyword.mem_all keyword)
  obtain ⟨tail, hword⟩ := List.head?_eq_some_iff.mp hc
  have hread := Word.read_keyword keyword hrest
  rw [hword, List.cons_append] at hread
  rw [ReadsBefore, text, hword, List.cons_append, read_of_isAlpha halpha, hread]

theorem readsBefore_attribute {name : String} (hname : AttributeName.IsFree name)
    {rest : List Char} (hrest : Stops Word.isPlainRun rest) :
    ReadsBefore (.attribute name) rest := by
  have hread := Word.read_attribute hname.1 hname.2 hrest
  have hvalid := hname.1
  cases hcs : name.toList with
  | nil =>
    rw [hcs] at hvalid
    cases hvalid
  | cons c tail =>
    rw [hcs] at hvalid hread
    simp only [AttributeName.isValid, Bool.and_eq_true] at hvalid
    rw [ReadsBefore, text, hcs, List.cons_append, read_of_isAlpha hvalid.1]
    exact hread

theorem readsBefore_urn {urn : String} (hurn : SchemaUrn.isValid urn.toList = true)
    {tail rest : List Char} (htail : ∀ c ∈ tail, isNameChar c = true ∨ isJoint c = true)
    (hname : AttributeName.isValid (tail.takeWhile (· != '.')) = true) (hrest : Stops isRun rest) :
    ReadsBefore (.urn urn) (':' :: (tail ++ rest)) := by
  have hread := Word.read_urn hurn htail hname hrest
  obtain ⟨u, r, n, more, hcs, hu, -⟩ :=
    SchemaUrn.exists_of_isAttempt (SchemaUrn.isAttempt_of_isValid hurn)
  rw [hcs, List.cons_append] at hread
  rw [ReadsBefore, text, hcs, List.cons_append, read_of_isAlpha hu]
  exact hread

theorem readsBefore_string {literal : String} (h : Quoted.IsQuoted literal.toList)
    (rest : List Char) : ReadsBefore (.string literal) rest := by
  have hread := Quoted.read_append h rest
  obtain ⟨body, -, hcs⟩ := h
  rw [hcs, List.cons_append] at hread
  rw [ReadsBefore, text, hcs, List.cons_append, read_of_quote, hread]
  simp [Except.map, ← hcs]

theorem readsBefore_number {literal : String} (h : Number.IsNumber literal.toList)
    {rest : List Char} (hrest : Stops Number.isNumberChar rest) :
    ReadsBefore (.number literal) rest := by
  have hread := Number.read_append h hrest
  obtain ⟨sign, whole, frac, exp, hsign, hwhole, -, -, hcs⟩ := h
  obtain ⟨d, tail, rfl, hd⟩ := hwhole.exists_cons
  have hcons : ∃ c more, literal.toList = c :: more ∧ (c.isDigit = true ∨ c = '-') := by
    rcases hsign with rfl | rfl
    · exact ⟨d, _, hcs, .inl hd⟩
    · exact ⟨'-', _, hcs, .inr rfl⟩
  obtain ⟨c, more, hlit, hc⟩ := hcons
  rw [hlit, List.cons_append] at hread
  rw [ReadsBefore, text, hlit, List.cons_append, read_of_isDigit hc, hread]
  simp [Except.map, ← hlit]

end Token

end ScimQuery
