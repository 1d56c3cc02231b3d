/-
ScimQuery.Proofs.StringEnds — where a quoted string ends, and where its scanner fails.

A quote ends a string and a backslash starts an escape only if no escape in front
takes them, so what a character means depends on all that is in front of it. The
grammar says this without a scanner: behind an opening quote there is a body that
goes as far as it can (`exists_cut`), and behind that the text is over, or has a
quote, or a backslash that starts no escape. The scanner goes over the body, and
answers by what it finds there: the string, or an error at that place.
-/
import ScimQuery.Proofs.SessionBounds

namespace ScimQuery

namespace Quoted

/-! ## 1. Escapes -/

/-- A valid escape stands at the start of the text. -/
inductive StartsEscape : List Char → Prop where
  | short {c e : Char} {rest : List Char} (he : ShortEscape c e) :
      StartsEscape ('\\' :: c :: rest)
  | unicode {a b c d : Char} {rest : List Char} (ha : IsHex a) (hb : IsHex b) (hc : IsHex c)
      (hd : IsHex d) : StartsEscape ('\\' :: 'u' :: a :: b :: c :: d :: rest)

/-! ## 2. Where a body ends -/

/-- No body goes on into the text: it is over, or it starts with a quote, or with
a backslash that starts no escape. -/
inductive EndsBody : List Char → Prop where
  | atEnd : EndsBody []
  | quote (rest : List Char) : EndsBody ('"' :: rest)
  | stray {rest : List Char} (h : ¬ StartsEscape ('\\' :: rest)) : EndsBody ('\\' :: rest)

/-- A text with a cut has one with more of a body in front. -/
theorem exists_cut_append (chunk : List Char) {text : List Char}
    (hchunk : ∀ {body}, IsBody body → IsBody (chunk ++ body))
    (h : ∃ body rest, text = body ++ rest ∧ IsBody body ∧ EndsBody rest) :
    ∃ body rest, chunk ++ text = body ++ rest ∧ IsBody body ∧ EndsBody rest := by
  obtain ⟨body, rest, rfl, hbody, hrest⟩ := h
  exact ⟨chunk ++ body, rest, (List.append_assoc _ _ _).symm, hchunk hbody, hrest⟩

/-- **Every text starts with a body that goes as far as it can.** -/
theorem exists_cut (text : List Char) :
    ∃ body rest, text = body ++ rest ∧ IsBody body ∧ EndsBody rest := by
  match text with
  | [] => exact ⟨[], [], rfl, .nil, .atEnd⟩
  | c :: rest =>
    by_cases hquote : c = '"'
    · subst hquote
      exact ⟨[], _, rfl, .nil, .quote rest⟩
    · by_cases hslash : c = '\\'
      · subst hslash
        by_cases hescape : StartsEscape ('\\' :: rest)
        · cases hescape with
          | @short c e behind he =>
            exact exists_cut_append ['\\', c] (.short he) (exists_cut behind)
          | @unicode a b c d behind ha hb hc hd =>
            exact exists_cut_append ['\\', 'u', a, b, c, d] (.unicode ha hb hc hd)
              (exists_cut behind)
        · exact ⟨[], _, rfl, .nil, .stray hescape⟩
      · exact exists_cut_append [c] (.plain hquote hslash) (exists_cut rest)
termination_by text.length

/-! ## 3. The scanner -/

/-- What is wrong with a backslash that starts no escape, by what stands behind it. -/
def strayCause (behind : List Char) : LexicalError.Cause :=
  if behind.head? = some 'u' then .unicodeEscape else .unknownEscape

/-- It is an error in a string, and not a quote that is missing. -/
theorem strayCause_cases (behind : List Char) :
    strayCause behind = .unicodeEscape ∨ strayCause behind = .unknownEscape := by
  unfold strayCause
  split
  · exact .inl rfl
  · exact .inr rfl

/-- The scanner stops at a backslash that starts no escape. -/
theorem readBody_of_stray {behind : List Char} (h : ¬ StartsEscape ('\\' :: behind))
    (offset : Nat) :
    readBody offset ('\\' :: behind) = .error (.of (strayCause behind) offset offset) := by
  generalize htext : '\\' :: behind = text at h
  -- Where the scanner would go on, it has seen an escape.
  fun_cases readBody offset text with
  | case1 => cases htext
  | case2 => cases htext
  | case3 a b c d rest hhex =>
    obtain ⟨ha, hb, hc, hd⟩ := isHexDigit_four_iff.mp hhex
    exact absurd (.unicode ha hb hc hd) h
  | case4 a b c d rest hhex =>
    cases htext
    rfl
  | case5 rest hfour =>
    cases htext
    rfl
  | case6 c rest _ _ hc =>
    obtain ⟨e, he⟩ := isShortEscape_iff.mp hc
    exact absurd (.short he) h
  | case7 c rest _ hu hc =>
    cases htext
    have hcause : strayCause (c :: rest) = .unknownEscape := if_neg fun h => hu (by simpa using h)
    rw [hcause]
  | case8 =>
    cases htext
    rfl
  | case9 c rest hquote _ _ hslash hlone =>
    cases htext
    cases behind with
    | nil => exact absurd rfl (hlone rfl)
    | cons d rest => exact absurd rfl (hslash d rest rfl)

/-- The text starts with a quote and a body, and `n` characters from its start, behind
the two, stands the first backslash that starts no valid escape. -/
def StraysAt (text : List Char) (n : Nat) : Prop :=
  ∃ body behind, IsBody body ∧ text = '"' :: (body ++ '\\' :: behind) ∧
    ¬ StartsEscape ('\\' :: behind) ∧ n = ('"' :: body).length

/-- A string is read if and only if the text starts with one. -/
theorem read_eq_ok_iff {text string : List Char} (hquote : text.head? = some '"') :
    read text = .ok string ↔ IsQuoted string ∧ string <+: text := by
  obtain ⟨behind, rfl⟩ := List.head?_eq_some_iff.mp hquote
  constructor
  · exact read_sound
  · rintro ⟨hquoted, rest, hrest⟩
    rw [← hrest]
    exact read_append hquoted rest

/-- Where the scanner fails, no string starts. -/
theorem not_isPrefix_of_read {text : List Char} {failure : ReadFailure}
    (hquote : text.head? = some '"') (h : read text = .error failure) :
    ∀ string, IsQuoted string → ¬ string <+: text := by
  intro string hquoted hpre
  rw [(read_eq_ok_iff hquote).mpr ⟨hquoted, hpre⟩] at h
  cases h

/-- **At most one string stands at the start of a text**, since it is what is read. -/
theorem IsQuoted.unique {text string other : List Char} (h : IsQuoted string)
    (h' : IsQuoted other) (hpre : string <+: text) (hpre' : other <+: text) : string = other := by
  obtain ⟨rest, rfl⟩ := hpre
  obtain ⟨rest', heq⟩ := hpre'
  have hread := read_append h rest
  rw [← heq, read_append h' rest', Except.ok.injEq] at hread
  exact hread.symm

/-- The first stray backslash is where the scanner fails. -/
theorem StraysAt.read_eq {text : List Char} {n : Nat} (h : StraysAt text n) :
    ∃ behind, read text = .error (.of (strayCause behind) n n) := by
  obtain ⟨body, behind, hbody, rfl, hstray, rfl⟩ := h
  refine ⟨behind, ?_⟩
  rw [read, List.drop_one, List.tail_cons, hbody.passes, readBody_of_stray hstray,
    List.length_cons, Nat.add_comm 1]
  rfl

/-- There is no such backslash at another place. -/
theorem StraysAt.eq_of_read {text : List Char} {n m : Nat} {cause : LexicalError.Cause}
    (h : StraysAt text m) (hread : read text = .error (.of cause n n)) : m = n := by
  obtain ⟨_, hstray⟩ := h.read_eq
  rw [hread] at hstray
  cases hstray
  rfl

/-- Behind a body that nothing follows a quote is missing. -/
theorem IsBody.read_eq {body : List Char} (h : IsBody body) :
    read ('"' :: body) = .error (.of .quoteMissing ('"' :: body).length ('"' :: body).length) := by
  have hbody := h.passes 1 []
  rw [List.append_nil] at hbody
  rw [read, List.drop_one, List.tail_cons, hbody, readBody, List.length_cons, Nat.add_comm 1]
  rfl

/-- **Where the scanner fails**: at the first stray backslash, or at the end of the text. -/
theorem read_of_not_isPrefix {text : List Char} (hquote : text.head? = some '"')
    (h : ∀ string, IsQuoted string → ¬ string <+: text) :
    ∃ cause n, cause.category = .string ∧ read text = .error (.of cause n n) ∧
      (StraysAt text n ∨ n = text.length) := by
  obtain ⟨behind, rfl⟩ := List.head?_eq_some_iff.mp hquote
  obtain ⟨body, rest, rfl, hbody, hrest⟩ := exists_cut behind
  cases hrest with
  | atEnd =>
    rw [List.append_nil]
    exact ⟨_, _, rfl, hbody.read_eq, .inr rfl⟩
  | quote rest => exact absurd ⟨rest, by simp⟩ (h _ ⟨body, hbody, rfl⟩)
  | stray hstray =>
    have hfirst : StraysAt _ _ := ⟨body, _, hbody, rfl, hstray, rfl⟩
    obtain ⟨behind, hread⟩ := hfirst.read_eq
    have hcategory : (strayCause behind).category = .string := by
      rcases strayCause_cases behind with hcause | hcause <;> rw [hcause] <;> rfl
    exact ⟨_, _, hcategory, hread, .inl hfirst⟩

end Quoted

namespace Token.Reader

open Quoted

/-- A session in front of a quote reads what the scanner of strings reads. -/
theorem read_rest_of_quote {reader : Reader} (hstart : reader.rest.head? = some '"') :
    read reader.rest = (Quoted.read reader.rest).map (.string <| String.ofList ·) := by
  obtain ⟨behind, hrest⟩ := List.head?_eq_some_iff.mp hstart
  rw [hrest]
  exact read_of_quote behind

/-- **The string scanner.** Where what is left starts with a quote, a string is read if
it stands there, which at most one does, and the session goes on behind it. If none
does, the session fails on a string: at the first backslash that starts no valid
escape, or at the end of the text if there is no such backslash. Read in place, with
every escape passed by its own number of characters, the answer and the place behind
it are the same. -/
theorem next_string_iff (reader : Reader) (hstart : reader.rest.head? = some '"') :
    (∀ literal, reader.next.1 = .ok (.string literal) ↔
      IsQuoted literal.toList ∧ literal.toList <+: reader.rest) ∧
    (∀ string other, IsQuoted string → IsQuoted other → string <+: reader.rest →
      other <+: reader.rest → string = other) ∧
    (∀ literal, reader.next.1 = .ok (.string literal) →
      reader.next.2 = { reader with position := reader.position + literal.length }) ∧
    ((∀ string, IsQuoted string → ¬ string <+: reader.rest) →
      ∃ error, reader.next.1 = .error error ∧ error.cause.category = .string ∧
        (∀ n, StraysAt reader.rest n → error.offset = reader.position + n) ∧
        ((∀ n, ¬ StraysAt reader.rest n) → error.offset = reader.text.length)) ∧
    InPlace.read? reader.text reader.position = some (reader.next.1, reader.next.2.position) := by
  have hread := read_rest_of_quote hstart
  have hplace := position_le_of_head? hstart
  have hfails {cause : LexicalError.Cause} {n : Nat}
      (h : Quoted.read reader.rest = .error (.of cause n n)) :
      reader.next.1 = .error ⟨cause, reader.position + n⟩ := by
    simp [next, hread, h, Except.map, ReadFailure.of, ReadFailure.shift]
  refine ⟨fun literal => ?_, fun string other h h' => h.unique h', fun literal h => ?_,
    fun hnone => ?_, InPlace.read?_eq_next hplace⟩
  · rw [← read_eq_ok_iff hstart]
    unfold next
    rw [hread]
    cases Quoted.read reader.rest with
    | error failure => simp [Except.map]
    | ok taken => simp [Except.map, ← String.toList_inj]
  · obtain ⟨-, hbehind⟩ :=
      next_eq_ok_iff.mp (show reader.next = (.ok (.string literal), reader.next.2) by rw [← h])
    exact hbehind
  · obtain ⟨cause, n, hcategory, hfailed, hwhere⟩ := read_of_not_isPrefix hstart hnone
    refine ⟨_, hfails hfailed, hcategory, fun m hstray => ?_, fun hno => ?_⟩
    · rw [hstray.eq_of_read hfailed]
    · obtain rfl := hwhere.resolve_left (hno n)
      exact position_add_of_le hplace

/-- Sessions in front of escaped backslashes. The first one is at a string with an escaped
quote in it, the second one at an escape that the end of the text cuts short, and in the
third one the quote that could close the string is escaped. -/
theorem next_string_iff_escapes :
    (⟨ r#"a "\\\"\u00e9" ""#.toList, 2, []⟩ : Reader).next =
      (.ok (.string r#""\\\"\u00e9""#), ⟨ r#"a "\\\"\u00e9" ""#.toList, 14, []⟩) ∧
    InPlace.read? r#"a "\\\"\u00e9" ""#.toList 2 = some (.ok (.string r#""\\\"\u00e9""#), 14) ∧
    IsQuoted r#""\\\"\u00e9""#.toList ∧
    StraysAt r#""\\\u12"#.toList 3 ∧
    (∃ error, (⟨ r#"a "\\\u12"#.toList, 2, [0]⟩ : Reader).next.1 = .error error ∧
      error.cause.category = .string ∧ error.offset = 5) ∧
    (∀ n, ¬ StraysAt r#""\\\""#.toList n) ∧
    ∃ error, (⟨ r#""\\\""#.toList, 0, []⟩ : Reader).next.1 = .error error ∧
      error.cause.category = .string ∧ error.offset = 5 := by
  have hread : (⟨ r#"a "\\\"\u00e9" ""#.toList, 2, []⟩ : Reader).next.1 =
      .ok (.string r#""\\\"\u00e9""#) := by decide
  have hshort : Quoted.read r#""\\\u12"#.toList = .error (.of .unicodeEscape 3 3) := by decide
  have hopen : Quoted.read r#""\\\""#.toList = .error (.of .quoteMissing 5 5) := by decide
  have hfirst : StraysAt r#""\\\u12"#.toList 3 := by
    refine ⟨['\\', '\\'], _, .short .backslash .nil, rfl, fun h => ?_, rfl⟩
    cases h with
    | short he => cases he
  have hnone : ∀ n, ¬ StraysAt r#""\\\""#.toList n := by
    intro n h
    obtain ⟨behind, hstray⟩ := h.read_eq
    rw [hopen] at hstray
    rcases strayCause_cases behind with hcause | hcause <;> rw [hcause] at hstray <;> cases hstray
  obtain ⟨hstring, -, hbehind, -, hplace⟩ :=
    next_string_iff ⟨ r#"a "\\\"\u00e9" ""#.toList, 2, []⟩ rfl
  obtain ⟨-, -, -, hstray, -⟩ := next_string_iff ⟨ r#"a "\\\u12"#.toList, 2, [0]⟩ rfl
  obtain ⟨-, -, -, hunclosed, -⟩ := next_string_iff ⟨ r#""\\\""#.toList, 0, []⟩ rfl
  rw [hbehind _ hread, hread] at hplace
  obtain ⟨error, hnext, hcategory, hoffset, -⟩ := hstray (not_isPrefix_of_read rfl hshort)
  obtain ⟨error', hnext', hcategory', -, hend⟩ := hunclosed (not_isPrefix_of_read rfl hopen)
  exact ⟨Prod.ext hread (hbehind _ hread), hplace, ((hstring _).mp hread).1, hfirst,
    ⟨error, hnext, hcategory, hoffset 3 hfirst⟩, hnone, error', hnext', hcategory', hend hnone⟩

end Token.Reader

end ScimQuery
