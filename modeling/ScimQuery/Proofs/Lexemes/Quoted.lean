/-
ScimQuery.Proofs.Lexemes.Quoted — quoted strings, and the scanner that reads
them.

`IsBody` is what may stand between two quotes: characters other than a quote
and a backslash, control characters too, and the escape sequences of JSON. A
body says by itself where it ends, so a quoted string is read in front of
anything at all, and no condition on what follows is needed.
-/
import ScimQuery.Proofs.Lexemes.Escapes

namespace ScimQuery.Quoted

/-! ## 1. The grammar -/

/-- What may stand between the quotes of a string. -/
inductive IsBody : List Char → Prop where
  | nil : IsBody []
  | plain {c : Char} {rest : List Char} (hquote : c ≠ '"') (hslash : c ≠ '\\') :
      IsBody rest → IsBody (c :: rest)
  | short {c e : Char} {rest : List Char} (he : ShortEscape c e) :
      IsBody rest → IsBody ('\\' :: c :: rest)
  | unicode {a b c d : Char} {rest : List Char} (ha : IsHex a) (hb : IsHex b) (hc : IsHex c)
      (hd : IsHex d) : IsBody rest → IsBody ('\\' :: 'u' :: a :: b :: c :: d :: rest)

/-- A string between its quotes. -/
def IsQuoted (text : List Char) : Prop :=
  ∃ body, IsBody body ∧ text = '"' :: (body ++ ['"'])

/-! ## 2. The reader -/

/-- The reader takes the chunk and goes on behind it, whatever follows. -/
def Passes (chunk : List Char) : Prop :=
  ∀ offset rest, readBody offset (chunk ++ rest) =
    (readBody (offset + chunk.length) rest).map (chunk ++ ·)

theorem passes_nil : Passes [] := by
  intro offset rest
  rw [List.nil_append, List.length_nil, Nat.add_zero]
  cases readBody offset rest <;> rfl

theorem Passes.append {front back : List Char} (hfront : Passes front) (hback : Passes back) :
    Passes (front ++ back) := by
  intro offset rest
  rw [List.append_assoc, hfront, hback, List.length_append, Nat.add_assoc]
  cases readBody (offset + (front.length + back.length)) rest with
  | error failure => rfl
  | ok taken => simp only [Except.map, List.append_assoc]

theorem passes_plain {c : Char} (hquote : c ≠ '"') (hslash : c ≠ '\\') : Passes [c] := by
  intro offset rest
  rw [List.singleton_append, readBody]
  · rfl
  all_goals simp_all

theorem passes_short {c e : Char} (he : ShortEscape c e) : Passes ['\\', c] := by
  intro offset rest
  have hu : c ≠ 'u' := by
    rintro rfl
    cases he
  rw [List.cons_append, List.singleton_append, readBody]
  · rw [if_pos (isShortEscape_iff.mpr ⟨e, he⟩)]
    rfl
  all_goals simp_all

theorem passes_unicode {a b c d : Char} (ha : IsHex a) (hb : IsHex b) (hc : IsHex c)
    (hd : IsHex d) : Passes ['\\', 'u', a, b, c, d] := by
  intro offset rest
  have hhex := isHexDigit_four_iff.mpr ⟨ha, hb, hc, hd⟩
  simp only [List.cons_append, readBody, hhex, if_true, List.nil_append]
  rfl

/-- The reader goes over a body. -/
theorem IsBody.passes {body : List Char} (h : IsBody body) : Passes body := by
  induction h with
  | nil => exact passes_nil
  | plain hquote hslash _ ih => exact (passes_plain hquote hslash).append ih
  | short he _ ih => exact (passes_short he).append ih
  | unicode ha hb hc hd _ ih => exact (passes_unicode ha hb hc hd).append ih

/-- The reader takes a body and the quote behind it. -/
theorem readBody_append {body : List Char} (h : IsBody body) (rest : List Char) (offset : Nat) :
    readBody offset (body ++ '"' :: rest) = .ok (body ++ ['"']) := by
  rw [h.passes, readBody]
  rfl

/-- What the reader takes is a body and a quote, and stands at the start of
the text. -/
theorem readBody_sound {offset : Nat} {text taken : List Char}
    (h : readBody offset text = .ok taken) :
    ∃ body, IsBody body ∧ taken = body ++ ['"'] ∧ taken <+: text := by
  fun_induction readBody offset text generalizing taken with
  | case1 => simp at h
  | case2 offset rest =>
    simp only [Except.ok.injEq] at h
    exact ⟨[], .nil, by simp [← h], by simp [← h]⟩
  | case3 offset a b c d text hhex ih =>
    obtain ⟨inner, hinner, rfl⟩ := result_map_eq_ok_iff.mp h
    obtain ⟨body, hbody, rfl, hpre⟩ := ih hinner
    obtain ⟨ha, hb, hc, hd⟩ := isHexDigit_four_iff.mp hhex
    exact ⟨_, .unicode ha hb hc hd hbody, by simp, by simpa using hpre⟩
  | case4 => simp at h
  | case5 => simp at h
  | case6 offset c text _ _ hc ih =>
    obtain ⟨inner, hinner, rfl⟩ := result_map_eq_ok_iff.mp h
    obtain ⟨body, hbody, rfl, hpre⟩ := ih hinner
    obtain ⟨e, he⟩ := isShortEscape_iff.mp hc
    exact ⟨_, .short he hbody, by simp, by simpa using hpre⟩
  | case7 => simp at h
  | case8 => simp at h
  | case9 offset c text hquote hhex hu hslash hlone ih =>
    obtain ⟨inner, hinner, rfl⟩ := result_map_eq_ok_iff.mp h
    obtain ⟨body, hbody, rfl, hpre⟩ := ih hinner
    have hc : c ≠ '\\' := by
      intro hc
      cases text with
      | nil => exact hlone hc rfl
      | cons d text => exact hslash d text hc rfl
    exact ⟨_, .plain hquote hc hbody, by simp, by simpa using hpre⟩

/-- **The reader is sound**: what it takes behind a quote is a quoted string,
and stands at the start of the text. -/
theorem read_sound {text string : List Char} (h : read ('"' :: text) = .ok string) :
    IsQuoted string ∧ string <+: '"' :: text := by
  obtain ⟨taken, htaken, rfl⟩ := result_map_eq_ok_iff.mp h
  obtain ⟨body, hbody, rfl, hpre⟩ := readBody_sound htaken
  exact ⟨⟨body, hbody, rfl⟩, by simpa using hpre⟩

/-- **Quoted strings are read**, whatever follows them. -/
theorem read_append {string : List Char} (h : IsQuoted string) (rest : List Char) :
    read (string ++ rest) = .ok string := by
  obtain ⟨body, hbody, rfl⟩ := h
  have hread := readBody_append hbody rest 1
  simp only [read, List.cons_append, List.append_assoc, List.nil_append, List.drop_one,
    List.tail_cons, hread]
  rfl

end ScimQuery.Quoted
