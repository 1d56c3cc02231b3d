/-
ScimQuery.Proofs.Lexing — the tokens of a text, given without the lexer.

`Readable tokens` says that every token is read from its own text in front of
the texts behind it. The main statement, `ofText_eq_ok_iff`, is that the
lexer answers with exactly those tokens: the texts of what it answers, one
behind the other, are the text it was given, and every token stands at the
number of characters in front of it. In particular no character is lost or
read twice, and the list ends with the one end of the text.

The lexer counts down the characters of a token that it has read. What that
comes to is `listFrom_pending`: it goes on behind them.
-/
import ScimQuery.Proofs.Lexemes.Token

namespace ScimQuery.Token

/-! ## 1. Rows of tokens -/

/-- The texts of the tokens, one behind the other. -/
def textOf : List Token → String
  | [] => ""
  | token :: rest => token.text ++ textOf rest

@[simp] theorem textOf_nil : textOf [] = "" := rfl

@[simp] theorem textOf_cons (token : Token) (rest : List Token) :
    textOf (token :: rest) = token.text ++ textOf rest := rfl

@[simp] theorem textOf_append (front rest : List Token) :
    textOf (front ++ rest) = textOf front ++ textOf rest := by
  induction front with
  | nil => simp
  | cons token front ih => simp [ih, String.append_assoc]

/-- The tokens at their offsets, the first one at `offset`, and the end of
the text behind them. -/
def locate (offset : Nat) : List Token → List Located
  | [] => [⟨offset, .eof⟩]
  | token :: rest => ⟨offset, token⟩ :: locate (offset + token.length) rest

/-- The tokens without their offsets are the row and the end. -/
@[simp] theorem map_token_locate (offset : Nat) (tokens : List Token) :
    (locate offset tokens).map Located.token = tokens ++ [.eof] := by
  induction tokens generalizing offset with
  | nil => rfl
  | cons token rest ih => simp [locate, ih]

/-- Every token is read from its own text in front of the texts behind it. -/
def Readable : List Token → Prop
  | [] => True
  | token :: rest => token ≠ .eof ∧ token.ReadsBefore (textOf rest).toList ∧ Readable rest

/-- A token that is read from its own text is well formed. -/
theorem ReadsBefore.isWellFormed {token : Token} {rest : List Char}
    (h : token.ReadsBefore rest) : token.IsWellFormed :=
  (read_sound h).1

/-- The tokens of a readable row are well formed, and none is the end. -/
theorem Readable.forall_mem {tokens : List Token} (h : Readable tokens) :
    ∀ token ∈ tokens, token ≠ .eof ∧ token.IsWellFormed := by
  induction tokens with
  | nil => simp
  | cons token rest ih =>
    obtain ⟨heof, hread, hrest⟩ := h
    simp only [List.mem_cons, forall_eq_or_imp]
    exact ⟨⟨heof, hread.isWellFormed⟩, ih hrest⟩

/-! ## 2. The loop of the lexer -/

/-- The lexer passes over what is pending. -/
theorem listFrom_pending :
    ∀ (pending offset : Nat) (cs : List Char), pending ≤ cs.length →
      listFrom offset pending cs = listFrom (offset + pending) 0 (cs.drop pending)
  | 0, _, _, _ => by simp
  | pending + 1, offset, [], h => by simp at h
  | pending + 1, offset, c :: cs, h => by
      rw [listFrom, listFrom_pending pending (offset + 1) cs (by simpa using h)]
      rw [Nat.add_assoc, Nat.add_comm 1, List.drop_succ_cons]

/-- One turn of the lexer: a token is read, and the lexer goes on behind it. -/
theorem listFrom_append {token : Token} (heof : token ≠ .eof) {rest : List Char}
    (h : token.ReadsBefore rest) (offset : Nat) :
    listFrom offset 0 (token.text.toList ++ rest) =
      (listFrom (offset + token.length) 0 rest).map (⟨offset, token⟩ :: ·) := by
  have hne := h.isWellFormed.text_ne_empty heof
  obtain ⟨c, tail, hcs⟩ := List.exists_cons_of_ne_nil hne
  have hlength : token.length = tail.length + 1 := by
    rw [length, ← String.length_toList, hcs, List.length_cons]
  rw [ReadsBefore, hcs, List.cons_append] at h
  rw [hcs, List.cons_append, listFrom]
  simp only [h, hlength, Nat.add_sub_cancel]
  rw [listFrom_pending _ _ _ (by simp), List.drop_left, Nat.add_assoc, Nat.add_comm 1]

/-- A readable row is read from its text. -/
theorem listFrom_of_readable {tokens : List Token} (h : Readable tokens) (offset : Nat) :
    listFrom offset 0 (textOf tokens).toList = .ok (locate offset tokens) := by
  induction tokens generalizing offset with
  | nil => rfl
  | cons token rest ih =>
    obtain ⟨heof, hread, hrest⟩ := h
    rw [textOf_cons, String.toList_append, listFrom_append heof hread, ih hrest]
    rfl

/-- Whatever is read is a readable row, and its text is what it is read from. -/
theorem readable_of_listFrom {cs : List Char} {offset : Nat} {located : List Located}
    (h : listFrom offset 0 cs = .ok located) :
    ∃ tokens, Readable tokens ∧ (textOf tokens).toList = cs ∧ located = locate offset tokens := by
  -- Induction on the length: a token takes one character or more.
  induction hn : cs.length using Nat.strong_induction_on generalizing cs offset located with
  | _ n ih =>
    cases cs with
    | nil =>
      simp only [listFrom, Except.ok.injEq] at h
      exact ⟨[], trivial, rfl, h.symm⟩
    | cons c cs =>
      cases hread : read (c :: cs) with
      | error failure => simp [listFrom, hread] at h
      | ok token =>
        obtain ⟨hwell, rest, hrest⟩ := read_sound hread
        have heof : token ≠ .eof := by
          rintro rfl
          cases eq_nil_of_read_eof hread
        have hbefore : token.ReadsBefore rest := by
          rw [ReadsBefore, hrest, hread]
        have hne := hwell.text_ne_empty heof
        rw [← hrest, listFrom_append heof hbefore] at h
        obtain ⟨located', hlocated, rfl⟩ := result_map_eq_ok_iff.mp h
        have hlt : rest.length < n := by
          have := List.length_pos_iff.mpr hne
          rw [← hn, ← hrest, List.length_append]
          omega
        obtain ⟨tokens, hreadable, rfl, rfl⟩ := ih _ hlt hlocated rfl
        exact ⟨token :: tokens, ⟨heof, hbefore, hreadable⟩, by simpa using hrest, rfl⟩

/-- **What the lexer answers**: the tokens of a text are the readable row
whose texts make up the text, each at its offset. -/
theorem ofText_eq_ok_iff {source : String} {located : List Located} :
    ofText source = .ok located ↔
      ∃ tokens, Readable tokens ∧ textOf tokens = source ∧ located = locate 0 tokens := by
  unfold ofText
  constructor
  · intro h
    split at h
    · rename_i tokens hlist
      simp only [Except.ok.injEq] at h
      subst h
      obtain ⟨tokens, hreadable, htext, hlocated⟩ := readable_of_listFrom hlist
      exact ⟨tokens, hreadable, String.toList_inj.mp htext, hlocated⟩
    · cases h
  · intro h'
    obtain ⟨tokens, hreadable, rfl, rfl⟩ := h'
    rw [listFrom_of_readable hreadable 0]

/-- A text is read as one token and the end if it is the token's text, and the
token is read from it. -/
theorem ofText_eq_single_iff {source : String} {token : Token} {offset : Nat} :
    ofText source = .ok [⟨0, token⟩, ⟨offset, .eof⟩] ↔
      Readable [token] ∧ token.text = source ∧ offset = source.length := by
  rw [ofText_eq_ok_iff]
  constructor
  · rintro ⟨tokens, hreadable, htext, hlocated⟩
    have hrow : [token] ++ [.eof] = tokens ++ [.eof] := by
      rw [← map_token_locate 0 tokens, ← hlocated]
      rfl
    obtain rfl := List.append_cancel_right hrow
    have htoken : token.text = source := by simpa using htext
    refine ⟨hreadable, htoken, ?_⟩
    simpa [locate, length, htoken] using hlocated
  · rintro ⟨hreadable, rfl, rfl⟩
    exact ⟨[token], hreadable, by simp, by simp [locate, length]⟩

/-- A text is read as one string if it is a quoted string. -/
theorem ofText_string_iff {literal : String} :
    ofText literal = .ok [⟨0, .string literal⟩, ⟨literal.length, .eof⟩] ↔
      Quoted.IsQuoted literal.toList := by
  rw [ofText_eq_single_iff]
  constructor
  · exact fun h => h.1.2.1.isWellFormed
  · exact fun h => ⟨⟨by simp, readsBefore_string h _, trivial⟩, rfl, rfl⟩

/-- A text has one readable row at most. -/
theorem Readable.unique {tokens tokens' : List Token} (h : Readable tokens)
    (h' : Readable tokens') (htext : textOf tokens = textOf tokens') : tokens = tokens' := by
  have hrow : locate 0 tokens = locate 0 tokens' := by
    have hread := ofText_eq_ok_iff.mpr ⟨tokens, h, htext, rfl⟩
    rw [ofText_eq_ok_iff.mpr ⟨tokens', h', rfl, rfl⟩] at hread
    exact (Except.ok.inj hread).symm
  have htokens := congrArg (List.map Located.token) hrow
  rw [map_token_locate, map_token_locate] at htokens
  exact List.append_cancel_right htokens

end ScimQuery.Token
