/-
ScimQuery.Proofs.Spacing — what is read and written again changes by the
space behind `not` only.

`spacing` puts a space between every keyword `not` and a parenthesis that
follows it directly. It works on the tokens of a text, so it leaves a `not(`
alone that stands in a string or in a URN. Reading a text and writing the
tree is this function: no other character is added, lost or changed, and two
texts are read as one tree exactly if they differ in such spaces.
-/
import ScimQuery.Proofs.RoundTrip

namespace ScimQuery

open Token

/-! ## 1. Putting the spaces in -/

/-- The text with one space between every keyword `not` and a parenthesis that
follows it directly. -/
def spacing (text : String) : String :=
  match Token.ofText text with
  | .ok located => textOf (spaced (located.map Located.token))
  | .error _ => text

/-- Somewhere in the row a parenthesis follows `not` directly. -/
def HasTightNegation (tokens : List Token) : Prop :=
  [.keyword .negation, .openParen] <:+: tokens

/-- The end of the text takes no part in the spaces. -/
theorem textOf_spaced_append_eof (tokens : List Token) :
    textOf (spaced (tokens ++ [.eof])) = textOf (spaced tokens) := by
  rw [spaced_append (by simp), textOf_append]
  simp [spaced, Token.text]

theorem spacing_textOf {tokens : List Token} (h : Readable tokens) :
    spacing (textOf tokens) = textOf (spaced tokens) := by
  rw [spacing, ofText_eq_ok_iff.mpr ⟨tokens, h, rfl, rfl⟩]
  simp only [map_token_locate, textOf_spaced_append_eof]

/-! ## 2. Reading and writing -/

/-- Writing what was read puts the spaces in and changes nothing else. -/
structure SpacesNegations {α : Type} (read : String → ParseSettings → Except ParseError α)
    (write : α → String) : Prop where
  /-- The tokens make up the text, and the text of the tree is theirs with the
  spaces put in. -/
  write_eq : ∀ {text settings a}, read text settings = .ok a →
    ∃ located, Token.ofText text = .ok located ∧
      textOf (located.map Located.token) = text ∧
      write a = textOf (spaced (located.map Located.token)) ∧ write a = spacing text
  /-- A text that misses no space is written as it was read. -/
  write_eq_self : ∀ {text settings a located}, read text settings = .ok a →
    Token.ofText text = .ok located → ¬ HasTightNegation (located.map Located.token) →
      write a = text
  /-- Two texts are read as one tree if they are the same with the spaces put
  in. -/
  eq_iff : ∀ {text text' settings settings' a a'}, read text settings = .ok a →
    read text' settings' = .ok a' → (a = a' ↔ spacing text = spacing text')
  /-- The text of the tree is read again, as the tree that it is the text of. -/
  read_write : ∀ {text settings a}, read text settings = .ok a →
    read (write a) settings = .ok a

/-- It is enough that a text is read by its tokens, and that what is read is
read again from its text within every limit that is no smaller. -/
theorem SpacesNegations.of_tokens {α : Type}
    {read : String → ParseSettings → Except ParseError α} {write : α → String}
    (htokens : ∀ {text settings a}, read text settings = .ok a →
      ∃ tokens, Readable tokens ∧ textOf tokens = text ∧ textOf (spaced tokens) = write a)
    (hagain : ∀ {text settings settings' a}, read text settings = .ok a →
      settings.nestingLimit ≤ settings'.nestingLimit → read (write a) settings' = .ok a) :
    SpacesNegations read write := by
  have hspacing {text : String} {settings : ParseSettings} {a : α}
      (h : read text settings = .ok a) : write a = spacing text := by
    obtain ⟨tokens, hreadable, rfl, hwrite⟩ := htokens h
    rw [spacing_textOf hreadable, hwrite]
  refine ⟨fun h => ?_, fun h hlocated htight => ?_, fun h h' => ?_, fun h => ?_⟩
  · obtain ⟨tokens, hreadable, rfl, hwrite⟩ := htokens h
    refine ⟨_, ofText_eq_ok_iff.mpr ⟨tokens, hreadable, rfl, rfl⟩, ?_, ?_, hspacing h⟩
    · simp [Token.text]
    · rw [map_token_locate, textOf_spaced_append_eof, hwrite]
  · obtain ⟨tokens, hreadable, rfl, hwrite⟩ := htokens h
    rw [ofText_eq_ok_iff.mpr ⟨tokens, hreadable, rfl, rfl⟩, Except.ok.injEq] at hlocated
    rw [← hlocated, map_token_locate] at htight
    have hrow : ¬ HasTightNegation tokens :=
      fun hwithin => htight (hwithin.trans (List.infix_append' [] tokens [.eof]))
    rw [← hwrite, spaced_of_not_infix hrow]
  · refine ⟨fun heq => ?_, fun heq => ?_⟩
    · rw [← hspacing h, ← hspacing h', heq]
    · -- Both trees are read from one text as soon as the limit admits both.
      rename_i text text' settings settings' a a'
      let wide : ParseSettings :=
        { settings with nestingLimit := max settings.nestingLimit settings'.nestingLimit }
      have ha : read (write a) wide = .ok a := hagain h (Nat.le_max_left _ _)
      have ha' : read (write a') wide = .ok a' := hagain h' (Nat.le_max_right _ _)
      rw [hspacing h, heq, ← hspacing h', ha', Except.ok.injEq] at ha
      exact ha.symm
  · exact hagain h (Nat.le_refl _)

/-- **Reading and writing puts the space behind `not` and changes nothing
else**, for filters and for paths. -/
theorem spacesNegations :
    SpacesNegations @Filter.ofText Filter.text ∧ SpacesNegations @Path.ofText Path.text := by
  refine ⟨.of_tokens (fun h => ?_) (fun h hle => ?_), .of_tokens (fun h => ?_) (fun h hle => ?_)⟩
  · obtain ⟨tokens, hreadable, htext, hspells, -⟩ := Filter.ofText_eq_ok_iff.mp h
    exact ⟨tokens, hreadable, htext, by rw [Filter.spaced_of_spells hspells, Filter.textOf_tokens]⟩
  · obtain ⟨hwell, hnesting⟩ := Filter.wellFormed_of_ofText h
    exact Filter.ofText_text hwell (Nat.le_trans hnesting hle)
  · obtain ⟨tokens, hreadable, htext, hspells, -⟩ := Path.ofText_eq_ok_iff.mp h
    exact ⟨tokens, hreadable, htext, by rw [Path.spaced_of_spells hspells, Path.textOf_tokens]⟩
  · obtain ⟨hwell, hnesting⟩ := Path.wellFormed_of_ofText h
    exact Path.ofText_text hwell (Nat.le_trans hnesting hle)

/-- Two texts that differ in the space behind `not` are read as one tree. -/
theorem spacesNegations_not_group :
    spacing "not(a pr)" = spacing "not (a pr)" ∧
      Filter.text (.one (.one (.group true (.one (.one (.leaf
        (.test (.present ⟨none, "a", none⟩)))))))) = spacing "not(a pr)" := by
  have hpresent : Condition.Spells [.attribute "a", .space, .keyword .present]
      (.test (.present ⟨none, "a", none⟩)) := rfl
  have hwell : AllWellFormed [.attribute "a", .space, .keyword .present] := by
    simp only [allWellFormed_cons, allWellFormed_nil]
    exact ⟨⟨by decide, by decide⟩, trivial, trivial, trivial⟩
  have htight : Filter.ofText "not(a pr)" ⟨.orderedChoice, 1⟩ = .ok (.one (.one (.group true
      (.one (.one (.leaf (.test (.present ⟨none, "a", none⟩)))))))) :=
    Filter.ofText_eq_ok_iff_spells.mpr ⟨_, .one (.one (.group .negated (.one (.one (.leaf
      hpresent))))), by simpa [IsWellFormed] using hwell, by decide, Nat.le_refl 1⟩
  have hspaced : Filter.ofText "not (a pr)" ⟨.lookahead, 1⟩ = .ok (.one (.one (.group true
      (.one (.one (.leaf (.test (.present ⟨none, "a", none⟩)))))))) :=
    Filter.ofText_eq_ok_iff_spells.mpr ⟨_, .one (.one (.group .spaced (.one (.one (.leaf
      hpresent))))), by simpa [IsWellFormed] using hwell, by decide, Nat.le_refl 1⟩
  obtain ⟨_, -, -, -, hwrite⟩ := spacesNegations.1.write_eq htight
  exact ⟨(spacesNegations.1.eq_iff htight hspaced).mp rfl, hwrite⟩

end ScimQuery
