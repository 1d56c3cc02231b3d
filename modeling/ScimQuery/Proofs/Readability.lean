/-
ScimQuery.Proofs.Readability — tokens that spell a phrase are read back.

A row of well-formed tokens need not be what the lexer makes of its text:
two names in a row run together, and a URN swallows the parentheses behind
it. The rows that spell a phrase have no such places. A word or a number is
followed by a mark that cannot prolong it, and an attribute path by a space,
a bracket or the end (`EndsPath`), whatever joints its URN may contain. What
stands behind a condition is `Closes`; a group or a bracket closes itself.

So for the rows of the grammar to be readable it is enough that every token
is well formed, and acceptance can be stated without the lexer
(`Filter.ofText_eq_ok_iff_spells`).
-/
import ScimQuery.Proofs.Acceptance

namespace ScimQuery

open Token CharClass

/-! ## 1. What may follow -/

/-- Every token of the row is well formed. -/
def AllWellFormed (tokens : List Token) : Prop :=
  ∀ token ∈ tokens, token.IsWellFormed

@[simp] theorem allWellFormed_nil : AllWellFormed [] := by simp [AllWellFormed]

@[simp] theorem allWellFormed_cons {token : Token} {tokens : List Token} :
    AllWellFormed (token :: tokens) ↔ token.IsWellFormed ∧ AllWellFormed tokens := by
  simp [AllWellFormed]

@[simp] theorem allWellFormed_append {front tokens : List Token} :
    AllWellFormed (front ++ tokens) ↔ AllWellFormed front ∧ AllWellFormed tokens := by
  simp [AllWellFormed, or_imp, forall_and]

/-- What may stand behind a condition. -/
def Closes (rest : List Token) : Prop :=
  Readable rest ∧
    ∀ token ∈ rest.head?, token = .space ∨ token = .closeParen ∨ token = .closeBracket

/-- What may stand behind an attribute path. -/
def EndsPath (rest : List Token) : Prop :=
  Readable rest ∧ ∀ token ∈ rest.head?, token = .space ∨ token = .openBracket

/-- A row stops a scan if its first token is a mark that does. -/
theorem stops_textOf {p : Char → Bool} {rest : List Token}
    (h : ∀ token ∈ rest.head?, ∃ c, token.text.toList = [c] ∧ p c = false) :
    Stops p (textOf rest).toList := by
  cases rest with
  | nil => exact Stops.nil
  | cons token rest =>
    obtain ⟨c, htext, hc⟩ := h token rfl
    rw [textOf_cons, String.toList_append, htext]
    exact Stops.cons_iff.mpr hc

theorem Closes.stops {p : Char → Bool} {rest : List Token} (h : Closes rest)
    (hspace : p ' ' = false) (hparen : p ')' = false) (hbracket : p ']' = false) :
    Stops p (textOf rest).toList := by
  apply stops_textOf
  intro token htoken
  rcases h.2 token htoken with rfl | rfl | rfl
  · exact ⟨' ', rfl, hspace⟩
  · exact ⟨')', rfl, hparen⟩
  · exact ⟨']', rfl, hbracket⟩

theorem EndsPath.stops {rest : List Token} (h : EndsPath rest) :
    Stops isRun (textOf rest).toList := by
  apply stops_textOf
  intro token htoken
  rcases h.2 token htoken with rfl | rfl
  · exact ⟨' ', rfl, by decide⟩
  · exact ⟨'[', rfl, by decide⟩

theorem closes_nil : Closes [] := ⟨trivial, by simp⟩

theorem endsPath_nil : EndsPath [] := ⟨trivial, by simp⟩

/-! ## 2. Attribute paths -/

/-- A sub-attribute is read back in front of what ends a path. -/
theorem readable_subTokens {sub : Option String} {rest : List Token}
    (hwell : AllWellFormed (subTokens sub)) (hrest : EndsPath rest) :
    Readable (subTokens sub ++ rest) := by
  cases sub with
  | none => exact hrest.1
  | some name =>
    simp only [subTokens, allWellFormed_cons] at hwell
    have hname : Token.ReadsBefore (.attribute name) (textOf rest).toList :=
      readsBefore_attribute hwell.2.1 (Word.stops_isPlainRun hrest.stops)
    exact ⟨by simp, readsBefore_dot _, by simp, hname, hrest.1⟩

/-- A name is read back in front of a sub-attribute or of what ends a path. -/
theorem readsBefore_name {name : String} {sub : Option String} {rest : List Token}
    (hname : AttributeName.IsFree name) (hrest : EndsPath rest) :
    Token.ReadsBefore (.attribute name) (textOf (subTokens sub ++ rest)).toList := by
  apply readsBefore_attribute hname
  cases sub with
  | none => exact Word.stops_isPlainRun hrest.stops
  | some sub =>
    apply stops_textOf
    intro token htoken
    obtain rfl : token = .dot := by simpa [subTokens, eq_comm] using htoken
    exact ⟨'.', rfl, by decide⟩

/-- A name and a sub-attribute are written with the characters of names and
with a joint, and the name goes up to the joint. -/
theorem tail_of_name {name : String} {sub : Option String} (hname : AttributeName.IsFree name)
    (hsub : AllWellFormed (subTokens sub)) :
    (∀ c ∈ name.toList ++ (textOf (subTokens sub)).toList,
      isNameChar c = true ∨ isJoint c = true) ∧
    (name.toList ++ (textOf (subTokens sub)).toList).takeWhile (· != '.') = name.toList := by
  refine Word.tail_of_isValid hname.1 ?_
  cases sub with
  | none => exact .inl rfl
  | some sub =>
    simp only [subTokens, allWellFormed_cons] at hsub
    exact .inr ⟨sub.toList, hsub.2.1.1, by simp [subTokens, text]⟩

/-- **An attribute path is read back** in front of what ends it. -/
theorem AttributePath.readable {path : AttributePath} {rest : List Token}
    (hwell : AllWellFormed path.tokens) (hrest : EndsPath rest) :
    Readable (path.tokens ++ rest) := by
  obtain ⟨schema, name, sub⟩ := path
  simp only [tokens, allWellFormed_append, allWellFormed_cons] at hwell
  obtain ⟨hschema, hname, hsub⟩ := hwell
  have hsubs : Readable (subTokens sub ++ rest) := readable_subTokens hsub hrest
  have hnames : Readable (.attribute name :: (subTokens sub ++ rest)) :=
    ⟨by simp, readsBefore_name hname hrest, hsubs⟩
  cases schema with
  | none => exact hnames
  | some urn =>
    obtain ⟨htail, htake⟩ := tail_of_name hname hsub
    have hurn := readsBefore_urn (allWellFormed_cons.mp hschema).1 htail
      (by rw [htake]; exact hname.1) hrest.stops
    have htext : (textOf (.colon :: .attribute name :: (subTokens sub ++ rest))).toList =
        ':' :: (name.toList ++ (textOf (subTokens sub)).toList ++ (textOf rest).toList) := by
      simp [Token.text]
    have hcolon : Readable (.colon :: .attribute name :: (subTokens sub ++ rest)) :=
      ⟨by simp, readsBefore_colon _, hnames⟩
    show Readable (.urn urn :: .colon :: .attribute name :: (subTokens sub ++ rest))
    exact ⟨by simp, by rwa [htext], hcolon⟩

/-! ## 3. Conditions -/

/-- A literal is read back in front of what may stand behind a condition. -/
theorem readsBefore_literal {l : Literal} {rest : List Token} (hwell : l.token.IsWellFormed)
    (hrest : Closes rest) : l.token.ReadsBefore (textOf rest).toList := by
  cases l with
  | constant value =>
    exact readsBefore_keyword _ (hrest.stops (by decide) (by decide) (by decide))
  | number literal =>
    exact readsBefore_number hwell (hrest.stops (by decide) (by decide) (by decide))
  | string literal => exact readsBefore_string hwell _

/-- A keyword is read back in front of a mark. -/
theorem readable_keyword {keyword : Keyword} {mark : Token} {rest : List Token}
    (hmark : ∃ c, mark.text.toList = [c] ∧ Word.isPlainRun c = false)
    (hrest : Readable (mark :: rest)) : Readable (.keyword keyword :: mark :: rest) := by
  refine ⟨by simp, readsBefore_keyword _ (stops_textOf fun token htoken => ?_), hrest⟩
  obtain rfl : mark = token := by simpa using htoken
  exact hmark

theorem readable_space {rest : List Token} (hrest : Readable rest) : Readable (.space :: rest) :=
  ⟨by simp, readsBefore_space _, hrest⟩

theorem AttributeTest.readable {test : AttributeTest} {rest : List Token}
    (hwell : AllWellFormed test.tokens) (hrest : Closes rest) :
    Readable (test.tokens ++ rest) := by
  obtain ⟨hpath, htail⟩ := allWellFormed_append.mp hwell
  rw [tokens, List.append_assoc]
  refine AttributePath.readable hpath ⟨?_, fun token htoken => .inl ?_⟩
  · cases test with
    | present path =>
      have hpresent : Token.ReadsBefore (.keyword .present) (textOf rest).toList :=
        readsBefore_keyword _ (hrest.stops (by decide) (by decide) (by decide))
      exact readable_space ⟨by simp, hpresent, hrest.1⟩
    | compare path operator l =>
      have hl : l.token.IsWellFormed := htail _ (by simp [tail])
      have hliteral : Readable (l.token :: rest) :=
        ⟨l.token_ne_eof, readsBefore_literal hl hrest, hrest.1⟩
      exact readable_space (readable_keyword ⟨' ', rfl, by decide⟩ (readable_space hliteral))
  · cases test <;> simpa [tail, eq_comm] using htoken

/-- Filtered values are read back in front of anything, since they close
themselves. -/
theorem readable_values {path : AttributePath} {inner rest : List Token}
    (hwell : AllWellFormed path.tokens) (hinner : Closes (.closeBracket :: rest) →
      Readable (inner ++ .closeBracket :: rest)) (hrest : Readable rest) :
    Readable (path.tokens ++ .openBracket :: (inner ++ [.closeBracket]) ++ rest) := by
  have hclose : Readable (.closeBracket :: rest) :=
    ⟨by simp, readsBefore_closeBracket _, hrest⟩
  have hcontents : Readable (inner ++ .closeBracket :: rest) := hinner ⟨hclose, by simp⟩
  rw [List.append_assoc, List.cons_append, List.append_assoc, List.singleton_append]
  exact AttributePath.readable hwell ⟨⟨by simp, readsBefore_openBracket _, hcontents⟩, by simp⟩

/-! ## 4. Combinations -/

/-- What opens a group is read back in front of anything. -/
theorem Opens.readable {negated : Bool} {opening rest : List Token} (h : Opens negated opening)
    (hrest : Readable rest) : Readable (opening ++ rest) := by
  have hopen : Readable (.openParen :: rest) := ⟨by simp, readsBefore_openParen _, hrest⟩
  cases h with
  | plain => exact hopen
  | negated => exact readable_keyword ⟨'(', rfl, by decide⟩ hopen
  | spaced => exact readable_keyword ⟨' ', rfl, by decide⟩ (readable_space hopen)

/-- A connective is read back in front of anything. -/
theorem Connective.closes {connective : Connective} {rest : List Token} (hrest : Readable rest) :
    Closes (connective.tokens ++ rest) :=
  ⟨readable_space (readable_keyword ⟨' ', rfl, by decide⟩ (readable_space hrest)), by
    simp [Connective.tokens]⟩

section Combinations

variable {α : Type} {leaf : List Token → α → Prop}

mutual

/-- The rows of a combination are read back if those of its conditions are. -/
theorem Disjunction.readable (hleaf : ∀ {tokens a rest}, leaf tokens a → AllWellFormed tokens →
    Closes rest → Readable (tokens ++ rest)) {tokens rest : List Token} :
    ∀ {d : Disjunction α}, d.Spells leaf tokens → AllWellFormed tokens → Closes rest →
      Readable (tokens ++ rest)
  | .one c, h, hwell, hrest => by
      cases h with
      | one hc => exact Conjunction.readable hleaf hc hwell hrest
  | .or c d, h, hwell, hrest => by
      cases h with
      | or hc hd =>
        simp only [allWellFormed_append] at hwell
        have hrow := Disjunction.readable hleaf hd hwell.2 hrest
        rw [List.append_assoc, List.append_assoc]
        exact Conjunction.readable hleaf hc hwell.1.1 (Connective.closes hrow)

theorem Conjunction.readable (hleaf : ∀ {tokens a rest}, leaf tokens a → AllWellFormed tokens →
    Closes rest → Readable (tokens ++ rest)) {tokens rest : List Token} :
    ∀ {c : Conjunction α}, c.Spells leaf tokens → AllWellFormed tokens → Closes rest →
      Readable (tokens ++ rest)
  | .one o, h, hwell, hrest => by
      cases h with
      | one ho => exact Operand.readable hleaf ho hwell hrest
  | .and o c, h, hwell, hrest => by
      cases h with
      | and ho hc =>
        simp only [allWellFormed_append] at hwell
        have hrow := Conjunction.readable hleaf hc hwell.2 hrest
        rw [List.append_assoc, List.append_assoc]
        exact Operand.readable hleaf ho hwell.1.1 (Connective.closes hrow)

theorem Operand.readable (hleaf : ∀ {tokens a rest}, leaf tokens a → AllWellFormed tokens →
    Closes rest → Readable (tokens ++ rest)) {tokens rest : List Token} :
    ∀ {o : Operand α}, o.Spells leaf tokens → AllWellFormed tokens → Closes rest →
      Readable (tokens ++ rest)
  | .leaf a, h, hwell, hrest => by
      cases h with
      | leaf ha => exact hleaf ha hwell hrest
  | .group negated d, h, hwell, hrest => by
      cases h with
      | group hopens hd =>
        simp only [allWellFormed_append] at hwell
        have hclose : Readable (.closeParen :: rest) :=
          ⟨by simp, readsBefore_closeParen _, hrest.1⟩
        have hinner := Disjunction.readable hleaf hd hwell.1.2 ⟨hclose, by simp⟩
        rw [List.append_assoc, List.append_assoc, List.singleton_append]
        exact hopens.readable hinner

end

end Combinations

/-! ## 5. Filters and paths -/

theorem AttributeTest.readable_of_spells {tokens rest : List Token} {test : AttributeTest}
    (h : test.Spells tokens) (hwell : AllWellFormed tokens) (hrest : Closes rest) :
    Readable (tokens ++ rest) := by
  subst h
  exact AttributeTest.readable hwell hrest

theorem ValuePath.readable {tokens rest : List Token} {v : ValuePath} (h : v.Spells tokens)
    (hwell : AllWellFormed tokens) (hrest : Readable rest) : Readable (tokens ++ rest) := by
  obtain ⟨inner, hinner, rfl⟩ := h
  simp only [allWellFormed_append, allWellFormed_cons] at hwell
  exact readable_values hwell.1
    (Disjunction.readable AttributeTest.readable_of_spells hinner hwell.2.2.1) hrest

theorem Condition.readable {tokens rest : List Token} {c : Condition} (h : c.Spells tokens)
    (hwell : AllWellFormed tokens) (hrest : Closes rest) : Readable (tokens ++ rest) := by
  cases c with
  | test test => exact AttributeTest.readable_of_spells h hwell hrest
  | values v => exact ValuePath.readable h hwell hrest.1

/-- **The tokens of a filter are read back.** -/
theorem Filter.readable_iff {tokens : List Token} {filter : Filter}
    (h : Filter.Spells tokens filter) : Readable tokens ↔ AllWellFormed tokens := by
  refine ⟨fun hreadable token htoken => (hreadable.forall_mem token htoken).2, fun hwell => ?_⟩
  have hrow := Disjunction.readable Condition.readable h hwell closes_nil
  rwa [List.append_nil] at hrow

/-- **The tokens of a path are read back.** -/
theorem Path.readable_iff {tokens : List Token} {path : Path} (h : path.Spells tokens) :
    Readable tokens ↔ AllWellFormed tokens := by
  refine ⟨fun hreadable token htoken => (hreadable.forall_mem token htoken).2, fun hwell => ?_⟩
  rw [← List.append_nil tokens]
  cases path with
  | «attribute» a =>
    subst h
    exact AttributePath.readable hwell endsPath_nil
  | values v sub =>
    obtain ⟨inner, hv, rfl⟩ := h
    obtain ⟨hinner, hsub⟩ := allWellFormed_append.mp hwell
    rw [List.append_assoc]
    exact ValuePath.readable hv hinner (readable_subTokens hsub endsPath_nil)
  | test test => exact AttributeTest.readable_of_spells h hwell closes_nil

/-- **Acceptance without the lexer**: a text is a filter if it is the text of
well-formed tokens that spell it within the limit. -/
theorem Filter.ofText_eq_ok_iff_spells {text : String} {settings : ParseSettings}
    {filter : Filter} :
    Filter.ofText text settings = .ok filter ↔
      ∃ tokens, Filter.Spells tokens filter ∧ AllWellFormed tokens ∧ textOf tokens = text ∧
        filter.nesting ≤ settings.nestingLimit := by
  rw [Filter.ofText_eq_ok_iff]
  refine exists_congr fun tokens => ⟨fun h => ?_, fun h => ?_⟩
  · obtain ⟨hreadable, htext, hspells, hnesting⟩ := h
    exact ⟨hspells, (Filter.readable_iff hspells).mp hreadable, htext, hnesting⟩
  · obtain ⟨hspells, hwell, htext, hnesting⟩ := h
    exact ⟨(Filter.readable_iff hspells).mpr hwell, htext, hspells, hnesting⟩

/-- The same for paths. -/
theorem Path.ofText_eq_ok_iff_spells {text : String} {settings : ParseSettings} {path : Path} :
    Path.ofText text settings = .ok path ↔
      ∃ tokens, path.Spells tokens ∧ AllWellFormed tokens ∧ textOf tokens = text ∧
        path.nesting ≤ settings.nestingLimit := by
  rw [Path.ofText_eq_ok_iff]
  refine exists_congr fun tokens => ⟨fun h => ?_, fun h => ?_⟩
  · obtain ⟨hreadable, htext, hspells, hnesting⟩ := h
    exact ⟨hspells, (Path.readable_iff hspells).mp hreadable, htext, hnesting⟩
  · obtain ⟨hspells, hwell, htext, hnesting⟩ := h
    exact ⟨(Path.readable_iff hspells).mpr hwell, htext, hspells, hnesting⟩

end ScimQuery
