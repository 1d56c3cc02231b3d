/-
ScimQuery.Proofs.GroupOpeners — when ordered choice finds the nesting too deep.

Ordered choice drops an error wherever it tries something: a condition, with
its brackets, and a connective with an operand behind it. What is left is the
error of the first operand, where that is a group, and so on in the group. So
the nesting is reported as too deep if and only if the text begins with more
groups than the limit allows, each opened right behind the one before
(`OpensGroups`). Every other filter that is nested too deep is given back up to
some connective or bracket, and the error is that another token was expected
there.

The induction is on the levels that are left. A group that opens the text takes
one of them, and its first operand is what the text in it begins with.
-/
import ScimQuery.Proofs.Canonical
import ScimQuery.Proofs.ErrorOffsets
import ScimQuery.Proofs.Parsing.Reach

namespace ScimQuery

open TokenStream Parse

variable {α β : Type} {s m : TokenStream} {e : ParseError} {n depth offset : Nat}
  {row front back : List Token} {tokens : List Located}

/-! ## 1. Groups in a row -/

/-- The row opens so many groups, one right behind the other. -/
inductive OpensGroups : Nat → List Token → Prop where
  | zero : OpensGroups 0 []
  | succ {negated : Bool} {opening row : List Token} {n : Nat} :
      Opens negated opening → OpensGroups n row → OpensGroups (n + 1) (opening ++ row)

theorem opensGroups_one_iff : OpensGroups 1 row ↔ ∃ negated, Opens negated row := by
  constructor
  · intro h
    cases h with
    | succ hopens hrest =>
      cases hrest
      rw [List.append_nil]
      exact ⟨_, hopens⟩
  · rintro ⟨negated, hopens⟩
    rw [← List.append_nil row]
    exact .succ hopens .zero

/-- The last token is a parenthesis. -/
theorem OpensGroups.exists_append (h : OpensGroups (n + 1) row) :
    ∃ front, row = front ++ [.openParen] := by
  induction n generalizing row with
  | zero =>
    obtain ⟨negated, hopens⟩ := opensGroups_one_iff.mp h
    exact hopens.exists_append
  | succ n ih =>
    cases h with
    | @succ _ opening _ _ _ hrest =>
      obtain ⟨front, rfl⟩ := ih hrest
      exact ⟨opening ++ front, (List.append_assoc _ _ _).symm⟩

/-- The first group, and those in it. -/
theorem opensGroups_append_iff :
    OpensGroups (n + 2) (front ++ [.openParen]) ↔ ∃ negated first back,
      Opens negated (first ++ [.openParen]) ∧ OpensGroups (n + 1) (back ++ [.openParen]) ∧
        front = first ++ .openParen :: back := by
  constructor
  · intro h
    generalize hrow : front ++ [Token.openParen] = row at h
    cases h with
    | succ hopens hrest =>
      obtain ⟨first, rfl⟩ := hopens.exists_append
      obtain ⟨back, rfl⟩ := hrest.exists_append
      refine ⟨_, first, back, hopens, hrest, ?_⟩
      rw [← List.append_assoc, List.append_left_inj] at hrow
      rw [hrow, List.append_assoc, List.singleton_append]
  · rintro ⟨negated, first, back, hopens, hrest, rfl⟩
    have h := OpensGroups.succ hopens hrest
    simpa using h

theorem Opens.ne_eof {negated : Bool} {opening : List Token} (h : Opens negated opening) :
    ∀ token ∈ opening, token ≠ .eof := by
  cases h <;> simp

theorem OpensGroups.ne_eof (h : OpensGroups n row) : ∀ token ∈ row, token ≠ .eof := by
  induction h with
  | zero => simp
  | succ hopens _ ih =>
    intro token htoken
    rcases List.mem_append.mp htoken with htoken | htoken
    · exact hopens.ne_eof token htoken
    · exact ih token htoken

theorem OpensGroups.startsGroup {token : Token} (h : OpensGroups (n + 1) (token :: row)) :
    token.StartsGroup := by
  generalize hrow : token :: row = tokens at h
  cases h with
  | succ hopens _ =>
    cases hopens <;>
    · obtain ⟨rfl, -⟩ := List.cons_eq_cons.mp hrow
      trivial

/-- The second stream stands on the parenthesis of the last of so many groups
that are opened in a row. -/
def TokenStream.OpenerAt (n : Nat) (s m : TokenStream) : Prop :=
  ∃ front, OpensGroups n (front ++ [.openParen]) ∧ s.Over front m ∧ m.current = .openParen

namespace TokenStream

theorem openerAt_one_iff : s.OpenerAt 1 m ↔ ∃ negated, negation s = .ok negated m := by
  simp only [OpenerAt, opensGroups_one_iff, negation_eq_ok_iff]
  constructor
  · rintro ⟨front, ⟨negated, hopens⟩, hover, hcurrent⟩
    exact ⟨negated, hcurrent, front, hopens, hover⟩
  · rintro ⟨negated, hcurrent, front, hopens, hover⟩
    exact ⟨front, ⟨negated, hopens⟩, hover, hcurrent⟩

theorem openerAt_succ_iff : s.OpenerAt (n + 2) m ↔
    ∃ negated m', negation s = .ok negated m' ∧ m'.next.OpenerAt (n + 1) m := by
  simp only [OpenerAt, opensGroups_append_iff, negation_eq_ok_iff]
  constructor
  · rintro ⟨_, ⟨negated, first, back, hopens, hrest, rfl⟩, hover, hcurrent⟩
    obtain ⟨m', hfirst, hparen, -, hback⟩ := over_append.mp hover
    exact ⟨negated, m', ⟨hparen, first, hopens, hfirst⟩, back, hrest, hback, hcurrent⟩
  · rintro ⟨negated, m', ⟨hparen, first, hopens, hfirst⟩, back, hrest, hback, hcurrent⟩
    refine ⟨_, ⟨negated, first, back, hopens, hrest, rfl⟩, ?_, hcurrent⟩
    exact over_append.mpr ⟨m', hfirst, hparen, by decide, hback⟩

/-- The depth has no part in it. -/
theorem openerAt_atDepth {d : Nat} :
    (s.atDepth d).OpenerAt n m ↔ ∃ m', s.OpenerAt n m' ∧ m = m'.atDepth d := by
  simp only [OpenerAt, over_atDepth]
  constructor
  · rintro ⟨front, hopens, ⟨m', hover, rfl⟩, hcurrent⟩
    exact ⟨m', ⟨front, hopens, hover, hcurrent⟩, rfl⟩
  · rintro ⟨m', ⟨front, hopens, hover, hcurrent⟩, rfl⟩
    exact ⟨front, hopens, ⟨m', hover, rfl⟩, hcurrent⟩

end TokenStream

/-! ## 2. Errors about a token -/

/-- The error is that another token was expected. -/
def ParseError.IsMismatch : ParseError → Prop
  | .mismatch .. => True
  | _ => False

namespace Parse

/-- Whatever the parser fails with, another token was expected. -/
def OnlyMismatch (parser : Parse α) : Prop :=
  ∀ ⦃s e m⦄, parser s = .error e m → e.IsMismatch

theorem OnlyMismatch.bind {parser : Parse α} {next : α → Parse β} (h : OnlyMismatch parser)
    (hnext : ∀ a, OnlyMismatch (next a)) : OnlyMismatch (parser >>= next) := by
  intro s e m herror
  rcases bind_eq_error_iff.mp herror with herror | ⟨a, m', -, herror⟩
  · exact h herror
  · exact hnext a herror

theorem onlyMismatch_of_ok {parser : Parse α} (h : ∀ s, ∃ a m, parser s = .ok a m) :
    OnlyMismatch parser := by
  intro s e m herror
  obtain ⟨a, m', hok⟩ := h s
  rw [hok] at herror
  cases herror

theorem onlyMismatch_pure (a : α) : OnlyMismatch (pure a : Parse α) :=
  onlyMismatch_of_ok fun s => ⟨a, s, rfl⟩

theorem onlyMismatch_accept (token : Token) : OnlyMismatch (accept token) := by
  refine (onlyMismatch_of_ok fun s => ⟨s.current, s, rfl⟩).bind fun current => ?_
  split
  · exact onlyMismatch_of_ok fun s => ⟨true, s.next, rfl⟩
  · exact onlyMismatch_pure false

theorem onlyMismatch_ensure (token : Token) : OnlyMismatch (ensure token) := by
  intro s e m herror
  obtain ⟨-, rfl, -⟩ := ensure_eq_error_iff.mp herror
  trivial

theorem onlyMismatch_require (token : Token) : OnlyMismatch (require token) :=
  fun _ _ _ herror => onlyMismatch_ensure token (require_eq_error_iff.mp herror)

theorem onlyMismatch_ascend (closing : Token) : OnlyMismatch (ascend closing) :=
  fun _ _ _ herror => onlyMismatch_ensure closing (ascend_eq_error_iff.mp herror)

theorem onlyMismatch_negation : OnlyMismatch negation := by
  have hparen (negated : Bool) :
      OnlyMismatch (ensure .openParen >>= fun _ => (pure negated : Parse Bool)) :=
    (onlyMismatch_ensure .openParen).bind fun _ => onlyMismatch_pure negated
  refine (onlyMismatch_accept _).bind fun negated => ?_
  split
  · exact (onlyMismatch_accept .space).bind fun _ => hparen negated
  · exact hparen negated

/-! ## 3. What is left of an error -/

/-- An error of a group is one of what is nested in it, or another token was
expected. -/
theorem group_eq_error_iff {contents : Parse (Disjunction α)} (he : ¬ e.IsMismatch) :
    group contents s = .error e m ↔
      ∃ negated m', negation s = .ok negated m' ∧ contents m' = .error e m := by
  rw [group, bind_eq_error_iff]
  constructor
  · rintro (herror | ⟨negated, m', hnegation, herror⟩)
    · exact absurd (onlyMismatch_negation herror) he
    · rcases bind_eq_error_iff.mp herror with herror | ⟨d, m'', -, herror⟩
      · exact ⟨negated, m', hnegation, herror⟩
      · have hclosing := (onlyMismatch_ascend .closeParen).bind fun _ =>
          onlyMismatch_pure (Operand.group negated d)
        exact absurd (hclosing herror) he
  · rintro ⟨negated, m', hnegation, herror⟩
    exact .inr ⟨negated, m', hnegation, bind_eq_error_iff.mpr (.inl herror)⟩

theorem startsGroup_of_negation {negated : Bool} (h : negation s = .ok negated m) :
    s.current.StartsGroup := by
  by_contra hno
  obtain ⟨e, he⟩ := negation_of_not_startsGroup hno
  rw [he] at h
  cases h

/-- A loop over a step that never fails does not fail either. -/
theorem repeatAtMost_orNone_ne_error {parser : Parse α} (k : Nat) :
    repeatAtMost (orNone parser) k s ≠ .error e m := by
  induction k generalizing s with
  | zero => exact nofun
  | succ k ih =>
    intro herror
    rcases bind_eq_error_iff.mp herror with herror | ⟨found, m', -, herror⟩
    · obtain ⟨found, m', hok⟩ := exists_orNone_eq_ok parser s
      rw [hok] at herror
      cases herror
    · cases found with
      | none => cases herror
      | some a =>
        rcases bind_eq_error_iff.mp herror with herror | ⟨rest, m'', -, herror⟩
        · exact ih herror
        · cases herror

end Parse

namespace OrderedChoice

/-- An error of a row of operands is one of the first of them. -/
theorem operands_eq_error_iff {operand : Parse (Operand α)} :
    operands operand s = .error e m ↔ operand s = .error e m := by
  rw [operands, Parse.sequence, bind_eq_error_iff]
  refine or_iff_left ?_
  rintro ⟨first, m', -, herror⟩
  rcases bind_eq_error_iff.mp herror with herror | ⟨rest, m'', -, herror⟩
  · exact repeatAtMost_orNone_ne_error m'.rest.length herror
  · cases herror

variable {alternatives : List (Parse α)} {conditions : List Token → α → Prop}

/-- No alternative for a condition succeeds where a group starts. -/
theorem firstOf_of_startsGroup (hleaf : ParsesFirst alternatives conditions)
    (hstart : StartsWithPath conditions) (hs : s.Ended) (h : s.current.StartsGroup) :
    firstOf alternatives s = .ok none s := by
  refine (firstOf_eq_none_or_some alternatives s).resolve_right ?_
  rintro ⟨a, m, hsome⟩
  obtain ⟨tokens, hover, ha⟩ := (hleaf hs).mp hsome
  exact (hstart.current ha hover).not_startsGroup h

/-- An error of an operand is one of what is nested in a group, or another token
was expected. -/
theorem operand_eq_error_iff {contents : Parse (Disjunction α)}
    (hleaf : ParsesFirst alternatives conditions) (hstart : StartsWithPath conditions)
    (hs : s.Ended) (he : ¬ e.IsMismatch) :
    operand alternatives contents s = .error e m ↔
      ∃ negated m', negation s = .ok negated m' ∧ contents m' = .error e m := by
  constructor
  · exact fun h => (group_eq_error_iff he).mp (group_of_operand_eq_error h)
  · rintro ⟨negated, m', hnegation, herror⟩
    have hnone := firstOf_of_startsGroup hleaf hstart hs (startsGroup_of_negation hnegation)
    exact firstOf_bind_eq_error_iff.mpr
      (.inl ⟨hnone, (group_eq_error_iff he).mpr ⟨negated, m', hnegation, herror⟩⟩)

section Combinations

variable {alternatives : Nat → List (Parse α)} {size : α → Nat} (hstart : StartsWithPath conditions)
  (hleaf : ∀ n, ParsesFirst (alternatives n) fun tokens a => conditions tokens a ∧ size a ≤ n)

include hstart hleaf

/-- An error of a combination is one of what is nested in the group that it
begins with, or another token was expected. -/
theorem combination_eq_error_iff (levels : Nat) (hs : s.Ended) (he : ¬ e.IsMismatch) :
    combination alternatives levels s = .error e m ↔ ∃ negated m',
      negation s = .ok negated m' ∧ nested (combination alternatives) levels m' = .error e m := by
  rw [combination_eq, operands_eq_error_iff,
    operand_eq_error_iff (hleaf levels) (hstart.and _) hs he]

/-- **A combination fails about its nesting where the groups that it begins with
are one too many**, and otherwise because another token was expected. -/
theorem exists_combination_eq_error_iff (levels : Nat) (hs : s.Ended) (he : ¬ e.IsMismatch) :
    (∃ m, combination alternatives levels s = .error e m) ↔
      ∃ m, s.OpenerAt (levels + 1) m ∧ e = .tooDeep (s.depth + levels) m.offset := by
  simp only [combination_eq_error_iff hstart hleaf levels hs he]
  -- What a group begins with is a combination with a level less.
  induction levels generalizing s with
  | zero =>
    show _ ↔ ∃ m, s.OpenerAt 1 m ∧ e = .tooDeep s.depth m.offset
    simp only [openerAt_one_iff]
    constructor
    · rintro ⟨m, negated, m', hnegation, herror⟩
      rw [nested, tooDeep, EStateM.Result.error.injEq] at herror
      obtain ⟨-, front, -, hover⟩ := negation_eq_ok_iff.mp hnegation
      exact ⟨m', ⟨negated, hnegation⟩, hover.depth_eq ▸ herror.1.symm⟩
    · rintro ⟨m, ⟨negated, hnegation⟩, rfl⟩
      obtain ⟨-, front, -, hover⟩ := negation_eq_ok_iff.mp hnegation
      exact ⟨m, negated, m, hnegation, by rw [nested, tooDeep, hover.depth_eq]⟩
  | succ levels ih =>
    have hgroup {negated : Bool} {m' : TokenStream} (hnegation : negation s = .ok negated m') :
        (∃ m, nested (combination alternatives) (levels + 1) m' = .error e m) ↔
          ∃ m, m'.next.OpenerAt (levels + 1) m ∧
            e = .tooDeep (s.depth + (levels + 1)) m.offset := by
      obtain ⟨-, front, -, hover⟩ := negation_eq_ok_iff.mp hnegation
      have hended : (m'.next.atDepth (m'.depth + 1)).Ended := (hs.over hover).next.atDepth _
      have hdepth : (m'.next.atDepth (m'.depth + 1)).depth + levels = s.depth + (levels + 1) := by
        show m'.depth + 1 + levels = _
        rw [hover.depth_eq]
        omega
      rw [nested]
      simp only [descend_bind, combination_eq_error_iff hstart hleaf levels hended he]
      rw [ih hended, hdepth]
      simp only [openerAt_atDepth]
      constructor
      · rintro ⟨_, ⟨m, hopener, rfl⟩, he⟩
        exact ⟨m, hopener, he⟩
      · rintro ⟨m, hopener, he⟩
        exact ⟨_, ⟨m, hopener, rfl⟩, he⟩
    simp only [openerAt_succ_iff]
    constructor
    · rintro ⟨m, negated, m', hnegation, herror⟩
      obtain ⟨m'', hopener, he⟩ := (hgroup hnegation).mp ⟨m, herror⟩
      exact ⟨m'', ⟨negated, m', hnegation, hopener⟩, he⟩
    · rintro ⟨m'', ⟨negated, m', hnegation, hopener⟩, he⟩
      obtain ⟨m, herror⟩ := (hgroup hnegation).mpr ⟨m'', hopener, he⟩
      exact ⟨m, negated, m', hnegation, herror⟩

end Combinations

/-- The end that has to come behind a filter raises no other errors. -/
theorem wholeFilter_eq_error_iff {levels : Nat} (hs : s.Ended) (he : ¬ e.IsMismatch) :
    (∃ m, wholeFilter levels s = .error e m) ↔
      ∃ m, s.OpenerAt (levels + 1) m ∧ e = .tooDeep (s.depth + levels) m.offset := by
  rw [← exists_combination_eq_error_iff Condition.startsWithPath parsesFirst_conditions levels hs
    he]
  refine exists_congr fun m => bind_eq_error_iff.trans (or_iff_left ?_)
  rintro ⟨f, m', -, herror⟩
  have hend := (onlyMismatch_require .eof).bind fun _ => onlyMismatch_pure f
  exact he (hend herror)

end OrderedChoice

/-! ## 4. Sessions -/

/-- A filter that is nested too deep is no answer, and neither is another one. -/
theorem Strategy.wholeFilter_ne_ok (strategy : Strategy) {levels : Nat} {filter filter' : Filter}
    (hs : s.Ended) (hwhole : s.Whole row) (hspells : Filter.Spells row filter)
    (hnesting : levels < filter.nesting) : strategy.wholeFilter levels s ≠ .ok filter' m := by
  intro hok
  obtain ⟨row', hwhole', hspells', hle⟩ := (strategy.wholeFilter_iff hs).mp ⟨m, hok⟩
  -- With more levels both of them would be answers.
  obtain ⟨m₁, h₁⟩ := (strategy.wholeFilter_iff hs).mpr
    ⟨row, hwhole, hspells, Nat.le_refl filter.nesting⟩
  have hle' : filter'.nesting ≤ filter.nesting := by omega
  obtain ⟨m₂, h₂⟩ := (strategy.wholeFilter_iff hs).mpr ⟨row', hwhole', hspells', hle'⟩
  rw [h₁] at h₂
  cases h₂
  omega

/-- The groups that the tokens begin with, as a place and as a number of
tokens. -/
theorem TokenStream.exists_openerAt_iff (htokens : EndsInEof tokens) :
    (∃ m, (ofTokens tokens).OpenerAt (n + 1) m ∧ m.offset = offset) ↔
      ∃ i, OpensGroups (n + 1) (firstTokens tokens (i + 1)) ∧
        (tokens[i]?).map Located.offset = some offset := by
  constructor
  · rintro ⟨m, ⟨front, hopens, hover, hcurrent⟩, rfl⟩
    obtain ⟨-, rfl⟩ := hover.firstTokens_eq htokens
    have hm : m.Within tokens 0 := (within_ofTokens htokens).over hover
    refine ⟨m.index, ?_, by rw [hm.getElem?_eq]; rfl⟩
    rw [firstTokens_succ hm.getElem?_eq, hcurrent]
    exact hopens
  · rintro ⟨i, hopens, hoffset⟩
    obtain ⟨entry, hentry, rfl⟩ := Option.map_eq_some_iff.mp hoffset
    rw [firstTokens_succ hentry] at hopens
    obtain ⟨front, hfront⟩ := hopens.exists_append
    obtain ⟨-, hparen⟩ := List.append_inj' hfront rfl
    obtain ⟨m, hover, rfl⟩ := exists_over_firstTokens htokens
      (List.getElem?_eq_some_iff.mp hentry).1
      fun token htoken => hopens.ne_eof token (List.mem_append_left _ htoken)
    have hm : m.Within tokens 0 := (within_ofTokens htokens).over hover
    rw [hm.getElem?_eq, Option.some.injEq] at hentry
    subst hentry
    exact ⟨m, ⟨_, hparen ▸ hopens, hover, List.singleton_inj.mp hparen⟩, rfl⟩

namespace ParseSession

/-- **Ordered choice finds the nesting too deep if the text begins with one group
more than the limit allows, and only then**, and says so with the limit and the
offset of the last of their parentheses. Of every other filter that is nested
deeper than the limit it says that another token was expected. -/
theorem filter_tooDeep_iff_opensGroups (session : ParseSession)
    (hstrategy : session.settings.strategy = .orderedChoice)
    (htokens : EndsInEof session.tokens) :
    (∀ depth offset, session.filter.1 = .error (.tooDeep depth offset) ↔
      depth = session.settings.nestingLimit ∧
        ∃ i, OpensGroups (session.settings.nestingLimit + 1) (firstTokens session.tokens (i + 1)) ∧
          (session.tokens[i]?).map Located.offset = some offset) ∧
    ∀ row filter, (ofTokens session.tokens).Whole row → Filter.Spells row filter →
      session.settings.nestingLimit < filter.nesting →
      (¬ ∃ i,
        OpensGroups (session.settings.nestingLimit + 1) (firstTokens session.tokens (i + 1))) →
      ∃ expected index offset found,
        session.filter.1 = .error (.mismatch expected index offset found) := by
  have hended : (ofTokens session.tokens).Ended := htokens
  have herror {e : ParseError} (he : ¬ e.IsMismatch) := (filter_eq_error_iff hstrategy).trans
    (OrderedChoice.wholeFilter_eq_error_iff hended he)
  have hiff (depth offset : Nat) : session.filter.1 = .error (.tooDeep depth offset) ↔
      depth = session.settings.nestingLimit ∧
        ∃ i, OpensGroups (session.settings.nestingLimit + 1) (firstTokens session.tokens (i + 1)) ∧
          (session.tokens[i]?).map Located.offset = some offset := by
    rw [herror id, ← exists_openerAt_iff htokens]
    have hstart : (ofTokens session.tokens).depth + session.settings.nestingLimit =
        session.settings.nestingLimit := Nat.zero_add _
    simp only [hstart, ParseError.tooDeep.injEq]
    constructor
    · rintro ⟨m, hopener, rfl, rfl⟩
      exact ⟨rfl, m, hopener, rfl⟩
    · rintro ⟨rfl, m, hopener, rfl⟩
      exact ⟨m, hopener, rfl, rfl⟩
  refine ⟨hiff, fun row filter hwhole hspells hnesting hno => ?_⟩
  cases hanswer : session.filter.1 with
  | ok filter' =>
    obtain ⟨m, hm⟩ := (filter_eq_ok_iff hstrategy).mp hanswer
    exact absurd hm (Strategy.wholeFilter_ne_ok _ hended hwhole hspells hnesting)
  | error e =>
    by_cases he : e.IsMismatch
    · cases e with
      | mismatch expected index offset found => exact ⟨expected, index, offset, found, rfl⟩
      | _ => exact he.elim
    · obtain ⟨m, hopener, -⟩ := (herror he).mp hanswer
      obtain ⟨i, hopens, -⟩ := (exists_openerAt_iff htokens).mp ⟨m, hopener, rfl⟩
      exact absurd ⟨i, hopens⟩ hno

/-- A session over the tokens of the filter, where one group may be open at
once. -/
def choiceSession (filter : Filter) : ParseSession :=
  let tokens := Token.locate 0 filter.tokens
  ⟨⟨.orderedChoice, 1⟩, tokens, .ofTokens tokens⟩

/-- The filter that is written `(a pr)`. -/
def groupFilter : Filter :=
  .one (.one (.group false (.one (.one (.leaf (.test (.present ⟨none, "a", none⟩)))))))

/-- The filter that is written `not ((a pr))`. -/
def openingFilter : Filter :=
  .one (.one (.group true groupFilter))

/-- The filter that is written `b pr and ((a pr))`. -/
def joinedFilter : Filter :=
  .one (.and (.leaf (.test (.present ⟨none, "b", none⟩))) (.one (.group false groupFilter)))

/-- Behind a connective the same groups are given back, and the end is missed in
front of it. -/
theorem filter_tooDeep_iff_opensGroups_joined :
    (choiceSession openingFilter).filter.1 = .error (.tooDeep 1 5) ∧
      (∃ i, OpensGroups 2 (firstTokens (choiceSession openingFilter).tokens (i + 1)) ∧
        ((choiceSession openingFilter).tokens[i]?).map Located.offset = some 5) ∧
      1 < joinedFilter.nesting ∧
      ∃ expected index offset found, (choiceSession joinedFilter).filter.1 =
        .error (.mismatch expected index offset found) := by
  have htooDeep : (choiceSession openingFilter).filter.1 = .error (.tooDeep 1 5) := rfl
  have hopening := filter_tooDeep_iff_opensGroups (choiceSession openingFilter) rfl rfl
  have hjoined := filter_tooDeep_iff_opensGroups (choiceSession joinedFilter) rfl rfl
  have hwhole : (ofTokens (Token.locate 0 joinedFilter.tokens)).Whole joinedFilter.tokens :=
    (whole_iff_of_rest rfl (by decide)).mpr rfl
  refine ⟨htooDeep, ((hopening.1 1 5).mp htooDeep).2, by decide,
    hjoined.2 _ joinedFilter hwhole joinedFilter.spells_tokens (by decide) ?_⟩
  rintro ⟨i, hopens⟩
  exact (show OpensGroups 2 (.attribute "b" :: _) from hopens).startsGroup

end ParseSession

end ScimQuery
