/-
ScimQuery.Proofs.ErrorOffsets — the strategies report their errors at
different places, and which of them reports further on.

Parsing by ordered choice gives back what it cannot finish. So when it fails
it stands where it could have stopped, in front of a connective, a condition
or a group, and reports that the end is missing there. Parsing that looks
ahead has committed to what follows and fails inside it.

`Trails first second s` says that from `s` the first parser stops where the
second one does or earlier, whatever they answer. It is carried through a
sequence of parsers (`Trails.bind`): once the first parser has gone ahead,
either the second one has done the same, or the first one cannot go on. The
latter is the case of a row of operands that stops in front of a space: no
closing mark is a space, and neither is the end.

That a successful parse by ordered choice is one by looking ahead is known
from what they parse (`Parses`, `ParsesUntil`). So only the failures are
compared here, construct by construct, and by induction on the levels of
nesting for combinations.
-/
import ScimQuery.Proofs.Acceptance
import ScimQuery.Proofs.Parsing.Advance
import ScimQuery.Proofs.Tiling

namespace ScimQuery

open TokenStream

variable {α β : Type} {s s' : TokenStream} {stops stops' : TokenStream → Prop}

/-- Two descriptions of the same contents differ in where they may stop, and
that does not count where no space follows. -/
theorem Encloses.ok_of_current_ne_space {contents contents' : Parse α}
    {grammar : List Token → α → Prop} (h : Encloses stops contents grammar)
    (h' : Encloses stops' contents' grammar) (hstops' : StopsAtMark stops') (hs : s.Ended) {a : α}
    (ha : contents s = .ok a s') (hspace : s'.current ≠ .space) : contents' s = .ok a s' := by
  obtain ⟨inner, hover, hinner, -⟩ := (h hs).mp ha
  exact (h' hs).mpr ⟨inner, hover, hinner, hstops' hspace⟩

namespace Parse

/-! ## 1. Where a parser stops -/

/-- The stream where the parser stops, whichever way it ends. -/
def stop (parser : Parse α) (s : TokenStream) : TokenStream :=
  match parser s with
  | .ok _ m => m
  | .error _ m => m

theorem stop_of_ok {parser : Parse α} {a : α} (h : parser s = .ok a s') : stop parser s = s' := by
  simp only [stop, h]

theorem stop_of_error {parser : Parse α} {e : ParseError} (h : parser s = .error e s') :
    stop parser s = s' := by
  simp only [stop, h]

theorem Advances.leadsTo_stop {parser : Parse α} (h : Advances parser) (s : TokenStream) :
    s.LeadsTo (stop parser s) := by
  cases hparser : parser s with
  | ok a m => exact stop_of_ok hparser ▸ h.ok hparser
  | error e m => exact stop_of_error hparser ▸ (h.error hparser).1

theorem stop_bind_of_ok {parser : Parse α} {next : α → Parse β} {a : α}
    (h : parser s = .ok a s') : stop (parser >>= next) s = stop (next a) s' := by
  simp only [stop, bind, EStateM.bind, h]

theorem stop_bind_of_error {parser : Parse α} {next : α → Parse β} {e : ParseError}
    (h : parser s = .error e s') : stop (parser >>= next) s = s' :=
  stop_of_error (bind_eq_error_iff.mpr (.inl h))

/-- What comes behind a parser stops behind it. -/
theorem leadsTo_stop_bind (parser : Parse α) {next : α → Parse β}
    (hnext : ∀ a, Advances (next a)) (s : TokenStream) :
    (stop parser s).LeadsTo (stop (parser >>= next) s) := by
  cases hparser : parser s with
  | ok a m =>
    rw [stop_of_ok hparser, stop_bind_of_ok hparser]
    exact (hnext a).leadsTo_stop m
  | error e m =>
    rw [stop_of_error hparser, stop_bind_of_error hparser]
    exact .refl m

theorem ensure_of_ne {token : Token} (h : s.current ≠ token) :
    ∃ e, ensure token s = .error e s :=
  ⟨_, ensure_eq_error_iff.mpr ⟨h, rfl, rfl⟩⟩

theorem require_of_ne {token : Token} (h : s.current ≠ token) :
    ∃ e, require token s = .error e s := by
  obtain ⟨e, he⟩ := ensure_of_ne h
  exact ⟨e, require_eq_error_iff.mpr he⟩

theorem ascend_of_ne {closing : Token} (h : s.current ≠ closing) :
    ∃ e, ascend closing s = .error e s := by
  obtain ⟨e, he⟩ := ensure_of_ne h
  exact ⟨e, ascend_eq_error_iff.mpr he⟩

theorem exists_orNone_eq_ok (parser : Parse α) (s : TokenStream) :
    ∃ found m, orNone parser s = .ok found m := by
  unfold orNone
  cases parser s <;> exact ⟨_, _, rfl⟩

/-- Where no group starts there is nothing in front of one either. -/
theorem negation_of_not_startsGroup (h : ¬ s.current.StartsGroup) :
    ∃ e, negation s = .error e s := by
  have hnegation : s.current ≠ .keyword .negation := fun heq => h (heq ▸ trivial)
  have hopen : s.current ≠ .openParen := fun heq => h (heq ▸ trivial)
  obtain ⟨e, he⟩ := ensure_of_ne hopen
  refine ⟨e, ?_⟩
  rw [negation, accept_bind, if_neg hnegation]
  exact bind_eq_error_iff.mpr (.inl he)

/-! ## 2. A parser that trails another one -/

/-- From this stream the first parser stops where the second one does, or
earlier. -/
def Trails (first second : Parse α) (s : TokenStream) : Prop :=
  (stop first s).LeadsTo (stop second s)

theorem Trails.refl (parser : Parse α) (s : TokenStream) : Trails parser parser s :=
  LeadsTo.refl _

/-- Parsers that have gone the same way trail each other. -/
theorem Trails.of_ok {first second : Parse α} {a : α} (h : first s = .ok a s')
    (h' : second s = .ok a s') : Trails first second s := by
  rw [Trails, stop_of_ok h, stop_of_ok h']
  exact .refl s'

/-- A parser that does not move trails every other one. -/
theorem Trails.of_stop_eq {first second : Parse α} (h : stop first s = s)
    (hadvances : Advances second) : Trails first second s := by
  rw [Trails, h]
  exact hadvances.leadsTo_stop s

/-- If the first parser goes ahead, the second one does the same, or the
first one does not get any further. -/
theorem Trails.bind {first second : Parse α} {next next' : α → Parse β}
    (h : Trails first second s) (hnext : ∀ a, Advances (next' a))
    (hok : ∀ {a m}, first s = .ok a m →
      second s = .ok a m ∧ Trails (next a) (next' a) m ∨ stop (next a) m = m) :
    Trails (first >>= next) (second >>= next') s := by
  -- Wherever the first one stops at once, the second one is there or further on.
  have hstuck (hstop : stop (first >>= next) s = stop first s) :
      Trails (first >>= next) (second >>= next') s := by
    unfold Trails at h ⊢
    rw [hstop]
    exact h.trans (leadsTo_stop_bind second hnext s)
  cases hfirst : first s with
  | ok a m =>
    rcases hok hfirst with ⟨hsecond, htrails⟩ | hstop
    · unfold Trails
      rw [stop_bind_of_ok hfirst, stop_bind_of_ok hsecond]
      exact htrails
    · exact hstuck (by rw [stop_bind_of_ok hfirst, stop_of_ok hfirst, hstop])
  | error e m => exact hstuck (by rw [stop_bind_of_error hfirst, stop_of_error hfirst])

/-- What is done with the results has no part in it. -/
theorem Trails.bind_pure {first second : Parse α} (h : Trails first second s) (f : α → β) :
    Trails (first >>= fun a => pure (f a)) (second >>= fun a => pure (f a)) s :=
  h.bind (fun a => advances_pure (f a)) fun _ => .inr rfl

/-- Behind the same start, one trails the other if it does from there on. -/
theorem Trails.bind_left {parser : Parse α} {next next' : α → Parse β}
    (hnext : ∀ a, Advances (next' a))
    (h : ∀ {a m}, parser s = .ok a m → Trails (next a) (next' a) m) :
    Trails (parser >>= next) (parser >>= next') s :=
  (Trails.refl parser s).bind hnext fun ha => .inl ⟨ha, h ha⟩

theorem trails_nested {contents contents' : Nat → Parse α} {levels : Nat}
    (h : ∀ n < levels, Trails (contents n) (contents' n) (s.next.atDepth (s.depth + 1))) :
    Trails (nested contents levels) (nested contents' levels) s := by
  cases levels with
  | zero => exact .refl tooDeep s
  | succ n => exact h n (Nat.lt_succ_self n)

/-! ## 3. Groups and rows of operands -/

theorem trails_group {contents contents' : Parse (Disjunction α)}
    {grammar : List Token → Disjunction α → Prop} (h : Encloses stops contents grammar)
    (h' : Encloses stops' contents' grammar) (hstops' : StopsAtMark stops')
    (hadvances : Advances contents')
    (htrails : ∀ m : TokenStream, m.Ended → Trails contents contents' m) (hs : s.Ended) :
    Trails (group contents) (group contents') s := by
  refine Trails.bind_left (fun _ => hadvances.bind (advances_closing _)) fun {negated m} hm => ?_
  obtain ⟨-, front, -, hfront⟩ := negation_eq_ok_iff.mp hm
  have hended : m.Ended := hs.over hfront
  refine (htrails m hended).bind (advances_closing _) fun {d n} hd => ?_
  -- A space would have stopped the first contents only, and it closes no group.
  by_cases hclose : n.current = .closeParen
  · have hspace : n.current ≠ .space := by rw [hclose]; decide
    exact .inl ⟨h.ok_of_current_ne_space h' hstops' hended hd hspace, .refl _ n⟩
  · obtain ⟨e, he⟩ := ascend_of_ne hclose
    exact .inr (stop_bind_of_error he)

section Steps

variable {step step' : Parse (Option (Connective × Operand α))}
  {grammar : List Token → Operand α → Prop} (h : Steps stops step grammar)
  (h' : Steps stops' step' grammar) (hfound : ∀ s, ∃ found m, step s = .ok found m)
  (hadvances : Advances step')

include h h' hfound hadvances

/-- A step that never fails stops earlier than one that may: what it finds the
other one finds as well, and where it finds nothing it does not move. -/
theorem trails_step (hs : s.Ended) : Trails step step' s := by
  obtain ⟨found, m, hm⟩ := hfound s
  cases found with
  | none =>
    obtain ⟨rfl, -⟩ := (h.none_iff hs).mp hm
    exact .of_stop_eq (stop_of_ok hm) hadvances
  | some pair => exact .of_ok hm ((h'.some_iff hs).mpr ((h.some_iff hs).mp hm))

theorem trails_repeatAtMost (hs : s.Ended) (n : Nat) :
    Trails (repeatAtMost step n) (repeatAtMost step' n) s := by
  induction n generalizing s with
  | zero => exact .refl _ s
  | succ n ih =>
    refine (trails_step h h' hfound hadvances hs).bind (fun found => ?_) fun {found m} hm => ?_
    · cases found with
      | none => exact advances_pure []
      | some pair => exact (advances_repeatAtMost hadvances n).bind fun _ => advances_pure _
    · cases found with
      | none => exact .inr rfl
      | some pair =>
        have hfront := (h.some_iff hs).mp hm
        refine .inl ⟨(h'.some_iff hs).mpr hfront, ?_⟩
        obtain ⟨tokens, hover, -⟩ := hfront
        exact (ih (hs.over hover)).bind_pure _

theorem trails_sequence {operand operand' : Parse (Operand α)} (hoperand : Parses operand grammar)
    (hoperand' : Parses operand' grammar) (htrails : Trails operand operand' s) (hs : s.Ended) :
    Trails (sequence operand step) (sequence operand' step') s := by
  refine htrails.bind (fun _ => hadvances.repeated.bind fun _ => advances_pure _) ?_
  intro first m hm
  have hfront := (hoperand hs).mp hm
  refine .inl ⟨(hoperand' hs).mpr hfront, ?_⟩
  obtain ⟨tokens, hover, -⟩ := hfront
  have hrepeated : Trails (repeated step) (repeated step') m :=
    trails_repeatAtMost h h' hfound hadvances (hs.over hover) _
  exact hrepeated.bind_pure _

end Steps

end Parse

open Parse

/-! ## 4. The two strategies -/

/-- What starts like a group is parsed as one by looking ahead. -/
theorem Lookahead.operand_of_startsGroup {leaf : Parse α} {contents : Parse (Disjunction α)}
    (h : s.current.StartsGroup) : operand leaf contents s = group contents s := by
  rw [operand, current_bind]
  generalize s.current = token at h
  cases token with
  | openParen => rfl
  | keyword keyword =>
    cases keyword with
    | negation => rfl
    | _ => exact h.elim
  | _ => exact h.elim

/-- When ordered choice fails, a group was the last that it tried. -/
theorem OrderedChoice.group_of_operand_eq_error {alternatives : List (Parse α)}
    {contents : Parse (Disjunction α)} {e : ParseError}
    (h : operand alternatives contents s = .error e s') : group contents s = .error e s' := by
  rcases firstOf_bind_eq_error_iff.mp h with ⟨-, herror⟩ | ⟨a, m, -, herror⟩
  · exact herror
  · cases herror

/-- An operand that starts with no group is refused by ordered choice where it
starts, since no alternative is left then but a group. -/
theorem trails_operand {alternatives : List (Parse α)} {leaf : Parse α}
    {contents contents' : Parse (Disjunction α)} {operands : List Token → Operand α → Prop}
    {grammar : List Token → Disjunction α → Prop}
    (hoperand : Parses (OrderedChoice.operand alternatives contents) operands)
    (hoperand' : Parses (Lookahead.operand leaf contents') operands)
    (h : Encloses stops contents grammar) (h' : Encloses stops' contents' grammar)
    (hstops' : StopsAtMark stops') (hleaf : Advances leaf) (hadvances : Advances contents')
    (htrails : ∀ m : TokenStream, m.Ended → Trails contents contents' m) (hs : s.Ended) :
    Trails (OrderedChoice.operand alternatives contents) (Lookahead.operand leaf contents') s := by
  cases hchoice : OrderedChoice.operand alternatives contents s with
  | ok o m => exact .of_ok hchoice ((hoperand' hs).mpr ((hoperand hs).mp hchoice))
  | error e m =>
    -- The error is that of the group, the last alternative: both strategies open
    -- one here, or there is none to be opened.
    have hgroup := OrderedChoice.group_of_operand_eq_error hchoice
    by_cases hstarts : s.current.StartsGroup
    · have hgroups := trails_group h h' hstops' hadvances htrails hs
      unfold Trails stop at hgroups ⊢
      rwa [hchoice, Lookahead.operand_of_startsGroup hstarts, ← hgroup]
    · obtain ⟨e', he'⟩ := negation_of_not_startsGroup hstarts
      have hstop : stop (OrderedChoice.operand alternatives contents) s = s := by
        rw [stop_of_error hchoice, ← stop_of_error hgroup, group, stop_bind_of_error he']
      exact .of_stop_eq hstop (Lookahead.advances_operand hleaf hadvances)

/-- **A combination parsed by ordered choice trails the one parsed by looking
ahead**, if they are combinations of the same conditions. -/
theorem trails_combination {alternatives : Nat → List (Parse α)} {leaf : Nat → Parse α}
    {conditions : List Token → α → Prop} {size : α → Nat} (hstart : StartsWithPath conditions)
    (hfirst : ∀ n, OrderedChoice.ParsesFirst (alternatives n)
      fun tokens a => conditions tokens a ∧ size a ≤ n)
    (hleaf : ∀ n, Parses (leaf n) fun tokens a => conditions tokens a ∧ size a ≤ n)
    (hadvances : ∀ n, Advances (leaf n)) (levels : Nat) (hs : s.Ended) :
    Trails (OrderedChoice.combination alternatives levels)
      (Lookahead.combination leaf levels) s := by
  -- What stands in a group is a combination with a level less.
  induction levels using Nat.strongRecOn generalizing s with
  | ind levels ih =>
    obtain ⟨stops, hstops, hcontents⟩ := exists_encloses_nested fun n (_ : n < levels) =>
      OrderedChoice.parsesUntil_combination hstart hfirst n
    have hcontents' : Encloses Lookahead.AtMark (nested (Lookahead.combination leaf) levels)
        (Disjunction.SpellsBelow conditions size levels) :=
      encloses_nested fun n _ => Lookahead.parsesUntil_combination hstart hleaf n
    have hoperand := (OrderedChoice.parses_operand (hfirst levels) (hstart.and _) hcontents
      hstops).operandWithin
    have hoperand' := (Lookahead.parses_operand (hleaf levels) (hstart.and _) hcontents'
      Lookahead.stopsAtMark_atMark).operandWithin
    have hnested : Advances (nested (Lookahead.combination leaf) levels) :=
      advances_nested (Lookahead.advances_combination hadvances) levels
    have htrails (m : TokenStream) (hm : m.Ended) :
        Trails (nested (OrderedChoice.combination alternatives) levels)
          (nested (Lookahead.combination leaf) levels) m :=
      trails_nested fun n hn => ih n hn (hm.next.atDepth _)
    rw [OrderedChoice.combination_eq, Lookahead.combination_eq]
    exact trails_sequence (OrderedChoice.steps_continuation hoperand)
      (Lookahead.steps_continuation hoperand') (exists_orNone_eq_ok _)
      (Lookahead.advances_continuation (Lookahead.advances_operand (hadvances levels) hnested))
      hoperand hoperand'
      (trails_operand hoperand hoperand' hcontents hcontents' Lookahead.stopsAtMark_atMark
        (hadvances levels) hnested htrails hs) hs

/-- **A filter parsed by ordered choice trails the one parsed by looking
ahead.** -/
theorem trails_wholeFilter (levels : Nat) (hs : s.Ended) :
    Trails (OrderedChoice.wholeFilter levels) (Lookahead.wholeFilter levels) s := by
  have hfilter : Trails (OrderedChoice.filter levels) (Lookahead.filter levels) s :=
    trails_combination Condition.startsWithPath OrderedChoice.parsesFirst_conditions
      Lookahead.parses_condition Lookahead.advances_condition levels hs
  obtain ⟨stops, -, hchoice⟩ := OrderedChoice.parsesUntil_filter levels
  refine hfilter.bind (fun _ => (advances_require .eof).bind fun _ => advances_pure _) ?_
  intro filter m hm
  by_cases heof : m.current = .eof
  · obtain ⟨tokens, hover, hspells, -⟩ := (hchoice hs).mp hm
    have hmark : Lookahead.AtMark m := by
      rw [Lookahead.AtMark, heof]
      decide
    exact .inl ⟨(Lookahead.parsesUntil_filter levels hs).mpr ⟨tokens, hover, hspells, hmark⟩,
      .refl _ m⟩
  · obtain ⟨e, he⟩ := require_of_ne heof
    exact .inr (stop_bind_of_error he)

/-- Errors are reported where the parsers stop, so their offsets are in the
order of the places. -/
theorem offset_le_of_wholeFilter {levels : Nat} {e e' : ParseError} {m m' : TokenStream}
    (hs : s.Ended) (hsorted : s.rest.Pairwise (·.offset ≤ ·.offset))
    (h : OrderedChoice.wholeFilter levels s = .error e m)
    (h' : Lookahead.wholeFilter levels s = .error e' m') : e.offset ≤ e'.offset := by
  obtain ⟨hleads, hoffset⟩ := (OrderedChoice.advances_wholeFilter levels).error h
  obtain ⟨-, hoffset'⟩ := (Lookahead.advances_wholeFilter levels).error h'
  have htrails := trails_wholeFilter levels hs
  rw [Trails, stop_of_error h, stop_of_error h'] at htrails
  rw [hoffset, hoffset']
  exact htrails.offset_le (hsorted.sublist hleads.suffix.sublist)

/-! ## 5. Texts -/

theorem Token.le_offset_of_mem_locate {tokens : List Token} {offset : Nat} {entry : Located}
    (h : entry ∈ locate offset tokens) : offset ≤ entry.offset := by
  obtain ⟨front, back, hsplit⟩ := List.append_of_mem h
  rw [offset_of_locate hsplit]
  exact Nat.le_add_right _ _

/-- Offsets do not fall along the tokens of a text. -/
theorem Token.pairwise_offset_locate (offset : Nat) (tokens : List Token) :
    (locate offset tokens).Pairwise (·.offset ≤ ·.offset) := by
  induction tokens generalizing offset with
  | nil => exact List.pairwise_singleton _ _
  | cons token rest ih =>
    refine List.pairwise_cons.mpr ⟨fun entry hentry => ?_, ih _⟩
    have := le_offset_of_mem_locate hentry
    exact Nat.le_trans (Nat.le_add_right _ _) this

namespace ParseSession

variable {session : ParseSession} {strategy : Strategy}

/-- The answers of a session are those of its strategy at the first token. -/
theorem filter_eq_ok_iff (hstrategy : session.settings.strategy = strategy) {filter : Filter} :
    session.filter.1 = .ok filter ↔ ∃ m,
      strategy.wholeFilter session.settings.nestingLimit (ofTokens session.tokens) =
        .ok filter m := by
  rw [ParseSession.filter, run_eq_ok_iff, hstrategy]
  rfl

theorem filter_eq_error_iff (hstrategy : session.settings.strategy = strategy) {e : ParseError} :
    session.filter.1 = .error e ↔ ∃ m,
      strategy.wholeFilter session.settings.nestingLimit (ofTokens session.tokens) =
        .error e m := by
  rw [ParseSession.filter, run_eq_error_iff, hstrategy]
  rfl

end ParseSession

/-- **Ordered choice reports its error no further on than looking ahead**: on
every text and within every limit, either both strategies answer with the same
filter, or both fail, and the error of ordered choice has the lesser offset or
the same one, whichever kinds the errors are of. -/
theorem Filter.offset_orderedChoice_le (text : String) (limit : Nat) :
    (∃ filter, ∀ strategy, Filter.ofText text ⟨strategy, limit⟩ = .ok filter) ∨
      ∃ e e', Filter.ofText text ⟨.orderedChoice, limit⟩ = .error e ∧
        Filter.ofText text ⟨.lookahead, limit⟩ = .error e' ∧ e.offset ≤ e'.offset := by
  cases htokens : Token.ofText text with
  | error error =>
    exact .inr ⟨_, _, ofText_of_error htokens _, ofText_of_error htokens _, Nat.le_refl _⟩
  | ok located =>
    obtain ⟨row, -, -, rfl⟩ := Token.ofText_eq_ok_iff.mp htokens
    cases hchoice : Filter.ofText text ⟨.orderedChoice, limit⟩ with
    | ok filter =>
      refine .inl ⟨filter, fun strategy => ?_⟩
      rw [ofText_eq_ok_iff] at hchoice ⊢
      exact hchoice
    | error e =>
      cases hlookahead : Filter.ofText text ⟨.lookahead, limit⟩ with
      | ok filter =>
        have hok : Filter.ofText text ⟨.orderedChoice, limit⟩ = .ok filter := by
          rw [ofText_eq_ok_iff] at hlookahead ⊢
          exact hlookahead
        rw [hchoice] at hok
        cases hok
      | error e' =>
        simp only [Filter.ofText, ParseSession.ofText, htokens] at hchoice hlookahead
        obtain ⟨m, hm⟩ := ParseSession.run_eq_error_iff.mp hchoice
        obtain ⟨m', hm'⟩ := ParseSession.run_eq_error_iff.mp hlookahead
        exact .inr ⟨e, e', rfl, rfl, offset_le_of_wholeFilter (ended_ofTokens_locate row)
          (Token.pairwise_offset_locate 0 row) hm hm'⟩

/-- Ordered choice gives the connective back and misses the end behind the
first operand; looking ahead reports the second parenthesis, which is one too
many. -/
example :
    (Filter.ofText "a pr and ((b pr))" ⟨.orderedChoice, 1⟩).map (fun _ => ()) =
      .error (.mismatch (.token .eof) 3 4 .space) ∧
    (Filter.ofText "a pr and ((b pr))" ⟨.lookahead, 1⟩).map (fun _ => ()) =
      .error (.tooDeep 1 10) := by
  decide +kernel

end ScimQuery
