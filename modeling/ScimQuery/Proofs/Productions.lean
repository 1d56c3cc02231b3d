/-
ScimQuery.Proofs.Productions — what every production of both strategies leaves
behind.

A production is run at a place of a list of tokens, with the levels of nesting
that are left there, and it has two ways out (`Exits`). Whichever it takes, it
leaves the stream on one of the tokens and within the limit. With a result, it
has gone on by one token or more, the parentheses and brackets that it has
passed come in pairs, and the depth is the one it was run at. A group or a
bracket around it takes one level of nesting and gives it back (`Enters`). That
a production stays at a place is the invariant of Proofs.Parsing.Place; the rest
is read off the rows that the results are spelled with.

A filter is an operand and a loop over the operands behind it (`filter_eq`,
`valueFilter_eq`). The loop is run for as many turns as there are tokens, and
that bound is never what ends it. `Runs` is the loop without a bound, and it
comes to the same end (`runs_iff`), since every turn takes a token.
-/
import ScimQuery.Parsing
import ScimQuery.Proofs.Balance
import ScimQuery.Proofs.Parsing.Place

namespace ScimQuery

open TokenStream Parse

variable {α : Type} {s m : TokenStream} {tokens : List Located} {limit : Nat}

/-! ## 1. The productions -/

namespace Strategy

/-- An operand in brackets. -/
def valueOperand (strategy : Strategy) (levels : Nat) : Parse (Operand AttributeTest) :=
  match strategy with
  | .lookahead => Lookahead.operand attributeTest (nested Lookahead.valueFilter levels)
  | .orderedChoice =>
    OrderedChoice.operand [attributeTest] (nested OrderedChoice.valueFilter levels)

/-- A filter in brackets. -/
def valueFilter (strategy : Strategy) (levels : Nat) : Parse ValueFilter :=
  match strategy with
  | .lookahead => Lookahead.valueFilter levels
  | .orderedChoice => OrderedChoice.valueFilter levels

/-- An operand of a filter. -/
def operand (strategy : Strategy) (levels : Nat) : Parse (Operand Condition) :=
  match strategy with
  | .lookahead => Lookahead.operand (Lookahead.condition levels) (nested Lookahead.filter levels)
  | .orderedChoice =>
    OrderedChoice.operand (OrderedChoice.conditions levels) (nested OrderedChoice.filter levels)

/-- A filter, up to where the strategy stops. -/
def filter (strategy : Strategy) (levels : Nat) : Parse Filter :=
  match strategy with
  | .lookahead => Lookahead.filter levels
  | .orderedChoice => OrderedChoice.filter levels

/-- One more operand and the connective in front of it, if there is one. -/
def continuation (strategy : Strategy) (operand : Parse (Operand α)) :
    Parse (Option (Connective × Operand α)) :=
  match strategy with
  | .lookahead => Lookahead.continuation operand
  | .orderedChoice => orNone (OrderedChoice.continuation operand)

/-- A filter in brackets is an operand and a loop. -/
theorem valueFilter_eq (strategy : Strategy) (levels : Nat) :
    strategy.valueFilter levels =
      sequence (strategy.valueOperand levels)
        (strategy.continuation (strategy.valueOperand levels)) := by
  cases strategy with
  | lookahead => exact Lookahead.combination_eq _ levels
  | orderedChoice => exact OrderedChoice.combination_eq _ levels

/-- A filter is an operand and a loop. -/
theorem filter_eq (strategy : Strategy) (levels : Nat) :
    strategy.filter levels =
      sequence (strategy.operand levels) (strategy.continuation (strategy.operand levels)) := by
  cases strategy with
  | lookahead => exact Lookahead.combination_eq _ levels
  | orderedChoice => exact OrderedChoice.combination_eq _ levels

/-- The productions of the grammar, each as a parser for the levels of nesting
that are left. -/
inductive Production (strategy : Strategy) : {α : Type} → (Nat → Parse α) → Prop where
  | filter : Production strategy strategy.filter
  | operand : Production strategy strategy.operand
  | valuePath : Production strategy fun levels => valuePath (nested strategy.valueFilter levels)
  /-- Filtered values behind their attribute path. -/
  | valuesOf (path : AttributePath) :
      Production strategy fun levels => valuesOf (nested strategy.valueFilter levels) path
  | valueFilter : Production strategy strategy.valueFilter
  | valueOperand : Production strategy strategy.valueOperand
  | attributeTest : Production strategy fun _ => attributeTest
  /-- A test behind its attribute path. -/
  | testOf (path : AttributePath) : Production strategy fun _ => testOf path
  | attributePath : Production strategy fun _ => attributePath

/-- The steps that are repeated. -/
inductive Repetition (strategy : Strategy) :
    {α : Type} → (Nat → Parse (Option (Connective × Operand α))) → Prop where
  | filter : Repetition strategy fun levels => strategy.continuation (strategy.operand levels)
  | valueFilter :
      Repetition strategy fun levels => strategy.continuation (strategy.valueOperand levels)

end Strategy

/-! ## 2. What a production goes over -/

/-- Where the parser gives a result, it has gone over a row of tokens that is
not empty, and whose parentheses and brackets come in pairs. -/
def Parse.GoesOver (parser : Parse α) : Prop :=
  ∀ ⦃s a m⦄, s.Ended → parser s = .ok a m →
    ∃ row, s.Over row m ∧ row ≠ [] ∧ Token.Balanced row

theorem Parses.goesOver {parser : Parse α} {grammar : List Token → α → Prop}
    (h : Parses parser grammar)
    (hrow : ∀ {row a}, grammar row a → row ≠ [] ∧ Token.Balanced row) : GoesOver parser := by
  intro s a m hs hok
  obtain ⟨row, hover, ha⟩ := (h hs).mp hok
  exact ⟨row, hover, hrow ha⟩

theorem ParsesUntil.goesOver {stops : TokenStream → Prop} {parser : Parse α}
    {grammar : List Token → α → Prop} (h : ParsesUntil stops parser grammar)
    (hrow : ∀ {row a}, grammar row a → row ≠ [] ∧ Token.Balanced row) : GoesOver parser := by
  intro s a m hs hok
  obtain ⟨row, hover, ha, -⟩ := (h hs).mp hok
  exact ⟨row, hover, hrow ha⟩

theorem AttributePath.tokens_ne_nil (path : AttributePath) : path.tokens ≠ [] := by
  obtain ⟨token, rest, h, -⟩ := path.tokens_startsPath []
  rw [List.append_nil] at h
  exact h ▸ List.cons_ne_nil token rest

theorem AttributeTest.tail_ne_nil (test : AttributeTest) : test.tail ≠ [] := by
  cases test <;> exact List.cons_ne_nil _ _

/-- The rows of combinations are neither empty nor out of balance if the rows
of the conditions are not. -/
theorem rowProperty_goesOver {leaf : List Token → α → Prop} (hstart : StartsWithPath leaf)
    (h : ∀ {row a}, leaf row a → Token.Balanced row) :
    RowProperty leaf fun row => row ≠ [] ∧ Token.Balanced row := by
  have hbalanced : RowProperty leaf Token.Balanced := rowProperty_balanced h
  refine ⟨fun ha => ?_, fun connective hfront hrest => ⟨by simp [Connective.tokens], ?_⟩,
    fun hopens hinner => ⟨by simp, hbalanced.group hopens hinner.2⟩⟩
  · obtain ⟨token, rest, hrow, -⟩ := hstart ha
    exact ⟨hrow ▸ List.cons_ne_nil token rest, hbalanced.leaf ha⟩
  · exact hbalanced.join connective hfront.2 hrest.2

theorem rowProperty_test :
    RowProperty AttributeTest.Spells fun row => row ≠ [] ∧ Token.Balanced row :=
  rowProperty_goesOver AttributeTest.startsWithPath AttributeTest.balanced_of_spells

theorem rowProperty_condition :
    RowProperty Condition.Spells fun row => row ≠ [] ∧ Token.Balanced row :=
  rowProperty_goesOver Condition.startsWithPath Condition.balanced_of_spells

namespace Strategy

/-- An operand in brackets is parsed over its tokens. -/
theorem parses_valueOperand (strategy : Strategy) (levels : Nat) :
    Parses (strategy.valueOperand levels)
      (Operand.SpellsWithin AttributeTest.Spells (fun _ => 0) levels) := by
  cases strategy with
  | lookahead =>
    exact Lookahead.parses_operandOf AttributeTest.startsWithPath Lookahead.parses_valueTest levels
  | orderedChoice =>
    exact OrderedChoice.parses_operandOf AttributeTest.startsWithPath
      OrderedChoice.parsesFirst_valueTest levels

/-- An operand of a filter is parsed over its tokens. -/
theorem parses_operand (strategy : Strategy) (levels : Nat) :
    Parses (strategy.operand levels)
      (Operand.SpellsWithin Condition.Spells Condition.nesting levels) := by
  cases strategy with
  | lookahead =>
    exact Lookahead.parses_operandOf Condition.startsWithPath Lookahead.parses_condition levels
  | orderedChoice =>
    exact OrderedChoice.parses_operandOf Condition.startsWithPath
      OrderedChoice.parsesFirst_conditions levels

/-- A filter in brackets, up to a place that depends on the strategy. -/
theorem parsesUntil_valueFilter (strategy : Strategy) (levels : Nat) :
    ∃ stops, StopsAtMark stops ∧ ParsesUntil stops (strategy.valueFilter levels)
      (Disjunction.SpellsWithin AttributeTest.Spells (fun _ => 0) levels) := by
  cases strategy with
  | lookahead =>
    exact ⟨_, Lookahead.stopsAtMark_atMark, Lookahead.parsesUntil_valueFilter levels⟩
  | orderedChoice => exact OrderedChoice.parsesUntil_valueFilter levels

/-- A filter, up to a place that depends on the strategy. -/
theorem parsesUntil_filter (strategy : Strategy) (levels : Nat) :
    ∃ stops, StopsAtMark stops ∧ ParsesUntil stops (strategy.filter levels)
      (Disjunction.SpellsWithin Condition.Spells Condition.nesting levels) := by
  cases strategy with
  | lookahead => exact ⟨_, Lookahead.stopsAtMark_atMark, Lookahead.parsesUntil_filter levels⟩
  | orderedChoice => exact OrderedChoice.parsesUntil_filter levels

/-- A step of a loop finds a connective and an operand, or it stays where it
is. -/
theorem steps_continuation (strategy : Strategy) {operand : Parse (Operand α)}
    {grammar : List Token → Operand α → Prop} (h : Parses operand grammar) :
    ∃ stops, Steps stops (strategy.continuation operand) grammar := by
  cases strategy with
  | lookahead => exact ⟨_, Lookahead.steps_continuation h⟩
  | orderedChoice => exact ⟨_, OrderedChoice.steps_continuation h⟩

/-- What stands in brackets. -/
theorem exists_encloses_valueFilter (strategy : Strategy) (levels : Nat) :
    ∃ stops, StopsAtMark stops ∧
      Encloses stops (nested strategy.valueFilter levels) (FilterBelow levels) :=
  exists_encloses_nested fun n _ => strategy.parsesUntil_valueFilter n

/-- **Every production goes over a row** that is not empty and balanced. -/
theorem Production.goesOver {strategy : Strategy} {production : Nat → Parse α}
    (h : strategy.Production production) (levels : Nat) : GoesOver (production levels) := by
  cases h with
  | filter =>
    obtain ⟨stops, -, hfilter⟩ := strategy.parsesUntil_filter levels
    exact hfilter.goesOver fun ha => ha.1.row rowProperty_condition
  | operand =>
    exact (strategy.parses_operand levels).goesOver fun ha => ha.1.row rowProperty_condition
  | valuePath =>
    obtain ⟨stops, hstops, hcontents⟩ := strategy.exists_encloses_valueFilter levels
    refine (parses_valuePath hcontents hstops).goesOver fun {row v} ha => ?_
    obtain ⟨inner, hinner, rfl⟩ := ha
    exact ⟨by simp, balanced_bracketed v.path (hinner.1.row rowProperty_test).2⟩
  | valuesOf path =>
    intro s v m hs hok
    obtain ⟨stops, hstops, hcontents⟩ := strategy.exists_encloses_valueFilter levels
    obtain ⟨-, inner, hinner, hover⟩ := (valuesOf_eq_ok_iff hcontents hstops hs).mp hok
    exact ⟨_, hover, List.cons_ne_nil _ _, (hinner.1.row rowProperty_test).2.bracket⟩
  | valueFilter =>
    obtain ⟨stops, -, hfilter⟩ := strategy.parsesUntil_valueFilter levels
    exact hfilter.goesOver fun ha => ha.1.row rowProperty_test
  | valueOperand =>
    exact (strategy.parses_valueOperand levels).goesOver fun ha => ha.1.row rowProperty_test
  | attributeTest => exact parses_attributeTest.goesOver rowProperty_test.leaf
  | testOf path =>
    intro s test m hs hok
    exact ⟨_, (testOf_eq_ok_iff.mp hok).2, test.tail_ne_nil, test.balanced_tail⟩
  | attributePath =>
    intro s path m hs hok
    exact ⟨_, (attributePath_eq_ok_iff.mp hok).1, path.tokens_ne_nil, path.balanced_tokens⟩

/-! ## 3. Both ways out -/

section Keeps

variable {I : Nat → TokenStream → Prop} {n : Nat} (strategy : Strategy) (hI : Invariant limit I)

include hI

theorem keeps_valueFilter (hn : n ≤ limit) : Keeps I n n (strategy.valueFilter n) := by
  cases strategy with
  | lookahead => exact Lookahead.keeps_valueFilter hI hn
  | orderedChoice => exact OrderedChoice.keeps_valueFilter hI hn

theorem keeps_filter (hn : n ≤ limit) : Keeps I n n (strategy.filter n) := by
  cases strategy with
  | lookahead => exact Lookahead.keeps_filter hI hn
  | orderedChoice => exact OrderedChoice.keeps_filter hI hn

theorem keeps_valueOperand (hn : n ≤ limit) : Keeps I n n (strategy.valueOperand n) := by
  have hcontents (k : Nat) (hk : k < n) : Keeps I k k (strategy.valueFilter k) :=
    strategy.keeps_valueFilter hI (by omega)
  cases strategy with
  | lookahead => exact Lookahead.keeps_operand hI hn (keeps_attributeTest hI) hcontents
  | orderedChoice =>
    refine OrderedChoice.keeps_operand hI hn (fun parser hparser => ?_) hcontents
    obtain rfl := List.mem_singleton.mp hparser
    exact keeps_attributeTest hI

theorem keeps_operand (hn : n ≤ limit) : Keeps I n n (strategy.operand n) := by
  have hcontents (k : Nat) (hk : k < n) : Keeps I k k (strategy.filter k) :=
    strategy.keeps_filter hI (by omega)
  cases strategy with
  | lookahead => exact Lookahead.keeps_operand hI hn (Lookahead.keeps_condition hI hn) hcontents
  | orderedChoice =>
    exact OrderedChoice.keeps_operand hI hn (OrderedChoice.keeps_conditions hI hn) hcontents

/-- **Every production keeps every invariant.** -/
theorem keeps_production {production : Nat → Parse α} (h : strategy.Production production)
    (hn : n ≤ limit) : Keeps I n n (production n) := by
  have hcontents (k : Nat) (hk : k < n) : Keeps I k k (strategy.valueFilter k) :=
    strategy.keeps_valueFilter hI (by omega)
  cases h with
  | filter => exact strategy.keeps_filter hI hn
  | operand => exact strategy.keeps_operand hI hn
  | valuePath => exact keeps_valuePath hI hn hcontents
  | valuesOf path => exact keeps_valuesOf hI hn hcontents path
  | valueFilter => exact strategy.keeps_valueFilter hI hn
  | valueOperand => exact strategy.keeps_valueOperand hI hn
  | attributeTest => exact keeps_attributeTest hI
  | testOf path => exact keeps_testOf hI path
  | attributePath => exact keeps_attributePath hI

end Keeps

end Strategy

/-- How a parser may leave a place: on one of the tokens and within the limit.
With a result it has gone on, has passed parentheses and brackets in pairs, and
is as deep as it was. -/
def Parse.Exits (tokens : List Located) (limit : Nat) (s : TokenStream) (parser : Parse α) : Prop :=
  match parser s with
  | .ok _ m => m.Within tokens limit ∧ s.index < m.index ∧ m.depth = s.depth ∧
      Token.Balanced (passed tokens s m)
  | .error _ m => m.Within tokens limit

theorem Parse.Keeps.exits {parser : Parse α} (hs : s.Within tokens limit)
    (htokens : EndsInEof tokens)
    (h : Keeps (fun levels s => s.Within tokens limit ∧ s.depth + levels = limit)
      (limit - s.depth) (limit - s.depth) parser)
    (hover : GoesOver parser) : Exits tokens limit s parser := by
  unfold Exits
  have hdepth := hs.depth_add
  cases hparser : parser s with
  | ok a m =>
    obtain ⟨hm, hm'⟩ := h.ok ⟨hs, hdepth⟩ hparser
    obtain ⟨row, hrow, hne, hbalanced⟩ := hover (hs.ended htokens) hparser
    obtain ⟨hindex, hpassed⟩ := hs.passed_eq htokens hrow
    have hlength := List.length_pos_iff.mpr hne
    exact ⟨hm, by omega, by omega, hpassed ▸ hbalanced⟩
  | error e m =>
    obtain ⟨levels, hm, -⟩ := h.error ⟨hs, hdepth⟩ hparser
    exact hm.1

/-! ## 4. Loops -/

/-- A step is run until it gives none or fails. No number of turns is set. -/
inductive Parse.Runs (step : Parse (Option α)) :
    TokenStream → EStateM.Result ParseError TokenStream (List α) → Prop where
  | stops {s m : TokenStream} : step s = .ok none m → Runs step s (.ok [] m)
  | fails {s m : TokenStream} {e : ParseError} : step s = .error e m → Runs step s (.error e m)
  | goesOn {s m m' : TokenStream} {a : α} {rest : List α} : step s = .ok (some a) m →
      Runs step m (.ok rest m') → Runs step s (.ok (a :: rest) m')
  | goesWrong {s m m' : TokenStream} {a : α} {e : ParseError} : step s = .ok (some a) m →
      Runs step m (.error e m') → Runs step s (.error e m')

/-- The step takes a token or more whenever it finds something. -/
def Parse.Shortens (step : Parse (Option α)) : Prop :=
  ∀ ⦃s a m⦄, s.Ended → step s = .ok (some a) m → m.Ended ∧ m.rest.length < s.rest.length

section Loops

variable {step : Parse (Option α)}

/-- A loop comes to one end only. -/
theorem Parse.Runs.unique {r r' : EStateM.Result ParseError TokenStream (List α)}
    (h : Runs step s r) (h' : Runs step s r') : r = r' := by
  induction h generalizing r' with
  | stops hstep => cases h' <;> simp_all
  | fails hstep => cases h' <;> simp_all
  | goesOn hstep hrest ih =>
    cases h' with
    | stops hstep' | fails hstep' => simp [hstep] at hstep'
    | goesOn hstep' hrest' =>
      rw [hstep] at hstep'
      cases hstep'
      cases ih hrest'
      rfl
    | goesWrong hstep' hrest' =>
      rw [hstep] at hstep'
      cases hstep'
      cases ih hrest'
  | goesWrong hstep hrest ih =>
    cases h' with
    | stops hstep' | fails hstep' => simp [hstep] at hstep'
    | goesOn hstep' hrest' =>
      rw [hstep] at hstep'
      cases hstep'
      cases ih hrest'
    | goesWrong hstep' hrest' =>
      rw [hstep] at hstep'
      cases hstep'
      cases ih hrest'
      rfl

/-- One turn, and the turns behind it. -/
theorem Parse.repeatAtMost_succ {n : Nat} :
    repeatAtMost step (n + 1) s =
      match step s with
      | .error e m => .error e m
      | .ok none m => .ok [] m
      | .ok (some a) m =>
        match repeatAtMost step n m with
        | .ok rest m' => .ok (a :: rest) m'
        | .error e m' => .error e m' := by
  simp only [repeatAtMost, bind, EStateM.bind]
  cases step s with
  | error e m => rfl
  | ok found m =>
    cases found with
    | none => rfl
    | some a =>
      simp only [EStateM.bind]
      cases repeatAtMost step n m <;> rfl

/-- As many turns as there are tokens suffice. -/
theorem Parse.Shortens.runs_repeatAtMost (h : Shortens step) {n : Nat} (hs : s.Ended)
    (hn : s.rest.length ≤ n) : Runs step s (repeatAtMost step n s) := by
  induction n generalizing s with
  | zero =>
    have hpos := hs.rest_pos
    omega
  | succ n ih =>
    rw [repeatAtMost_succ]
    cases hstep : step s with
    | error e m => exact .fails hstep
    | ok found m =>
      cases found with
      | none => exact .stops hstep
      | some a =>
        obtain ⟨hm, hlength⟩ := h hs hstep
        have hruns := ih hm (by omega)
        show Runs step s (match repeatAtMost step n m with
          | .ok rest m' => .ok (a :: rest) m'
          | .error e m' => .error e m')
        cases hrest : repeatAtMost step n m with
        | ok rest m' => exact .goesOn hstep (hrest ▸ hruns)
        | error e m' => exact .goesWrong hstep (hrest ▸ hruns)

/-- **A loop ends by itself**, and with the result of its bounded turns. -/
theorem Parse.Shortens.runs_iff (h : Shortens step) (hs : s.Ended)
    {r : EStateM.Result ParseError TokenStream (List α)} :
    Runs step s r ↔ repeated step s = r := by
  have hruns : Runs step s (repeated step s) := h.runs_repeatAtMost hs (Nat.le_refl _)
  constructor
  · exact hruns.unique
  · rintro rfl
    exact hruns

end Loops

/-- A step that finds an operand has gone over the connective in front of it. -/
theorem Parse.Steps.shortens {stops : TokenStream → Prop} {grammar : List Token → Operand α → Prop}
    {step : Parse (Option (Connective × Operand α))} (h : Steps stops step grammar) :
    Shortens step := by
  intro s pair m hs hok
  obtain ⟨row, hover, -⟩ := (h.some_iff hs).mp hok
  have hlength := hs.length_over hover
  rw [List.length_append, Connective.tokens] at hlength
  simp only [List.length_cons] at hlength
  exact ⟨hs.over hover, by omega⟩

namespace Strategy

/-- **Every loop takes a token with every turn.** -/
theorem Repetition.shortens {strategy : Strategy}
    {step : Nat → Parse (Option (Connective × Operand α))} (h : strategy.Repetition step)
    (levels : Nat) : Shortens (step levels) := by
  cases h with
  | filter =>
    obtain ⟨stops, hsteps⟩ := strategy.steps_continuation (strategy.parses_operand levels)
    exact hsteps.shortens
  | valueFilter =>
    obtain ⟨stops, hsteps⟩ := strategy.steps_continuation (strategy.parses_valueOperand levels)
    exact hsteps.shortens

end Strategy

/-! ## 5. The contract -/

/-- How a group or a bracket is entered. Below the limit the production is run
one level deeper, at a place again, and comes back as deep, so that the way up
takes back exactly the level that the way down took. At the limit it is not
run. -/
def Parse.Enters (tokens : List Located) (limit : Nat) (s : TokenStream)
    (production : Nat → Parse α) : Prop :=
  let inner := s.next.atDepth (s.depth + 1)
  (s.depth < limit → inner.Within tokens limit ∧
    nested production (limit - s.depth) s = production (limit - inner.depth) inner ∧
    ∀ {a m}, nested production (limit - s.depth) s = .ok a m → m.depth = s.depth + 1) ∧
  (¬ s.depth < limit →
    nested production (limit - s.depth) s = .error (.tooDeep limit s.offset) s)

namespace Strategy

/-- A production comes back to the depth that it was run at. -/
theorem Production.depth_eq {strategy : Strategy} {production : Nat → Parse α}
    (h : strategy.Production production) (hs : s.Ended) {levels : Nat} {a : α}
    (hok : production levels s = .ok a m) : m.depth = s.depth := by
  obtain ⟨row, hover, -⟩ := h.goesOver levels hs hok
  exact hover.depth_eq

theorem Production.enters {strategy : Strategy} {production : Nat → Parse α}
    (h : strategy.Production production) (hs : s.Within tokens limit)
    (htokens : EndsInEof tokens) : Enters tokens limit s production := by
  refine ⟨fun hdepth => ?_, fun hdepth => ?_⟩
  · have hinner : (s.next.atDepth (s.depth + 1)).Within tokens limit := hs.next.atDepth hdepth
    have hlevels : limit - s.depth = limit - (s.depth + 1) + 1 := by omega
    have hnested : nested production (limit - s.depth) s =
        production (limit - (s.depth + 1)) (s.next.atDepth (s.depth + 1)) := by
      rw [hlevels, nested, descend_bind]
    refine ⟨hinner, hnested, fun {a m} hok => ?_⟩
    rw [hnested] at hok
    exact h.depth_eq (hinner.ended htokens) hok
  · have hlimit : s.depth = limit := by
      have hle := hs.depth_le
      omega
    rw [hlimit, Nat.sub_self]
    show EStateM.Result.error (ParseError.tooDeep s.depth s.offset) s = _
    rw [hlimit]

/-- **What every production owes**, run at a place of a list of tokens that
ends with the end of the text. It leaves the place as `Exits` says, and a group
or a bracket around it is entered as `Enters` says. Its loops end by
themselves, and an attempt that fails is undone. The loops are those of the
filters, each of which is an operand and a loop behind it. -/
theorem production_contract (strategy : Strategy) (htokens : EndsInEof tokens)
    (hs : s.Within tokens limit) :
    (∀ {α : Type} {production : Nat → Parse α}, strategy.Production production →
      Exits tokens limit s (production (limit - s.depth)) ∧ Enters tokens limit s production) ∧
    (∀ {α : Type} {step : Nat → Parse (Option (Connective × Operand α))},
      strategy.Repetition step → (∃ r, Runs (step (limit - s.depth)) s r) ∧
        ∀ r, Runs (step (limit - s.depth)) s r ↔ repeated (step (limit - s.depth)) s = r) ∧
    (∀ {α : Type} {parser : Parse α} {e m}, parser s = .error e m →
      orNone parser s = .ok none s) ∧
    ∀ levels, strategy.filter levels =
        sequence (strategy.operand levels) (strategy.continuation (strategy.operand levels)) ∧
      strategy.valueFilter levels =
        sequence (strategy.valueOperand levels)
          (strategy.continuation (strategy.valueOperand levels)) := by
  have hended := hs.ended htokens
  refine ⟨fun {α production} hproduction => ⟨?_, hproduction.enters hs htokens⟩,
    fun {α step} hstep => ?_, fun {α parser e m} herror => ?_,
    fun levels => ⟨strategy.filter_eq levels, strategy.valueFilter_eq levels⟩⟩
  · have hkeeps := strategy.keeps_production (invariant_within tokens limit) hproduction
      (Nat.sub_le limit s.depth)
    exact hkeeps.exits hs htokens (hproduction.goesOver _)
  · have hruns (r) := (hstep.shortens (limit - s.depth)).runs_iff hended (r := r)
    exact ⟨⟨_, (hruns _).mpr rfl⟩, hruns⟩
  · simp [orNone, herror]

/-- `a pr or ((b pr`, where the marks that close the groups are missing. -/
def unclosed : List Located :=
  [⟨0, .attribute "a"⟩, ⟨1, .space⟩, ⟨2, .keyword .present⟩, ⟨4, .space⟩,
    ⟨5, .keyword (.connective .or)⟩, ⟨7, .space⟩, ⟨8, .openParen⟩, ⟨9, .openParen⟩,
    ⟨10, .attribute "b"⟩, ⟨11, .space⟩, ⟨12, .keyword .present⟩, ⟨14, .eof⟩]

/-- The attempt at the second operand fails two levels deep and is undone. So
the loop ends in front of it, and the filter is the first operand. -/
theorem production_contract_unclosed :
    EndsInEof unclosed ∧ (ofTokens unclosed).Within unclosed 2 ∧
    Strategy.orderedChoice.filter 2 (ofTokens unclosed) =
      .ok (.one (.one (.leaf (.test (.present ⟨none, "a", none⟩))))) ⟨unclosed.drop 3, 3, 0⟩ ∧
    Exits unclosed 2 (ofTokens unclosed) (Strategy.orderedChoice.filter 2) ∧
    Enters unclosed 2 ⟨unclosed.drop 7, 7, 1⟩ Strategy.orderedChoice.filter ∧
    Runs (Strategy.orderedChoice.continuation (Strategy.orderedChoice.operand 2))
      ⟨unclosed.drop 3, 3, 0⟩ (.ok [] ⟨unclosed.drop 3, 3, 0⟩) ∧
    OrderedChoice.continuation (Strategy.orderedChoice.operand 2) ⟨unclosed.drop 3, 3, 0⟩ =
      .error (.mismatch (.token .closeParen) 11 14 .eof) ⟨unclosed.drop 11, 11, 2⟩ ∧
    orNone (OrderedChoice.continuation (Strategy.orderedChoice.operand 2))
      ⟨unclosed.drop 3, 3, 0⟩ = .ok none ⟨unclosed.drop 3, 3, 0⟩ := by
  have htokens : EndsInEof unclosed := rfl
  have hstart : (ofTokens unclosed).Within unclosed 2 := within_ofTokens htokens
  have hloop : (⟨unclosed.drop 3, 3, 0⟩ : TokenStream).Within unclosed 2 :=
    ⟨rfl, by decide, by decide⟩
  have hgroup : (⟨unclosed.drop 7, 7, 1⟩ : TokenStream).Within unclosed 2 :=
    ⟨rfl, by decide, by decide⟩
  have herror : OrderedChoice.continuation (Strategy.orderedChoice.operand 2)
      ⟨unclosed.drop 3, 3, 0⟩ =
      .error (.mismatch (.token .closeParen) 11 14 .eof) ⟨unclosed.drop 11, 11, 2⟩ := rfl
  obtain ⟨hproductions, -⟩ := production_contract .orderedChoice htokens hstart
  obtain ⟨-, hloops, hattempts, -⟩ := production_contract .orderedChoice htokens hloop
  refine ⟨htokens, hstart, rfl, (hproductions .filter).1, ?_, ?_, herror, hattempts herror⟩
  · exact ((production_contract .orderedChoice htokens hgroup).1 .filter).2
  · exact ((hloops .filter).2 _).mpr rfl

end Strategy

end ScimQuery
