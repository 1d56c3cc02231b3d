/-
ScimQuery.Proofs.Parsing.Invariant — what holds of a stream however a parser
moves along it.

A parser moves in three ways: to the next token, one level deeper, and one
level back up. A property of streams that none of these moves ends is an
`Invariant`. It may speak of the number of groups and brackets that may still
be opened, which a move down takes one from and a move up gives back.

`Keeps` says of a parser that it keeps such a property whichever way it ends,
and says of an error that it is raised by the stream where the parser stops:
it names the index, the offset and the token there, and an error about the
nesting is raised where no level is left. `Keeps` is closed under everything
that parsers are built with, so every phrase and both strategies have it for
every invariant. A row of operands has it by induction on its turns, and a
combination by induction on the levels that are left.
-/
import ScimQuery.Proofs.Parsing.Lookahead
import ScimQuery.Proofs.Parsing.OrderedChoice

namespace ScimQuery

open TokenStream

variable {α β : Type} {s m : TokenStream}

/-! ## 1. Invariants -/

/-- A property of streams that no move ends, where `limit` groups and
brackets may be open at once. -/
structure TokenStream.Invariant (limit : Nat) (I : Nat → TokenStream → Prop) : Prop where
  next : ∀ {levels s}, I levels s → I levels s.next
  down : ∀ {levels s}, I (levels + 1) s → I levels (s.atDepth (s.depth + 1))
  /-- Whoever moves up has moved down before. -/
  up : ∀ {levels s}, levels < limit → I levels s → I (levels + 1) (s.atDepth (s.depth - 1))

/-- The error is about the current token of the stream, at which `levels`
groups and brackets may still be opened. -/
def ParseError.RaisedAt (levels : Nat) (s : TokenStream) : ParseError → Prop
  | .lexical _ => False
  | .mismatch _ index offset found => index = s.index ∧ offset = s.offset ∧ found = s.current
  | .noPath offset => offset = s.offset
  | .tooDeep limit offset => levels = 0 ∧ limit = s.depth ∧ offset = s.offset

theorem ParseError.RaisedAt.offset_eq {levels : Nat} {e : ParseError} (h : e.RaisedAt levels s) :
    e.offset = s.offset := by
  cases e with
  | lexical error => exact h.elim
  | mismatch expected index offset found => exact h.2.1
  | noPath offset => exact h
  | tooDeep limit offset => exact h.2.2

namespace Parse

/-- The parser keeps the property on both its ways out. It is run where
`before` groups and brackets may still be opened, and gives a result where
`after` may be. -/
structure Keeps (I : Nat → TokenStream → Prop) (before after : Nat) (parser : Parse α) : Prop where
  ok : ∀ {s a m}, I before s → parser s = .ok a m → I after m
  error : ∀ {s e m}, I before s → parser s = .error e m → ∃ levels, I levels m ∧ e.RaisedAt levels m

/-! ## 2. Elementary parsers -/

section Elementary

variable {I : Nat → TokenStream → Prop} {limit n n' n'' : Nat}

/-- A parser that gives a result at once, wherever it is run. -/
theorem Keeps.of_ok {parser : Parse α}
    (h : ∀ {s}, I n s → ∃ a m, parser s = .ok a m ∧ I n' m) : Keeps I n n' parser where
  ok hs hok := by
    obtain ⟨b, m', hparser, hm⟩ := h hs
    rw [hparser, EStateM.Result.ok.injEq] at hok
    exact hok.2 ▸ hm
  error hs herror := by
    obtain ⟨b, m', hparser, -⟩ := h hs
    rw [hparser] at herror
    cases herror

/-- A parser that fails on the spot. -/
theorem Keeps.of_error {parser : Parse α}
    (h : ∀ s, ∃ e, parser s = .error e s ∧ e.RaisedAt n s) : Keeps I n n' parser where
  ok {s _ _} _ hok := by
    obtain ⟨e, hparser, -⟩ := h s
    rw [hparser] at hok
    cases hok
  error {s _ _} hs herror := by
    obtain ⟨e', hparser, hraised⟩ := h s
    rw [hparser, EStateM.Result.error.injEq] at herror
    obtain ⟨rfl, rfl⟩ := herror
    exact ⟨n, hs, hraised⟩

theorem Keeps.bind {parser : Parse α} {next : α → Parse β} (h : Keeps I n n' parser)
    (hnext : ∀ a, Keeps I n' n'' (next a)) : Keeps I n n'' (parser >>= next) where
  ok hs hok := by
    obtain ⟨a, m', ha, hb⟩ := bind_eq_ok_iff.mp hok
    exact (hnext a).ok (h.ok hs ha) hb
  error hs herror := by
    rcases bind_eq_error_iff.mp herror with herror | ⟨a, m', ha, herror⟩
    · exact h.error hs herror
    · exact (hnext a).error (h.ok hs ha) herror

theorem keeps_pure (a : α) : Keeps I n n (pure a : Parse α) :=
  .of_ok fun hs => ⟨a, _, rfl, hs⟩

theorem Keeps.map {parser : Parse α} (h : Keeps I n n' parser) (f : α → β) :
    Keeps I n n' (f <$> parser) := by
  rw [← bind_pure_comp]
  exact h.bind fun a => keeps_pure (f a)

theorem keeps_mismatch (expected : Expected) : Keeps I n n' (mismatch expected : Parse α) :=
  .of_error fun _ => ⟨_, rfl, rfl, rfl, rfl⟩

/-- The nesting is too deep where no level is left. -/
theorem keeps_tooDeep : Keeps I 0 n' (tooDeep : Parse α) :=
  .of_error fun _ => ⟨_, rfl, rfl, rfl, rfl⟩

/-- None of the shapes of a path fits. -/
theorem keeps_noPath : Keeps I n n' (fun s => .error (.noPath s.offset) s : Parse α) :=
  .of_error fun _ => ⟨_, rfl, rfl⟩

theorem keeps_current : Keeps I n n current :=
  .of_ok fun hs => ⟨_, _, rfl, hs⟩

theorem keeps_ensure (token : Token) : Keeps I n n (ensure token) := by
  refine keeps_current.bind fun t => ?_
  split
  · exact keeps_pure ()
  · exact keeps_mismatch _

/-- What has failed is back where it started. -/
theorem Keeps.orNone {parser : Parse α} (h : Keeps I n n parser) : Keeps I n n (orNone parser) := by
  refine .of_ok fun {s} hs => ?_
  unfold Parse.orNone
  cases hparser : parser s with
  | ok a m => exact ⟨some a, m, rfl, h.ok hs hparser⟩
  | error e m => exact ⟨none, s, rfl, hs⟩

theorem keeps_firstOf {parsers : List (Parse α)} (h : ∀ parser ∈ parsers, Keeps I n n parser) :
    Keeps I n n (firstOf parsers) := by
  induction parsers with
  | nil => exact keeps_pure none
  | cons parser parsers ih =>
    simp only [List.mem_cons, forall_eq_or_imp] at h
    refine h.1.orNone.bind fun found => ?_
    cases found with
    | some a => exact keeps_pure (some a)
    | none => exact ih h.2

theorem keeps_repeatAtMost {step : Parse (Option α)} (h : Keeps I n n step) (turns : Nat) :
    Keeps I n n (repeatAtMost step turns) := by
  induction turns with
  | zero => exact keeps_pure []
  | succ turns ih =>
    refine h.bind fun found => ?_
    cases found with
    | none => exact keeps_pure []
    | some a => exact ih.bind fun rest => keeps_pure (a :: rest)

theorem Keeps.repeated {step : Parse (Option α)} (h : Keeps I n n step) :
    Keeps I n n (repeated step) where
  ok hs hok := (keeps_repeatAtMost h _).ok hs hok
  error hs herror := (keeps_repeatAtMost h _).error hs herror

/-! The parsers from here on move. -/

variable (hI : Invariant limit I)

include hI

theorem keeps_skip : Keeps I n n skip :=
  .of_ok fun hs => ⟨_, _, rfl, hI.next hs⟩

theorem keeps_accept (token : Token) : Keeps I n n (accept token) := by
  refine keeps_current.bind fun t => ?_
  split
  · exact (keeps_skip hI).bind fun _ => keeps_pure true
  · exact keeps_pure false

theorem keeps_require (token : Token) : Keeps I n n (require token) :=
  (keeps_ensure token).bind fun _ => keeps_skip hI

theorem keeps_descend : Keeps I (n + 1) n descend := by
  refine .of_ok fun {s} hs => ⟨(), s.next.atDepth (s.depth + 1), rfl, ?_⟩
  have hdown := hI.down (hI.next hs)
  rwa [next_depth] at hdown

theorem keeps_ascend (hn : n < limit) (closing : Token) : Keeps I n (n + 1) (ascend closing) :=
  (keeps_require hI closing).bind fun _ => .of_ok fun hs => ⟨(), _, rfl, hI.up hn hs⟩

/-- What a group or a bracket encloses has one level less. -/
theorem keeps_nested {contents : Nat → Parse α} (h : Keeps I n n (contents n)) :
    Keeps I (n + 1) n (nested contents (n + 1)) :=
  (keeps_descend hI).bind fun _ => h

/-- **What a group or a bracket encloses**, up to and with the mark that
closes it: the level that it takes is given back. -/
theorem keeps_enclosed {contents : Nat → Parse α} (hn : n ≤ limit)
    (h : ∀ k < n, Keeps I k k (contents k)) (closing : Token) (f : α → β) :
    Keeps I n n (nested contents n >>= fun a => ascend closing >>= fun _ => pure (f a)) := by
  cases n with
  | zero =>
    have hnone : (nested contents 0 >>= fun a => ascend closing >>= fun _ => pure (f a)) =
        tooDeep := rfl
    rw [hnone]
    exact keeps_tooDeep
  | succ k =>
    exact (keeps_nested hI (h k (Nat.lt_succ_self k))).bind fun a =>
      (keeps_ascend hI hn closing).bind fun _ => keeps_pure (f a)

/-! ## 3. Phrases -/

theorem keeps_attributeName : Keeps I n n attributeName := by
  refine keeps_current.bind fun token => ?_
  split
  · exact (keeps_skip hI).bind fun _ => keeps_pure _
  · exact keeps_mismatch _

theorem keeps_subAttribute : Keeps I n n subAttribute := by
  refine (keeps_accept hI .dot).bind fun found => ?_
  split
  · exact (keeps_attributeName hI).bind fun _ => keeps_pure _
  · exact keeps_pure none

theorem keeps_schema : Keeps I n n schema := by
  refine keeps_current.bind fun token => ?_
  split
  · exact (keeps_skip hI).bind fun _ => (keeps_require hI .colon).bind fun _ => keeps_pure _
  · exact keeps_pure none
  · exact keeps_mismatch _

theorem keeps_attributePath : Keeps I n n attributePath :=
  (keeps_schema hI).bind fun _ => (keeps_attributeName hI).bind fun _ =>
    (keeps_subAttribute hI).bind fun _ => keeps_pure _

theorem keeps_comparison : Keeps I n n comparison := by
  refine keeps_current.bind fun token => ?_
  split
  · exact (keeps_skip hI).bind fun _ => keeps_pure _
  · exact keeps_mismatch _

theorem keeps_literal : Keeps I n n literal := by
  refine keeps_current.bind fun token => ?_
  split
  · exact (keeps_skip hI).bind fun _ => keeps_pure _
  · exact keeps_mismatch _

theorem keeps_testOf (path : AttributePath) : Keeps I n n (testOf path) := by
  refine (keeps_require hI .space).bind fun _ => (keeps_accept hI _).bind fun found => ?_
  split
  · exact keeps_pure _
  · exact (keeps_comparison hI).bind fun _ => (keeps_require hI .space).bind fun _ =>
      (keeps_literal hI).bind fun _ => keeps_pure _

theorem keeps_attributeTest : Keeps I n n attributeTest :=
  (keeps_attributePath hI).bind (keeps_testOf hI)

theorem keeps_connective : Keeps I n n connective := by
  refine keeps_current.bind fun token => ?_
  split
  · exact (keeps_skip hI).bind fun _ => keeps_pure _
  · exact keeps_mismatch _

theorem keeps_negation : Keeps I n n negation := by
  have hparen (negated : Bool) : Keeps I n n (ensure .openParen >>= fun _ => pure negated) :=
    (keeps_ensure .openParen).bind fun _ => keeps_pure negated
  refine (keeps_accept hI _).bind fun negated => ?_
  split
  · exact (keeps_accept hI .space).bind fun _ => hparen negated
  · exact hparen negated

theorem keeps_group {contents : Nat → Parse (Disjunction α)} (hn : n ≤ limit)
    (h : ∀ k < n, Keeps I k k (contents k)) : Keeps I n n (group (nested contents n)) :=
  (keeps_negation hI).bind fun _ => keeps_enclosed hI hn h _ _

theorem keeps_valuesOf {contents : Nat → Parse ValueFilter} (hn : n ≤ limit)
    (h : ∀ k < n, Keeps I k k (contents k)) (path : AttributePath) :
    Keeps I n n (valuesOf (nested contents n) path) :=
  (keeps_ensure .openBracket).bind fun _ => keeps_enclosed hI hn h _ _

theorem keeps_valuePath {contents : Nat → Parse ValueFilter} (hn : n ≤ limit)
    (h : ∀ k < n, Keeps I k k (contents k)) : Keeps I n n (valuePath (nested contents n)) :=
  (keeps_attributePath hI).bind (keeps_valuesOf hI hn h)

omit hI in
theorem keeps_sequence {operand : Parse (Operand α)}
    {step : Parse (Option (Connective × Operand α))} (h : Keeps I n n operand)
    (hstep : Keeps I n n step) : Keeps I n n (sequence operand step) :=
  h.bind fun _ => hstep.repeated.bind fun _ => keeps_pure _

end Elementary

end Parse

open Parse

/-! ## 4. The two strategies -/

section Strategies

variable {I : Nat → TokenStream → Prop} {limit n : Nat} (hI : Invariant limit I)

include hI

namespace Lookahead

theorem keeps_operand {leaf : Parse α} {contents : Nat → Parse (Disjunction α)} (hn : n ≤ limit)
    (h : Keeps I n n leaf) (hcontents : ∀ k < n, Keeps I k k (contents k)) :
    Keeps I n n (operand leaf (nested contents n)) := by
  refine keeps_current.bind fun token => ?_
  split
  · exact h.bind fun _ => keeps_pure _
  · exact h.bind fun _ => keeps_pure _
  · exact keeps_group hI hn hcontents
  · exact keeps_group hI hn hcontents
  · exact keeps_mismatch _

theorem keeps_continuation {operand : Parse (Operand α)} (h : Keeps I n n operand) :
    Keeps I n n (continuation operand) := by
  refine (keeps_accept hI .space).bind fun found => ?_
  split
  · exact (keeps_connective hI).bind fun _ => (keeps_require hI .space).bind fun _ =>
      h.bind fun _ => keeps_pure _
  · exact keeps_pure none

theorem keeps_combination {leaf : Nat → Parse α} (h : ∀ k ≤ limit, Keeps I k k (leaf k))
    (hn : n ≤ limit) : Keeps I n n (combination leaf n) := by
  induction n using Nat.strongRecOn with
  | ind n ih =>
    have hoperand := keeps_operand hI hn (h n hn) fun k hk => ih k hk (by omega)
    rw [combination_eq]
    exact keeps_sequence hoperand (keeps_continuation hI hoperand)

theorem keeps_valueFilter (hn : n ≤ limit) : Keeps I n n (valueFilter n) :=
  keeps_combination hI (fun _ _ => keeps_attributeTest hI) hn

theorem keeps_condition (hn : n ≤ limit) : Keeps I n n (condition n) := by
  refine (keeps_attributePath hI).bind fun path => keeps_current.bind fun token => ?_
  split
  · exact (keeps_testOf hI path).bind fun _ => keeps_pure _
  · exact (keeps_valuesOf hI hn (fun k hk => keeps_valueFilter hI (by omega)) path).bind
      fun _ => keeps_pure _
  · exact keeps_mismatch _

theorem keeps_filter (hn : n ≤ limit) : Keeps I n n (filter n) :=
  keeps_combination hI (fun _ => keeps_condition hI) hn

theorem keeps_wholeFilter (hn : n ≤ limit) : Keeps I n n (wholeFilter n) :=
  (keeps_filter hI hn).bind fun _ => (keeps_require hI .eof).bind fun _ => keeps_pure _

theorem keeps_wholePath (hn : n ≤ limit) : Keeps I n n (wholePath n) := by
  have hvalues : Keeps I n n (wholeValues n) :=
    (keeps_valuePath hI hn fun k hk => keeps_valueFilter hI (by omega)).bind fun _ =>
      (keeps_subAttribute hI).bind fun _ => (keeps_require hI .eof).bind fun _ => keeps_pure _
  have htest : Keeps I n n wholeTest :=
    (keeps_attributeTest hI).bind fun _ => (keeps_require hI .eof).bind fun _ => keeps_pure _
  have hattribute : Keeps I n n wholeAttribute :=
    (keeps_attributePath hI).bind fun _ => (keeps_require hI .eof).bind fun _ => keeps_pure _
  refine (keeps_firstOf ?_).bind fun found => ?_
  · simp only [paths, List.mem_cons, List.not_mem_nil, or_false, forall_eq_or_imp, forall_eq]
    exact ⟨hvalues, htest, hattribute⟩
  · cases found with
    | some path => exact keeps_pure path
    | none => exact keeps_noPath

end Lookahead

namespace OrderedChoice

theorem keeps_operand {alternatives : List (Parse α)} {contents : Nat → Parse (Disjunction α)}
    (hn : n ≤ limit) (h : ∀ parser ∈ alternatives, Keeps I n n parser)
    (hcontents : ∀ k < n, Keeps I k k (contents k)) :
    Keeps I n n (operand alternatives (nested contents n)) := by
  refine (keeps_firstOf h).bind fun found => ?_
  cases found with
  | some a => exact keeps_pure _
  | none => exact keeps_group hI hn hcontents

theorem keeps_continuation {operand : Parse (Operand α)} (h : Keeps I n n operand) :
    Keeps I n n (continuation operand) :=
  (keeps_require hI .space).bind fun _ => (keeps_connective hI).bind fun _ =>
    (keeps_require hI .space).bind fun _ => h.bind fun _ => keeps_pure _

theorem keeps_combination {alternatives : Nat → List (Parse α)}
    (h : ∀ k ≤ limit, ∀ parser ∈ alternatives k, Keeps I k k parser) (hn : n ≤ limit) :
    Keeps I n n (combination alternatives n) := by
  induction n using Nat.strongRecOn with
  | ind n ih =>
    have hoperand := keeps_operand hI hn (h n hn) fun k hk => ih k hk (by omega)
    rw [combination_eq]
    exact keeps_sequence hoperand (keeps_continuation hI hoperand).orNone

theorem keeps_valueFilter (hn : n ≤ limit) : Keeps I n n (valueFilter n) := by
  refine keeps_combination hI (fun _ _ parser hparser => ?_) hn
  obtain rfl := List.mem_singleton.mp hparser
  exact keeps_attributeTest hI

theorem keeps_values (hn : n ≤ limit) : Keeps I n n (values n) :=
  keeps_valuePath hI hn fun _ hk => keeps_valueFilter hI (by omega)

theorem keeps_conditions (hn : n ≤ limit) : ∀ parser ∈ conditions n, Keeps I n n parser := by
  simp only [conditions, List.mem_cons, List.not_mem_nil, or_false, forall_eq_or_imp, forall_eq]
  exact ⟨(keeps_attributeTest hI).map _, (keeps_values hI hn).map _⟩

theorem keeps_filter (hn : n ≤ limit) : Keeps I n n (filter n) :=
  keeps_combination hI (fun _ => keeps_conditions hI) hn

theorem keeps_wholeFilter (hn : n ≤ limit) : Keeps I n n (wholeFilter n) :=
  (keeps_filter hI hn).bind fun _ => (keeps_require hI .eof).bind fun _ => keeps_pure _

theorem keeps_wholePath (hn : n ≤ limit) : Keeps I n n (wholePath n) := by
  have hvalues : Keeps I n n (valuesPath n) :=
    (keeps_values hI hn).bind fun _ => (keeps_subAttribute hI).bind fun _ => keeps_pure _
  refine (keeps_firstOf ?_).bind fun found => ?_
  · simp only [paths, List.mem_cons, List.not_mem_nil, or_false, forall_eq_or_imp, forall_eq]
    exact ⟨hvalues, (keeps_attributeTest hI).map _, (keeps_attributePath hI).map _⟩
  · cases found with
    | some path => exact (keeps_require hI .eof).bind fun _ => keeps_pure path
    | none => exact keeps_noPath

end OrderedChoice

end Strategies

end ScimQuery
