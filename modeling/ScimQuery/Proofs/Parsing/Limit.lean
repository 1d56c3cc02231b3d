/-
ScimQuery.Proofs.Parsing.Limit — what looking ahead does with more levels.

The limit has a say in one place, where a group or a bracket is opened and no
level is left. So a parser that has more levels does the same, step by step,
as one that has fewer, until that one finds the nesting too deep: the one
`Extends` the other.

An error of the contents is an error of what is around them, since looking
ahead tries nothing that it would give back. That is why `Extends` is closed
under sequence, and so under everything that filters are parsed with. Two
combinations with different levels are compared by induction on the lesser of
the two.
-/
import ScimQuery.Proofs.Parsing.Lookahead

namespace ScimQuery

open TokenStream

variable {α β : Type} {s m : TokenStream} {n n' : Nat}

namespace Parse

/-! ## 1. Parsers that extend others -/

/-- From this stream, the second parser does what the first one does, unless
the first one finds the nesting too deep. -/
def Extends (parser wider : Parse α) (s : TokenStream) : Prop :=
  (∃ depth offset m, parser s = .error (.tooDeep depth offset) m) ∨ wider s = parser s

theorem Extends.refl (parser : Parse α) (s : TokenStream) : Extends parser parser s :=
  .inr rfl

theorem bind_of_ok {parser : Parse α} {next : α → Parse β} {a : α} (h : parser s = .ok a m) :
    (parser >>= next) s = next a m := by
  simp only [bind, EStateM.bind, h]

theorem Extends.bind {parser wider : Parse α} {next next' : α → Parse β}
    (h : Extends parser wider s)
    (hnext : ∀ a m, parser s = .ok a m → Extends (next a) (next' a) m) :
    Extends (parser >>= next) (wider >>= next') s := by
  obtain ⟨depth, offset, m, herror⟩ | hwider := h
  · exact .inl ⟨depth, offset, m, bind_eq_error_iff.mpr (.inl herror)⟩
  · cases hparser : parser s with
    | error e m =>
      have hwider' := hwider.trans hparser
      refine .inr ?_
      rw [bind_eq_error_iff.mpr (.inl hparser), bind_eq_error_iff.mpr (.inl hwider')]
    | ok a m =>
      obtain ⟨depth, offset, m', herror⟩ | hrest := hnext a m hparser
      · exact .inl ⟨depth, offset, m', bind_eq_error_iff.mpr (.inr ⟨a, m, hparser, herror⟩)⟩
      · refine .inr ?_
        rw [bind_of_ok hparser, bind_of_ok (hwider.trans hparser), hrest]

/-- Behind the same start. -/
theorem Extends.bind_left {parser : Parse α} {next next' : α → Parse β}
    (hnext : ∀ a m, Extends (next a) (next' a) m) :
    Extends (parser >>= next) (parser >>= next') s :=
  (Extends.refl parser s).bind fun a m _ => hnext a m

/-- In front of the same end. -/
theorem Extends.bind_right {parser wider : Parse α} (h : Extends parser wider s)
    (next : α → Parse β) : Extends (parser >>= next) (wider >>= next) s :=
  h.bind fun a m _ => .refl (next a) m

/-- The one place where the levels have a say. -/
theorem extends_nested {contents : Nat → Parse α} (hn : n ≤ n')
    (h : ∀ k < n, ∀ k' ≥ k, ∀ m, Extends (contents k) (contents k') m) :
    Extends (nested contents n) (nested contents n') s := by
  cases n with
  | zero => exact .inl ⟨s.depth, s.offset, s, rfl⟩
  | succ k =>
    obtain ⟨k', rfl⟩ : ∃ k', n' = k' + 1 := ⟨n' - 1, by omega⟩
    exact h k (Nat.lt_succ_self k) k' (Nat.le_of_succ_le_succ hn) _

theorem extends_group {contents contents' : Parse (Disjunction α)}
    (h : ∀ m, Extends contents contents' m) : Extends (group contents) (group contents') s :=
  .bind_left fun _ m => (h m).bind_right _

theorem extends_valuesOf {contents contents' : Parse ValueFilter} (path : AttributePath)
    (h : ∀ m, Extends contents contents' m) :
    Extends (valuesOf contents path) (valuesOf contents' path) s :=
  .bind_left fun _ m => (h m).bind_right _

theorem extends_repeatAtMost {step step' : Parse (Option α)} (h : ∀ m, Extends step step' m)
    (k : Nat) : Extends (repeatAtMost step k) (repeatAtMost step' k) s := by
  induction k generalizing s with
  | zero => exact .refl _ s
  | succ k ih =>
    refine (h s).bind fun found m _ => ?_
    cases found with
    | none => exact .refl _ m
    | some a => exact ih.bind_right _

theorem extends_sequence {operand operand' : Parse (Operand α)}
    {step step' : Parse (Option (Connective × Operand α))} (h : Extends operand operand' s)
    (hstep : ∀ m, Extends step step' m) :
    Extends (sequence operand step) (sequence operand' step') s := by
  refine h.bind fun first m _ => ?_
  have hrepeated : Extends (repeated step) (repeated step') m :=
    extends_repeatAtMost hstep m.rest.length
  exact hrepeated.bind_right _

end Parse

open Parse

/-! ## 2. Looking ahead -/

namespace Lookahead

theorem extends_operand {leaf leaf' : Parse α} {contents contents' : Parse (Disjunction α)}
    (h : Extends leaf leaf' s) (hcontents : ∀ m, Extends contents contents' m) :
    Extends (operand leaf contents) (operand leaf' contents') s := by
  refine (Extends.refl current s).bind fun token m hm => ?_
  obtain rfl : s = m := by
    rw [Parse.current, EStateM.Result.ok.injEq] at hm
    exact hm.2
  split
  · exact h.bind_right _
  · exact h.bind_right _
  · exact extends_group hcontents
  · exact extends_group hcontents
  · exact .refl _ s

theorem extends_continuation {operand operand' : Parse (Operand α)}
    (h : ∀ m, Extends operand operand' m) :
    Extends (continuation operand) (continuation operand') s := by
  refine .bind_left fun found m => ?_
  split
  · exact .bind_left fun _ _ => .bind_left fun _ m => (h m).bind_right _
  · exact .refl _ m

/-- **With more levels a combination is parsed alike**, if its conditions are. -/
theorem extends_combination {leaf : Nat → Parse α}
    (h : ∀ n n', n ≤ n' → ∀ m, Extends (leaf n) (leaf n') m) (hn : n ≤ n') :
    Extends (combination leaf n) (combination leaf n') s := by
  induction n using Nat.strongRecOn generalizing n' s with
  | ind n ih =>
    have hoperand (m : TokenStream) :
        Extends (operand (leaf n) (nested (combination leaf) n))
          (operand (leaf n') (nested (combination leaf) n')) m :=
      extends_operand (h n n' hn m) fun m =>
        extends_nested hn fun k hk k' hk' m => ih k hk hk'
    rw [combination_eq, combination_eq]
    exact extends_sequence (hoperand s) fun m => extends_continuation hoperand

theorem extends_valueFilter (hn : n ≤ n') : Extends (valueFilter n) (valueFilter n') s :=
  extends_combination (fun _ _ _ m => .refl attributeTest m) hn

theorem extends_condition (hn : n ≤ n') : Extends (condition n) (condition n') s := by
  refine .bind_left fun path m => .bind_left fun token m => ?_
  split
  · exact .refl _ m
  · refine (extends_valuesOf path fun m => ?_).bind_right _
    exact extends_nested hn fun k _ k' hk' _ => extends_valueFilter hk'
  · exact .refl _ m

/-- **With more levels a filter is parsed alike**, unless the nesting was too
deep. -/
theorem extends_wholeFilter (hn : n ≤ n') : Extends (wholeFilter n) (wholeFilter n') s :=
  (extends_combination (fun _ _ hn _ => extends_condition hn) hn).bind_right _

end Lookahead

end ScimQuery
