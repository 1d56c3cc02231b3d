/-
ScimQuery.Proofs.Parsing.Advance — where parsers stop, with a result and
with an error.

`s.LeadsTo m` says that the stream `m` stands where `s` does or further on.
`Advances` says of a parser that whichever way it ends it stops at such a
stream, and that an error it fails with is reported where it stops. Nothing
is said about what is parsed: a parser that has given its steps back (a
choice, a row of operands that goes no further) advances like any other one.

To stand behind a given stream is an invariant of the moves, so every parser
that keeps all invariants advances (`Advances.of_keeps`). What is left to be
shown is that `Advances` itself is closed under what combinations are built
with, for conditions and contents of which nothing else is known.
-/
import ScimQuery.Proofs.Parsing.Invariant

namespace ScimQuery

open TokenStream

variable {α β : Type} {s m : TokenStream}

/-! ## 1. Further on in a stream -/

namespace TokenStream

/-- The second stream stands where the first one does or further on. -/
structure LeadsTo (s m : TokenStream) : Prop where
  suffix : m.rest <:+ s.rest
  /-- No stream leads behind its last token. -/
  nil_of_nil : m.rest = [] → s.rest = []

theorem LeadsTo.refl (s : TokenStream) : s.LeadsTo s :=
  ⟨List.suffix_refl _, id⟩

theorem LeadsTo.trans {s m n : TokenStream} (h : s.LeadsTo m) (h' : m.LeadsTo n) : s.LeadsTo n :=
  ⟨h'.suffix.trans h.suffix, fun hnil => h.nil_of_nil (h'.nil_of_nil hnil)⟩

theorem leadsTo_next (s : TokenStream) : s.LeadsTo s.next := by
  unfold next
  split
  · rename_i first second rest hrest
    exact ⟨⟨[first], hrest.symm⟩, by simp⟩
  · exact .refl s

/-- No move ends it that a stream stands behind another one. -/
theorem invariant_leadsTo (s : TokenStream) (limit : Nat) :
    Invariant limit fun _ m => s.LeadsTo m where
  next hm := hm.trans (leadsTo_next _)
  down hm := ⟨hm.suffix, hm.nil_of_nil⟩
  up _ hm := ⟨hm.suffix, hm.nil_of_nil⟩

/-- The offset of a stream is that of a token behind it at most. -/
theorem LeadsTo.offset_le (h : s.LeadsTo m)
    (hsorted : s.rest.Pairwise (·.offset ≤ ·.offset)) : s.offset ≤ m.offset := by
  obtain ⟨front, hfront⟩ := h.suffix
  unfold offset
  cases hm : m.rest with
  | nil => simp [h.nil_of_nil hm]
  | cons first rest =>
    rw [hm] at hfront
    rw [← hfront] at hsorted ⊢
    cases front with
    | nil => exact Nat.le_refl _
    | cons earlier front => exact List.rel_of_pairwise_cons hsorted (by simp)

end TokenStream

/-! ## 2. Parsers that advance -/

namespace Parse

/-- The parser stops where it started or further on, and an error that it
fails with is reported where it stops. -/
structure Advances (parser : Parse α) : Prop where
  ok : ∀ {s a m}, parser s = .ok a m → s.LeadsTo m
  error : ∀ {s e m}, parser s = .error e m → s.LeadsTo m ∧ e.offset = m.offset

/-- A parser that keeps all invariants advances. -/
theorem Advances.of_keeps {parser : Parse α} (before after : Nat)
    (h : ∀ s : TokenStream, Keeps (fun _ m => s.LeadsTo m) before after parser) :
    Advances parser where
  ok {s _ _} hok := (h s).ok (.refl s) hok
  error {s _ _} herror := by
    obtain ⟨levels, hleads, hraised⟩ := (h s).error (.refl s) herror
    exact ⟨hleads, hraised.offset_eq⟩

theorem Advances.bind {parser : Parse α} {next : α → Parse β} (h : Advances parser)
    (hnext : ∀ a, Advances (next a)) : Advances (parser >>= next) := by
  constructor
  · intro s b m hok
    obtain ⟨a, n, ha, hb⟩ := bind_eq_ok_iff.mp hok
    exact (h.ok ha).trans ((hnext a).ok hb)
  · intro s e m herror
    rcases bind_eq_error_iff.mp herror with herror | ⟨a, n, ha, herror⟩
    · exact h.error herror
    · obtain ⟨hleads, hoffset⟩ := (hnext a).error herror
      exact ⟨(h.ok ha).trans hleads, hoffset⟩

theorem advances_pure (a : α) : Advances (pure a : Parse α) :=
  .of_keeps 0 0 fun _ => keeps_pure a

theorem advances_mismatch (expected : Expected) : Advances (mismatch expected : Parse α) :=
  .of_keeps 0 0 fun _ => keeps_mismatch expected

theorem advances_tooDeep : Advances (tooDeep : Parse α) :=
  .of_keeps 0 0 fun _ => keeps_tooDeep

theorem advances_current : Advances current :=
  .of_keeps 0 0 fun _ => keeps_current

theorem advances_accept (token : Token) : Advances (accept token) :=
  .of_keeps 0 0 fun s => keeps_accept (invariant_leadsTo s 0) token

theorem advances_require (token : Token) : Advances (require token) :=
  .of_keeps 0 0 fun s => keeps_require (invariant_leadsTo s 0) token

theorem advances_descend : Advances descend :=
  .of_keeps 1 0 fun s => keeps_descend (invariant_leadsTo s 1)

theorem advances_ascend (closing : Token) : Advances (ascend closing) :=
  .of_keeps 0 1 fun s => keeps_ascend (invariant_leadsTo s 1) Nat.one_pos closing

theorem advances_connective : Advances connective :=
  .of_keeps 0 0 fun s => keeps_connective (invariant_leadsTo s 0)

theorem advances_negation : Advances negation :=
  .of_keeps 0 0 fun s => keeps_negation (invariant_leadsTo s 0)

theorem advances_nested {contents : Nat → Parse α} (h : ∀ n, Advances (contents n))
    (levels : Nat) : Advances (nested contents levels) := by
  cases levels with
  | zero => exact advances_tooDeep
  | succ n => exact advances_descend.bind fun _ => h n

theorem advances_repeatAtMost {step : Parse (Option α)} (h : Advances step) (n : Nat) :
    Advances (repeatAtMost step n) := by
  induction n with
  | zero => exact advances_pure []
  | succ n ih =>
    refine h.bind fun found => ?_
    cases found with
    | none => exact advances_pure []
    | some a => exact ih.bind fun rest => advances_pure (a :: rest)

theorem Advances.repeated {step : Parse (Option α)} (h : Advances step) :
    Advances (repeated step) where
  ok hok := (advances_repeatAtMost h _).ok hok
  error herror := (advances_repeatAtMost h _).error herror

/-- What stands behind the contents of a group. -/
theorem advances_closing {closing : Token} (f : α → β) (a : α) :
    Advances (ascend closing >>= fun _ => pure (f a)) :=
  (advances_ascend closing).bind fun _ => advances_pure (f a)

theorem advances_group {contents : Parse (Disjunction α)} (h : Advances contents) :
    Advances (group contents) :=
  advances_negation.bind fun _ => h.bind (advances_closing _)

theorem advances_sequence {operand : Parse (Operand α)}
    {step : Parse (Option (Connective × Operand α))} (h : Advances operand)
    (hstep : Advances step) : Advances (sequence operand step) :=
  h.bind fun _ => hstep.repeated.bind fun _ => advances_pure _

end Parse

open Parse

/-! ## 3. The two strategies -/

namespace Lookahead

theorem advances_operand {leaf : Parse α} {contents : Parse (Disjunction α)} (h : Advances leaf)
    (hcontents : Advances contents) : Advances (operand leaf contents) := by
  refine advances_current.bind fun token => ?_
  split
  · exact h.bind fun _ => advances_pure _
  · exact h.bind fun _ => advances_pure _
  · exact advances_group hcontents
  · exact advances_group hcontents
  · exact advances_mismatch _

theorem advances_continuation {operand : Parse (Operand α)} (h : Advances operand) :
    Advances (continuation operand) := by
  refine (advances_accept .space).bind fun found => ?_
  split
  · exact advances_connective.bind fun _ => (advances_require .space).bind fun _ =>
      h.bind fun _ => advances_pure _
  · exact advances_pure none

theorem advances_operands {operand : Parse (Operand α)} (h : Advances operand) :
    Advances (operands operand) :=
  advances_sequence h (advances_continuation h)

theorem advances_combination {leaf : Nat → Parse α} (h : ∀ n, Advances (leaf n)) (levels : Nat) :
    Advances (combination leaf levels) := by
  induction levels with
  | zero => exact advances_operands (advances_operand (h 0) advances_tooDeep)
  | succ levels ih =>
    exact advances_operands (advances_operand (h (levels + 1)) (advances_descend.bind fun _ => ih))

theorem advances_condition (levels : Nat) : Advances (condition levels) :=
  .of_keeps levels levels fun s => keeps_condition (invariant_leadsTo s levels) (Nat.le_refl _)

/-- **A filter is parsed forwards** by looking ahead. -/
theorem advances_wholeFilter (levels : Nat) : Advances (wholeFilter levels) :=
  .of_keeps levels levels fun s => keeps_wholeFilter (invariant_leadsTo s levels) (Nat.le_refl _)

end Lookahead

/-- **A filter is parsed forwards** by trying alternatives. -/
theorem OrderedChoice.advances_wholeFilter (levels : Nat) : Advances (wholeFilter levels) :=
  .of_keeps levels levels fun s => keeps_wholeFilter (invariant_leadsTo s levels) (Nat.le_refl _)

end ScimQuery
