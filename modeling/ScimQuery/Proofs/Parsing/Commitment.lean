/-
ScimQuery.Proofs.Parsing.Commitment — looking ahead takes no token that fits
nowhere.

The strategy commits itself by single tokens: to a group or a condition, to a
test or brackets, and to one more operand or none. Every such decision picks
one of the languages in a sum, and it is right because the other ones have no
row that starts with that token. So the strategy keeps track (`Tracks`) of what
may still come: of an operand (`tracks_operand`), of what goes on behind it
(`tracks_continuation`), and with that of combinations and filters.

Groups and brackets are where the depth comes in. What stands in them is run
one level deeper, and the mark that closes them leads back up
(`tracks_enclosed`). With no level left, the error is about a mark that fits
where it is.
-/
import ScimQuery.Proofs.Parsing.Tracking

namespace ScimQuery

open Language Token TokenStream

variable {α β : Type} {limit n : Nat} {s m : TokenStream} {token : Token} {rest : List Token}
  {mid left inner : Language Token} {later : α → Language Token}

/-! ## 1. What phrases start with -/

theorem startsGroup_of_mem (h : token :: rest ∈ groupRows inner * left) : token.StartsGroup := by
  rw [groupRows, negationRows, add_mul, one_mul, add_mul, mul_assoc, mul_assoc, mem_add,
    mul_assoc, cons_mem_ofToken_mul, cons_mem_ofToken_mul] at h
  obtain ⟨rfl, -⟩ | ⟨rfl, -⟩ := h
  · trivial
  · trivial

theorem StartsWithPath.startsPath_of_mem {leaf : List Token → α → Prop} (h : StartsWithPath leaf)
    (hmem : token :: rest ∈ spelled leaf * left) : token.StartsPath := by
  obtain ⟨row, ⟨a, ha⟩, behind, -, happend⟩ := mem_mul.mp hmem
  obtain ⟨first, tail, rfl, hstarts⟩ := h ha
  obtain ⟨rfl, -⟩ := List.cons_eq_cons.mp happend
  exact hstarts

theorem exists_mem_tailRows (h : ∃ rest, rest ∈ left) : ∃ rest, rest ∈ tailRows * left :=
  exists_mem_mul ⟨_, (mem_tailRows ⟨none, "", none⟩).mpr ⟨.present _, rfl, rfl⟩⟩ h

theorem exists_spells_test : ∃ row, row ∈ spelled AttributeTest.Spells :=
  ⟨_, .present ⟨none, "", none⟩, rfl⟩

theorem exists_spells_condition : ∃ row, row ∈ spelled Condition.Spells := by
  obtain ⟨row, test, h⟩ := exists_spells_test
  exact ⟨row, .test test, h⟩

namespace Parse

/-! ## 2. Groups and brackets -/

theorem tracks_ensure (token : Token) (hleft : ∃ rest, rest ∈ left) :
    Tracks limit s (ensure token) (ofToken token * left) fun _ => ofToken token * left := by
  refine .of_current ?_
  by_cases h : s.current = token
  · rw [if_pos h]
    exact tracks_pure rfl
  · rw [if_neg h]
    refine tracks_mismatch _ (exists_mem_ofToken_mul token hleft) ?_
    exact fun rest hmem => h (cons_mem_ofToken_mul.mp hmem).1

theorem tracks_negation (hs : s.HasRoom limit n) (hleft : ∃ rest, rest ∈ left) :
    Tracks limit s negation (negationRows * (ofToken .openParen * left))
      fun _ => ofToken .openParen * left := by
  have hparen (negated : Bool) (m : TokenStream) (hm : m.HasRoom limit n) :
      Tracks limit m (ensure .openParen >>= fun _ => pure negated) (ofToken .openParen * left)
        fun _ => ofToken .openParen * left :=
    (tracks_ensure .openParen hleft).bind_pure hm fun _ => negated
  have hno {token : Token} (htoken : token ≠ .openParen) (rest : List Token) :
      token :: rest ∉ ofToken .openParen * left :=
    fun hmem => htoken (cons_mem_ofToken_mul.mp hmem).1
  rw [negationRows, add_mul, one_mul, mul_assoc, add_mul, one_mul]
  refine tracks_accept_bind hs (plain_token (by decide) rfl) ?_ (fun _ => hparen false s hs)
    (hno (by decide))
  exact tracks_accept_bind hs.next (plain_token (by decide) rfl) (hparen true _ hs.next.next)
    (fun _ => hparen true _ hs.next) (hno (by decide))

/-- What is nested is run one level deeper. With no level left, the mark that
opens it would have fitted. -/
theorem tracksTo_nested {contents : Nat → Parse α} (hs : s.HasRoom limit n)
    (hopening : s.current.isOpening) (hmid : ∃ rest, rest ∈ mid)
    (h : ∀ k < n, ∀ m : TokenStream, m.HasRoom limit k → Tracks limit m (contents k) mid later) :
    TracksTo limit s (s.depth + 1) (nested contents n) (ofToken s.current * mid) later := by
  cases n with
  | zero =>
    constructor
    · intro a m hok
      exact absurd hok tooDeep_ne_ok
    · intro e m herror
      rw [nested, tooDeep, EStateM.Result.error.injEq] at herror
      obtain ⟨rfl, rfl⟩ := herror
      obtain ⟨rest, hrest⟩ := hmid
      exact ⟨[], .refl s, hopening, rest, cons_mem_ofToken_mul.mpr ⟨rfl, hrest⟩⟩
  | succ k =>
    have htracks := h k (Nat.lt_succ_self k) _ hs.down
    have hdown := hs.reaches_down hopening
    constructor
    · intro a m hok
      obtain ⟨row, hrow, hdepth, hleaves⟩ := htracks.ok hok
      exact ⟨_, hdown.trans hrow, hdepth, (Leaves.ofToken _ _).trans hleaves hrow.exists_cons⟩
    · intro e m herror
      obtain ⟨row, hrow, hblames⟩ := htracks.error herror
      exact ⟨_, hdown.trans hrow, hblames.behind (.ofToken _ _) hrow.exists_cons⟩

/-- The mark that closes a group or a bracket leads up again. -/
theorem tracksTo_ascend {closing : Token} (hs : s.HasRoom limit n) (hclosing : closing.isClosing)
    (hleft : ∃ rest, rest ∈ left) :
    TracksTo limit s (s.depth - 1) (ascend closing) (ofToken closing * left) fun _ => left := by
  constructor
  · intro u m hok
    obtain ⟨rfl, rfl⟩ := ascend_eq_ok_iff.mp hok
    exact ⟨_, hs.reaches_up hclosing, rfl, .ofToken _ _⟩
  · intro e m herror
    exact (tracks_ensure closing hleft).error (ascend_eq_error_iff.mp herror)

/-- What is enclosed, and the mark that closes it. -/
theorem tracks_enclosed {contents : Nat → Parse α} {opening closing : Token} (f : α → β)
    (hs : s.HasRoom limit n) (hopening : opening.isOpening) (hclosing : closing.isClosing)
    (hcurrent : s.current = opening) (hinner : ∃ row, row ∈ inner) (hleft : ∃ rest, rest ∈ left)
    (h : ∀ k < n, ∀ m : TokenStream, m.HasRoom limit k → Tracks limit m (contents k)
      (inner * (ofToken closing * left)) fun _ => ofToken closing * left) :
    Tracks limit s (nested contents n >>= fun a => ascend closing >>= fun _ => pure (f a))
      (ofToken opening * (inner * (ofToken closing * left))) fun _ => left := by
  have hmid := exists_mem_mul hinner (exists_mem_ofToken_mul closing hleft)
  subst hcurrent
  refine (tracksTo_nested hs hopening hmid h).bind hs fun a m _ hm hdepth => ?_
  have hup : m.depth - 1 = s.depth := by omega
  refine (hup ▸ tracksTo_ascend hm hclosing hleft).bind hm fun _ m' _ _ hdepth' => ?_
  exact hdepth' ▸ tracks_pure rfl

theorem tracks_group {contents : Nat → Parse (Disjunction α)} (hs : s.HasRoom limit n)
    (hinner : ∃ row, row ∈ inner) (hleft : ∃ rest, rest ∈ left)
    (h : ∀ k < n, ∀ m : TokenStream, m.HasRoom limit k → Tracks limit m (contents k)
      (inner * (ofToken .closeParen * left)) fun _ => ofToken .closeParen * left) :
    Tracks limit s (group (nested contents n)) (groupRows inner * left) fun _ => left := by
  have hmid := exists_mem_mul hinner (exists_mem_ofToken_mul .closeParen hleft)
  rw [groupRows, mul_assoc, mul_assoc, mul_assoc]
  refine (tracks_negation hs hmid).bind hs fun negated m hok hm => ?_
  exact tracks_enclosed _ hm rfl rfl (negation_eq_ok_iff.mp hok).1 hinner hleft h

theorem tracks_valuesOf {contents : Nat → Parse ValueFilter} (path : AttributePath)
    (hs : s.HasRoom limit n) (hinner : ∃ row, row ∈ inner) (hleft : ∃ rest, rest ∈ left)
    (h : ∀ k < n, ∀ m : TokenStream, m.HasRoom limit k → Tracks limit m (contents k)
      (inner * (ofToken .closeBracket * left)) fun _ => ofToken .closeBracket * left) :
    Tracks limit s (valuesOf (nested contents n) path) (bracketRows inner * left)
      fun _ => left := by
  have hmid := exists_mem_mul hinner (exists_mem_ofToken_mul .closeBracket hleft)
  rw [bracketRows, mul_assoc, mul_assoc]
  refine (tracks_ensure .openBracket hmid).bind hs fun _ m hok hm => ?_
  obtain ⟨hcurrent, rfl⟩ := ensure_eq_ok_iff.mp hok
  exact tracks_enclosed _ hm rfl rfl hcurrent hinner hleft h

/-! ## 3. Rows of operands -/

/-- A step of a loop leaves one more turn, or what stands behind the loop. -/
def laterStep (turns left : Language Token) : Option α → Language Token
  | some _ => turns
  | none => left

/-- A loop over a step that takes a token or more. -/
theorem tracks_repeatAtMost {step : Parse (Option α)} {turns : Language Token}
    (hstep : ∀ m : TokenStream, m.HasRoom limit n →
      Tracks limit m step turns (laterStep turns left))
    (hshortens : Shortens step) {k : Nat} (hs : s.HasRoom limit n) (hk : s.rest.length ≤ k) :
    Tracks limit s (repeatAtMost step k) turns fun _ => left := by
  induction k generalizing s with
  | zero =>
    have hpos := hs.ended.rest_pos
    omega
  | succ k ih =>
    refine (hstep s hs).bind hs fun found m hok hm => ?_
    cases found with
    | none => exact tracks_pure rfl
    | some a =>
      have hlength := (hshortens hs.ended hok).2
      exact (ih hm (by omega)).bind_pure hm _

theorem tracks_sequence {operand : Parse (Operand α)}
    {step : Parse (Option (Connective × Operand α))} {first turns : Language Token}
    (hs : s.HasRoom limit n)
    (hoperand : Tracks limit s operand (first * turns) fun _ => turns)
    (hstep : ∀ m : TokenStream, m.HasRoom limit n →
      Tracks limit m step turns (laterStep turns left))
    (hshortens : Shortens step) :
    Tracks limit s (sequence operand step) (first * turns) fun _ => left := by
  refine hoperand.bind hs fun _ m _ hm => ?_
  have hrepeated : repeated step m = repeatAtMost step m.rest.length m := rfl
  have htracks : Tracks limit m (repeated step) turns fun _ => left :=
    .of_eq hrepeated (tracks_repeatAtMost hstep hshortens hm (Nat.le_refl m.rest.length))
  exact htracks.bind_pure hm _

end Parse

open Parse

/-! ## 4. Combinations -/

namespace Lookahead

variable {leaf : List Token → α → Prop}

/-- The first token of an operand tells a condition from a group. -/
theorem tracks_operand {parser : Parse α} {contents : Nat → Parse (Disjunction α)}
    (hs : s.HasRoom limit n) (hstart : StartsWithPath leaf) (hexists : ∃ row, row ∈ spelled leaf)
    (hleft : ∃ rest, rest ∈ left)
    (hleaf : Tracks limit s parser (spelled leaf * left) fun _ => left)
    (hgroup : Tracks limit s (group (nested contents n)) (groupRows inner * left) fun _ => left) :
    Tracks limit s (operand parser (nested contents n)) ((spelled leaf + groupRows inner) * left)
      fun _ => left := by
  rw [add_mul]
  refine .of_current ?_
  have hcondition (hpath : s.current.StartsPath) :
      Tracks limit s (parser >>= fun a => pure (Operand.leaf a))
        (spelled leaf * left + groupRows inner * left) fun _ => left :=
    .of_leaves (.inl fun _ hmem => hpath.not_startsGroup (startsGroup_of_mem hmem))
      (hleaf.bind_pure hs _)
  have hnested (hstarts : s.current.StartsGroup) :
      Tracks limit s (group (nested contents n))
        (spelled leaf * left + groupRows inner * left) fun _ => left :=
    .of_leaves (.inr fun _ hmem => (hstart.startsPath_of_mem hmem).not_startsGroup hstarts) hgroup
  have hnone (hpath : ¬ s.current.StartsPath) (hstarts : ¬ s.current.StartsGroup) :
      Tracks limit s (mismatch .operand : Parse (Operand α))
        (spelled leaf * left + groupRows inner * left) fun _ => left := by
    refine tracks_mismatch _ ?_ ?_
    · obtain ⟨rest, hrest⟩ := exists_mem_mul hexists hleft
      exact ⟨rest, .inl hrest⟩
    · rintro rest (hmem | hmem)
      · exact hpath (hstart.startsPath_of_mem hmem)
      · exact hstarts (startsGroup_of_mem hmem)
  generalize s.current = token at *
  cases token with
  | urn urn => exact hcondition trivial
  | «attribute» name => exact hcondition trivial
  | openParen => exact hnested trivial
  | keyword keyword =>
    cases keyword with
    | negation => exact hnested trivial
    | _ => exact hnone id id
  | _ => exact hnone id id

/-- A space leads to one more operand, and everything else behind the row. -/
theorem tracks_continuation {operand : Parse (Operand α)} {operands turns : Language Token}
    (hs : s.HasRoom limit n) (hturns : ∃ rest, rest ∈ operands * turns)
    (hspace : ∀ rest, .space :: rest ∉ left)
    (hoperand : ∀ m : TokenStream, m.HasRoom limit n →
      Tracks limit m operand (operands * turns) fun _ => turns) :
    Tracks limit s (continuation operand) (joinRows operands * turns + left)
      (laterStep turns left) := by
  have hplain : Plain (· = .space) := plain_token (by decide) rfl
  have hbehind := exists_mem_ofToken_mul .space hturns
  rw [joinRows, mul_assoc, mul_assoc, mul_assoc]
  refine tracks_accept_bind hs hplain ?_ (fun _ => tracks_pure rfl) hspace
  refine (takes_connective.tracks plain_isConnective hs.next hbehind).bind hs.next
    fun c m _ hm => ?_
  refine ((takes_require .space).tracks hplain hm hturns).bind hm fun _ m _ hm => ?_
  exact (hoperand m hm).bind hm fun _ _ _ _ => tracks_pure rfl

/-- **A combination keeps track** of what may still come, if its conditions
do. No space may come behind it, since that would have to go on with it. -/
theorem tracks_combination {parser : Nat → Parse α} {size : α → Nat} (hstart : StartsWithPath leaf)
    (hexists : ∃ row, row ∈ spelled leaf)
    (hparses : ∀ n, Parses (parser n) fun tokens a => leaf tokens a ∧ size a ≤ n)
    (hleaf : ∀ n (left : Language Token) (m : TokenStream), m.HasRoom limit n →
      (∃ rest, rest ∈ left) → Tracks limit m (parser n) (spelled leaf * left) fun _ => left)
    (levels : Nat) (left : Language Token) (s : TokenStream) (hs : s.HasRoom limit levels)
    (hleft : ∃ rest, rest ∈ left) (hspace : ∀ rest, .space :: rest ∉ left) :
    Tracks limit s (combination parser levels) (spelled (Disjunction.Spells leaf) * left)
      fun _ => left := by
  -- What stands in a group is a combination with a level less.
  induction levels using Nat.strongRecOn generalizing left s with
  | ind levels ih =>
    let turns := spelled (Continues (Operand.Spells leaf)) * left
    have hturns : ∃ rest, rest ∈ turns :=
      exists_mem_mul ⟨[], [], .nil⟩ hleft
    have hoperand (m : TokenStream) (hm : m.HasRoom limit levels) :
        Tracks limit m (operand (parser levels) (nested (combination parser) levels))
          (spelled (Operand.Spells leaf) * turns) fun _ => turns := by
      rw [spelled_operand]
      refine tracks_operand hm hstart hexists hturns (hleaf levels turns m hm hturns) ?_
      refine tracks_group hm (exists_mem_spelled_combination hexists) hturns fun k hk m hm => ?_
      refine ih k hk _ m hm (exists_mem_ofToken_mul _ hturns) ?_
      simp
    have hloop : turns = joinRows (spelled (Operand.Spells leaf)) * turns + left := by
      show spelled (Continues (Operand.Spells leaf)) * left = _
      rw [spelled_continues, add_mul, one_mul, mul_assoc]
    have hnonempty : ∃ rest, rest ∈ spelled (Operand.Spells leaf) * turns := by
      obtain ⟨row, a, ha⟩ := hexists
      exact exists_mem_mul ⟨row, .leaf a, .leaf ha⟩ hturns
    have hstep (m : TokenStream) (hm : m.HasRoom limit levels) :
        Tracks limit m (continuation (operand (parser levels) (nested (combination parser) levels)))
          turns (laterStep turns left) := by
      have h := tracks_continuation hm hnonempty hspace hoperand
      rwa [← hloop] at h
    rw [combination_eq, spelled_combination, mul_assoc]
    exact tracks_sequence hs (hoperand s hs) hstep
      (steps_continuation (parses_operandOf hstart hparses levels)).shortens

/-! ## 5. Filters -/

theorem tracks_attributeTest (left : Language Token) (s : TokenStream) (hs : s.HasRoom limit n)
    (hleft : ∃ rest, rest ∈ left) :
    Tracks limit s attributeTest (spelled AttributeTest.Spells * left) fun _ => left := by
  rw [spelled_test, mul_assoc]
  refine (tracks_attributePath hs (exists_mem_tailRows hleft) ?_).bind hs fun path m _ hm => ?_
  · rw [tailRows]
    simp [mul_assoc]
  · exact tracks_testOf path hm hleft

/-- What stands in brackets. -/
theorem tracks_valueFilter (levels : Nat) (left : Language Token) (s : TokenStream)
    (hs : s.HasRoom limit levels) (hleft : ∃ rest, rest ∈ left)
    (hspace : ∀ rest, .space :: rest ∉ left) :
    Tracks limit s (valueFilter levels) (spelled ValueFilter.Spells * left) fun _ => left :=
  tracks_combination AttributeTest.startsWithPath exists_spells_test parses_valueTest
    (fun _ left m hm hleft => tracks_attributeTest left m hm hleft) levels left s hs hleft hspace

/-- The token behind the path tells a test from brackets. -/
theorem tracks_condition (levels : Nat) (left : Language Token) (s : TokenStream)
    (hs : s.HasRoom limit levels) (hleft : ∃ rest, rest ∈ left) :
    Tracks limit s (condition levels) (spelled Condition.Spells * left) fun _ => left := by
  have hinner : ∃ row, row ∈ spelled ValueFilter.Spells :=
    exists_mem_spelled_combination exists_spells_test
  have htail := exists_mem_tailRows hleft
  have hbrackets (path : AttributePath) (m : TokenStream) (hm : m.HasRoom limit levels) :
      Tracks limit m (valuesOf (nested valueFilter levels) path)
        (bracketRows (spelled ValueFilter.Spells) * left) fun _ => left :=
    tracks_valuesOf path hm hinner hleft fun k hk m hm =>
      tracks_valueFilter k _ m hm (exists_mem_ofToken_mul _ hleft) (by simp)
  rw [spelled_condition, mul_assoc, add_mul]
  have hexists :
      ∃ rest, rest ∈ tailRows * left + bracketRows (spelled ValueFilter.Spells) * left := by
    obtain ⟨rest, hrest⟩ := htail
    exact ⟨rest, .inl hrest⟩
  have hmem {token : Token} {rest : List Token} :
      token :: rest ∈ tailRows * left + bracketRows (spelled ValueFilter.Spells) * left →
        token = .space ∨ token = .openBracket := by
    rw [tailRows, bracketRows, mem_add]
    simp only [mul_assoc, cons_mem_ofToken_mul]
    exact Or.imp And.left And.left
  refine (tracks_attributePath hs hexists fun rest h => ?_).bind hs fun path m _ hm => ?_
  · exact absurd (hmem h) (by decide)
  refine .of_current ?_
  cases hcurrent : m.current with
  | space =>
    refine .of_leaves (.inl ?_) ((tracks_testOf path hm hleft).bind_pure hm _)
    simp [hcurrent, bracketRows, mul_assoc]
  | openBracket =>
    refine .of_leaves (.inr ?_) ((hbrackets path m hm).bind_pure hm _)
    simp [hcurrent, tailRows, mul_assoc]
  | _ =>
    refine tracks_mismatch _ hexists fun rest h => ?_
    have := hmem h
    simp [hcurrent] at this

/-- **A filter keeps track** of what may still come. -/
theorem tracks_filter (levels : Nat) (left : Language Token) (s : TokenStream)
    (hs : s.HasRoom limit levels) (hleft : ∃ rest, rest ∈ left)
    (hspace : ∀ rest, .space :: rest ∉ left) :
    Tracks limit s (filter levels) (spelled Filter.Spells * left) fun _ => left :=
  tracks_combination Condition.startsWithPath exists_spells_condition parses_condition
    tracks_condition levels left s hs hleft hspace

/-! ## 6. Whole texts -/

/-- The rows of filters, with the end behind them. -/
def sentences : Language Token :=
  spelled Filter.Spells * ofToken .eof

theorem tracks_filter_sentences {levels : Nat} (hs : s.HasRoom limit levels) :
    Tracks limit s (filter levels) sentences fun _ => ofToken .eof := by
  refine tracks_filter levels _ s hs ⟨_, mem_ofToken.mpr rfl⟩ fun rest hmem => ?_
  obtain ⟨heof, -⟩ := List.cons_eq_cons.mp (mem_ofToken.mp hmem)
  cases heof

/-- An error about a whole filter blames the token that it is raised at. -/
theorem blames_wholeFilter {levels : Nat} {e : ParseError} (hs : s.HasRoom limit levels)
    (h : wholeFilter levels s = .error e m) :
    ∃ row, s.Reaches limit row m ∧ e.Blames sentences row m.current := by
  have hwhole : Tracks limit s (filter levels >>= fun _ => ensure .eof) sentences
      fun _ => ofToken .eof := by
    refine (tracks_filter_sentences hs).bind hs fun _ m _ _ => ?_
    rw [← mul_one (ofToken .eof)]
    exact tracks_ensure .eof ⟨[], nil_mem_one⟩
  refine hwhole.error ?_
  rcases bind_eq_error_iff.mp h with h | ⟨filter, m', hfilter, h⟩
  · exact bind_eq_error_iff.mpr (.inl h)
  · refine bind_eq_error_iff.mpr (.inr ⟨filter, m', hfilter, ?_⟩)
    rcases bind_eq_error_iff.mp h with h | ⟨_, _, _, h⟩
    · exact require_eq_error_iff.mp h
    · cases h

/-- A whole filter is read up to an end that nothing may come behind. -/
theorem reaches_of_wholeFilter {levels : Nat} {f : Filter} {m' : TokenStream}
    (hs : s.HasRoom limit levels) (h : wholeFilter levels s = .ok f m') :
    ∃ row m, s.Reaches limit row m ∧ m.current = .eof ∧
      ∀ {rest}, row ++ .eof :: rest ∈ sentences → rest = [] := by
  obtain ⟨f', m, hfilter, hend⟩ := bind_eq_ok_iff.mp h
  obtain ⟨heof, -⟩ := require_bind_eq_ok_iff.mp hend
  obtain ⟨row, hrow, -, hleaves⟩ := (tracks_filter_sentences hs).ok hfilter
  refine ⟨row, m, hrow, heof, fun {rest} hmem => ?_⟩
  have hlast := hleaves.mem_of_append (heof ▸ hmem)
  obtain ⟨-, rfl⟩ := List.cons_eq_cons.mp (mem_ofToken.mp hlast)
  rfl

end Lookahead

end ScimQuery
