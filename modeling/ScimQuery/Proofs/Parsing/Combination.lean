/-
ScimQuery.Proofs.Parsing.Combination — what groups, brackets and rows of
operands parse.

Two notions describe a parser by a grammar. `Parses`: the parser succeeds
exactly over the tokens that the grammar has for its result. `ParsesUntil`:
the same for a parser that goes on as far as it can, with what makes it
stop. Both are about streams that end with the end of the text.

The contents of a group or a bracket are parsed one level deeper
(`Encloses`), and the way up restores the depth. So a group or a bracket as
a whole is described by `Parses` again, and the depth has no part in it.
-/
import ScimQuery.Proofs.Parsing.Phrase

namespace ScimQuery

open TokenStream

variable {α : Type}

/-! ## 1. Parsers and grammars -/

/-- The parser succeeds exactly over the tokens that the grammar has for its
result. -/
def Parses (parser : Parse α) (grammar : List Token → α → Prop) : Prop :=
  ∀ ⦃s a s'⦄, s.Ended →
    (parser s = .ok a s' ↔ ∃ tokens, s.Over tokens s' ∧ grammar tokens a)

/-- The parser succeeds exactly over the tokens that the grammar has for its
result, up to a stream where it stops. -/
def ParsesUntil (stops : TokenStream → Prop) (parser : Parse α)
    (grammar : List Token → α → Prop) : Prop :=
  ∀ ⦃s a s'⦄, s.Ended →
    (parser s = .ok a s' ↔ ∃ tokens, s.Over tokens s' ∧ grammar tokens a ∧ stops s')

/-- The parser is run on a token that opens a group or a bracket, and goes
over what is in it, up to a stream where it stops. -/
def Encloses (stops : TokenStream → Prop) (contents : Parse α)
    (grammar : List Token → α → Prop) : Prop :=
  ∀ ⦃s a s'⦄, s.Ended →
    (contents s = .ok a s' ↔ ∃ inner, (s.next.atDepth (s.depth + 1)).Over inner s' ∧
      grammar inner a ∧ stops s')

/-- A parser that stops at least where no space follows. -/
def StopsAtMark (stops : TokenStream → Prop) : Prop :=
  ∀ ⦃s⦄, s.current ≠ .space → stops s

variable {stops : TokenStream → Prop} {grammar : List Token → α → Prop} {s s' : TokenStream}

/-- The way up, from one level deeper. -/
theorem TokenStream.next_atDepth_pred :
    (s.atDepth (s.depth + 1)).next.atDepth ((s.atDepth (s.depth + 1)).depth - 1) = s.next := by
  have hdepth : (s.atDepth (s.depth + 1)).depth - 1 = s.next.depth := by
    rw [next_depth]
    rfl
  rw [hdepth, next_atDepth, atDepth_atDepth, atDepth_self]

/-- What is enclosed and the mark that closes it leave the depth as it was. -/
theorem Encloses.ascend_iff {contents : Parse α} {closing : Token} {β : Type} {f : α → β} {b : β}
    (h : Encloses stops contents grammar) (hs : s.Ended) (hstops : StopsAtMark stops)
    (hspace : closing ≠ .space) (heof : closing ≠ .eof) :
    (contents >>= fun a => Parse.ascend closing >>= fun _ => pure (f a)) s = .ok b s' ↔
      ∃ a inner, f a = b ∧ grammar inner a ∧ s.next.Over (inner ++ [closing]) s' := by
  simp only [Parse.bind_eq_ok_iff, Parse.ascend_eq_ok_iff, Parse.pure_eq_ok_iff, h hs, over_atDepth,
    over_append, over_singleton]
  have hdepth {m : TokenStream} {inner : List Token} (hinner : s.next.Over inner m) :
      s.depth = m.depth := by
    rw [hinner.depth_eq, next_depth]
  constructor
  · intro h'
    obtain ⟨a, _, ⟨inner, ⟨m, hinner, rfl⟩, ha, -⟩, _, _, ⟨hcurrent, rfl⟩, rfl, rfl⟩ := h'
    rw [hdepth hinner, next_atDepth_pred]
    exact ⟨a, inner, rfl, ha, m, hinner, hcurrent, heof, rfl⟩
  · intro h'
    obtain ⟨a, inner, rfl, ha, m, hinner, hcurrent, -, rfl⟩ := h'
    have hspace' : (m.atDepth (s.depth + 1)).current ≠ .space := by
      rwa [current_atDepth, hcurrent]
    refine ⟨a, _, ⟨inner, ⟨m, hinner, rfl⟩, ha, hstops hspace'⟩, (), m.next, ⟨hcurrent, ?_⟩,
      rfl, rfl⟩
    rw [hdepth hinner, next_atDepth_pred]

namespace Parse

/-! ## 2. Groups and brackets -/

/-- The tokens of a group, given those of its contents. -/
def GroupSpells (grammar : List Token → Disjunction α → Prop) (tokens : List Token)
    (o : Operand α) : Prop :=
  ∃ negated opening inner d, o = .group negated d ∧ Opens negated opening ∧ grammar inner d ∧
    tokens = opening ++ inner ++ [.closeParen]

/-- The tokens of an operand, given those of a condition and of what is in a
group. -/
def OperandSpells (leaf : List Token → α → Prop) (grammar : List Token → Disjunction α → Prop)
    (tokens : List Token) (o : Operand α) : Prop :=
  (∃ a, o = .leaf a ∧ leaf tokens a) ∨ GroupSpells grammar tokens o

/-- The tokens of filtered values, given those of the filter. -/
def ValuesSpell (grammar : List Token → ValueFilter → Prop) (tokens : List Token)
    (v : ValuePath) : Prop :=
  ∃ inner, grammar inner v.filter ∧
    tokens = v.path.tokens ++ .openBracket :: (inner ++ [.closeBracket])

theorem parses_group {contents : Parse (Disjunction α)}
    {grammar : List Token → Disjunction α → Prop} (h : Encloses stops contents grammar)
    (hstops : StopsAtMark stops) : Parses (group contents) (GroupSpells grammar) := by
  intro s o s' hs
  rw [group, bind_eq_ok_iff]
  simp only [negation_eq_ok_iff]
  constructor
  · intro h'
    obtain ⟨negated, m, ⟨hopen, front, hopens, hfront⟩, hgroup⟩ := h'
    obtain ⟨d, inner, rfl, hd, hinner⟩ :=
      (h.ascend_iff (hs.over hfront) hstops (by decide) (by decide)).mp hgroup
    refine ⟨_, ?_, negated, _, inner, d, rfl, hopens, hd, rfl⟩
    simp only [List.append_assoc, List.singleton_append]
    exact over_append.mpr ⟨m, hfront, hopen, by decide, hinner⟩
  · intro h'
    obtain ⟨_, hover, negated, opening, inner, d, rfl, hopens, hd, rfl⟩ := h'
    obtain ⟨front, rfl⟩ := hopens.exists_append
    simp only [List.append_assoc, List.singleton_append] at hover
    obtain ⟨m, hfront, hopen, -, hinner⟩ := over_append.mp hover
    exact ⟨negated, m, ⟨hopen, front, hopens, hfront⟩,
      (h.ascend_iff (hs.over hfront) hstops (by decide) (by decide)).mpr
        ⟨d, inner, rfl, hd, hinner⟩⟩

/-- Filtered values of the path, over what stands behind the path. -/
theorem valuesOf_eq_ok_iff {contents : Parse ValueFilter}
    {grammar : List Token → ValueFilter → Prop} (h : Encloses stops contents grammar)
    (hstops : StopsAtMark stops) (hs : s.Ended) {path : AttributePath} {v : ValuePath} :
    valuesOf contents path s = .ok v s' ↔
      v.path = path ∧ ∃ inner, grammar inner v.filter ∧
        s.Over (.openBracket :: (inner ++ [.closeBracket])) s' := by
  unfold valuesOf
  rw [ensure_bind_eq_ok_iff, h.ascend_iff hs hstops (by decide) (by decide)]
  constructor
  · intro h'
    obtain ⟨hopen, filter, inner, rfl, hfilter, hinner⟩ := h'
    exact ⟨rfl, inner, hfilter, hopen, by decide, hinner⟩
  · intro h'
    obtain ⟨rfl, inner, hfilter, hopen, -, hinner⟩ := h'
    exact ⟨hopen, v.filter, inner, rfl, hfilter, hinner⟩

theorem parses_valuePath {contents : Parse ValueFilter}
    {grammar : List Token → ValueFilter → Prop} (h : Encloses stops contents grammar)
    (hstops : StopsAtMark stops) : Parses (valuePath contents) (ValuesSpell grammar) := by
  intro s v s' hs
  simp only [valuePath, bind_eq_ok_iff, attributePath_eq_ok_iff]
  constructor
  · intro h'
    obtain ⟨path, m, ⟨hpath, -⟩, hvalues⟩ := h'
    obtain ⟨rfl, inner, hinner, hover⟩ :=
      (valuesOf_eq_ok_iff h hstops (hs.over hpath)).mp hvalues
    exact ⟨_, over_append.mpr ⟨m, hpath, hover⟩, inner, hinner, rfl⟩
  · intro h'
    obtain ⟨_, hover, inner, hinner, rfl⟩ := h'
    obtain ⟨m, hpath, hover⟩ := over_append.mp hover
    refine ⟨v.path, m, ⟨hpath, fun _ => ?_⟩,
      (valuesOf_eq_ok_iff h hstops (hs.over hpath)).mpr ⟨rfl, inner, hinner, hover⟩⟩
    rw [(over_cons.mp hover).1]
    decide

/-! ## 3. Rows of operands -/

/-- A connective, a space and an operand, which go on a row behind its space. -/
theorem connective_bind_iff {β : Type} {operand : Parse (Operand α)}
    {grammar : List Token → Operand α → Prop} (hoperand : Parses operand grammar) (hs : s.Ended)
    {f : Connective → Operand α → β} {b : β} :
    (connective >>= fun c => require .space >>= fun _ => operand >>= fun o => pure (f c o)) s =
        .ok b s' ↔
      ∃ c o, f c o = b ∧
        ∃ tokens, s.Over (.keyword (.connective c) :: .space :: tokens) s' ∧ grammar tokens o := by
  simp only [bind_eq_ok_iff, require_eq_ok_iff, connective_eq_ok_iff, pure_eq_ok_iff,
    over_cons]
  constructor
  · intro h
    obtain ⟨c, _, ⟨hconnective, hne, rfl⟩, _, _, ⟨hspace, rfl⟩, o, _, ho, rfl, rfl⟩ := h
    obtain ⟨tokens, hover, ho⟩ := (hoperand hs.next.next).mp ho
    exact ⟨c, o, rfl, tokens, ⟨hconnective, hne, hspace, by decide, hover⟩, ho⟩
  · intro h
    obtain ⟨c, o, rfl, tokens, ⟨hconnective, hne, hspace, -, hover⟩, ho⟩ := h
    exact ⟨c, _, ⟨hconnective, hne, rfl⟩, (), _, ⟨hspace, rfl⟩, o, s',
      (hoperand hs.next.next).mpr ⟨tokens, hover, ho⟩, rfl, rfl⟩

/-- The step goes over a connective and an operand, or it finds nothing and
stays where it is. -/
structure Steps (stops : TokenStream → Prop) (step : Parse (Option (Connective × Operand α)))
    (grammar : List Token → Operand α → Prop) : Prop where
  some_iff : ∀ ⦃s connective o s'⦄, s.Ended → (step s = .ok (some (connective, o)) s' ↔
    ∃ tokens, s.Over (connective.tokens ++ tokens) s' ∧ grammar tokens o)
  none_iff : ∀ ⦃s s'⦄, s.Ended → (step s = .ok none s' ↔ s' = s ∧ stops s)

variable {step : Parse (Option (Connective × Operand α))}
  {grammar : List Token → Operand α → Prop}

theorem repeatAtMost_nil_iff {n : Nat} :
    repeatAtMost step (n + 1) s = .ok [] s' ↔ step s = .ok none s' := by
  rw [repeatAtMost, bind_eq_ok_iff]
  constructor
  · intro h
    obtain ⟨found, m, hstep, hrest⟩ := h
    cases found with
    | none =>
      obtain ⟨-, rfl⟩ := pure_eq_ok_iff.mp hrest
      exact hstep
    | some pair => simp [map_eq_ok_iff] at hrest
  · exact fun hstep => ⟨none, s', hstep, rfl⟩

theorem repeatAtMost_cons_iff {n : Nat} {pair : Connective × Operand α}
    {rest : List (Connective × Operand α)} :
    repeatAtMost step (n + 1) s = .ok (pair :: rest) s' ↔
      ∃ m, step s = .ok (some pair) m ∧ repeatAtMost step n m = .ok rest s' := by
  rw [repeatAtMost, bind_eq_ok_iff]
  constructor
  · intro h
    obtain ⟨found, m, hstep, hrest⟩ := h
    cases found with
    | none => simp [pure_eq_ok_iff] at hrest
    | some pair' =>
      simp only [bind_pure_comp, map_eq_ok_iff, List.cons.injEq] at hrest
      obtain ⟨_, hrest, rfl, rfl⟩ := hrest
      exact ⟨m, hstep, hrest⟩
  · intro h
    obtain ⟨m, hstep, hrest⟩ := h
    refine ⟨some pair, m, hstep, ?_⟩
    simp only [bind_pure_comp, map_eq_ok_iff]
    exact ⟨rest, hrest, rfl⟩

/-- The turns suffice, since every operand takes a token of the stream. -/
theorem repeatAtMost_eq_ok_iff (hstep : Steps stops step grammar) {n : Nat} (hs : s.Ended)
    (hn : s.rest.length ≤ n) {rest : List (Connective × Operand α)} :
    repeatAtMost step n s = .ok rest s' ↔
      ∃ tokens, s.Over tokens s' ∧ Continues grammar tokens rest ∧ stops s' := by
  have hpos := hs.rest_pos
  obtain ⟨n, rfl⟩ : ∃ m, n = m + 1 := ⟨n - 1, by omega⟩
  induction rest generalizing n s with
  | nil =>
    rw [repeatAtMost_nil_iff, hstep.none_iff hs]
    simp only [continues_nil_iff]
    constructor
    · intro h
      obtain ⟨rfl, hstops⟩ := h
      exact ⟨[], rfl, rfl, hstops⟩
    · intro h
      obtain ⟨_, hover, rfl, hstops⟩ := h
      rw [over_nil] at hover
      exact ⟨hover, hover ▸ hstops⟩
  | cons pair rest ih =>
    obtain ⟨connective, o⟩ := pair
    rw [repeatAtMost_cons_iff]
    simp only [hstep.some_iff hs, continues_cons_iff]
    have hrest {m : TokenStream} {front : List Token}
        (hover : s.Over (connective.tokens ++ front) m) :
        repeatAtMost step n m = .ok rest s' ↔
          ∃ tokens, m.Over tokens s' ∧ Continues grammar tokens rest ∧ stops s' := by
      have hlength := hs.length_over hover
      have hm := hs.over hover
      have hmpos := hm.rest_pos
      simp only [Connective.tokens, List.length_append, List.length_cons] at hlength
      obtain ⟨n, rfl⟩ : ∃ k, n = k + 1 := ⟨n - 1, by omega⟩
      exact ih hm hmpos n (by omega)
    constructor
    · intro h
      obtain ⟨m, ⟨front, hover, ho⟩, hturns⟩ := h
      obtain ⟨behind, hbehind, hcontinues, hstops⟩ := (hrest hover).mp hturns
      exact ⟨_, over_append.mpr ⟨m, hover, hbehind⟩, ⟨front, behind, ho, hcontinues, rfl⟩, hstops⟩
    · intro h
      obtain ⟨_, hover, ⟨front, behind, ho, hcontinues, rfl⟩, hstops⟩ := h
      obtain ⟨m, hover, hbehind⟩ := over_append.mp hover
      exact ⟨m, ⟨front, hover, ho⟩, (hrest hover).mpr ⟨behind, hbehind, hcontinues, hstops⟩⟩

/-- **An operand and the operands behind it**: a row, put together. -/
theorem parsesUntil_sequence {operand : Parse (Operand α)} (hoperand : Parses operand grammar)
    (hstep : Steps stops step grammar) :
    ParsesUntil stops (sequence operand step) fun tokens d =>
      ∃ first rest front behind, d = .ofSequence first rest ∧ grammar front first ∧
        Continues grammar behind rest ∧ tokens = front ++ behind := by
  intro s d s' hs
  simp only [sequence, bind_eq_ok_iff, pure_eq_ok_iff, hoperand hs]
  constructor
  · intro h
    obtain ⟨first, m, ⟨front, hfront, hfirst⟩, rest, _, hrest, rfl, rfl⟩ := h
    obtain ⟨behind, hbehind, hcontinues, hstops⟩ :=
      (repeatAtMost_eq_ok_iff hstep (hs.over hfront) (Nat.le_refl _)).mp hrest
    exact ⟨_, over_append.mpr ⟨m, hfront, hbehind⟩,
      ⟨first, rest, front, behind, rfl, hfirst, hcontinues, rfl⟩, hstops⟩
  · intro h
    obtain ⟨_, hover, ⟨first, rest, front, behind, rfl, hfirst, hcontinues, rfl⟩, hstops⟩ := h
    obtain ⟨m, hfront, hbehind⟩ := over_append.mp hover
    exact ⟨first, m, ⟨front, hfront, hfirst⟩, rest, s',
      (repeatAtMost_eq_ok_iff hstep (hs.over hfront) (Nat.le_refl _)).mpr
        ⟨behind, hbehind, hcontinues, hstops⟩, rfl, rfl⟩

end Parse

/-! ## 4. Nesting within a limit -/

/-- The tokens spell an operand that is nested `n` deep at most. -/
def Operand.SpellsWithin (leaf : List Token → α → Prop) (size : α → Nat) (n : Nat)
    (tokens : List Token) (o : Operand α) : Prop :=
  o.Spells leaf tokens ∧ o.nesting size ≤ n

/-- The tokens spell a disjunction that is nested `n` deep at most. -/
def Disjunction.SpellsWithin (leaf : List Token → α → Prop) (size : α → Nat) (n : Nat)
    (tokens : List Token) (d : Disjunction α) : Prop :=
  d.Spells leaf tokens ∧ d.nesting size ≤ n

/-- The tokens spell a disjunction that may stand in a group or a bracket of
which `n` may be open at once. -/
def Disjunction.SpellsBelow (leaf : List Token → α → Prop) (size : α → Nat) (n : Nat)
    (tokens : List Token) (d : Disjunction α) : Prop :=
  d.Spells leaf tokens ∧ d.nesting size < n

section Nesting

variable {leaf : List Token → α → Prop} {size : α → Nat} {n : Nat} {tokens : List Token}

theorem Disjunction.not_spellsBelow_zero {d : Disjunction α} :
    ¬ d.SpellsBelow leaf size 0 tokens :=
  fun h => Nat.not_lt_zero _ h.2

theorem Disjunction.spellsBelow_succ_iff {d : Disjunction α} :
    d.SpellsBelow leaf size (n + 1) tokens ↔ d.SpellsWithin leaf size n tokens :=
  and_congr_right fun _ => Nat.lt_succ_iff

/-- What is nested in `levels` levels is parsed with one level less, if there
is one. -/
theorem encloses_nested {contents : Nat → Parse (Disjunction α)} {levels : Nat}
    (h : ∀ n, levels = n + 1 →
      ParsesUntil stops (contents n) (Disjunction.SpellsWithin leaf size n)) :
    Encloses stops (Parse.nested contents levels) (Disjunction.SpellsBelow leaf size levels) := by
  intro s d s' hs
  cases levels with
  | zero => simp [Parse.nested, Disjunction.not_spellsBelow_zero]
  | succ n =>
    rw [Parse.nested, Parse.descend_bind, h n rfl (hs.next.atDepth _)]
    simp only [Disjunction.spellsBelow_succ_iff]

/-- The same, where the place to stop depends on the level. -/
theorem exists_encloses_nested {contents : Nat → Parse (Disjunction α)} {levels : Nat}
    (h : ∀ n < levels, ∃ stops, StopsAtMark stops ∧
      ParsesUntil stops (contents n) (Disjunction.SpellsWithin leaf size n)) :
    ∃ stops, StopsAtMark stops ∧
      Encloses stops (Parse.nested contents levels) (Disjunction.SpellsBelow leaf size levels) := by
  cases levels with
  | zero => exact ⟨fun _ => True, fun _ _ => trivial, encloses_nested fun n hn => by omega⟩
  | succ levels =>
    obtain ⟨stops, hstops, hcontents⟩ := h levels (Nat.lt_succ_self levels)
    refine ⟨stops, hstops, encloses_nested fun n hn => ?_⟩
    obtain rfl : levels = n := by omega
    exact hcontents

/-- An operand is a condition, or a group with a level to spare. -/
theorem Operand.spellsWithin_iff {o : Operand α} :
    o.SpellsWithin leaf size n tokens ↔
      Parse.OperandSpells (fun tokens a => leaf tokens a ∧ size a ≤ n)
        (Disjunction.SpellsBelow leaf size n) tokens o := by
  constructor
  · intro h
    obtain ⟨hspells, hsize⟩ := h
    cases hspells with
    | leaf h => exact .inl ⟨_, rfl, h, hsize⟩
    | group hopens h => exact .inr ⟨_, _, _, _, rfl, hopens, ⟨h, hsize⟩, rfl⟩
  · intro h
    obtain ⟨a, rfl, h, hsize⟩ | ⟨negated, opening, inner, d, rfl, hopens, ⟨h, hsize⟩, rfl⟩ := h
    · exact ⟨.leaf h, hsize⟩
    · exact ⟨.group hopens h, hsize⟩

/-- An operand is parsed within a limit by its conditions and its group. -/
theorem Parses.operandWithin {operand : Parse (Operand α)}
    (h : Parses operand (Parse.OperandSpells (fun tokens a => leaf tokens a ∧ size a ≤ n)
      (Disjunction.SpellsBelow leaf size n))) :
    Parses operand (Operand.SpellsWithin leaf size n) := by
  intro s o s' hs
  simp only [h hs, Operand.spellsWithin_iff]

theorem continues_spellsWithin_iff {rest : List (Connective × Operand α)} :
    Continues (Operand.SpellsWithin leaf size n) tokens rest ↔
      Continues (Operand.Spells leaf) tokens rest ∧ ∀ pair ∈ rest, pair.2.nesting size ≤ n := by
  induction rest generalizing tokens with
  | nil => simp [continues_nil_iff]
  | cons pair rest ih =>
    obtain ⟨connective, o⟩ := pair
    simp only [continues_cons_iff, ih, List.mem_cons, forall_eq_or_imp]
    constructor
    · intro h
      obtain ⟨front, behind, ⟨ho, hsize⟩, ⟨hrest, hsizes⟩, rfl⟩ := h
      exact ⟨⟨front, behind, ho, hrest, rfl⟩, hsize, hsizes⟩
    · intro h
      obtain ⟨⟨front, behind, ho, hrest, rfl⟩, hsize, hsizes⟩ := h
      exact ⟨front, behind, ⟨ho, hsize⟩, ⟨hrest, hsizes⟩, rfl⟩

/-- A disjunction within a limit is a row of operands within it. -/
theorem Disjunction.spellsWithin_iff {d : Disjunction α} :
    d.SpellsWithin leaf size n tokens ↔
      ∃ first rest front behind, d = .ofSequence first rest ∧
        first.SpellsWithin leaf size n front ∧
        Continues (Operand.SpellsWithin leaf size n) behind rest ∧ tokens = front ++ behind := by
  simp only [continues_spellsWithin_iff]
  constructor
  · intro h
    obtain ⟨hspells, hsize⟩ := h
    obtain ⟨first, rest, rfl⟩ := d.exists_ofSequence
    obtain ⟨front, behind, hfirst, hrest, rfl⟩ := spells_ofSequence_iff.mp hspells
    obtain ⟨hsize, hsizes⟩ := nesting_ofSequence_le_iff.mp hsize
    exact ⟨first, rest, front, behind, rfl, ⟨hfirst, hsize⟩, ⟨hrest, hsizes⟩, rfl⟩
  · intro h
    obtain ⟨first, rest, front, behind, rfl, ⟨hfirst, hsize⟩, ⟨hrest, hsizes⟩, rfl⟩ := h
    exact ⟨spells_ofSequence_iff.mpr ⟨front, behind, hfirst, hrest, rfl⟩,
      nesting_ofSequence_le_iff.mpr ⟨hsize, hsizes⟩⟩

/-- **A combination is parsed by its operands**: if the operands are parsed
within a limit, so is every row of them. -/
theorem parsesUntil_combination {operand : Parse (Operand α)}
    {step : Parse (Option (Connective × Operand α))}
    (hoperand : Parses operand (Operand.SpellsWithin leaf size n))
    (hstep : Parse.Steps stops step (Operand.SpellsWithin leaf size n)) :
    ParsesUntil stops (Parse.sequence operand step) (Disjunction.SpellsWithin leaf size n) := by
  intro s d s' hs
  simp only [Parse.parsesUntil_sequence hoperand hstep hs, Disjunction.spellsWithin_iff]

end Nesting

/-! ## 5. Where an operand starts -/

/-- What an attribute path starts with. -/
def Token.StartsPath : Token → Prop
  | .urn _ | .attribute _ => True
  | _ => False

/-- What a group starts with. -/
def Token.StartsGroup : Token → Prop
  | .keyword .negation | .openParen => True
  | _ => False

theorem Token.StartsPath.not_startsGroup {token : Token} (h : token.StartsPath) :
    ¬ token.StartsGroup := by
  cases token <;> simp_all [StartsPath, StartsGroup]

/-- The tokens of the grammar start like an attribute path. -/
def StartsWithPath (grammar : List Token → α → Prop) : Prop :=
  ∀ ⦃tokens a⦄, grammar tokens a → ∃ token rest, tokens = token :: rest ∧ token.StartsPath

theorem StartsWithPath.and {leaf : List Token → α → Prop} (h : StartsWithPath leaf)
    (p : α → Prop) : StartsWithPath fun tokens a => leaf tokens a ∧ p a :=
  fun _ _ hleaf => h hleaf.1

theorem AttributePath.tokens_startsPath (path : AttributePath) (behind : List Token) :
    ∃ token rest, path.tokens ++ behind = token :: rest ∧ token.StartsPath := by
  obtain ⟨_ | urn, name, sub⟩ := path
  · exact ⟨_, _, rfl, trivial⟩
  · exact ⟨_, _, rfl, trivial⟩

theorem AttributeTest.startsWithPath : StartsWithPath AttributeTest.Spells := by
  rintro _ test rfl
  exact test.path.tokens_startsPath test.tail

theorem Condition.startsWithPath : StartsWithPath Condition.Spells := by
  rintro tokens (test | values) h
  · exact AttributeTest.startsWithPath h
  · obtain ⟨inner, -, rfl⟩ := h
    exact values.path.tokens_startsPath _

theorem StartsWithPath.current {leaf : List Token → α → Prop} (h : StartsWithPath leaf)
    {tokens : List Token} {a : α} (hleaf : leaf tokens a) (hover : s.Over tokens s') :
    s.current.StartsPath := by
  obtain ⟨token, rest, rfl, hstarts⟩ := h hleaf
  rwa [(over_cons.mp hover).1]

theorem Parse.GroupSpells.current {grammar : List Token → Disjunction α → Prop}
    {tokens : List Token} {o : Operand α} (h : GroupSpells grammar tokens o)
    (hover : s.Over tokens s') : s.current.StartsGroup := by
  obtain ⟨negated, opening, inner, d, -, hopens, -, rfl⟩ := h
  cases hopens <;> simp [(over_cons.mp hover).1, Token.StartsGroup]

end ScimQuery
