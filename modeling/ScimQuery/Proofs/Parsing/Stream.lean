/-
ScimQuery.Proofs.Parsing.Stream — moving along a token stream, and what a
parser that succeeds has done.

`s.Over tokens s'` says that the tokens are the next ones in `s` and that
`s'` stands behind them. Every parser is described by it: it succeeds with a
result and the stream `s'` exactly when the tokens that it went over spell
the result. The lemmas of this module give such a description for each of
the elementary parsers, as an equivalence, so that the description of a
parser built from them is found by rewriting.

The end of the text is never gone over, since no parser moves behind it. A
stream that ends with the end of the text (`Ended`) gets shorter by every
token that is gone over, and that is all that loops need to know.
-/
import ScimQuery.Parsing.TokenStream

namespace ScimQuery

/-! ## 1. Moving along a stream -/

namespace TokenStream

/-- The tokens come next in the first stream, and the second one stands
behind them. -/
def Over : TokenStream → List Token → TokenStream → Prop
  | before, [], after => after = before
  | before, token :: rest, after =>
      before.current = token ∧ token ≠ .eof ∧ Over before.next rest after

/-- The stream at another depth of nesting. -/
def atDepth (depth : Nat) (stream : TokenStream) : TokenStream :=
  { stream with depth }

/-- The stream ends with the end of the text. -/
def Ended (stream : TokenStream) : Prop :=
  stream.rest.getLast?.map Located.token = some .eof

/-- The tokens are all that stands in front of the end of the text. -/
def Whole (stream : TokenStream) (tokens : List Token) : Prop :=
  ∃ behind, stream.Over tokens behind ∧ behind.current = .eof

variable {s s' : TokenStream} {token : Token} {front tokens : List Token}

@[simp] theorem over_nil : s.Over [] s' ↔ s' = s := Iff.rfl

theorem over_cons :
    s.Over (token :: tokens) s' ↔ s.current = token ∧ token ≠ .eof ∧ s.next.Over tokens s' :=
  Iff.rfl

theorem over_singleton : s.Over [token] s' ↔ s.current = token ∧ token ≠ .eof ∧ s' = s.next := by
  simp [over_cons]

/-- Going over two rows is going over the one and then the other. -/
theorem over_append :
    s.Over (front ++ tokens) s' ↔ ∃ m, s.Over front m ∧ m.Over tokens s' := by
  induction front generalizing s with
  | nil => simp
  | cons token front ih =>
    simp only [List.cons_append, over_cons, ih]
    constructor
    · intro h
      obtain ⟨hcurrent, hne, m, hfront, htokens⟩ := h
      exact ⟨m, ⟨hcurrent, hne, hfront⟩, htokens⟩
    · intro h
      obtain ⟨m, ⟨hcurrent, hne, hfront⟩, htokens⟩ := h
      exact ⟨hcurrent, hne, m, hfront, htokens⟩

@[simp] theorem next_depth : s.next.depth = s.depth := by
  unfold next
  split <;> rfl

theorem Over.depth_eq (h : s.Over tokens s') : s'.depth = s.depth := by
  induction tokens generalizing s with
  | nil => rw [over_nil.mp h]
  | cons token tokens ih =>
    obtain ⟨-, -, hrest⟩ := over_cons.mp h
    rw [ih hrest, next_depth]

@[simp] theorem current_atDepth (d : Nat) : (s.atDepth d).current = s.current := rfl

@[simp] theorem atDepth_atDepth (d d' : Nat) : (s.atDepth d).atDepth d' = s.atDepth d' := rfl

@[simp] theorem atDepth_self : s.atDepth s.depth = s := rfl

@[simp] theorem next_atDepth (d : Nat) : (s.atDepth d).next = s.next.atDepth d := by
  unfold next atDepth
  dsimp only
  split <;> rfl

/-- The depth has no part in what is gone over. -/
theorem over_atDepth {d : Nat} :
    (s.atDepth d).Over tokens s' ↔ ∃ m, s.Over tokens m ∧ s' = m.atDepth d := by
  induction tokens generalizing s with
  | nil => simp
  | cons token tokens ih =>
    simp only [over_cons, current_atDepth, next_atDepth, ih]
    constructor
    · intro h
      obtain ⟨hcurrent, hne, m, hrest, rfl⟩ := h
      exact ⟨m, ⟨hcurrent, hne, hrest⟩, rfl⟩
    · intro h
      obtain ⟨m, ⟨hcurrent, hne, hrest⟩, rfl⟩ := h
      exact ⟨hcurrent, hne, m, hrest, rfl⟩

/-! ## 2. The end of a stream -/

theorem Ended.rest_pos (h : s.Ended) : 0 < s.rest.length := by
  rw [List.length_pos_iff]
  intro hnil
  simp [Ended, hnil] at h

/-- Behind a token that is not the end there is another one. -/
theorem Ended.rest_eq_cons (h : s.Ended) (heof : s.current ≠ .eof) :
    ∃ located, s.rest = located :: s.next.rest ∧ s.next.rest ≠ [] := by
  unfold current at heof
  unfold next
  cases hrest : s.rest with
  | nil => simp [Ended, hrest] at h
  | cons first rest =>
    cases rest with
    | nil =>
      rw [Ended, hrest] at h
      rw [hrest] at heof
      simp at h heof
      exact absurd h heof
    | cons second rest => exact ⟨first, rfl, by simp⟩

theorem Ended.next (h : s.Ended) : s.next.Ended := by
  unfold TokenStream.next
  split
  · rename_i first second rest hrest
    rw [Ended, hrest, List.getLast?_cons_cons] at h
    exact h
  · exact h

theorem Ended.over (h : s.Ended) (hover : s.Over tokens s') : s'.Ended := by
  induction tokens generalizing s with
  | nil => rwa [over_nil.mp hover]
  | cons token tokens ih => exact ih h.next (over_cons.mp hover).2.2

theorem Ended.atDepth (h : s.Ended) (d : Nat) : (s.atDepth d).Ended := h

/-- The stream gets shorter by every token that is gone over. -/
theorem Ended.length_over (h : s.Ended) (hover : s.Over tokens s') :
    s.rest.length = tokens.length + s'.rest.length := by
  induction tokens generalizing s with
  | nil => simp [over_nil.mp hover]
  | cons token tokens ih =>
    obtain ⟨hcurrent, hne, hrest⟩ := over_cons.mp hover
    obtain ⟨located, hcons, -⟩ := h.rest_eq_cons (by rwa [hcurrent])
    rw [hcons, List.length_cons, ih h.next hrest, List.length_cons]
    omega

end TokenStream

/-! ## 3. Elementary parsers -/

namespace Parse

variable {α β : Type} {s s' : TokenStream}

theorem pure_eq_ok_iff {a b : α} : (pure a : Parse α) s = .ok b s' ↔ b = a ∧ s' = s := by
  simp only [pure, EStateM.pure, EStateM.Result.ok.injEq]
  exact and_congr eq_comm eq_comm

theorem bind_eq_ok_iff {parser : Parse α} {next : α → Parse β} {b : β} :
    (parser >>= next) s = .ok b s' ↔ ∃ a m, parser s = .ok a m ∧ next a m = .ok b s' := by
  simp only [bind, EStateM.bind]
  cases parser s <;> simp [and_assoc]

theorem bind_eq_error_iff {parser : Parse α} {next : α → Parse β} {e : ParseError} :
    (parser >>= next) s = .error e s' ↔
      parser s = .error e s' ∨ ∃ a m, parser s = .ok a m ∧ next a m = .error e s' := by
  simp only [bind, EStateM.bind]
  cases parser s <;> simp [and_assoc]

theorem map_eq_ok_iff {parser : Parse α} {f : α → β} {b : β} :
    (f <$> parser) s = .ok b s' ↔ ∃ a, parser s = .ok a s' ∧ f a = b := by
  simp only [Functor.map, EStateM.map]
  cases parser s with
  | error e m => simp
  | ok a m =>
    simp only [EStateM.Result.ok.injEq]
    constructor
    · intro h
      obtain ⟨rfl, rfl⟩ := h
      exact ⟨a, ⟨rfl, rfl⟩, rfl⟩
    · intro h
      obtain ⟨_, ⟨rfl, rfl⟩, rfl⟩ := h
      exact ⟨rfl, rfl⟩

@[simp] theorem mismatch_ne_ok {expected : Expected} {a : α} :
    mismatch expected s ≠ .ok a s' := by
  simp [mismatch]

@[simp] theorem tooDeep_ne_ok {a : α} : tooDeep s ≠ .ok a s' := by
  simp [tooDeep]

theorem skip_eq_ok_iff {u : Unit} : skip s = .ok u s' ↔ s' = s.next := by
  simp only [skip, EStateM.Result.ok.injEq, true_and]
  exact eq_comm

@[simp] theorem current_bind (next : Token → Parse α) : (current >>= next) s = next s.current s :=
  rfl

@[simp] theorem skip_bind (next : Unit → Parse α) : (skip >>= next) s = next () s.next := rfl

/-- A parser that looks for a token moves over it or does nothing. -/
theorem accept_bind (token : Token) (next : Bool → Parse α) :
    (accept token >>= next) s =
      if s.current = token then next true s.next else next false s := by
  show EStateM.bind (accept token) next s = _
  unfold accept EStateM.bind
  by_cases h : s.current = token
  · simp only [current_bind, h, if_true]
    rfl
  · simp only [current_bind, h, if_false]
    rfl

theorem ensure_bind_eq_ok_iff {token : Token} {next : Unit → Parse α} {a : α} :
    (ensure token >>= next) s = .ok a s' ↔ s.current = token ∧ next () s = .ok a s' := by
  unfold ensure
  simp only [bind_eq_ok_iff, current_bind]
  by_cases h : s.current = token
  · simp only [h, if_true, pure_eq_ok_iff, true_and]
    constructor
    · intro h'
      obtain ⟨_, m, rfl, hnext⟩ := h'
      exact hnext
    · exact fun hnext => ⟨(), s, rfl, hnext⟩
  · simp [h]

theorem ensure_eq_ok_iff {token : Token} {u : Unit} :
    ensure token s = .ok u s' ↔ s.current = token ∧ s' = s := by
  rw [← bind_pure (ensure token), ensure_bind_eq_ok_iff, pure_eq_ok_iff]
  simp

/-- A token that has to be there is missed where another one stands. -/
theorem ensure_eq_error_iff {token : Token} {e : ParseError} :
    ensure token s = .error e s' ↔ s.current ≠ token ∧
      e = .mismatch (.token token) s.index s.offset s.current ∧ s' = s := by
  rw [ensure, current_bind]
  by_cases h : s.current = token
  · rw [if_pos h]
    exact iff_of_false nofun fun hne => hne.1 h
  · rw [if_neg h, mismatch, EStateM.Result.error.injEq]
    exact ⟨fun ⟨he, hm⟩ => ⟨h, he.symm, hm.symm⟩, fun ⟨_, he, hm⟩ => ⟨he.symm, hm.symm⟩⟩

theorem require_eq_ok_iff {token : Token} {u : Unit} :
    require token s = .ok u s' ↔ s.current = token ∧ s' = s.next := by
  simp [require, ensure_bind_eq_ok_iff, skip_eq_ok_iff]

/-- Behind the check for the token nothing fails. -/
theorem require_eq_error_iff {token : Token} {e : ParseError} :
    require token s = .error e s' ↔ ensure token s = .error e s' := by
  refine bind_eq_error_iff.trans (or_iff_left ?_)
  rintro ⟨_, m, -, herror⟩
  cases herror

theorem require_bind_eq_ok_iff {token : Token} {next : Unit → Parse α} {a : α} :
    (require token >>= next) s = .ok a s' ↔ s.current = token ∧ next () s.next = .ok a s' := by
  simp only [bind_eq_ok_iff, require_eq_ok_iff]
  constructor
  · intro h
    obtain ⟨_, m, ⟨hcurrent, rfl⟩, hnext⟩ := h
    exact ⟨hcurrent, hnext⟩
  · intro h
    obtain ⟨hcurrent, hnext⟩ := h
    exact ⟨(), s.next, ⟨hcurrent, rfl⟩, hnext⟩

/-- The way down into a group or a bracket. -/
@[simp] theorem descend_bind (next : Unit → Parse α) :
    (descend >>= next) s = next () (s.next.atDepth (s.depth + 1)) := rfl

/-- The way up, over the token that closes a group or a bracket. -/
theorem ascend_eq_ok_iff {token : Token} {u : Unit} :
    ascend token s = .ok u s' ↔ s.current = token ∧ s' = s.next.atDepth (s.depth - 1) := by
  rw [ascend, require_bind_eq_ok_iff]
  refine and_congr_right fun _ => ?_
  have : (modify fun m : TokenStream => { m with depth := m.depth - 1 } : Parse Unit) s.next =
      .ok () (s.next.atDepth (s.depth - 1)) := by
    rw [← TokenStream.next_depth]
    rfl
  rw [this]
  simp [eq_comm]

theorem ascend_eq_error_iff {token : Token} {e : ParseError} :
    ascend token s = .error e s' ↔ ensure token s = .error e s' := by
  refine (bind_eq_error_iff.trans (or_iff_left ?_)).trans require_eq_error_iff
  rintro ⟨_, m, -, herror⟩
  cases herror

theorem orNone_eq_some_iff {parser : Parse α} {a : α} :
    orNone parser s = .ok (some a) s' ↔ parser s = .ok a s' := by
  unfold orNone
  cases parser s <;> simp

theorem orNone_eq_none_iff {parser : Parse α} :
    orNone parser s = .ok none s' ↔ s' = s ∧ ∀ a m, parser s ≠ .ok a m := by
  unfold orNone
  cases parser s with
  | ok a m => simp
  | error e m => simp [eq_comm]

/-- A choice takes its first parser, or goes on if that fails. -/
theorem firstOf_cons_eq_some_iff {parser : Parse α} {parsers : List (Parse α)} {a : α} :
    firstOf (parser :: parsers) s = .ok (some a) s' ↔
      parser s = .ok a s' ∨
        (∀ b m, parser s ≠ .ok b m) ∧ firstOf parsers s = .ok (some a) s' := by
  rw [firstOf, bind_eq_ok_iff]
  constructor
  · intro h
    obtain ⟨found, m, hfound, hrest⟩ := h
    cases found with
    | some b =>
      obtain ⟨⟨⟩, rfl⟩ := pure_eq_ok_iff.mp hrest
      exact .inl (orNone_eq_some_iff.mp hfound)
    | none =>
      obtain ⟨rfl, hfails⟩ := orNone_eq_none_iff.mp hfound
      exact .inr ⟨hfails, hrest⟩
  · intro h
    obtain ha | ⟨hfails, hrest⟩ := h
    · exact ⟨some a, s', orNone_eq_some_iff.mpr ha, rfl⟩
    · exact ⟨none, s, orNone_eq_none_iff.mpr ⟨rfl, hfails⟩, hrest⟩

@[simp] theorem firstOf_nil_ne_some {a : α} : firstOf [] s ≠ .ok (some a) s' := by
  simp [firstOf, pure_eq_ok_iff]

/-- A choice gives nothing if all of its parsers fail. -/
theorem firstOf_eq_none_iff {parsers : List (Parse α)} :
    firstOf parsers s = .ok none s' ↔
      s' = s ∧ ∀ parser ∈ parsers, ∀ a m, parser s ≠ .ok a m := by
  induction parsers with
  | nil => simp [firstOf, pure_eq_ok_iff]
  | cons parser parsers ih =>
    rw [firstOf, bind_eq_ok_iff]
    simp only [List.mem_cons, forall_eq_or_imp]
    constructor
    · intro h
      obtain ⟨found, m, hfound, hrest⟩ := h
      cases found with
      | some b => simp [pure_eq_ok_iff] at hrest
      | none =>
        obtain ⟨rfl, hfails⟩ := orNone_eq_none_iff.mp hfound
        obtain ⟨rfl, hrest⟩ := ih.mp hrest
        exact ⟨rfl, hfails, hrest⟩
    · intro h
      obtain ⟨rfl, hfails, hrest⟩ := h
      exact ⟨none, s', orNone_eq_none_iff.mpr ⟨rfl, hfails⟩, ih.mpr ⟨rfl, hrest⟩⟩

/-- A choice never fails. -/
theorem firstOf_eq_none_or_some (parsers : List (Parse α)) (s : TokenStream) :
    firstOf parsers s = .ok none s ∨ ∃ a m, firstOf parsers s = .ok (some a) m := by
  induction parsers with
  | nil => exact .inl rfl
  | cons parser parsers ih =>
    cases hparser : parser s with
    | ok a m => exact .inr ⟨a, m, firstOf_cons_eq_some_iff.mpr (.inl hparser)⟩
    | error e m =>
      rcases ih with hnone | ⟨a, m', hsome⟩
      · have hfails := (firstOf_eq_none_iff.mp hnone).2
        refine .inl (firstOf_eq_none_iff.mpr ⟨rfl, ?_⟩)
        simp only [List.mem_cons, forall_eq_or_imp]
        exact ⟨by simp [hparser], hfails⟩
      · exact .inr ⟨a, m', firstOf_cons_eq_some_iff.mpr (.inr ⟨by simp [hparser], hsome⟩)⟩

/-- A choice with something behind it fails there. -/
theorem firstOf_bind_eq_error_iff {parsers : List (Parse α)} {next : Option α → Parse β}
    {e : ParseError} :
    (firstOf parsers >>= next) s = .error e s' ↔
      firstOf parsers s = .ok none s ∧ next none s = .error e s' ∨
        ∃ a m, firstOf parsers s = .ok (some a) m ∧ next (some a) m = .error e s' := by
  rw [bind_eq_error_iff]
  constructor
  · rintro (herror | ⟨found, m, hfound, herror⟩)
    · rcases firstOf_eq_none_or_some parsers s with hnone | ⟨a, m, hsome⟩
      · rw [hnone] at herror
        cases herror
      · rw [hsome] at herror
        cases herror
    · cases found with
      | none =>
        obtain ⟨rfl, -⟩ := firstOf_eq_none_iff.mp hfound
        exact .inl ⟨hfound, herror⟩
      | some a => exact .inr ⟨a, m, hfound, herror⟩
  · rintro (⟨hnone, herror⟩ | ⟨a, m, hsome, herror⟩)
    · exact .inr ⟨none, s, hnone, herror⟩
    · exact .inr ⟨some a, m, hsome, herror⟩

end Parse

end ScimQuery
