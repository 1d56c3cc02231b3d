/-
ScimQuery.Proofs.Parsing.Place — streams as places in a list of tokens.

A stream keeps the tokens from the current one on, and the number of tokens in
front of it. `s.Within tokens limit` says that the two fit together: the
stream stands on one of the tokens, on no more than `limit` levels of nesting.
No move of a parser ends that (`invariant_within`), so a parser that is run at
a place is left at a place, whichever way it ends.

The tokens between two places are `passed`. Where a parser has gone over a row
of tokens, those are the ones that it has passed, and the index has grown by
their number.
-/
import ScimQuery.Proofs.Parsing.Invariant

namespace ScimQuery.TokenStream

variable {tokens : List Located} {limit : Nat} {s m : TokenStream} {row : List Token}

/-! ## 1. Places -/

/-- The stream stands on one of the tokens, and no more than `limit` groups
and brackets are open there. -/
structure Within (tokens : List Located) (limit : Nat) (s : TokenStream) : Prop where
  rest_eq : s.rest = tokens.drop s.index
  index_lt : s.index < tokens.length
  depth_le : s.depth ≤ limit

/-- A list of tokens that ends with the end of the text. -/
def EndsInEof (tokens : List Located) : Prop :=
  tokens.getLast?.map Located.token = some .eof

theorem within_ofTokens (h : EndsInEof tokens) : (ofTokens tokens).Within tokens limit := by
  refine ⟨rfl, ?_, Nat.zero_le _⟩
  cases tokens with
  | nil => simp [EndsInEof] at h
  | cons first rest => exact Nat.succ_pos _

theorem Within.next (h : s.Within tokens limit) : s.next.Within tokens limit := by
  have hrest := h.rest_eq
  unfold TokenStream.next
  split
  · rename_i first second rest hcons
    rw [hcons] at hrest
    have hbehind : tokens.drop (s.index + 1) = second :: rest := by
      rw [← List.drop_drop, ← hrest]
      rfl
    refine ⟨hbehind.symm, ?_, h.depth_le⟩
    have hlength := congrArg List.length hbehind
    rw [List.length_drop, List.length_cons] at hlength
    show s.index + 1 < tokens.length
    omega
  · exact h

theorem Within.atDepth (h : s.Within tokens limit) {d : Nat} (hd : d ≤ limit) :
    (s.atDepth d).Within tokens limit :=
  ⟨h.rest_eq, h.index_lt, hd⟩

/-- The levels that are left at a place. -/
theorem Within.depth_add (h : s.Within tokens limit) : s.depth + (limit - s.depth) = limit :=
  Nat.add_sub_of_le h.depth_le

/-- **A parser moves from place to place.** -/
theorem invariant_within (tokens : List Located) (limit : Nat) :
    Invariant limit fun levels s => s.Within tokens limit ∧ s.depth + levels = limit where
  next := by
    intro levels s hs
    rw [next_depth]
    exact ⟨hs.1.next, hs.2⟩
  down := by
    intro levels s hs
    have hdepth : s.depth + 1 + levels = limit := by omega
    exact ⟨hs.1.atDepth (by omega), hdepth⟩
  up := by
    intro levels s hlevels hs
    have hdepth : s.depth - 1 + (levels + 1) = limit := by omega
    exact ⟨hs.1.atDepth (by omega), hdepth⟩

/-! ## 2. Between two places -/

/-- The tokens from the one place on that stand in front of the other. -/
def passed (tokens : List Located) (s m : TokenStream) : List Token :=
  ((tokens.take m.index).drop s.index).map Located.token

theorem Within.ended (h : s.Within tokens limit) (htokens : EndsInEof tokens) : s.Ended := by
  have hindex : ¬ tokens.length ≤ s.index := Nat.not_le.mpr h.index_lt
  rw [Ended, h.rest_eq, List.getLast?_drop, if_neg hindex]
  exact htokens

theorem Ended.index_next (h : s.Ended) (heof : s.current ≠ .eof) : s.next.index = s.index + 1 := by
  obtain ⟨located, hcons, hne⟩ := h.rest_eq_cons heof
  obtain ⟨second, rest, hnext⟩ := List.exists_cons_of_ne_nil hne
  rw [hnext] at hcons
  simp only [TokenStream.next, hcons]

/-- What is gone over is what the index grows by and what leaves the stream. -/
theorem Ended.over_rest (h : s.Ended) (hover : s.Over row m) :
    m.index = s.index + row.length ∧
      s.rest.map Located.token = row ++ m.rest.map Located.token := by
  induction row generalizing s with
  | nil =>
    obtain rfl := over_nil.mp hover
    exact ⟨rfl, rfl⟩
  | cons token row ih =>
    obtain ⟨hcurrent, hne, hrow⟩ := over_cons.mp hover
    have heof : s.current ≠ .eof := hcurrent ▸ hne
    obtain ⟨located, hcons, -⟩ := h.rest_eq_cons heof
    have hlocated : located.token = token := by
      rw [← hcurrent, current, hcons]
    obtain ⟨hindex, hrest⟩ := ih h.next hrow
    rw [hindex, h.index_next heof, hcons, List.map_cons, hrest, hlocated, List.length_cons]
    exact ⟨by omega, rfl⟩

/-- **The tokens that are gone over are those between the places.** -/
theorem Within.passed_eq (h : s.Within tokens limit) (htokens : EndsInEof tokens)
    (hover : s.Over row m) : m.index = s.index + row.length ∧ passed tokens s m = row := by
  obtain ⟨hindex, hrest⟩ := (h.ended htokens).over_rest hover
  refine ⟨hindex, ?_⟩
  have hlength : m.index - s.index = row.length := by omega
  rw [passed, List.drop_take, ← h.rest_eq, hlength, List.map_take, hrest, List.take_left]

end ScimQuery.TokenStream
