/-
ScimQuery.Proofs.Parsing.Reach — how a parser gets into the middle of a row.

`Over` is about tokens that make a whole phrase: the marks among them come in
pairs, so the depth behind them is the depth in front of them. A parser that
fails has gone over some tokens that make no whole phrase, and groups and
brackets are still open where it stops. `s.Reaches limit row m` is for this
case. The depth goes up and down with the marks of the row, and is nowhere
above the limit.

So the depth where a parser stops is the number of marks in front of it that
are not closed (`Token.unclosed`), and the same holds of every place that it
has passed.
-/
import ScimQuery.Proofs.Balance
import ScimQuery.Proofs.Parsing.Place

namespace ScimQuery

/-! ## 1. Open groups and brackets -/

namespace Token

/-- Whether the token opens a group or a bracket. -/
def isOpening : Token → Bool
  | .openParen | .openBracket => true
  | _ => false

/-- Whether the token closes a group or a bracket. -/
def isClosing : Token → Bool
  | .closeParen | .closeBracket => true
  | _ => false

/-- How many groups and brackets are open behind a token, given how many are
open in front of it. -/
def depthAfter (depth : Nat) (token : Token) : Nat :=
  if token.isOpening then depth + 1 else if token.isClosing then depth - 1 else depth

/-- How many groups and brackets are open behind a row. -/
def unclosed (row : List Token) : Nat :=
  row.foldl depthAfter 0

variable {token : Token}

theorem depthAfter_of_isOpening (h : token.isOpening) (depth : Nat) :
    depthAfter depth token = depth + 1 := by
  rw [depthAfter, if_pos h]

theorem depthAfter_of_isClosing (h : token.isClosing) (depth : Nat) :
    depthAfter depth token = depth - 1 := by
  cases token <;> simp_all [isClosing, isOpening, depthAfter]

theorem depthAfter_of_not_isMark (h : token.isMark = false) (depth : Nat) :
    depthAfter depth token = depth := by
  cases token <;> simp_all [isMark, isOpening, isClosing, depthAfter]

theorem ne_eof_of_isOpening (h : token.isOpening) : token ≠ .eof := by
  rintro rfl
  cases h

theorem ne_eof_of_isClosing (h : token.isClosing) : token ≠ .eof := by
  rintro rfl
  cases h

end Token

open Token

/-- The first tokens of a text, without their offsets. -/
def firstTokens (tokens : List Located) (n : Nat) : List Token :=
  (tokens.take n).map Located.token

theorem firstTokens_succ {tokens : List Located} {n : Nat} {entry : Located}
    (h : tokens[n]? = some entry) :
    firstTokens tokens (n + 1) = firstTokens tokens n ++ [entry.token] := by
  rw [firstTokens, List.take_add_one, h, List.map_append]
  rfl

theorem prefix_firstTokens (tokens : List Located) {n k : Nat} (h : n ≤ k) :
    firstTokens tokens n <+: firstTokens tokens k :=
  (List.take_prefix_take_left h).map _

namespace TokenStream

variable {limit levels : Nat} {s m n : TokenStream} {row front rest : List Token}
  {tokens : List Located}

/-! ## 2. Rows that are gone over -/

/-- The stream ends with the end of the text, and so many groups and brackets
may still be opened at it. -/
structure HasRoom (limit levels : Nat) (s : TokenStream) : Prop where
  ended : s.Ended
  depth_add_le : s.depth + levels ≤ limit

/-- The second stream is reached from the first one over the row. Marks change
the depth, which stays within the limit. -/
inductive Reaches (limit : Nat) : TokenStream → List Token → TokenStream → Prop where
  | refl (s : TokenStream) : Reaches limit s [] s
  | cons {s m : TokenStream} {token : Token} {row : List Token} : s.current = token →
      token ≠ .eof → depthAfter s.depth token ≤ limit →
      Reaches limit (s.next.atDepth (depthAfter s.depth token)) row m →
      Reaches limit s (token :: row) m

theorem Reaches.trans (h : s.Reaches limit front m) (h' : m.Reaches limit rest n) :
    s.Reaches limit (front ++ rest) n := by
  induction h with
  | refl s => exact h'
  | cons hcurrent heof hdepth _ ih => exact .cons hcurrent heof hdepth (ih h')

/-- The depth goes up and down with the marks. -/
theorem Reaches.depth_eq (h : s.Reaches limit row m) : m.depth = row.foldl depthAfter s.depth := by
  induction h with
  | refl s => rfl
  | cons _ _ _ _ ih => rw [ih, List.foldl_cons]; rfl

/-- The depth stays within the limit all the way. -/
theorem Reaches.depth_le (h : s.Reaches limit row m) (hs : s.depth ≤ limit)
    (hfront : front <+: row) : front.foldl depthAfter s.depth ≤ limit := by
  induction h generalizing front with
  | refl s => rwa [List.prefix_nil.mp hfront]
  | cons _ _ hdepth _ ih =>
    cases front with
    | nil => exact hs
    | cons token front =>
      obtain ⟨rfl, hbehind⟩ := List.cons_prefix_cons.mp hfront
      exact ih hdepth hbehind

/-- Apart from the depth, the row is gone over like any other one. -/
theorem Reaches.over (h : s.Reaches limit row m) : s.Over row (m.atDepth s.depth) := by
  induction h with
  | refl s => exact over_nil.mpr rfl
  | @cons s m token row hcurrent heof _ _ ih =>
    obtain ⟨k, hover, hk⟩ := over_atDepth.mp ih
    have hdepth : k.depth = s.depth := by rw [hover.depth_eq, next_depth]
    have hm : m.atDepth s.depth = k := by
      rw [← atDepth_self (s := k), hdepth, ← atDepth_atDepth (s := k)
        (depthAfter s.depth token) s.depth, ← hk]
      rfl
    exact ⟨hcurrent, heof, hm ▸ hover⟩

theorem Reaches.ended (h : s.Reaches limit row m) (hs : s.Ended) : m.Ended := by
  have hended : (m.atDepth s.depth).Ended := hs.over h.over
  exact hended

/-- What is gone over and the token behind it start with the current token. -/
theorem Reaches.exists_cons (h : s.Reaches limit row m) (rest : List Token) :
    ∃ tail, row ++ m.current :: rest = s.current :: tail := by
  cases h with
  | refl => exact ⟨rest, rfl⟩
  | cons hcurrent => exact ⟨_, by rw [hcurrent, List.cons_append]⟩

/-! ## 3. Single tokens -/

theorem HasRoom.of_depth_eq (hs : s.HasRoom limit levels) (hm : m.Ended)
    (hdepth : m.depth = s.depth) : m.HasRoom limit levels :=
  ⟨hm, hdepth ▸ hs.depth_add_le⟩

theorem HasRoom.of_reaches (hs : s.HasRoom limit levels) (h : s.Reaches limit row m) :
    m.HasRoom limit 0 := by
  refine ⟨h.ended hs.ended, ?_⟩
  rw [h.depth_eq]
  exact h.depth_le (Nat.le_trans (Nat.le_add_right _ _) hs.depth_add_le) (List.prefix_refl row)

theorem HasRoom.depth_le (hs : s.HasRoom limit levels) : s.depth ≤ limit :=
  Nat.le_trans (Nat.le_add_right _ _) hs.depth_add_le

theorem HasRoom.next (hs : s.HasRoom limit levels) : s.next.HasRoom limit levels :=
  hs.of_depth_eq hs.ended.next next_depth

theorem HasRoom.reaches_next (hs : s.HasRoom limit levels) (heof : s.current ≠ .eof)
    (hmark : s.current.isMark = false) : s.Reaches limit [s.current] s.next := by
  have hdepth : depthAfter s.depth s.current = s.depth := depthAfter_of_not_isMark hmark s.depth
  refine .cons rfl heof ?_ ?_
  · rw [hdepth]
    exact hs.depth_le
  · rw [hdepth, ← next_depth, atDepth_self]
    exact .refl _

/-- The way down. -/
theorem HasRoom.down (hs : s.HasRoom limit (levels + 1)) :
    (s.next.atDepth (s.depth + 1)).HasRoom limit levels := by
  have hdepth := hs.depth_add_le
  refine ⟨hs.ended.next.atDepth _, ?_⟩
  show s.depth + 1 + levels ≤ limit
  omega

theorem HasRoom.reaches_down (hs : s.HasRoom limit (levels + 1)) (h : s.current.isOpening) :
    s.Reaches limit [s.current] (s.next.atDepth (s.depth + 1)) := by
  have hdepth := depthAfter_of_isOpening h s.depth
  refine .cons rfl (ne_eof_of_isOpening h) (hdepth ▸ hs.down.depth_le) ?_
  rw [hdepth]
  exact .refl _

/-- The way up. -/
theorem HasRoom.reaches_up (hs : s.HasRoom limit levels) (h : s.current.isClosing) :
    s.Reaches limit [s.current] (s.next.atDepth (s.depth - 1)) := by
  have hdepth := depthAfter_of_isClosing h s.depth
  have hle := hs.depth_le
  refine .cons rfl (ne_eof_of_isClosing h) (by omega) ?_
  rw [hdepth]
  exact .refl _

/-! ## 4. From the first token on -/

/-- At a place the stream has the token there and its offset. -/
theorem Within.getElem?_eq (h : s.Within tokens limit) :
    tokens[s.index]? = some ⟨s.offset, s.current⟩ := by
  have hrest := h.rest_eq
  rw [List.drop_eq_getElem_cons h.index_lt] at hrest
  rw [List.getElem?_eq_getElem h.index_lt, offset, current, hrest]

/-- What is reached from a place is a place. -/
theorem Reaches.within (h : s.Reaches limit row m) (hs : s.Within tokens limit) :
    m.Within tokens limit := by
  induction h with
  | refl s => exact hs
  | cons _ _ hdepth _ ih => exact ih (hs.next.atDepth hdepth)

theorem Within.over (hs : s.Within tokens limit) (h : s.Over row m) : m.Within tokens limit := by
  induction row generalizing s with
  | nil => exact over_nil.mp h ▸ hs
  | cons token row ih => exact ih hs.next (over_cons.mp h).2.2

/-- A row that is gone over from the start on is the first tokens. -/
theorem Over.firstTokens_eq (h : (ofTokens tokens).Over row m) (htokens : EndsInEof tokens) :
    m.index = row.length ∧ firstTokens tokens m.index = row := by
  have hstart : (ofTokens tokens).Within tokens 0 := within_ofTokens htokens
  obtain ⟨hindex, hpassed⟩ := hstart.passed_eq htokens h
  have hlength : m.index = 0 + row.length := hindex
  exact ⟨by omega, hpassed⟩

theorem Reaches.firstTokens_eq (h : (ofTokens tokens).Reaches limit row m)
    (htokens : EndsInEof tokens) : m.index = row.length ∧ firstTokens tokens m.index = row :=
  h.over.firstTokens_eq htokens

/-- The first tokens are gone over if the end is not among them. -/
theorem exists_over_firstTokens (htokens : EndsInEof tokens) {k : Nat} (hk : k < tokens.length)
    (heof : ∀ token ∈ firstTokens tokens k, token ≠ .eof) :
    ∃ m, (ofTokens tokens).Over (firstTokens tokens k) m ∧ m.index = k := by
  induction k with
  | zero => exact ⟨ofTokens tokens, rfl, rfl⟩
  | succ k ih =>
    have hentry := List.getElem?_eq_getElem (Nat.lt_of_succ_lt hk)
    rw [firstTokens_succ hentry] at heof ⊢
    obtain ⟨m, hover, rfl⟩ := ih (Nat.lt_of_succ_lt hk)
      fun token htoken => heof token (List.mem_append_left _ htoken)
    have hm : m.Within tokens 0 := (within_ofTokens htokens).over hover
    have hcurrent : m.current = tokens[m.index].token := by
      have := hm.getElem?_eq
      rw [hentry, Option.some.injEq] at this
      rw [this]
    have hne : m.current ≠ .eof := hcurrent ▸ heof _ (by simp)
    refine ⟨m.next, over_append.mpr ⟨m, hover, hcurrent, hcurrent ▸ hne, rfl⟩, ?_⟩
    exact (hm.ended htokens).index_next hne

/-- Nowhere on the way are more groups and brackets open than the limit
allows. -/
theorem Reaches.unclosed_le {k j : Nat}
    (h : (ofTokens tokens).Reaches limit (firstTokens tokens k) m) (hj : j ≤ k) :
    unclosed (firstTokens tokens j) ≤ limit :=
  h.depth_le (Nat.zero_le limit) (prefix_firstTokens tokens hj)

end TokenStream

end ScimQuery
