/-
ScimQuery.Proofs.ShapeOrder — the order in which the shapes of a path are
tried.

Both strategies try the three shapes one after the other, in the order of
`Strategy.shapes`. `Path.ofTextIn` reads a path with the shapes in any order.

The one strategy looks for the end of the text in every shape. So its shapes
exclude each other, and their order does not count
(`Path.ofTextIn_lookahead`).

The other one looks for the end behind the shape that it has taken. There a
mere attribute path is in front of the other two shapes, so it has to be the
last one (`Path.ofTextIn_orderedChoice`). In any other place it takes what
belongs to a test or to filtered values, and the end is missed behind it
(`Path.getLast?_of_ofTextIn`).
-/
import ScimQuery.Proofs.Acceptance

namespace ScimQuery

open Parse TokenStream

variable {s : TokenStream} {levels limit : Nat} {order order' : List (Parse Path)}

/-! ## 1. Streams -/

namespace Strategy

/-- The shapes of a path in the order in which the strategy tries them. -/
def shapes (strategy : Strategy) (levels : Nat) : List (Parse Path) :=
  match strategy with
  | .lookahead => Lookahead.paths levels
  | .orderedChoice => OrderedChoice.paths levels

/-- The parser of whole paths that tries the shapes in the given order. -/
def wholePathIn (strategy : Strategy) (order : List (Parse Path)) : Parse Path := do
  match ← firstOf order with
  | some path =>
    match strategy with
    | .lookahead => return path
    | .orderedChoice =>
      require .eof
      return path
  | none => fun stream => .error (.noPath stream.offset) stream

theorem wholePath_eq (strategy : Strategy) (levels : Nat) :
    strategy.wholePath levels = strategy.wholePathIn (strategy.shapes levels) := by
  cases strategy <;> rfl

theorem wholePathIn_congr (strategy : Strategy) (h : firstOf order s = firstOf order' s) :
    strategy.wholePathIn order s = strategy.wholePathIn order' s :=
  firstOf_bind_congr h

/-- Looking ahead, the shapes may be tried in any order. -/
theorem wholePathIn_lookahead (h : order.Perm (lookahead.shapes levels)) :
    lookahead.wholePathIn order s = lookahead.wholePath levels s := by
  rw [wholePath_eq]
  exact lookahead.wholePathIn_congr (firstOf_perm h (Lookahead.pairwise_excludes_paths levels s))

/-- With the mere attribute path behind them, the other two shapes may be
tried in any order. -/
theorem wholePathIn_orderedChoice (h : order.Perm (orderedChoice.shapes levels))
    (hlast : order.getLast? = some (.attribute <$> attributePath)) :
    orderedChoice.wholePathIn order s = orderedChoice.wholePath levels s := by
  obtain ⟨front, rfl⟩ := List.getLast?_eq_some_iff.mp hlast
  rw [shapes, OrderedChoice.paths_eq, List.perm_append_right_iff] at h
  rw [wholePath_eq]
  exact orderedChoice.wholePathIn_congr <| firstOf_append_congr <|
    firstOf_perm h (OrderedChoice.pairwise_excludes_longerPaths levels s)

end Strategy

/-! ## 2. Texts -/

namespace Path

/-- The path that a text is, if the shapes are tried in the given order. -/
def ofTextIn (order : List (Parse Path)) (text : String) (settings : ParseSettings) :
    Except ParseError Path :=
  match ParseSession.ofText text settings with
  | .ok session =>
    (ParseSession.run (settings.strategy.wholePathIn order) session.rewound).1
  | .error error => .error error

/-- The order counts for a text as far as it counts for its tokens. -/
theorem ofTextIn_eq_ofText {text : String} {settings : ParseSettings}
    (h : ∀ s, settings.strategy.wholePathIn order s =
      settings.strategy.wholePath settings.nestingLimit s) :
    ofTextIn order text settings = ofText text settings := by
  have hparser : settings.strategy.wholePathIn order =
      settings.strategy.wholePath settings.nestingLimit := funext h
  unfold ofTextIn ofText ParseSession.ofText
  cases Token.ofText text with
  | error error => rfl
  | ok tokens => simp only [ParseSession.path, hparser]

/-- **Looking ahead gives the same in any order of the shapes**, errors
included. -/
theorem ofTextIn_lookahead (text : String)
    (h : order.Perm (Strategy.lookahead.shapes limit)) :
    ofTextIn order text ⟨.lookahead, limit⟩ = ofText text ⟨.lookahead, limit⟩ :=
  ofTextIn_eq_ofText fun _ => Strategy.wholePathIn_lookahead h

/-- **Ordered choice gives the same in any order that leaves the mere attribute
path the last shape**, errors included. -/
theorem ofTextIn_orderedChoice (text : String)
    (h : order.Perm (Strategy.orderedChoice.shapes limit))
    (hlast : order.getLast? = some (.attribute <$> attributePath)) :
    ofTextIn order text ⟨.orderedChoice, limit⟩ = ofText text ⟨.orderedChoice, limit⟩ :=
  ofTextIn_eq_ofText fun _ => Strategy.wholePathIn_orderedChoice h hlast

/-! ## 3. The attribute path in another place -/

variable {front back : List (Parse Path)} {text : String} {located : List Located} {token : Token}

/-- Where the shapes in front of it fail, a mere attribute path is taken, and
the end is missed where something else stands behind it. -/
theorem ofTextIn_append_attribute (htokens : Token.ofText text = .ok located)
    (hfront : ∀ shape ∈ front, ∀ path m, shape (ofTokens located) ≠ .ok path m)
    (hbehind : BehindPath token (ofTokens located)) (hne : token ≠ .eof) :
    ∃ index offset, ofTextIn (front ++ (.attribute <$> attributePath) :: back) text
      ⟨.orderedChoice, limit⟩ = .error (.mismatch (.token .eof) index offset token) := by
  obtain ⟨a, m, ha, rfl⟩ := hbehind
  have hattribute : (Path.attribute <$> attributePath) (ofTokens located) = .ok (.attribute a) m :=
    map_eq_ok_iff.mpr ⟨a, ha, rfl⟩
  have htaken : firstOf (front ++ (.attribute <$> attributePath) :: back) (ofTokens located) =
      .ok (some (.attribute a)) m :=
    firstOf_append_eq_some_iff.mpr <| .inr
      ⟨firstOf_eq_none_iff.mpr ⟨rfl, hfront⟩, firstOf_cons_eq_some_iff.mpr (.inl hattribute)⟩
  have hmissed : require .eof m = .error (.mismatch (.token .eof) m.index m.offset m.current) m :=
    require_eq_error_iff.mpr (ensure_eq_error_iff.mpr ⟨hne, rfl, rfl⟩)
  have hresult : Strategy.orderedChoice.wholePathIn
      (front ++ (.attribute <$> attributePath) :: back) (ofTokens located) =
        .error (.mismatch (.token .eof) m.index m.offset m.current) m :=
    bind_eq_error_iff.mpr (.inr ⟨_, m, htaken, bind_eq_error_iff.mpr (.inl hmissed)⟩)
  refine ⟨m.index, m.offset, ?_⟩
  simp only [ofTextIn, ParseSession.ofText, htokens]
  exact ParseSession.run_eq_error_iff.mpr ⟨m, hresult⟩

/-- Each of the other shapes has a text, where brackets may be open. -/
theorem exists_text_of_mem {shape : Parse Path}
    (h : shape ∈ OrderedChoice.longerPaths (limit + 1)) :
    ∃ text located path token, Token.ofText text = .ok located ∧
      (∃ m, shape (ofTokens located) = .ok path m) ∧
      BehindPath token (ofTokens located) ∧ token ≠ .eof ∧
      ofText text ⟨.orderedChoice, limit + 1⟩ = .ok path := by
  simp only [OrderedChoice.longerPaths, List.mem_cons, List.not_mem_nil, or_false] at h
  rcases h with rfl | rfl
  · have htokens : Token.ofText "a[b pr]" =
        .ok [⟨0, .attribute "a"⟩, ⟨1, .openBracket⟩, ⟨2, .attribute "b"⟩, ⟨3, .space⟩,
          ⟨4, .keyword .present⟩, ⟨6, .closeBracket⟩, ⟨7, .eof⟩] := by decide
    -- What stands in the brackets is parsed alike whether or not one more could be opened.
    refine ⟨_, _, .values ⟨⟨none, "a", none⟩, .one (.one (.leaf (.present ⟨none, "b", none⟩)))⟩
      none, .openBracket, htokens, ⟨⟨[⟨7, .eof⟩], 6, 0⟩, by cases limit <;> rfl⟩,
      ⟨⟨none, "a", none⟩, _, rfl, rfl⟩, by decide, ?_⟩
    rw [ofText, ParseSession.ofText, htokens]
    cases limit <;> rfl
  · have htokens : Token.ofText "a pr" =
        .ok [⟨0, .attribute "a"⟩, ⟨1, .space⟩, ⟨2, .keyword .present⟩, ⟨4, .eof⟩] := by decide
    refine ⟨_, _, .test (.present ⟨none, "a", none⟩), .space, htokens, ⟨_, rfl⟩,
      ⟨⟨none, "a", none⟩, _, rfl, rfl⟩, by decide, ?_⟩
    rw [ofText, ParseSession.ofText, htokens]
    rfl

/-- **Ordered choice needs the mere attribute path as the last shape**: in any
other place it spoils the text of a shape that is tried behind it. -/
theorem getLast?_of_ofTextIn (h : order.Perm (Strategy.orderedChoice.shapes (limit + 1)))
    (hsame : ∀ text, ofTextIn order text ⟨.orderedChoice, limit + 1⟩ =
      ofText text ⟨.orderedChoice, limit + 1⟩) :
    order.getLast? = some (.attribute <$> attributePath) := by
  have hmem : (.attribute <$> attributePath) ∈ order :=
    h.mem_iff.mpr (by simp [Strategy.shapes, OrderedChoice.paths])
  obtain ⟨front, back, rfl⟩ := List.append_of_mem hmem
  cases back with
  | nil => exact List.getLast?_concat
  | cons shape back =>
    have hlonger : (front ++ shape :: back).Perm (OrderedChoice.longerPaths (limit + 1)) := by
      rw [Strategy.shapes, OrderedChoice.paths_eq] at h
      exact (List.perm_middle.symm.trans (h.trans (List.perm_append_singleton _ _))).cons_inv
    have hshape : shape ∈ front ++ shape :: back := by simp
    obtain ⟨text, located, path, token, htokens, ⟨m, hread⟩, hbehind, hne, htext⟩ :=
      exists_text_of_mem (hlonger.mem_iff.mp hshape)
    -- The shapes in front of the attribute path exclude `shape`, so they fail on its text.
    have hexcludes : (front ++ shape :: back).Pairwise (Excludes (ofTokens located)) :=
      (hlonger.pairwise_iff Excludes.symm).mpr
        (OrderedChoice.pairwise_excludes_longerPaths (limit + 1) (ofTokens located))
    have hfront (earlier : Parse Path) (hearlier : earlier ∈ front) (p : Path) (m' : TokenStream) :
        earlier (ofTokens located) ≠ .ok p m' :=
      ((List.pairwise_append.mp hexcludes).2.2 earlier hearlier shape (by simp)).symm hread p m'
    obtain ⟨index, offset, herror⟩ := ofTextIn_append_attribute htokens hfront hbehind hne
    rw [hsame, htext] at herror
    cases herror

end Path

end ScimQuery
