/-
ScimQuery.Proofs.PathGrammar — the grammar of paths over characters.

`Path.Derives text path` says that the text derives the path. The
nonterminals are those of filters:

    QUERY = PATH / TEST / PATH "[" FILTER' "]" [ "." NAME ]

A text derives a path exactly if it is the text of well-formed tokens that
spell the path (`Path.derives_iff`), so the paths that are read are those
that are derived within the limit. No text derives two paths, and in
particular none has two of the three shapes. Whether a strategy may try the
shapes in another order depends on where it looks for the end of the text.
-/
import ScimQuery.Proofs.Grammar
import ScimQuery.Proofs.ShapeOrder

namespace ScimQuery

open Token TokenStream

/-! ## 1. Derivations -/

/-- An attribute path, a test, or filtered values with a sub-attribute or
without. -/
inductive Path.Derives : String → Path → Prop where
  | attribute {text : String} {a : AttributePath} :
      a.Derives text → Path.Derives text (.attribute a)
  | test {text : String} {test : AttributeTest} : test.Derives text → Path.Derives text (.test test)
  | values {front back : String} {v : ValuePath} {sub : Option String} :
      v.Derives front → SubDerives back sub → Path.Derives (front ++ back) (.values v sub)

/-- **A text derives a path if it is the text of tokens that spell it.** -/
theorem Path.derives_iff {path : Path} {text : String} :
    path.Derives text ↔ ∃ tokens, path.Spells tokens ∧ Writes tokens text := by
  refine ⟨fun h => ?_, fun h => ?_⟩
  · cases h with
    | «attribute» ha => exact ⟨_, rfl, AttributePath.derives_iff.mp ha⟩
    | test htest => exact (AttributeTest.derives_iff_spells _ _).mp htest
    | values hv hsub =>
      obtain ⟨inner, hinner, hwrites⟩ := ValuePath.derives_iff.mp hv
      exact ⟨_, ⟨inner, hinner, rfl⟩,
        writes_append_iff.mpr ⟨_, _, hwrites, subDerives_iff.mp hsub, rfl⟩⟩
  · obtain ⟨tokens, hspells, hwrites⟩ := h
    cases path with
    | «attribute» a =>
      obtain rfl : tokens = a.tokens := hspells
      exact .attribute (AttributePath.derives_iff.mpr hwrites)
    | test test => exact .test ((AttributeTest.derives_iff_spells _ _).mpr ⟨_, hspells, hwrites⟩)
    | values v sub =>
      obtain ⟨inner, hinner, rfl⟩ := hspells
      obtain ⟨front, back, hfront, hback, rfl⟩ := writes_append_iff.mp hwrites
      exact .values (ValuePath.derives_iff.mpr ⟨inner, hinner, hfront⟩) (subDerives_iff.mpr hback)

/-! ## 2. Acceptance -/

/-- The paths that are read are those that are derived within the limit. -/
theorem Path.ofText_eq_ok_iff_derives {text : String} {settings : ParseSettings} {path : Path} :
    Path.ofText text settings = .ok path ↔
      path.Derives text ∧ path.nesting ≤ settings.nestingLimit := by
  rw [Path.ofText_eq_ok_iff_spells, Path.derives_iff]
  simp only [Writes, ← exists_and_right, and_assoc]

/-- No text derives two paths. -/
theorem Path.Derives.unique {text : String} {path path' : Path} (h : path.Derives text)
    (h' : path'.Derives text) : path = path' := by
  -- Both are what the text is read as once the limit admits both.
  let wide : ParseSettings := { nestingLimit := max path.nesting path'.nesting }
  have hpath : Path.ofText text wide = .ok path :=
    ofText_eq_ok_iff_derives.mpr ⟨h, Nat.le_max_left _ _⟩
  have hpath' : Path.ofText text wide = .ok path' :=
    ofText_eq_ok_iff_derives.mpr ⟨h', Nat.le_max_right _ _⟩
  exact Except.ok.inj (hpath.symm.trans hpath')

/-- **The texts that are read as paths are the texts of the grammar**: by
either strategy a text is read as the path that it derives, if that is nested
within the limit. No text derives two paths.

Looking ahead, the order in which the shapes are tried does not count. By
ordered choice it does not count as long as the mere attribute path is the last
of them, and with it in another place some text is read otherwise. -/
theorem Path.ofText_iff_derives :
    (∀ (text : String) (path : Path) (settings : ParseSettings),
      Path.ofText text settings = .ok path ↔
        path.Derives text ∧ path.nesting ≤ settings.nestingLimit) ∧
    (∀ (text : String) (path path' : Path),
      path.Derives text → path'.Derives text → path = path') ∧
    (∀ (limit : Nat) (order : List (Parse Path)), order.Perm (Strategy.lookahead.shapes limit) →
      ∀ text : String, Path.ofTextIn order text ⟨.lookahead, limit⟩ =
        Path.ofText text ⟨.lookahead, limit⟩) ∧
    ∀ (limit : Nat) (order : List (Parse Path)),
      order.Perm (Strategy.orderedChoice.shapes limit) →
      (order.getLast? = some (.attribute <$> Parse.attributePath) →
        ∀ text : String, Path.ofTextIn order text ⟨.orderedChoice, limit⟩ =
          Path.ofText text ⟨.orderedChoice, limit⟩) ∧
      (0 < limit →
        (∀ text : String, Path.ofTextIn order text ⟨.orderedChoice, limit⟩ =
          Path.ofText text ⟨.orderedChoice, limit⟩) →
        order.getLast? = some (.attribute <$> Parse.attributePath)) := by
  refine ⟨fun text path settings => ofText_eq_ok_iff_derives,
    fun text path path' h h' => h.unique h',
    fun limit order horder text => ofTextIn_lookahead text horder,
    fun limit order horder =>
      ⟨fun hlast text => ofTextIn_orderedChoice text horder hlast, fun hlimit hsame => ?_⟩⟩
  obtain ⟨n, rfl⟩ := Nat.exists_eq_succ_of_ne_zero (Nat.ne_of_gt hlimit)
  exact getLast?_of_ofTextIn horder hsame

/-- The filtered values of `a[b pr].c`. -/
def valuesOfB : Path :=
  .values ⟨⟨none, "a", none⟩, .one (.one (.leaf (.present ⟨none, "b", none⟩)))⟩ (some "c")

/-- Filtered values with a sub-attribute, which take one level of nesting, also
where looking ahead tries its shapes from the last to the first and where ordered
choice tries a test first. -/
theorem Path.ofText_iff_derives_values :
    Path.ofText "a[b pr].c" ⟨.orderedChoice, 1⟩ = .ok valuesOfB ∧
    Path.ofText "a[b pr].c" ⟨.orderedChoice, 0⟩ ≠ .ok valuesOfB ∧
    Path.ofTextIn (Strategy.lookahead.shapes 1).reverse "a[b pr].c" ⟨.lookahead, 1⟩ =
      .ok valuesOfB ∧
    ∃ order : List (Parse Path), order.head? = some (.test <$> Parse.attributeTest) ∧
      order.Perm (Strategy.orderedChoice.shapes 1) ∧
      Path.ofTextIn order "a[b pr].c" ⟨.orderedChoice, 1⟩ = .ok valuesOfB ∧
      order.getLast? = some (.attribute <$> Parse.attributePath) := by
  have hname (name : String) (hvalid : AttributeName.isValid name.toList = true)
      (hfree : Keyword.ofWord? name = none) :
      AttributePath.Derives ("" ++ name ++ "") ⟨none, name, none⟩ :=
    .mk .none ⟨hvalid, hfree⟩ .none
  have hderives : Path.Derives
      ("" ++ "a" ++ "" ++ "[" ++ ("" ++ "b" ++ "" ++ " pr") ++ "]" ++ ("." ++ "c")) valuesOfB :=
    .values (.mk (hname "a" (by decide) (by decide))
      (.one (.one (.leaf (.present (hname "b" (by decide) (by decide)))))))
      (.some ⟨by decide, by decide⟩)
  have htext : "" ++ "a" ++ "" ++ "[" ++ ("" ++ "b" ++ "" ++ " pr") ++ "]" ++ ("." ++ "c") =
      "a[b pr].c" := by decide
  rw [htext] at hderives
  obtain ⟨haccepted, -, hlookahead, hchoice⟩ := Path.ofText_iff_derives
  have hread (strategy : Strategy) : Path.ofText "a[b pr].c" ⟨strategy, 1⟩ = .ok valuesOfB :=
    (haccepted _ _ ⟨strategy, 1⟩).mpr ⟨hderives, Nat.le_refl 1⟩
  have hswapped : [.test <$> Parse.attributeTest, OrderedChoice.valuesPath 1,
      .attribute <$> Parse.attributePath].Perm (Strategy.orderedChoice.shapes 1) := .swap _ _ _
  have hsame := (hchoice 1 _ hswapped).1 rfl
  refine ⟨hread _, fun h => ?_, ?_, _, rfl, hswapped, ?_, ?_⟩
  · exact Nat.not_succ_le_zero 0 ((haccepted _ _ ⟨.orderedChoice, 0⟩).mp h).2
  · rw [hlookahead 1 _ (List.reverse_perm _), hread]
  · rw [hsame, hread]
  · exact (hchoice 1 _ hswapped).2 Nat.one_pos hsame

/-- Ordered choice that tries the mere attribute path first takes it for the path
of `a pr`, which is a test, and misses the end of the text behind it. -/
theorem Path.ofTextIn_attributeFirst :
    ∃ order : List (Parse Path), order.head? = some (.attribute <$> Parse.attributePath) ∧
      order.Perm (Strategy.orderedChoice.shapes 64) ∧
      Path.ofText "a pr" ⟨.orderedChoice, 64⟩ = .ok (.test (.present ⟨none, "a", none⟩)) ∧
      Path.ofTextIn order "a pr" ⟨.orderedChoice, 64⟩ =
        .error (.mismatch (.token .eof) 1 1 .space) := by
  have htokens : Token.ofText "a pr" =
      .ok [⟨0, .attribute "a"⟩, ⟨1, .space⟩, ⟨2, .keyword .present⟩, ⟨4, .eof⟩] := by decide
  refine ⟨[.attribute <$> Parse.attributePath, OrderedChoice.valuesPath 64,
    .test <$> Parse.attributeTest], rfl, (List.perm_append_singleton _ [_, _]).symm, ?_, ?_⟩
  · rw [ofText, ParseSession.ofText, htokens]
    rfl
  · rw [ofTextIn, ParseSession.ofText, htokens]
    rfl

end ScimQuery
