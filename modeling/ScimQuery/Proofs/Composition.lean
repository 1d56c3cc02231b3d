/-
ScimQuery.Proofs.Composition — filters that are put together as texts.

Two filters with a connective between them, a filter in parentheses with or
without `not`, and a filter in brackets behind an attribute path are written
by laying texts side by side. `Filter.ofText_composed` is that this is safe:
the new text is read, and its tree is the one that the parts have. Behind
`or` the conjunctions of the one filter follow those of the other. `and`
binds tighter, so it joins the conjunctions at the seam and leaves the others
alone.

Nothing has to be said about the characters at a seam. A filter is what its
text derives, and derivations are put together by the rules of the grammar;
that the lexer sees the same seams is in `Filter.ofText_eq_ok_iff_spells`.
-/
import ScimQuery.Proofs.PathGrammar
import ScimQuery.Proofs.RoundTrip

namespace ScimQuery

/-! ## 1. Rows one behind the other -/

section Rows

variable {α : Type}

/-- The operands of a disjunction, those of one conjunction in one list. -/
def Disjunction.groups (d : Disjunction α) : List (List (Operand α)) :=
  d.toList.map Conjunction.toList

theorem Disjunction.groups_one (c : Conjunction α) : (one c).groups = [c.toList] := rfl

theorem Disjunction.groups_or (c : Conjunction α) (d : Disjunction α) :
    (Disjunction.or c d).groups = c.toList :: d.groups := rfl

theorem Disjunction.groups_ne_nil (d : Disjunction α) : d.groups ≠ [] := by
  cases d <;> simp [groups, toList]

/-- The operands of one conjunction and then those of another one. -/
def Conjunction.append : Conjunction α → Conjunction α → Conjunction α
  | .one o, c => .and o c
  | .and o rest, c => .and o (rest.append c)

/-- The conjunctions of one disjunction and then those of another one. -/
def Disjunction.append : Disjunction α → Disjunction α → Disjunction α
  | .one c, d => .or c d
  | .or c rest, d => .or c (rest.append d)

/-- A disjunction with the operands of a conjunction in front of its first
one. -/
def Disjunction.andBefore (c : Conjunction α) : Disjunction α → Disjunction α
  | .one first => .one (c.append first)
  | .or first rest => .or (c.append first) rest

/-- Two disjunctions of which the last conjunction of the one and the first of
the other are one conjunction. -/
def Disjunction.join : Disjunction α → Disjunction α → Disjunction α
  | .one c, d => d.andBefore c
  | .or c rest, d => .or c (rest.join d)

theorem Conjunction.toList_append :
    ∀ c c' : Conjunction α, (c.append c').toList = c.toList ++ c'.toList
  | .one _, _ => rfl
  | .and o rest, c' => by
      rw [append, toList, toList, Conjunction.toList_append rest c', List.cons_append]

theorem Disjunction.groups_append :
    ∀ d e : Disjunction α, (d.append e).groups = d.groups ++ e.groups
  | .one _, _ => rfl
  | .or c rest, e => by
      rw [append, groups_or, groups_or, Disjunction.groups_append rest e, List.cons_append]

theorem Disjunction.groups_andBefore (c : Conjunction α) (d : Disjunction α) :
    (d.andBefore c).groups = (c.toList ++ d.groups.head d.groups_ne_nil) :: d.groups.tail := by
  cases d with
  | one first =>
    rw [andBefore, groups_one, Conjunction.toList_append]
    rfl
  | or first rest =>
    rw [andBefore, groups_or, Conjunction.toList_append]
    rfl

/-- The groups at the seam become one, and the others stay as they are. -/
theorem Disjunction.groups_join :
    ∀ d e : Disjunction α, (d.join e).groups = d.groups.dropLast ++
      [d.groups.getLast d.groups_ne_nil ++ e.groups.head e.groups_ne_nil] ++ e.groups.tail
  | .one c, e => groups_andBefore c e
  | .or c rest, e => by
      have hrest := rest.groups_ne_nil
      simp only [join, groups_or, Disjunction.groups_join rest e,
        List.dropLast_cons_of_ne_nil hrest, List.getLast_cons hrest, List.cons_append]

/-! ## 2. Their derivations and their nesting -/

section Derivations

variable {leaf : String → α → Prop} {size : α → Nat} {n : Nat} {s s' : String}

theorem Conjunction.Derives.append :
    ∀ {c c' : Conjunction α} {s : String}, c.Derives leaf s → c'.Derives leaf s' →
      (c.append c').Derives leaf (s ++ " and " ++ s')
  | .one o, c', s, h, h' => by
      cases h with
      | one ho => exact .and ho h'
  | .and o rest, c', s, h, h' => by
      cases h with
      | and ho hrest =>
        have hrow := Derives.and ho (Conjunction.Derives.append hrest h')
        simpa only [Conjunction.append, String.append_assoc] using hrow

theorem Disjunction.Derives.append :
    ∀ {d e : Disjunction α} {s : String}, d.Derives leaf s → e.Derives leaf s' →
      (d.append e).Derives leaf (s ++ " or " ++ s')
  | .one c, e, s, h, h' => by
      cases h with
      | one hc => exact .or hc h'
  | .or c rest, e, s, h, h' => by
      cases h with
      | or hc hrest =>
        have hrow := Derives.or hc (Disjunction.Derives.append hrest h')
        simpa only [Disjunction.append, String.append_assoc] using hrow

theorem Disjunction.Derives.andBefore {c : Conjunction α} {d : Disjunction α}
    (h : c.Derives leaf s) (h' : d.Derives leaf s') :
    (d.andBefore c).Derives leaf (s ++ " and " ++ s') := by
  cases h' with
  | one hfirst => exact .one (h.append hfirst)
  | or hfirst hrest =>
    have hrow := Derives.or (h.append hfirst) hrest
    simpa only [Disjunction.andBefore, String.append_assoc] using hrow

theorem Disjunction.Derives.join :
    ∀ {d e : Disjunction α} {s : String}, d.Derives leaf s → e.Derives leaf s' →
      (d.join e).Derives leaf (s ++ " and " ++ s')
  | .one c, e, s, h, h' => by
      cases h with
      | one hc => exact h'.andBefore hc
  | .or c rest, e, s, h, h' => by
      cases h with
      | or hc hrest =>
        have hrow := Derives.or hc (Disjunction.Derives.join hrest h')
        simpa only [Disjunction.join, String.append_assoc] using hrow

theorem Conjunction.nesting_append_le_iff :
    ∀ {c c' : Conjunction α}, (c.append c').nesting size ≤ n ↔
      c.nesting size ≤ n ∧ c'.nesting size ≤ n
  | .one _, _ => by simp only [append, nesting, Nat.max_le]
  | .and o rest, c' => by
      simp only [append, nesting, Nat.max_le, Conjunction.nesting_append_le_iff, and_assoc]

theorem Disjunction.nesting_append_le_iff :
    ∀ {d e : Disjunction α}, (d.append e).nesting size ≤ n ↔
      d.nesting size ≤ n ∧ e.nesting size ≤ n
  | .one _, _ => by simp only [append, nesting, Nat.max_le]
  | .or c rest, e => by
      simp only [append, nesting, Nat.max_le, Disjunction.nesting_append_le_iff, and_assoc]

theorem Disjunction.nesting_join_le_iff :
    ∀ {d e : Disjunction α}, (d.join e).nesting size ≤ n ↔
      d.nesting size ≤ n ∧ e.nesting size ≤ n
  | .one c, .one first => by
      simp only [join, andBefore, nesting, Conjunction.nesting_append_le_iff]
  | .one c, .or first rest => by
      simp only [join, andBefore, nesting, Nat.max_le, Conjunction.nesting_append_le_iff, and_assoc]
  | .or c rest, e => by
      simp only [join, nesting, Nat.max_le, Disjunction.nesting_join_le_iff, and_assoc]

end Derivations

end Rows

/-! ## 3. A filter in brackets -/

section Map

variable {α β : Type}

mutual

/-- The same combination of other conditions. -/
def Disjunction.map (f : α → β) : Disjunction α → Disjunction β
  | .one c => .one (c.map f)
  | .or c d => .or (c.map f) (d.map f)

/-- The same conjunction of other conditions. -/
def Conjunction.map (f : α → β) : Conjunction α → Conjunction β
  | .one o => .one (o.map f)
  | .and o c => .and (o.map f) (c.map f)

/-- The same operand with other conditions. -/
def Operand.map (f : α → β) : Operand α → Operand β
  | .leaf a => .leaf (f a)
  | .group negated d => .group negated (d.map f)

end

section Derivations

variable {f : α → β} {p : β → Prop} {leaf : String → α → Prop} {leaf' : String → β → Prop}

mutual

/-- What derives a combination of conditions that all come from others derives
the same combination of those. -/
theorem Disjunction.Derives.exists_map_eq
    (hleaf : ∀ {s b}, leaf' s b → p b → ∃ a, f a = b ∧ leaf s a) {s : String} :
    ∀ {d : Disjunction β}, d.Derives leaf' s → d.All p →
      ∃ d' : Disjunction α, d'.map f = d ∧ d'.Derives leaf s
  | .one c, h, hall => by
      cases h with
      | one hc =>
        obtain ⟨c', rfl, hc'⟩ := Conjunction.Derives.exists_map_eq hleaf hc hall
        exact ⟨.one c', rfl, .one hc'⟩
  | .or c d, h, hall => by
      cases h with
      | or hc hd =>
        obtain ⟨c', rfl, hc'⟩ := Conjunction.Derives.exists_map_eq hleaf hc hall.1
        obtain ⟨d', rfl, hd'⟩ := Disjunction.Derives.exists_map_eq hleaf hd hall.2
        exact ⟨.or c' d', rfl, .or hc' hd'⟩

theorem Conjunction.Derives.exists_map_eq
    (hleaf : ∀ {s b}, leaf' s b → p b → ∃ a, f a = b ∧ leaf s a) {s : String} :
    ∀ {c : Conjunction β}, c.Derives leaf' s → c.All p →
      ∃ c' : Conjunction α, c'.map f = c ∧ c'.Derives leaf s
  | .one o, h, hall => by
      cases h with
      | one ho =>
        obtain ⟨o', rfl, ho'⟩ := Operand.Derives.exists_map_eq hleaf ho hall
        exact ⟨.one o', rfl, .one ho'⟩
  | .and o c, h, hall => by
      cases h with
      | and ho hc =>
        obtain ⟨o', rfl, ho'⟩ := Operand.Derives.exists_map_eq hleaf ho hall.1
        obtain ⟨c', rfl, hc'⟩ := Conjunction.Derives.exists_map_eq hleaf hc hall.2
        exact ⟨.and o' c', rfl, .and ho' hc'⟩

theorem Operand.Derives.exists_map_eq
    (hleaf : ∀ {s b}, leaf' s b → p b → ∃ a, f a = b ∧ leaf s a) {s : String} :
    ∀ {o : Operand β}, o.Derives leaf' s → o.All p →
      ∃ o' : Operand α, o'.map f = o ∧ o'.Derives leaf s
  | .leaf b, h, hall => by
      cases h with
      | leaf hb =>
        obtain ⟨a, rfl, ha⟩ := hleaf hb hall
        exact ⟨.leaf a, rfl, .leaf ha⟩
  | .group negated d, h, hall => by
      cases h with
      | group hfront hd =>
        obtain ⟨d', rfl, hd'⟩ := Disjunction.Derives.exists_map_eq hleaf hd hall
        exact ⟨.group negated d', rfl, .group hfront hd'⟩

end

end Derivations

section Nesting

variable {f : α → β} {size : β → Nat} {size' : α → Nat}

mutual

/-- Conditions that are nested alike make combinations that are. -/
theorem Disjunction.nesting_map (hsize : ∀ a, size (f a) = size' a) :
    ∀ d : Disjunction α, (d.map f).nesting size = d.nesting size'
  | .one c => Conjunction.nesting_map hsize c
  | .or c d => by
      rw [Disjunction.map, Disjunction.nesting, Disjunction.nesting,
        Conjunction.nesting_map hsize c, Disjunction.nesting_map hsize d]

theorem Conjunction.nesting_map (hsize : ∀ a, size (f a) = size' a) :
    ∀ c : Conjunction α, (c.map f).nesting size = c.nesting size'
  | .one o => Operand.nesting_map hsize o
  | .and o c => by
      rw [Conjunction.map, Conjunction.nesting, Conjunction.nesting,
        Operand.nesting_map hsize o, Conjunction.nesting_map hsize c]

theorem Operand.nesting_map (hsize : ∀ a, size (f a) = size' a) :
    ∀ o : Operand α, (o.map f).nesting size = o.nesting size'
  | .leaf a => hsize a
  | .group _ d => by
      rw [Operand.map, Operand.nesting, Operand.nesting, Disjunction.nesting_map hsize d]

end

end Nesting

end Map

/-- The condition is a test, and not the filtered values of an attribute. -/
def Condition.IsTest : Condition → Prop
  | .test _ => True
  | .values _ => False

/-- A filter of tests only is a filter in brackets as well. -/
theorem Filter.Derives.exists_valueFilter {text : String} {filter : Filter}
    (h : Filter.Derives text filter) (htests : filter.All Condition.IsTest) :
    ∃ inner : ValueFilter, inner.map Condition.test = filter ∧ ValueFilter.Derives text inner := by
  refine Disjunction.Derives.exists_map_eq (fun {s c} hc htest => ?_) h htests
  cases hc with
  | test ht => exact ⟨_, rfl, ht⟩
  | values hv => exact htest.elim

/-! ## 4. Texts side by side -/

/-- The same settings with one more level of nesting. -/
def ParseSettings.deeper (settings : ParseSettings) : ParseSettings :=
  { settings with nestingLimit := settings.nestingLimit + 1 }

section Texts

variable {settings : ParseSettings} {s s' : String} {t t' : Filter}

/-- A filter in parentheses is one group, whatever stands in front of them. -/
theorem Filter.ofText_group (h : Filter.ofText s settings = .ok t) {front : String}
    {negated : Bool} (hfront : NotDerives front negated) :
    Filter.ofText (front ++ "(" ++ s ++ ")") settings.deeper =
      .ok (.one (.one (.group negated t))) := by
  obtain ⟨hderives, hnesting⟩ := ofText_eq_ok_iff_derives.mp h
  exact ofText_eq_ok_iff_derives.mpr
    ⟨.one (.one (.group hfront hderives)), Nat.succ_le_succ hnesting⟩

/-- A filter of tests in brackets behind an attribute path filters the values
of that attribute. -/
theorem Filter.ofText_values (h : Filter.ofText s settings = .ok t)
    (htests : t.All Condition.IsTest) {front : String} {path : AttributePath}
    (hpath : path.Derives front) :
    ∃ filter : ValueFilter, filter.map Condition.test = t ∧
      Filter.ofText (front ++ "[" ++ s ++ "]") settings.deeper =
        .ok (.one (.one (.leaf (.values ⟨path, filter⟩)))) := by
  obtain ⟨hderives, hnesting⟩ := ofText_eq_ok_iff_derives.mp h
  obtain ⟨filter, rfl, hfilter⟩ := hderives.exists_valueFilter htests
  have hsize : Filter.nesting (filter.map Condition.test) = ValueFilter.nesting filter :=
    Disjunction.nesting_map (fun _ => rfl) filter
  rw [hsize] at hnesting
  exact ⟨filter, rfl, ofText_eq_ok_iff_derives.mpr
    ⟨.one (.one (.leaf (.values (.mk hpath hfilter)))), Nat.succ_le_succ hnesting⟩⟩

end Texts

/-- **Filters may be put together as texts**: with a connective between them,
in parentheses, and in brackets behind an attribute path. The trees are put
together in the same way. -/
theorem Filter.ofText_composed {settings : ParseSettings} {s₁ s₂ : String} {t₁ t₂ : Filter}
    (h₁ : Filter.ofText s₁ settings = .ok t₁) (h₂ : Filter.ofText s₂ settings = .ok t₂) :
    (∃ t, Filter.ofText (s₁ ++ " or " ++ s₂) settings = .ok t ∧
      t.groups = t₁.groups ++ t₂.groups) ∧
    (∃ t, Filter.ofText (s₁ ++ " and " ++ s₂) settings = .ok t ∧
      t.groups = t₁.groups.dropLast ++
        [t₁.groups.getLast t₁.groups_ne_nil ++ t₂.groups.head t₂.groups_ne_nil] ++
        t₂.groups.tail) ∧
    Filter.ofText ("(" ++ s₁ ++ ")") settings.deeper = .ok (.one (.one (.group false t₁))) ∧
    Filter.ofText ("not (" ++ s₁ ++ ")") settings.deeper = .ok (.one (.one (.group true t₁))) ∧
    Filter.ofText ("not(" ++ s₁ ++ ")") settings.deeper = .ok (.one (.one (.group true t₁))) ∧
    ∀ (front : String) (pathSettings : ParseSettings) (path : AttributePath),
      Path.ofText front pathSettings = .ok (.attribute path) → t₁.All Condition.IsTest →
      ∃ filter : ValueFilter, filter.map Condition.test = t₁ ∧
        Filter.ofText (front ++ "[" ++ s₁ ++ "]") settings.deeper =
          .ok (.one (.one (.leaf (.values ⟨path, filter⟩)))) := by
  obtain ⟨hderives₁, hnesting₁⟩ := ofText_eq_ok_iff_derives.mp h₁
  obtain ⟨hderives₂, hnesting₂⟩ := ofText_eq_ok_iff_derives.mp h₂
  have hplain : "" ++ "(" = "(" := by decide
  have hspaced : "not " ++ "(" = "not (" := by decide
  have hnegated : "not" ++ "(" = "not(" := by decide
  refine ⟨⟨t₁.append t₂, ?_, Disjunction.groups_append t₁ t₂⟩,
    ⟨t₁.join t₂, ?_, Disjunction.groups_join t₁ t₂⟩, ?_, ?_, ?_,
    fun front pathSettings path hpath htests => ?_⟩
  · exact ofText_eq_ok_iff_derives.mpr ⟨Disjunction.Derives.append hderives₁ hderives₂,
      Disjunction.nesting_append_le_iff.mpr ⟨hnesting₁, hnesting₂⟩⟩
  · exact ofText_eq_ok_iff_derives.mpr ⟨Disjunction.Derives.join hderives₁ hderives₂,
      Disjunction.nesting_join_le_iff.mpr ⟨hnesting₁, hnesting₂⟩⟩
  · simpa only [hplain] using ofText_group h₁ .plain
  · simpa only [hspaced] using ofText_group h₁ .spaced
  · simpa only [hnegated] using ofText_group h₁ .negated
  · cases (Path.ofText_eq_ok_iff_derives.mp hpath).1 with
    | «attribute» hfront => exact ofText_values h₁ htests hfront

/-- Two conjunctions on each side, of which `and` joins the inner two, and the
same filter in parentheses and in brackets. -/
theorem Filter.ofText_composed_seam :
    (∃ t, Filter.ofText "a pr or b pr and c pr or d pr" ⟨.orderedChoice, 0⟩ = .ok t ∧
      t.groups = [[.leaf (.test (.present ⟨none, "a", none⟩))],
        [.leaf (.test (.present ⟨none, "b", none⟩)), .leaf (.test (.present ⟨none, "c", none⟩))],
        [.leaf (.test (.present ⟨none, "d", none⟩))]]) ∧
    Filter.ofText "not(a pr or b pr)" ⟨.orderedChoice, 1⟩ = .ok (.one (.one (.group true
      (.or (.one (.leaf (.test (.present ⟨none, "a", none⟩))))
        (.one (.one (.leaf (.test (.present ⟨none, "b", none⟩))))))))) ∧
    ∃ filter : ValueFilter, filter.map Condition.test =
      (.or (.one (.leaf (.test (.present ⟨none, "a", none⟩))))
        (.one (.one (.leaf (.test (.present ⟨none, "b", none⟩)))))) ∧
      Filter.ofText "v[a pr or b pr]" ⟨.orderedChoice, 1⟩ =
        .ok (.one (.one (.leaf (.values ⟨⟨none, "v", none⟩, filter⟩)))) := by
  have hpath (name : String) (hname : AttributeName.IsFree name) :
      AttributePath.Derives ("" ++ name ++ "") ⟨none, name, none⟩ :=
    .mk .none hname .none
  have hrow (name name' : String) (hname : AttributeName.IsFree name)
      (hname' : AttributeName.IsFree name') :
      Filter.ofText ("" ++ name ++ "" ++ " pr" ++ " or " ++ ("" ++ name' ++ "" ++ " pr"))
        ⟨.orderedChoice, 0⟩ = .ok (.or (.one (.leaf (.test (.present ⟨none, name, none⟩))))
          (.one (.one (.leaf (.test (.present ⟨none, name', none⟩)))))) :=
    ofText_eq_ok_iff_derives.mpr ⟨.or (.one (.leaf (.test (.present (hpath name hname)))))
      (.one (.one (.leaf (.test (.present (hpath name' hname')))))), Nat.le_refl 0⟩
  have hleft := hrow "a" "b" ⟨by decide, by decide⟩ ⟨by decide, by decide⟩
  have hright := hrow "c" "d" ⟨by decide, by decide⟩ ⟨by decide, by decide⟩
  have hvalues : Path.ofText "v" ⟨.lookahead, 0⟩ = .ok (.attribute ⟨none, "v", none⟩) :=
    Path.ofText_eq_ok_iff_derives.mpr
      ⟨.attribute (hpath "v" ⟨by decide, by decide⟩), Nat.le_refl 0⟩
  rw [show "" ++ "a" ++ "" ++ " pr" ++ " or " ++ ("" ++ "b" ++ "" ++ " pr") = "a pr or b pr" by
    decide] at hleft
  rw [show "" ++ "c" ++ "" ++ " pr" ++ " or " ++ ("" ++ "d" ++ "" ++ " pr") = "c pr or d pr" by
    decide] at hright
  obtain ⟨-, hand, -, -, hnot, hbrackets⟩ := Filter.ofText_composed hleft hright
  rw [show "a pr or b pr" ++ " and " ++ "c pr or d pr" = "a pr or b pr and c pr or d pr" by
    decide] at hand
  rw [show "not(" ++ "a pr or b pr" ++ ")" = "not(a pr or b pr)" by decide] at hnot
  have hinner := hbrackets "v" _ _ hvalues ⟨trivial, trivial⟩
  rw [show "v" ++ "[" ++ "a pr or b pr" ++ "]" = "v[a pr or b pr]" by decide] at hinner
  exact ⟨hand, hnot, hinner⟩

end ScimQuery
