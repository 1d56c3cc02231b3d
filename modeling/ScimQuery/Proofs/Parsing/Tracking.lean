/-
ScimQuery.Proofs.Parsing.Tracking — what may still come where a parser stands.

A parser that looks ahead commits to what it has taken. So it must never take
a token that fits nowhere, and never stop at one that fits. Both are said by
languages: `now` is the language of the rows that may come where the parser is
run, and `later` the language of those that may come behind its result.

`Leaves now row token later` ties the two together. Behind the row, `later` is
what is left of `now`; of the rows in `now` that go on otherwise, none has the
token next that the parser sees there. An attribute path without a
sub-attribute could have had one, but not where no dot follows.

`Tracks` says of a parser that its results leave `later`, and that its errors
blame the right token (`Blames`): what it has gone over is the beginning of a
row, and with the token that it stops at it is none. An error about the nesting
is different, it is about a token that would have fitted. `Tracks` is carried
through sequences of parsers (`Tracks.bind`), so the languages of a phrase are
found by going along the phrase, and no tree is needed.
-/
import ScimQuery.Proofs.Parsing.Reach
import ScimQuery.Proofs.Productions
import ScimQuery.Proofs.RowLanguages

namespace ScimQuery

open Language Token TokenStream

variable {α β : Type} {limit n depth depth' : Nat} {s m : TokenStream} {token token' : Token}
  {row front rest : List Token} {kind : Token → Prop} {A B now mid left : Language Token}

/-! ## 1. What is left of a language -/

/-- Behind the row and in front of the token, `left` is left of `now`. -/
structure Leaves (now : Language Token) (row : List Token) (token : Token)
    (left : Language Token) : Prop where
  append_mem : ∀ {rest}, rest ∈ left → row ++ rest ∈ now
  mem_of_append : ∀ {rest}, row ++ token :: rest ∈ now → token :: rest ∈ left

theorem Leaves.refl (now : Language Token) (token : Token) : Leaves now [] token now :=
  ⟨id, id⟩

/-- What is left of what is left. The second row starts with the token behind
the first one. -/
theorem Leaves.trans (h : Leaves now front token mid) (h' : Leaves mid row token' left)
    (hstart : ∀ rest, ∃ tail, row ++ token' :: rest = token :: tail) :
    Leaves now (front ++ row) token' left where
  append_mem hrest := by
    rw [List.append_assoc]
    exact h.append_mem (h'.append_mem hrest)
  mem_of_append {rest} hmem := by
    obtain ⟨tail, htail⟩ := hstart rest
    rw [List.append_assoc, htail] at hmem
    exact h'.mem_of_append (htail ▸ h.mem_of_append hmem)

/-- The token decides for the first of two languages. -/
theorem Leaves.inl (h : ∀ rest, token :: rest ∉ B) : Leaves (A + B) [] token A where
  append_mem hrest := .inl hrest
  mem_of_append hmem := hmem.resolve_right (h _)

/-- The token decides for the second of two languages. -/
theorem Leaves.inr (h : ∀ rest, token :: rest ∉ A) : Leaves (A + B) [] token B where
  append_mem hrest := .inr hrest
  mem_of_append hmem := hmem.resolve_left (h _)

/-- Behind a token of the kind. -/
theorem Leaves.ofKind (h : kind token) (token' : Token) :
    Leaves (ofKind kind * left) [token] token' left where
  append_mem hrest := cons_mem_ofKind_mul.mpr ⟨h, hrest⟩
  mem_of_append hmem := (cons_mem_ofKind_mul.mp hmem).2

theorem Leaves.ofToken (token token' : Token) :
    Leaves (ofToken token * left) [token] token' left where
  append_mem hrest := cons_mem_ofToken_mul.mpr ⟨rfl, hrest⟩
  mem_of_append hmem := (cons_mem_ofToken_mul.mp hmem).2

/-- What an error says about the language `now`, where the row has been gone
over and the token comes next. -/
def ParseError.Blames (now : Language Token) (row : List Token) (token : Token) :
    ParseError → Prop
  | .mismatch .. => (∃ rest, row ++ rest ∈ now) ∧ ∀ rest, row ++ token :: rest ∉ now
  | .tooDeep .. => token.isOpening ∧ ∃ rest, row ++ token :: rest ∈ now
  | _ => False

theorem ParseError.Blames.behind {e : ParseError} (h : Leaves now front token mid)
    (he : e.Blames mid row token')
    (hstart : ∀ rest, ∃ tail, row ++ token' :: rest = token :: tail) :
    e.Blames now (front ++ row) token' := by
  cases e with
  | lexical error => exact he
  | noPath offset => exact he
  | mismatch expected index offset found =>
    obtain ⟨⟨rest, hrest⟩, hno⟩ := he
    refine ⟨⟨rest, ?_⟩, fun rest hmem => ?_⟩
    · rw [List.append_assoc]
      exact h.append_mem hrest
    · obtain ⟨tail, htail⟩ := hstart rest
      rw [List.append_assoc, htail] at hmem
      exact hno rest (htail ▸ h.mem_of_append hmem)
  | tooDeep depth offset =>
    obtain ⟨hopens, rest, hrest⟩ := he
    refine ⟨hopens, rest, ?_⟩
    rw [List.append_assoc]
    exact h.append_mem hrest

namespace Parse

/-! ## 2. Parsers that keep track -/

/-- Where the rows of `now` may come, a result of the parser leaves those of
`later`, at the given depth, and an error blames the token that the parser
stops at. -/
structure TracksTo (limit : Nat) (s : TokenStream) (depth : Nat) (parser : Parse α)
    (now : Language Token) (later : α → Language Token) : Prop where
  ok : ∀ {a m}, parser s = .ok a m → ∃ row, s.Reaches limit row m ∧ m.depth = depth ∧
    Leaves now row m.current (later a)
  error : ∀ {e m}, parser s = .error e m → ∃ row, s.Reaches limit row m ∧
    e.Blames now row m.current

/-- The same, at the depth that the parser was run at. -/
abbrev Tracks (limit : Nat) (s : TokenStream) (parser : Parse α) (now : Language Token)
    (later : α → Language Token) : Prop :=
  TracksTo limit s s.depth parser now later

variable {later : α → Language Token} {later' : β → Language Token}

theorem TracksTo.bind {parser : Parse α} {next : α → Parse β} (hs : s.HasRoom limit n)
    (h : TracksTo limit s depth parser now later)
    (hnext : ∀ a m, parser s = .ok a m → m.HasRoom limit 0 → m.depth = depth →
      TracksTo limit m depth' (next a) (later a) later') :
    TracksTo limit s depth' (parser >>= next) now later' := by
  -- The second parser is run where the first one has come to.
  have hmid {a : α} {m : TokenStream} (ha : parser s = .ok a m) :
      TracksTo limit m depth' (next a) (later a) later' := by
    obtain ⟨row, hrow, hdepth, -⟩ := h.ok ha
    exact hnext a m ha (hs.of_reaches hrow) hdepth
  constructor
  · intro b m' hok
    obtain ⟨a, m, ha, hb⟩ := bind_eq_ok_iff.mp hok
    obtain ⟨front, hfront, -, hleaves⟩ := h.ok ha
    obtain ⟨row, hrow, hdepth, hleaves'⟩ := (hmid ha).ok hb
    exact ⟨_, hfront.trans hrow, hdepth, hleaves.trans hleaves' hrow.exists_cons⟩
  · intro e m' herror
    rcases bind_eq_error_iff.mp herror with herror | ⟨a, m, ha, herror⟩
    · exact h.error herror
    · obtain ⟨front, hfront, -, hleaves⟩ := h.ok ha
      obtain ⟨row, hrow, hblames⟩ := (hmid ha).error herror
      exact ⟨_, hfront.trans hrow, hblames.behind hleaves hrow.exists_cons⟩

/-- Where the first parser comes back to its depth there is as much room. -/
theorem Tracks.bind {parser : Parse α} {next : α → Parse β} (hs : s.HasRoom limit n)
    (h : Tracks limit s parser now later)
    (hnext : ∀ a m, parser s = .ok a m → m.HasRoom limit n →
      Tracks limit m (next a) (later a) later') :
    Tracks limit s (parser >>= next) now later' :=
  TracksTo.bind hs h fun a m ha hm hdepth =>
    hdepth ▸ hnext a m ha (hs.of_depth_eq hm.ended hdepth)

/-- The current token may rule out a part of what may come. -/
theorem TracksTo.of_leaves {parser : Parse α} (h : Leaves now [] s.current mid)
    (htracks : TracksTo limit s depth parser mid later) :
    TracksTo limit s depth parser now later where
  ok hok := by
    obtain ⟨row, hrow, hdepth, hleaves⟩ := htracks.ok hok
    exact ⟨row, hrow, hdepth, h.trans hleaves hrow.exists_cons⟩
  error herror := by
    obtain ⟨row, hrow, hblames⟩ := htracks.error herror
    exact ⟨row, hrow, hblames.behind h hrow.exists_cons⟩

/-- A result that is given on the spot. -/
theorem Tracks.of_ok {parser : Parse α} {a : α} (h : parser s = .ok a s)
    (hlater : later a = now) : Tracks limit s parser now later where
  ok hok := by
    rw [h, EStateM.Result.ok.injEq] at hok
    obtain ⟨rfl, rfl⟩ := hok
    exact ⟨[], .refl s, rfl, hlater ▸ Leaves.refl now s.current⟩
  error herror := by
    rw [h] at herror
    cases herror

theorem tracks_pure {a : α} (h : later a = now) : Tracks limit s (pure a) now later :=
  .of_ok rfl h

/-- The current token fits nowhere. -/
theorem tracks_mismatch (expected : Expected) (h : ∃ rest, rest ∈ now)
    (hno : ∀ rest, s.current :: rest ∉ now) :
    Tracks limit s (mismatch expected) now later where
  ok hok := absurd hok mismatch_ne_ok
  error herror := by
    rw [mismatch, EStateM.Result.error.injEq] at herror
    obtain ⟨rfl, rfl⟩ := herror
    exact ⟨[], .refl s, h, hno⟩

/-- What is done with a result has no part in it. -/
theorem Tracks.bind_pure {parser : Parse α} (hs : s.HasRoom limit n)
    (h : Tracks limit s parser now fun _ => left) (f : α → β) :
    Tracks limit s (parser >>= fun a => pure (f a)) now fun _ => left :=
  h.bind hs fun _ _ _ _ => tracks_pure rfl

/-- A parser may be replaced by one that does the same from here. -/
theorem TracksTo.of_eq {parser parser' : Parse α} (h : parser s = parser' s)
    (htracks : TracksTo limit s depth parser' now later) :
    TracksTo limit s depth parser now later where
  ok hok := htracks.ok (h ▸ hok)
  error herror := htracks.error (h ▸ herror)

theorem TracksTo.of_current {next : Token → Parse α}
    (h : TracksTo limit s depth (next s.current) now later) :
    TracksTo limit s depth (current >>= next) now later :=
  .of_eq (current_bind next) h

/-! ## 3. Single tokens -/

/-- There are tokens of the kind, and they are neither the end nor marks. -/
structure Plain (kind : Token → Prop) : Prop where
  exists_token : ∃ token, kind token
  ne_eof : ∀ {token}, kind token → token ≠ .eof
  not_isMark : ∀ {token}, kind token → token.isMark = false

/-- Over one token. -/
theorem TracksTo.skip_bind {next : Unit → Parse α} (hs : s.HasRoom limit n) (hkind : Plain kind)
    (h : kind s.current) (hnext : Tracks limit s.next (next ()) left later) :
    Tracks limit s (skip >>= next) (ofKind kind * left) later := by
  have hreaches := hs.reaches_next (hkind.ne_eof h) (hkind.not_isMark h)
  constructor
  · intro a m hok
    obtain ⟨row, hrow, hdepth, hleaves⟩ := hnext.ok hok
    exact ⟨_, hreaches.trans hrow, hdepth.trans next_depth,
      (Leaves.ofKind h _).trans hleaves hrow.exists_cons⟩
  · intro e m herror
    obtain ⟨row, hrow, hblames⟩ := hnext.error herror
    exact ⟨_, hreaches.trans hrow, hblames.behind (Leaves.ofKind h _) hrow.exists_cons⟩

/-- The parser moves over a token of the kind, or fails on the spot. -/
def Takes (kind : Token → Prop) (parser : Parse α) : Prop :=
  ∀ s : TokenStream, (kind s.current ∧ ∃ a, parser s = .ok a s.next) ∨
    ¬ kind s.current ∧ ∃ expected, parser s = mismatch expected s

theorem Takes.tracks {parser : Parse α} (h : Takes kind parser) (hkind : Plain kind)
    (hs : s.HasRoom limit n) (hleft : ∃ rest, rest ∈ left) :
    Tracks limit s parser (ofKind kind * left) fun _ => left := by
  obtain ⟨hcurrent, a, ha⟩ | ⟨hcurrent, expected, herror⟩ := h s
  · have hskip : parser s = (skip >>= fun _ => pure a : Parse α) s := ha
    exact .of_eq hskip (.skip_bind hs hkind hcurrent (tracks_pure rfl))
  · obtain ⟨token, htoken⟩ := hkind.exists_token
    refine .of_eq herror (tracks_mismatch expected (exists_mem_ofKind_mul htoken hleft) ?_)
    exact fun rest hmem => hcurrent (cons_mem_ofKind_mul.mp hmem).1

theorem plain_token (heof : token ≠ .eof) (hmark : token.isMark = false) : Plain (· = token) where
  exists_token := ⟨token, rfl⟩
  ne_eof := by
    rintro _ rfl
    exact heof
  not_isMark := by
    rintro _ rfl
    exact hmark

theorem plain_isUrn : Plain IsUrn where
  exists_token := ⟨.urn "", trivial⟩
  ne_eof {token} h := by cases token <;> simp_all [IsUrn]
  not_isMark {token} h := by cases token <;> simp_all [IsUrn, isMark]

theorem plain_isName : Plain IsName where
  exists_token := ⟨.attribute "", trivial⟩
  ne_eof {token} h := by cases token <;> simp_all [IsName]
  not_isMark {token} h := by cases token <;> simp_all [IsName, isMark]

theorem plain_isComparison : Plain IsComparison where
  exists_token := ⟨.keyword (.comparison .equal), trivial⟩
  ne_eof {token} h := by cases token <;> simp_all [IsComparison]
  not_isMark {token} h := by cases token <;> simp_all [IsComparison, isMark]

theorem plain_isConnective : Plain IsConnective where
  exists_token := ⟨.keyword (.connective .and), trivial⟩
  ne_eof {token} h := by cases token <;> simp_all [IsConnective]
  not_isMark {token} h := by cases token <;> simp_all [IsConnective, isMark]

theorem plain_isLiteral : Plain IsLiteral where
  exists_token := ⟨_, .constant .null, rfl⟩
  ne_eof := by
    rintro _ ⟨l, rfl⟩
    exact l.token_ne_eof
  not_isMark := by
    rintro _ ⟨l, rfl⟩
    exact l.not_isMark_token

theorem takes_require (token : Token) : Takes (· = token) (require token) := by
  intro s
  by_cases h : s.current = token
  · exact .inl ⟨h, (), require_eq_ok_iff.mpr ⟨h, rfl⟩⟩
  · refine .inr ⟨h, .token token, ?_⟩
    exact require_eq_error_iff.mpr (ensure_eq_error_iff.mpr ⟨h, rfl, rfl⟩)

theorem takes_attributeName : Takes IsName attributeName := by
  intro s
  unfold attributeName
  rw [current_bind]
  cases s.current with
  | «attribute» name => exact .inl ⟨trivial, name, rfl⟩
  | _ => exact .inr ⟨id, .attributeName, rfl⟩

theorem takes_comparison : Takes IsComparison comparison := by
  intro s
  unfold comparison
  rw [current_bind]
  cases s.current with
  | keyword keyword =>
    cases keyword with
    | comparison operator => exact .inl ⟨trivial, operator, rfl⟩
    | _ => exact .inr ⟨id, .comparison, rfl⟩
  | _ => exact .inr ⟨id, .comparison, rfl⟩

theorem takes_connective : Takes IsConnective connective := by
  intro s
  unfold connective
  rw [current_bind]
  cases s.current with
  | keyword keyword =>
    cases keyword with
    | connective operator => exact .inl ⟨trivial, operator, rfl⟩
    | _ => exact .inr ⟨id, .connective, rfl⟩
  | _ => exact .inr ⟨id, .connective, rfl⟩

theorem takes_literal : Takes IsLiteral literal := by
  intro s
  unfold literal
  rw [current_bind]
  cases h : Literal.ofToken? s.current with
  | some l => exact .inl ⟨⟨l, ofToken?_eq_some_iff.mp h⟩, l, rfl⟩
  | none =>
    refine .inr ⟨?_, .literal, rfl⟩
    rintro ⟨l, hl⟩
    rw [ofToken?_eq_some_iff.mpr hl] at h
    cases h

/-- A token that may be there or not. -/
theorem tracks_accept_bind {next : Bool → Parse α} (hs : s.HasRoom limit n)
    (htoken : Plain (· = token))
    (htrue : Tracks limit s.next (next true) A later)
    (hfalse : s.current ≠ token → Tracks limit s (next false) B later)
    (hno : ∀ rest, token :: rest ∉ B) :
    Tracks limit s (accept token >>= next) (ofToken token * A + B) later := by
  by_cases h : s.current = token
  · have htaken : (accept token >>= next) s = (skip >>= fun _ => next true) s := by
      rw [accept_bind, if_pos h]
      rfl
    exact .of_eq htaken (.of_leaves (.inl (h ▸ hno)) (.skip_bind hs htoken h htrue))
  · have hnot : (accept token >>= next) s = next false s := by
      rw [accept_bind, if_neg h]
    refine .of_eq hnot (.of_leaves (.inr fun rest hmem => ?_) (hfalse h))
    exact h (cons_mem_ofToken_mul.mp hmem).1

/-! ## 4. Phrases -/

theorem tracks_schema (hs : s.HasRoom limit n) (hleft : ∃ rest, rest ∈ left) :
    Tracks limit s schema (schemaRows * (ofKind IsName * left)) fun _ => ofKind IsName * left := by
  have hname : ∃ rest, rest ∈ ofKind IsName * left :=
    exists_mem_ofKind_mul plain_isName.exists_token.choose_spec hleft
  rw [schemaRows, add_mul, one_mul, mul_assoc]
  refine .of_current ?_
  cases h : s.current with
  | urn urn =>
    have hcolon := (takes_require .colon).tracks (plain_token (by decide) rfl) hs.next hname
    refine .of_leaves (.inl ?_)
      (.skip_bind hs plain_isUrn (h ▸ trivial) (hcolon.bind_pure hs.next fun _ => some urn))
    simp [h, IsName]
  | «attribute» name =>
    refine .of_leaves (.inr ?_) (tracks_pure rfl)
    simp [h, IsUrn]
  | _ =>
    refine tracks_mismatch _ ?_ ?_
    · obtain ⟨rest, hrest⟩ := hname
      exact ⟨rest, .inr hrest⟩
    · simp [h, mem_add, IsUrn, IsName]

theorem tracks_subAttribute (hs : s.HasRoom limit n) (hleft : ∃ rest, rest ∈ left)
    (hdot : ∀ rest, .dot :: rest ∉ left) :
    Tracks limit s subAttribute (subRows * left) fun _ => left := by
  rw [subRows, add_mul, one_mul, mul_assoc]
  refine tracks_accept_bind hs (plain_token (by decide) rfl) ?_ (fun _ => tracks_pure rfl) hdot
  exact (takes_attributeName.tracks plain_isName hs.next hleft).bind_pure hs.next some

/-- An attribute path, where no dot may come behind it. -/
theorem tracks_attributePath (hs : s.HasRoom limit n) (hleft : ∃ rest, rest ∈ left)
    (hdot : ∀ rest, .dot :: rest ∉ left) :
    Tracks limit s attributePath (pathRows * left) fun _ => left := by
  have hsub : ∃ rest, rest ∈ subRows * left := by
    rw [subRows, add_mul, one_mul]
    obtain ⟨rest, hrest⟩ := hleft
    exact ⟨rest, .inr hrest⟩
  rw [pathRows, mul_assoc, mul_assoc]
  refine (tracks_schema hs hsub).bind hs fun _ m _ hm => ?_
  refine (takes_attributeName.tracks plain_isName hm hsub).bind hm fun _ m' _ hm' => ?_
  exact (tracks_subAttribute hm' hleft hdot).bind_pure hm' _

/-- A test behind its path. -/
theorem tracks_testOf (path : AttributePath) (hs : s.HasRoom limit n)
    (hleft : ∃ rest, rest ∈ left) :
    Tracks limit s (testOf path) (tailRows * left) fun _ => left := by
  have hliteral : ∃ rest, rest ∈ ofKind IsLiteral * left :=
    exists_mem_ofKind_mul plain_isLiteral.exists_token.choose_spec hleft
  have hspace := exists_mem_ofToken_mul .space hliteral
  have hcomparison : ∃ rest, rest ∈
      ofKind IsComparison * (ofToken .space * (ofKind IsLiteral * left)) :=
    exists_mem_ofKind_mul plain_isComparison.exists_token.choose_spec hspace
  have hplain : Plain (· = .space) := plain_token (by decide) rfl
  rw [tailRows, mul_assoc, add_mul, mul_assoc, mul_assoc]
  obtain ⟨rest, hrest⟩ := hcomparison
  refine ((takes_require .space).tracks hplain hs ⟨rest, .inr hrest⟩).bind hs fun _ m _ hm => ?_
  refine tracks_accept_bind hm (plain_token (by decide) rfl) (tracks_pure rfl) (fun _ => ?_) ?_
  · refine (takes_comparison.tracks plain_isComparison hm hspace).bind hm fun _ m _ hm => ?_
    refine ((takes_require .space).tracks hplain hm hliteral).bind hm fun _ m _ hm => ?_
    exact (takes_literal.tracks plain_isLiteral hm hleft).bind_pure hm _
  · simp [IsComparison]

end Parse

end ScimQuery
