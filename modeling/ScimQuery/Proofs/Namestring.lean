/-
ScimQuery.Proofs.Namestring — the URNs that are recognised, by the rule they
are written with.

A `Namestring` holds the components of a URN, and `Namestring.Follows` says of
each what it has to be. The rule is read as a description of texts here: a text
can often be cut into components in more than one way, since the mark `?=` may
stand in an r-component and the characters of a mark may stand in what follows
it. The recogniser cuts where no other cut can be and never tries a second one.
That loses nothing (`Parts.ofText_namestring`): where two queries stand behind
each other, the first one together with the mark and the second is a query too
(`isQuery_marked`).

The rule of RFC 8141 lets a fragment be empty and lets it begin with a slash or
a question mark, as other URIs do. The recogniser asks for a `pchar` first, as
in the other components, and so it refuses some URNs.
-/
import Mathlib.Data.List.Basic
import ScimQuery.Proofs.Lexemes.Pchar

namespace ScimQuery.SchemaUrn

open CharClass

/-! ## 1. The rule -/

/-- The components of a URN, without their marks. -/
structure Namestring where
  scheme : List Char
  nid : List Char
  nss : List Char
  /-- The r-component. -/
  resolution : Option (List Char)
  /-- The q-component. -/
  query : Option (List Char)
  /-- The f-component. -/
  fragment : Option (List Char)

/-- A component behind its mark, or nothing. -/
def marked (mark : List Char) : Option (List Char) → List Char
  | none => []
  | some text => mark ++ text

/-- The text of a URN: its components, one behind the other. -/
def Namestring.text (name : Namestring) : List Char :=
  name.scheme ++ ':' :: (name.nid ++ ':' :: (name.nss ++
    (marked ['?', '+'] name.resolution ++ marked ['?', '='] name.query) ++
      marked ['#'] name.fragment))

/-- A slash or a question mark. They may stand in queries and fragments, and
neither is a `pchar`. -/
def isComponentMark (c : Char) : Bool :=
  c == '/' || c == '?'

/-- Each component is as the rule has it; `fragmentRule` is what the rule says
of fragments. -/
structure Namestring.Follows (fragmentRule : List Char → Prop) (name : Namestring) : Prop where
  scheme : name.scheme.map Char.toLower = ['u', 'r', 'n']
  nid_length : 2 ≤ name.nid.length ∧ name.nid.length ≤ 32
  nid_chars : ∀ c ∈ name.nid, c.isAlpha = true ∨ c.isDigit = true ∨ c = '-'
  nid_head : name.nid.head? ≠ some '-'
  nid_last : name.nid.getLast? ≠ some '-'
  /-- The namespace `urn` is reserved. -/
  nid_free : name.nid.map Char.toLower ≠ ['u', 'r', 'n']
  nss : IsPcharPiece (· == '/') name.nss
  resolution : ∀ text ∈ name.resolution, IsPcharPiece isComponentMark text
  query : ∀ text ∈ name.query, IsPcharPiece isComponentMark text
  fragment : ∀ text ∈ name.fragment, fragmentRule text

/-! ## 2. Components -/

theorem isComponentMark_of_isPchar (c : Char) (hc : isPchar c = true) :
    isComponentMark c = false := by
  rw [← Bool.not_eq_true]
  intro hmark
  simp only [isComponentMark, Bool.or_eq_true, beq_iff_eq] at hmark
  rcases hmark with rfl | rfl <;> exact absurd hc (by decide)

theorem isComponentText_iff {text : List Char} :
    isComponentText text = true ↔ IsPcharPiece isComponentMark text :=
  isPcharPiece_iff isComponentMark_of_isPchar

theorem isSpecificString_iff {nss : List Char} :
    isSpecificString nss = true ↔ IsPcharPiece (· == '/') nss := by
  refine isPcharPiece_iff fun c hc => ?_
  rw [beq_eq_false_iff_ne]
  rintro rfl
  exact absurd hc (by decide)

theorem isNamespaceId_iff {nid : List Char} : isNamespaceId nid = true ↔
    (2 ≤ nid.length ∧ nid.length ≤ 32) ∧
      (∀ c ∈ nid, c.isAlpha = true ∨ c.isDigit = true ∨ c = '-') ∧ nid.head? ≠ some '-' ∧
      nid.getLast? ≠ some '-' ∧ nid.map Char.toLower ≠ ['u', 'r', 'n'] := by
  simp only [isNamespaceId, Bool.and_eq_true, decide_eq_true_eq, List.all_eq_true, isNid,
    Bool.or_eq_true, beq_iff_eq, bne_iff_ne, ne_eq, or_assoc, and_assoc]

/-- The three letters in front of the first colon are an attempt at a URN. -/
theorem isAttempt_of_scheme {scheme : List Char}
    (h : scheme.map Char.toLower = ['u', 'r', 'n']) (rest : List Char) :
    isAttempt (scheme ++ ':' :: rest) = true := by
  have hlength : scheme.length = 3 := by
    simpa using congrArg List.length h
  obtain ⟨u, r, n, rfl⟩ := List.length_eq_three.mp hlength
  simp only [List.map_cons, List.map_nil, List.cons.injEq, and_true] at h
  obtain ⟨hu, hr, hn⟩ := h
  simp [isAttempt, hu, hr, hn]

/-- Two queries behind each other are one query, and so are one and none. -/
theorem isQuery_marked {resolution query : Option (List Char)}
    (hresolution : ∀ text ∈ resolution, IsPcharPiece isComponentMark text)
    (hquery : ∀ text ∈ query, IsPcharPiece isComponentMark text) :
    isQuery (marked ['?', '+'] resolution ++ marked ['?', '='] query) = true := by
  cases resolution with
  | none =>
    cases query with
    | none => rfl
    | some q => exact isComponentText_iff.mpr (hquery q rfl)
  | some r =>
    refine isComponentText_iff.mpr ((hresolution r rfl).append ?_)
    cases query with
    | none => exact .nil
    | some q =>
      have hequals : IsPchar ['='] := .plain (.inr (.inl (by decide)))
      exact .extra (by decide) (.pchar hequals (hquery q rfl).isPcharRun)

theorem isFragment_marked {fragment : Option (List Char)} :
    SchemaUrn.isFragment (marked ['#'] fragment) = true ↔
      ∀ text ∈ fragment, IsPcharPiece isComponentMark text := by
  cases fragment with
  | none => simp [marked, SchemaUrn.isFragment]
  | some text => simp [marked, SchemaUrn.isFragment, isComponentText_iff]

/-! ## 3. The cuts -/

/-- A character that no `pchar` is written with does not stand in a piece. -/
theorem ne_of_mem_piece {extra : Char → Bool} {text : List Char}
    (h : isPcharPiece extra text = true) {d : Char} (hd : isPchar d = false)
    (hextra : extra d = false) : ∀ c ∈ text, (c != d) = true := by
  simp only [isPcharPiece, Bool.and_eq_true] at h
  intro c hc
  rw [bne_iff_ne]
  rintro rfl
  rcases isPchar_or_of_isPcharRun h.2 c hc with hp | he
  · rw [hd] at hp
    cases hp
  · rw [hextra] at he
    cases he

variable {fragmentRule : List Char → Prop} {name : Namestring}

/-- A query behind its mark has no `#` in it. -/
theorem ne_hash_of_mem_marked {mark : List Char} (hmark : ∀ c ∈ mark, (c != '#') = true)
    {component : Option (List Char)}
    (h : ∀ text ∈ component, IsPcharPiece isComponentMark text) :
    ∀ c ∈ marked mark component, (c != '#') = true := by
  intro c hc
  cases component with
  | none => cases hc
  | some text =>
    rcases List.mem_append.mp hc with hc | hc
    · exact hmark c hc
    · exact ne_of_mem_piece (isComponentText_iff.mpr (h text rfl)) (by decide) (by decide) c hc

/-- The queries have no `#` in them. -/
theorem ne_hash_of_mem_queries (h : name.Follows fragmentRule) :
    ∀ c ∈ marked ['?', '+'] name.resolution ++ marked ['?', '='] name.query,
      (c != '#') = true := by
  intro c hc
  rcases List.mem_append.mp hc with hc | hc
  · exact ne_hash_of_mem_marked (by simp) h.resolution c hc
  · exact ne_hash_of_mem_marked (by simp) h.query c hc

/-- **The cuts find the components** of a URN, the two queries in one piece. -/
theorem Parts.ofText_namestring (h : name.Follows fragmentRule) :
    Parts.ofText (name.nid ++ ':' :: (name.nss ++
      (marked ['?', '+'] name.resolution ++ marked ['?', '='] name.query) ++
        marked ['#'] name.fragment)) =
      ⟨name.nid, name.nss, marked ['?', '+'] name.resolution ++ marked ['?', '='] name.query,
        marked ['#'] name.fragment⟩ := by
  have hnid : ∀ c ∈ name.nid, (c != ':') = true := by
    intro c hc
    rw [bne_iff_ne]
    rintro rfl
    exact absurd (h.nid_chars _ hc) (by decide)
  have hnss := isSpecificString_iff.mpr h.nss
  have hmain : ∀ c ∈ name.nss ++ (marked ['?', '+'] name.resolution ++
      marked ['?', '='] name.query), (c != '#') = true := by
    intro c hc
    rcases List.mem_append.mp hc with hc | hc
    · exact ne_of_mem_piece hnss (by decide) (by decide) c hc
    · exact ne_hash_of_mem_queries h c hc
  have hcolon (rest : List Char) : Stops (· != ':') (':' :: rest) := by simp
  have hhash : Stops (· != '#') (marked ['#'] name.fragment) := by
    cases name.fragment <;> simp [marked]
  have hquestion : Stops (· != '?') (marked ['?', '+'] name.resolution ++
      marked ['?', '='] name.query) := by
    cases name.resolution <;> cases name.query <;> simp [marked]
  have hplain := ne_of_mem_piece (d := '?') hnss (by decide) (by decide)
  simp only [Parts.ofText, takeWhile_append_of_stops hnid (hcolon _),
    dropWhile_append_of_stops hnid (hcolon _), List.drop_succ_cons, List.drop_zero,
    takeWhile_append_of_stops hmain hhash, dropWhile_append_of_stops hmain hhash,
    takeWhile_append_of_stops hplain hquestion, dropWhile_append_of_stops hplain hquestion]

/-- Of a text by the rule, whatever it says of fragments, only the fragment is
left to be looked at. -/
theorem isValid_text_iff (h : name.Follows fragmentRule) :
    isValid name.text = true ↔ ∀ text ∈ name.fragment, IsPcharPiece isComponentMark text := by
  have hlength : name.scheme.length = 3 := by
    simpa using congrArg List.length h.scheme
  have hdrop (rest : List Char) : (name.scheme ++ ':' :: rest).drop 4 = rest := by
    rw [List.drop_append, List.drop_of_length_le (by omega), hlength]
    rfl
  have hnid : isNamespaceId name.nid = true :=
    isNamespaceId_iff.mpr ⟨h.nid_length, h.nid_chars, h.nid_head, h.nid_last, h.nid_free⟩
  rw [isValid, Namestring.text, isAttempt_of_scheme h.scheme, hdrop, Parts.ofText_namestring h,
    Parts.isValid, hnid, isSpecificString_iff.mpr h.nss, isQuery_marked h.resolution h.query]
  simp only [Bool.true_and, isFragment_marked]

/-! ## 4. The recogniser -/

/-- What stands behind `urn:` is put together again from its parts, if there is
a namespace specific string. -/
theorem Parts.text_ofText {text : List Char} (h : (Parts.ofText text).nss ≠ []) :
    text = (Parts.ofText text).nid ++ ':' :: ((Parts.ofText text).nss ++
      (Parts.ofText text).query ++ (Parts.ofText text).fragment) := by
  simp only [Parts.ofText] at h ⊢
  rw [List.takeWhile_append_dropWhile, List.takeWhile_append_dropWhile]
  have hstop := stops_dropWhile (· != ':') text
  cases hdrop : text.dropWhile (· != ':') with
  | nil => simp [hdrop] at h
  | cons d rest =>
    rw [hdrop] at hstop
    obtain rfl : d = ':' := by simpa using hstop
    rw [List.drop_succ_cons, List.drop_zero, ← hdrop, List.takeWhile_append_dropWhile]

/-- The piece behind the namespace specific string is one of the two queries, or
there is none. -/
theorem exists_marked_of_isQuery {text : List Char} (h : isQuery text = true) :
    ∃ resolution query, text = marked ['?', '+'] resolution ++ marked ['?', '='] query ∧
      (∀ piece ∈ resolution, IsPcharPiece isComponentMark piece) ∧
      ∀ piece ∈ query, IsPcharPiece isComponentMark piece := by
  unfold isQuery at h
  split at h
  · exact ⟨none, none, rfl, by simp, by simp⟩
  · rename_i piece
    refine ⟨some piece, none, by simp [marked], ?_, by simp⟩
    simpa using isComponentText_iff.mp h
  · rename_i piece
    refine ⟨none, some piece, by simp [marked], by simp, ?_⟩
    simpa using isComponentText_iff.mp h
  · cases h

theorem exists_marked_of_isFragment {text : List Char} (h : SchemaUrn.isFragment text = true) :
    ∃ fragment, text = marked ['#'] fragment ∧
      ∀ piece ∈ fragment, IsPcharPiece isComponentMark piece := by
  unfold SchemaUrn.isFragment at h
  split at h
  · exact ⟨none, rfl, by simp⟩
  · rename_i piece
    refine ⟨some piece, by simp [marked], ?_⟩
    simpa using isComponentText_iff.mp h
  · cases h

/-- An attempt at a URN has the scheme in front of its first colon. -/
theorem exists_scheme_of_isAttempt {text : List Char} (h : isAttempt text = true) :
    ∃ scheme : List Char, scheme.map Char.toLower = ['u', 'r', 'n'] ∧
      text = scheme ++ ':' :: text.drop 4 := by
  unfold isAttempt at h
  split at h
  · rename_i u r n rest
    simp only [Bool.and_eq_true, beq_iff_eq] at h
    obtain ⟨⟨hu, hr⟩, hn⟩ := h
    exact ⟨[u, r, n], by simp [hu, hr, hn], rfl⟩
  · cases h

/-- **The recogniser finds the components if there are any**: a text is a valid
URN if and only if it can be put together from components that follow the rule,
with a `pchar` at the start of the fragment as of every other component. -/
theorem isValid_iff_exists_namestring {text : List Char} :
    isValid text = true ↔
      ∃ name : Namestring, name.Follows (IsPcharPiece isComponentMark) ∧ name.text = text := by
  constructor
  · intro h
    simp only [isValid, Parts.isValid, Bool.and_eq_true] at h
    obtain ⟨hattempt, ⟨⟨hnid, hnss⟩, hquery⟩, hfragment⟩ := h
    obtain ⟨scheme, hscheme, htext⟩ := exists_scheme_of_isAttempt hattempt
    obtain ⟨resolution, query, hqueries, hresolution, hquery⟩ := exists_marked_of_isQuery hquery
    obtain ⟨fragment, hmark, hfragment⟩ := exists_marked_of_isFragment hfragment
    have hpiece := isSpecificString_iff.mp hnss
    have hne : (Parts.ofText (text.drop 4)).nss ≠ [] := by
      intro hnil
      rw [hnil] at hnss
      cases hnss
    obtain ⟨hlength, hchars, hhead, hlast, hfree⟩ := isNamespaceId_iff.mp hnid
    refine ⟨⟨scheme, _, _, resolution, query, fragment⟩, ⟨hscheme, hlength, hchars, hhead, hlast,
      hfree, hpiece, hresolution, hquery, hfragment⟩, ?_⟩
    rw [Namestring.text, ← hqueries, ← hmark, ← Parts.text_ofText hne, ← htext]
  · intro h
    obtain ⟨name, hname, rfl⟩ := h
    exact (isValid_text_iff hname).mpr hname.fragment

/-! ## 5. Fragments -/

/-- **Which URNs of RFC 8141 are recognised**: all that have no fragment, or one
that begins with something else than a slash or a question mark. -/
theorem isValid_namestring_iff (h : name.Follows (IsPcharRun isComponentMark)) :
    isValid name.text = true ↔ ∀ text ∈ name.fragment, ∃ c ∈ text.head?, c ≠ '/' ∧ c ≠ '?' := by
  rw [isValid_text_iff h]
  refine forall_congr' fun text => forall_congr' fun htext => ?_
  rw [isPcharPiece_iff_head isComponentMark_of_isPchar]
  simp [h.fragment text htext, isComponentMark]

/-- A URN with every component, which goes on behind the first `pchar` of its
fragment with the characters that a fragment may not begin with. -/
def everyComponent : Namestring :=
  ⟨"URN".toList, "a-1".toList, "b%4F/".toList, some "c?".toList, some "=d".toList,
    some "e/?".toList⟩

theorem isValid_namestring_iff_everyComponent :
    everyComponent.Follows (IsPcharRun isComponentMark) ∧
      everyComponent.text = "URN:a-1:b%4F/?+c??==d#e/?".toList ∧
      isValid "URN:a-1:b%4F/?+c??==d#e/?".toList = true := by
  have he : IsPchar ['e'] := .plain (.inl (by decide))
  have hnss : IsPcharPiece (· == '/') "b%4F/".toList :=
    isSpecificString_iff.mp (by decide)
  have hresolution : IsPcharPiece isComponentMark "c?".toList := isComponentText_iff.mp (by decide)
  have hquery : IsPcharPiece isComponentMark "=d".toList := isComponentText_iff.mp (by decide)
  have hfragment : IsPcharRun isComponentMark "e/?".toList :=
    .pchar he (.extra (by decide) (.extra (by decide) .nil))
  obtain ⟨hlength, hchars, hhead, hlast, hfree⟩ :=
    isNamespaceId_iff.mp (show isNamespaceId "a-1".toList = true by decide)
  have hfollows : everyComponent.Follows (IsPcharRun isComponentMark) :=
    ⟨by decide, hlength, hchars, hhead, hlast, hfree, hnss,
      by simpa [everyComponent] using hresolution, by simpa [everyComponent] using hquery,
      by simpa [everyComponent] using hfragment⟩
  have htext : everyComponent.text = "URN:a-1:b%4F/?+c??==d#e/?".toList := by decide
  refine ⟨hfollows, htext, ?_⟩
  rw [← htext, isValid_namestring_iff hfollows]
  rintro text ⟨⟩
  exact ⟨'e', rfl, by decide⟩

/-- A URN with a fragment and nothing in it. -/
def emptyFragment : Namestring :=
  ⟨"urn".toList, "ab".toList, "c".toList, none, none, some []⟩

/-- **An empty fragment** is one by RFC 8141, and the URN is refused. -/
theorem isValid_emptyFragment :
    emptyFragment.Follows (IsPcharRun isComponentMark) ∧
      emptyFragment.text = "urn:ab:c#".toList ∧ isValid "urn:ab:c#".toList = false := by
  have hnss : IsPcharPiece (· == '/') "c".toList := isSpecificString_iff.mp (by decide)
  obtain ⟨hlength, hchars, hhead, hlast, hfree⟩ :=
    isNamespaceId_iff.mp (show isNamespaceId "ab".toList = true by decide)
  have hfollows : emptyFragment.Follows (IsPcharRun isComponentMark) :=
    ⟨by decide, hlength, hchars, hhead, hlast, hfree, hnss,
      by simp [emptyFragment], by simp [emptyFragment],
      by simpa [emptyFragment] using IsPcharRun.nil⟩
  exact ⟨hfollows, by decide, by decide⟩

end ScimQuery.SchemaUrn
