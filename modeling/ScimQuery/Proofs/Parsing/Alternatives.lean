/-
ScimQuery.Proofs.Parsing.Alternatives — alternatives of which one at most
succeeds.

A choice takes the first of its alternatives that succeeds. Where no two of
them succeed (`Excludes`) it takes the one that does, wherever that stands in
the list (`firstOf_eq_some_iff_exists_mem`), so the list may be put into any
order (`firstOf_perm`). This goes for a part of the list as well: what stands
behind it is tried only if the whole part fails (`firstOf_append`).

The shapes of a path are told apart by the token behind the attribute path
that each of them starts with (`excludes_of_behindPath`).
-/
import ScimQuery.Proofs.Parsing.Shape

namespace ScimQuery.Parse

open TokenStream

variable {α β : Type} {s s' : TokenStream} {parsers order front front' back : List (Parse α)}

/-! ## 1. Alternatives that exclude each other -/

/-- The two parsers do not both succeed on the stream. -/
def Excludes (s : TokenStream) (first second : Parse α) : Prop :=
  ∀ ⦃a m⦄, first s = .ok a m → ∀ b n, second s ≠ .ok b n

theorem Excludes.symm {first second : Parse α} (h : Excludes s first second) :
    Excludes s second first :=
  fun _ _ hsecond _ _ hfirst => h hfirst _ _ hsecond

/-- Two shapes exclude each other if they have different tokens behind the
attribute path. -/
theorem excludes_of_behindPath {first second : Parse α} {token token' : Token}
    (hne : token ≠ token') (hfirst : ∀ a m, first s = .ok a m → BehindPath token s)
    (hsecond : ∀ a m, second s = .ok a m → BehindPath token' s) : Excludes s first second :=
  fun a m ha b n hb => hne ((hfirst a m ha).unique (hsecond b n hb))

/-- A choice of alternatives that exclude each other takes the one that
succeeds. -/
theorem firstOf_eq_some_iff_exists_mem {a : α} (h : parsers.Pairwise (Excludes s)) :
    firstOf parsers s = .ok (some a) s' ↔ ∃ parser ∈ parsers, parser s = .ok a s' := by
  induction parsers with
  | nil => simp
  | cons parser parsers ih =>
    obtain ⟨hfirst, hrest⟩ := List.pairwise_cons.mp h
    rw [firstOf_cons_eq_some_iff, ih hrest]
    simp only [List.mem_cons, exists_eq_or_imp]
    constructor
    · rintro (ha | ⟨-, ha⟩)
      · exact .inl ha
      · exact .inr ha
    · rintro (ha | ⟨other, hother, ha⟩)
      · exact .inl ha
      · have hfails (b : α) (n : TokenStream) : parser s ≠ .ok b n :=
          (hfirst other hother).symm ha b n
        exact .inr ⟨hfails, other, hother, ha⟩

/-! ## 2. Orders -/

/-- **The order of alternatives that exclude each other does not count.** -/
theorem firstOf_perm (h : order.Perm parsers) (hexcludes : parsers.Pairwise (Excludes s)) :
    firstOf order s = firstOf parsers s := by
  have horder : order.Pairwise (Excludes s) := (h.pairwise_iff Excludes.symm).mpr hexcludes
  rcases firstOf_eq_none_or_some parsers s with hnone | ⟨a, m, hsome⟩
  · rw [hnone]
    have hfails := (firstOf_eq_none_iff.mp hnone).2
    exact firstOf_eq_none_iff.mpr ⟨rfl, fun parser hparser => hfails parser (h.mem_iff.mp hparser)⟩
  · rw [hsome]
    obtain ⟨parser, hparser, ha⟩ := (firstOf_eq_some_iff_exists_mem hexcludes).mp hsome
    exact (firstOf_eq_some_iff_exists_mem horder).mpr ⟨parser, h.mem_iff.mpr hparser, ha⟩

/-- The alternatives behind others are tried if those all fail. -/
theorem firstOf_append (front back : List (Parse α)) :
    firstOf (front ++ back) = (do
      match ← firstOf front with
      | some a => return some a
      | none => firstOf back) := by
  induction front with
  | nil => simp [firstOf]
  | cons parser front ih =>
    rw [List.cons_append, firstOf, firstOf, bind_assoc]
    refine bind_congr fun found => ?_
    cases found with
    | none => exact ih
    | some a => simp

/-- A result of the one part, or of the other part where the first one fails. -/
theorem firstOf_append_eq_some_iff {a : α} :
    firstOf (front ++ back) s = .ok (some a) s' ↔
      firstOf front s = .ok (some a) s' ∨
        firstOf front s = .ok none s ∧ firstOf back s = .ok (some a) s' := by
  rw [firstOf_append, bind_eq_ok_iff]
  refine ⟨fun h => ?_, fun h => ?_⟩
  · obtain ⟨found, m, hfound, hrest⟩ := h
    cases found with
    | none =>
      obtain ⟨rfl, -⟩ := firstOf_eq_none_iff.mp hfound
      exact .inr ⟨hfound, hrest⟩
    | some b =>
      obtain ⟨⟨⟩, rfl⟩ := pure_eq_ok_iff.mp hrest
      exact .inl hfound
  · obtain ha | ⟨hnone, ha⟩ := h
    · exact ⟨some a, s', ha, rfl⟩
    · exact ⟨none, s, hnone, ha⟩

/-- What a choice is followed by depends on the choice alone. -/
theorem firstOf_bind_congr {next : Option α → Parse β}
    (h : firstOf front s = firstOf front' s) :
    (firstOf front >>= next) s = (firstOf front' >>= next) s := by
  simp only [bind, EStateM.bind, h]

theorem firstOf_append_congr (h : firstOf front s = firstOf front' s) :
    firstOf (front ++ back) s = firstOf (front' ++ back) s := by
  rw [firstOf_append, firstOf_append]
  exact firstOf_bind_congr h

end ScimQuery.Parse
