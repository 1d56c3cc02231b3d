/-
ScimQuery.Proofs.Lexemes.Scan — how far a scan over one class of
characters reaches, and what a mapped result says about the scan.

Every token of the query language ends where a class of characters ends, so
the scanners are `takeWhile` and `dropWhile` over such classes. `Stops p rest`
is the side condition that all their lemmas have: nothing of the class stands
directly behind the text that is scanned.
-/
import Mathlib.Data.List.TakeWhile
import ScimQuery.CharClass

namespace ScimQuery

/-- The text is empty or starts with a character outside the class `p`. -/
def Stops (p : Char → Bool) (rest : List Char) : Prop :=
  ∀ c ∈ rest.head?, p c = false

namespace Stops

variable {p q : Char → Bool} {c : Char} {rest : List Char}

@[simp] theorem nil : Stops p [] := by
  intro c hc
  simp at hc

@[simp] theorem cons_iff : Stops p (c :: rest) ↔ p c = false := by
  simp [Stops]

/-- A scan that stops at a class stops at every smaller class. -/
theorem mono (h : Stops p rest) (hpq : ∀ c, q c = true → p c = true) : Stops q rest := by
  intro c hc
  have hp := h c hc
  cases hq : q c with
  | false => rfl
  | true => simp [hpq c hq] at hp

end Stops

/-! ## Scans -/

/-- A scan takes a body of the class and stops behind it. -/
theorem takeWhile_append_of_stops {p : Char → Bool} {body rest : List Char}
    (hbody : ∀ c ∈ body, p c = true) (hrest : Stops p rest) :
    (body ++ rest).takeWhile p = body := by
  rw [List.takeWhile_append_of_pos hbody]
  cases rest with
  | nil => simp
  | cons c rest =>
    have hc : p c = false := Stops.cons_iff.mp hrest
    simp [hc]

/-- What a scan leaves behind a body of the class. -/
theorem dropWhile_append_of_stops {p : Char → Bool} {body rest : List Char}
    (hbody : ∀ c ∈ body, p c = true) (hrest : Stops p rest) :
    (body ++ rest).dropWhile p = rest := by
  rw [List.dropWhile_append_of_pos hbody]
  cases rest with
  | nil => rfl
  | cons c rest =>
    have hc : p c = false := Stops.cons_iff.mp hrest
    simp [hc]

/-- A scan stops where it says it does. -/
theorem stops_dropWhile (p : Char → Bool) (text : List Char) : Stops p (text.dropWhile p) := by
  intro c hc
  have h := List.head?_dropWhile_not p text
  rw [Option.mem_def.mp hc] at h
  simpa using h

/-- What is left behind all that a scan takes stops it. -/
theorem stops_of_takeWhile_append {p : Char → Bool} {body rest : List Char}
    (h : (body ++ rest).takeWhile p = body) : Stops p rest := by
  have hsplit := List.takeWhile_append_dropWhile (p := p) (l := body ++ rest)
  rw [h] at hsplit
  rw [← List.append_cancel_left hsplit]
  exact stops_dropWhile p _

/-- A scan that takes nothing stops at once. -/
theorem stops_of_takeWhile_eq_nil {p : Char → Bool} {text : List Char}
    (h : text.takeWhile p = []) : Stops p text := by
  rw [← List.nil_append text] at h
  exact stops_of_takeWhile_append h

/-! ## Classes -/

/-- A hex digit is ASCII. -/
theorem val_le_of_isHexDigit {c : Char} (h : CharClass.isHexDigit c = true) : c.val ≤ 127 := by
  have hhex : (decide (c.val ≥ '0'.val) && decide (c.val ≤ '9'.val) ||
      (decide ('a'.val ≤ c.val) && decide (c.val ≤ 'f'.val)) ||
      (decide ('A'.val ≤ c.val) && decide (c.val ≤ 'F'.val))) = true := h
  simp only [Bool.or_eq_true, Bool.and_eq_true, decide_eq_true_eq, ge_iff_le,
    UInt32.le_iff_toNat_le, Char.reduceVal, UInt32.reduceToNat] at hhex ⊢
  omega

/-! ## Results -/

/-- A mapped result comes from a result. -/
theorem result_map_eq_ok_iff {ε α β : Type} {f : α → β} {result : Except ε α} {b : β} :
    result.map f = .ok b ↔ ∃ a, result = .ok a ∧ f a = b := by
  cases result <;> simp [Except.map]

/-- A mapped failure is the failure. -/
theorem result_map_eq_error_iff {ε α β : Type} {f : α → β} {result : Except ε α} {e : ε} :
    result.map f = .error e ↔ result = .error e := by
  cases result <;> simp [Except.map]

end ScimQuery
