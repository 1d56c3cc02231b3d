/-
ScimQuery.Proofs.InPlace.Slice — pieces of a text by the places where they start
and stop.

A reader that keeps to one text and a position in it does not take the text
apart: it looks at the characters at places, and cuts out what it has read. The
cuts are partial. `slice?` asks for two places of the text in the right order,
and `sliceBytes?`, which counts in the bytes of UTF-8, for places where a
character starts or the text ends. What a cut needs in order to succeed is that
the piece stands where it is looked for (`slice?_of_isPrefix`).

The characters of a word take one byte each (`utf8Size_of_isRun`), so in a word
the two ways of counting agree (`sliceBytes?_of_ascii`).
-/
import ScimQuery.Proofs.Lexemes.SchemaUrn

namespace ScimQuery.InPlace

open CharClass

/-! ## 1. Places -/

/-- The characters from `start` up to `stop`, if these are places of the text
and in this order. -/
def slice? (text : List Char) (start stop : Nat) : Option (List Char) :=
  if start ≤ stop ∧ stop ≤ text.length then some ((text.take stop).drop start) else none

/-- Whether a character of the class stands at a place. -/
def isAt (p : Char → Bool) (text : List Char) (place : Nat) : Bool :=
  text[place]?.any p

/-- Behind the digits that stand at a place. -/
def skipDigits (text : List Char) (place : Nat) : Nat :=
  if h : place < text.length then
    if text[place].isDigit then skipDigits text (place + 1) else place
  else place
termination_by text.length - place

/-- What stands at a place is what the rest behind it starts with. -/
theorem isAt_eq (p : Char → Bool) (text : List Char) (place : Nat) :
    isAt p text place = (text.drop place).head?.any p := by
  rw [isAt, List.head?_drop]

theorem isAt_drop (p : Char → Bool) (text : List Char) (place n : Nat) :
    isAt p (text.drop place) n = isAt p text (place + n) := by
  rw [isAt, isAt, List.getElem?_drop]

/-- Nothing stands behind the end. -/
theorem lt_length_of_isAt {p : Char → Bool} {text : List Char} {place : Nat}
    (h : isAt p text place = true) : place < text.length := by
  obtain ⟨c, hc, -⟩ := (Option.any_eq_true _ _).mp h
  exact (List.getElem?_eq_some_iff.mp hc).1

/-- What stands at a place is what is left from there on. -/
theorem drop_of_getElem? {text : List Char} {place : Nat} {c : Char} (h : text[place]? = some c) :
    text.drop place = c :: text.drop (place + 1) := by
  obtain ⟨hplace, rfl⟩ := List.getElem?_eq_some_iff.mp h
  exact List.drop_eq_getElem_cons hplace

/-- A piece is cut out if it stands at its start. -/
theorem slice?_of_isPrefix {text piece : List Char} {start : Nat} (hstart : start ≤ text.length)
    (h : piece <+: text.drop start) :
    slice? text start (start + piece.length) = some piece := by
  have hlength : piece.length ≤ text.length - start := by
    simpa using h.length_le
  have hcut : (text.take (start + piece.length)).drop start = piece := by
    rw [List.drop_take, Nat.add_sub_cancel_left]
    exact (List.prefix_iff_eq_take.mp h).symm
  rw [slice?, if_pos ⟨Nat.le_add_right .., by omega⟩, hcut]

/-- The digits at a place are those that the rest starts with. -/
theorem skipDigits_eq (text : List Char) (place : Nat) :
    skipDigits text place = place + ((text.drop place).takeWhile Char.isDigit).length := by
  fun_induction skipDigits text place with
  | case1 place h hdigit ih =>
    rw [ih, List.drop_eq_getElem_cons h, List.takeWhile_cons_of_pos hdigit, List.length_cons]
    omega
  | case2 place h hdigit =>
    rw [List.drop_eq_getElem_cons h, List.takeWhile_cons_of_neg hdigit]
    rfl
  | case3 place h => simp [List.drop_of_length_le (Nat.le_of_not_lt h)]

/-! ## 2. Bytes -/

/-- How many bytes the text takes. -/
def byteLength : List Char → Nat
  | [] => 0
  | c :: rest => c.utf8Size + byteLength rest

/-- How many characters stand in front of a byte, if a character starts there or
the text ends. -/
def charsBefore? : List Char → Nat → Option Nat
  | _, 0 => some 0
  | [], _ + 1 => none
  | c :: rest, byte + 1 =>
    if c.utf8Size ≤ byte + 1 then (charsBefore? rest (byte + 1 - c.utf8Size)).map (· + 1) else none

/-- The characters from the byte `start` up to the byte `stop`. -/
def sliceBytes? (text : List Char) (start stop : Nat) : Option (List Char) :=
  (charsBefore? text start).bind fun first =>
    (charsBefore? text stop).bind fun last => slice? text first last

theorem val_le_of_isAlpha {c : Char} (h : c.isAlpha = true) : c.val ≤ 127 := by
  have halpha : (decide (c.val ≥ 'A'.val ∧ c.val ≤ 'Z'.val) ||
      (decide (c.val ≥ 'a'.val) && decide (c.val ≤ 'z'.val))) = true := h
  simp only [Bool.or_eq_true, Bool.and_eq_true, decide_eq_true_eq, ge_iff_le,
    UInt32.le_iff_toNat_le, Char.reduceVal, UInt32.reduceToNat] at halpha ⊢
  omega

/-- A class that is given by its characters is ASCII if they are. -/
theorem val_le_of_contains {chars : List Char} (hchars : chars.all (·.val ≤ 127) = true) {c : Char}
    (h : chars.contains c = true) : c.val ≤ 127 := by
  have hall := List.all_eq_true.mp hchars c (List.contains_iff_mem.mp h)
  exact of_decide_eq_true hall

theorem val_le_of_isPchar {c : Char} (h : isPchar c = true) : c.val ≤ 127 := by
  have hdigit (hd : c.isDigit = true) : c.val ≤ 127 :=
    val_le_of_isHexDigit (by simp [isHexDigit, hd])
  simp only [isPchar, isPlainPchar, isUnreserved, isSubDelim, Bool.or_eq_true, beq_iff_eq] at h
  rcases h with ((((((h | h) | h) | h) | rfl) | rfl) | h) | rfl
  · exact val_le_of_isAlpha h
  · exact hdigit h
  · exact val_le_of_contains (by decide) h
  · exact val_le_of_contains (by decide) h
  · decide
  · decide
  · exact val_le_of_isHexDigit h
  · decide

/-- The characters of a word are ASCII. -/
theorem utf8Size_of_isRun {c : Char} (h : isRun c = true) : c.utf8Size = 1 := by
  have hname (hn : isNameChar c = true) : isPchar c = true := by
    simp only [isNameChar, Bool.or_eq_true, beq_iff_eq] at hn
    rcases hn with ((hn | hn) | rfl) | rfl
    · simp [isPchar, isPlainPchar, isUnreserved, hn]
    · simp [isPchar, isPlainPchar, isUnreserved, hn]
    · decide
    · decide
  have hnid (hn : isNid c = true) : isNameChar c = true := by
    simp only [isNid] at hn
    simp [isNameChar, hn]
  rw [Char.utf8Size_eq_one_iff]
  simp only [isRun, isConstantLetter, isNamestring, isNss, isComponent, Bool.or_eq_true,
    beq_iff_eq] at h
  rcases h with (h | h) | ((h | h | rfl) | h | h) | rfl
  · exact val_le_of_isPchar (hname h)
  · exact val_le_of_contains (by decide) h
  · exact val_le_of_isPchar (hname (hnid h))
  · exact val_le_of_isPchar h
  · decide
  · exact val_le_of_isPchar h
  · exact val_le_of_contains (by decide) h
  · decide

/-- In a text of ASCII a byte is a character. -/
theorem charsBefore?_of_ascii {text : List Char} (h : ∀ c ∈ text, c.utf8Size = 1) {byte : Nat}
    (hbyte : byte ≤ text.length) : charsBefore? text byte = some byte := by
  induction text generalizing byte with
  | nil =>
    obtain rfl : byte = 0 := Nat.le_zero.mp hbyte
    rfl
  | cons c rest ih =>
    cases byte with
    | zero => rfl
    | succ byte =>
      have hc : c.utf8Size = 1 := h c (by simp)
      have hrest := ih (fun d hd => h d (by simp [hd])) (Nat.le_of_succ_le_succ hbyte)
      simp [charsBefore?, hc, hrest]

theorem byteLength_of_ascii {text : List Char} (h : ∀ c ∈ text, c.utf8Size = 1) :
    byteLength text = text.length := by
  induction text with
  | nil => rfl
  | cons c rest ih =>
    rw [byteLength, h c List.mem_cons_self, ih fun d hd => h d (List.mem_cons_of_mem c hd),
      List.length_cons, Nat.add_comm]

theorem sliceBytes?_of_ascii {text : List Char} (h : ∀ c ∈ text, c.utf8Size = 1) {start stop : Nat}
    (hstart : start ≤ text.length) (hstop : stop ≤ text.length) :
    sliceBytes? text start stop = slice? text start stop := by
  rw [sliceBytes?, charsBefore?_of_ascii h hstart, charsBefore?_of_ascii h hstop]
  rfl

end ScimQuery.InPlace
