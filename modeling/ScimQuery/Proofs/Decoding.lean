/-
ScimQuery.Proofs.Decoding — what a quoted string stands for, and which strings stand
for something.

`Denotes` reads the pieces of a string as characters, without an order of tries and
without errors: the two units of a surrogate pair are one character, every other
unit is one. `Paired` says of each unit of a pair that its partner is next to it.
The pieces that are paired are those that denote something
(`paired_iff_exists_denotes`), and apart from control characters, which have to be
escaped, the decoder accepts all of them (`decodePieces_eq_ok_iff`).

A text is decoded if it is a quoted string between blanks (`decode_eq_ok_iff`). The
lexer takes every such string, and of those that it takes the decoder refuses just
the ones with a control character or with a unit that has no partner.
-/
import Mathlib.Data.List.DropRight
import ScimQuery.Proofs.Lexemes.Pieces
import ScimQuery.Proofs.Lexing

namespace ScimQuery.Decoding

/-! ## 1. Surrogate pairs -/

/-- A `u` escape from D800 to DBFF. -/
def Piece.Leads : Piece → Prop
  | .unit value => 0xD800 ≤ value ∧ value ≤ 0xDBFF
  | _ => False

/-- A `u` escape from DC00 to DFFF. -/
def Piece.Trails : Piece → Prop
  | .unit value => 0xDC00 ≤ value ∧ value ≤ 0xDFFF
  | _ => False

/-- Every unit of a surrogate pair has its partner next to it. -/
structure Paired (pieces : List Piece) : Prop where
  /-- Behind a unit that leads a pair stands one that trails it. -/
  followed : ∀ i piece, pieces[i]? = some piece → piece.Leads →
    ∃ next, pieces[i + 1]? = some next ∧ next.Trails
  /-- In front of a unit that trails a pair stands one that leads it. -/
  led : ∀ i piece, pieces[i]? = some piece → piece.Trails →
    ∃ j front, i = j + 1 ∧ pieces[j]? = some front ∧ front.Leads

/-- The characters that pieces stand for. No character has the number of a unit of a
surrogate pair, so such a unit denotes nothing by itself. -/
inductive Denotes : List Piece → List Char → Prop where
  | nil : Denotes [] []
  | plain {c : Char} {pieces : List Piece} {cs : List Char} :
      Denotes pieces cs → Denotes (.plain c :: pieces) (c :: cs)
  | short {e : Char} {pieces : List Piece} {cs : List Char} :
      Denotes pieces cs → Denotes (.short e :: pieces) (e :: cs)
  | unit {value : Nat} {c : Char} {pieces : List Piece} {cs : List Char}
      (hc : c.toNat = value) : Denotes pieces cs → Denotes (.unit value :: pieces) (c :: cs)
  | pair {leading trailing : Nat} {c : Char} {pieces : List Piece} {cs : List Char}
      (hlead : (Piece.unit leading).Leads) (htrail : (Piece.unit trailing).Trails)
      (hc : c.toNat = 0x10000 + (leading - 0xD800) * 0x400 + (trailing - 0xDC00)) :
      Denotes pieces cs → Denotes (.unit leading :: .unit trailing :: pieces) (c :: cs)

variable {piece lead trail : Piece} {pieces : List Piece} {cs : List Char}

theorem Piece.Leads.not_trails (h : piece.Leads) : ¬ piece.Trails := by
  cases piece with
  | unit value =>
    obtain ⟨-, hle⟩ := h
    intro ht
    exact absurd (Nat.le_trans ht.1 hle) (by decide)
  | plain => cases h
  | short => cases h

theorem paired_nil : Paired [] := by
  constructor <;> simp

/-- A piece that leads no pair is no part of one at the start of a row. -/
theorem paired_cons_iff (hlead : ¬ piece.Leads) :
    Paired (piece :: pieces) ↔ ¬ piece.Trails ∧ Paired pieces := by
  constructor
  · intro h
    refine ⟨fun htrails => ?_, fun i next hi => h.followed (i + 1) next hi, fun i next hi ht => ?_⟩
    · obtain ⟨j, front, hj, -, -⟩ := h.led 0 piece rfl htrails
      cases hj
    · obtain ⟨j, front, hj, hfront, hleads⟩ := h.led (i + 1) next hi ht
      cases j with
      | zero =>
        cases hfront
        exact absurd hleads hlead
      | succ j => exact ⟨j, front, Nat.succ.inj hj, hfront, hleads⟩
  · rintro ⟨htrails, h⟩
    constructor
    · intro i next hi hleads
      cases i with
      | zero =>
        cases hi
        exact absurd hleads hlead
      | succ i => exact h.followed i next hi hleads
    · intro i next hi ht
      cases i with
      | zero =>
        cases hi
        exact absurd ht htrails
      | succ i =>
        obtain ⟨j, front, rfl, hfront, hleads⟩ := h.led i next hi ht
        exact ⟨j + 1, front, rfl, hfront, hleads⟩

/-- A pair at the start of a row can be taken away. -/
theorem paired_pair_iff (hlead : lead.Leads) (htrail : trail.Trails) :
    Paired (lead :: trail :: pieces) ↔ Paired pieces := by
  constructor
  · intro h
    refine ⟨fun i next hi => h.followed (i + 2) next hi, fun i next hi ht => ?_⟩
    obtain ⟨j, front, hj, hfront, hleads⟩ := h.led (i + 2) next hi ht
    match j with
    | 0 => cases hj
    | 1 =>
      cases hfront
      exact absurd htrail hleads.not_trails
    | j + 2 => exact ⟨j, front, Nat.add_right_cancel hj, hfront, hleads⟩
  · intro h
    constructor
    · intro i next hi hleads
      match i with
      | 0 => exact ⟨trail, rfl, htrail⟩
      | 1 =>
        cases hi
        exact absurd htrail hleads.not_trails
      | i + 2 => exact h.followed i next hi hleads
    · intro i next hi ht
      match i with
      | 0 =>
        cases hi
        exact absurd ht hlead.not_trails
      | 1 => exact ⟨0, lead, rfl, rfl, hlead⟩
      | i + 2 =>
        obtain ⟨j, front, rfl, hfront, hleads⟩ := h.led i next hi ht
        exact ⟨j + 2, front, rfl, hfront, hleads⟩

/-! ## 2. What paired pieces denote -/

/-- No character is a unit of a surrogate pair. -/
theorem no_pair_of_toNat {c : Char} {value : Nat} (h : c.toNat = value) :
    ¬ (Piece.unit value).Leads ∧ ¬ (Piece.unit value).Trails := by
  have hvalid : c.toNat.isValidChar := c.valid
  simp only [Piece.Leads, Piece.Trails, Nat.isValidChar, h] at hvalid ⊢
  omega

/-- A unit of no pair is a character. -/
theorem toNat_ofNat_of_unit {value : Nat} (hleads : ¬ (Piece.unit value).Leads)
    (htrails : ¬ (Piece.unit value).Trails) (hlt : value < 0x10000) :
    (Char.ofNat value).toNat = value := by
  have hvalid : value.isValidChar := by
    simp only [Piece.Leads, Piece.Trails, Nat.isValidChar] at hleads htrails ⊢
    omega
  rw [Char.ofNat, dif_pos hvalid]
  rfl

/-- The two units of a pair are a character. -/
theorem toNat_pairedChar {leading trailing : Nat} (hlead : (Piece.unit leading).Leads)
    (htrail : (Piece.unit trailing).Trails) :
    (pairedChar leading trailing).toNat =
      0x10000 + (leading - 0xD800) * 0x400 + (trailing - 0xDC00) := by
  have hvalid :
      (0x10000 + (leading - 0xD800) * 0x400 + (trailing - 0xDC00)).isValidChar := by
    simp only [Piece.Leads, Piece.Trails, Nat.isValidChar] at hlead htrail ⊢
    omega
  rw [pairedChar, Char.ofNat, dif_pos hvalid]
  rfl

/-- What denotes something is paired. -/
theorem Denotes.paired (h : Denotes pieces cs) : Paired pieces := by
  induction h with
  | nil => exact paired_nil
  | plain _ ih => exact (paired_cons_iff id).mpr ⟨id, ih⟩
  | short _ ih => exact (paired_cons_iff id).mpr ⟨id, ih⟩
  | unit hc _ ih =>
    obtain ⟨hlead, htrail⟩ := no_pair_of_toNat hc
    exact (paired_cons_iff hlead).mpr ⟨htrail, ih⟩
  | pair hlead htrail _ _ ih => exact (paired_pair_iff hlead htrail).mpr ih

/-- What is paired denotes something. -/
theorem Paired.exists_denotes (h : Paired pieces)
    (hunits : ∀ value, .unit value ∈ pieces → value < 0x10000) : ∃ cs, Denotes pieces cs := by
  -- A step takes one piece away, or two, so the induction is on the length.
  induction hn : pieces.length using Nat.strong_induction_on generalizing pieces with
  | _ n ih =>
    subst hn
    match pieces with
    | [] => exact ⟨[], .nil⟩
    | piece :: rest =>
      by_cases hlead : piece.Leads
      · obtain ⟨trail, hnext, htrail⟩ := h.followed 0 piece rfl hlead
        obtain ⟨rest, rfl⟩ : ∃ more, rest = trail :: more := by
          cases rest with
          | nil => cases hnext
          | cons next more =>
            cases hnext
            exact ⟨more, rfl⟩
        have hlt : rest.length < (piece :: trail :: rest).length := by
          simp only [List.length_cons]
          omega
        obtain ⟨cs, hcs⟩ := ih rest.length hlt ((paired_pair_iff hlead htrail).mp h)
          (fun value hvalue => hunits value (by simp [hvalue])) rfl
        cases piece with
        | unit leading =>
          cases trail with
          | unit trailing => exact ⟨_, .pair hlead htrail (toNat_pairedChar hlead htrail) hcs⟩
          | plain => cases htrail
          | short => cases htrail
        | plain => cases hlead
        | short => cases hlead
      · obtain ⟨htrail, hrest⟩ := (paired_cons_iff hlead).mp h
        obtain ⟨cs, hcs⟩ := ih rest.length (by simp) hrest
          (fun value hvalue => hunits value (by simp [hvalue])) rfl
        cases piece with
        | plain c => exact ⟨_, .plain hcs⟩
        | short e => exact ⟨_, .short hcs⟩
        | unit value =>
          exact ⟨_, .unit (toNat_ofNat_of_unit hlead htrail (hunits value (by simp))) hcs⟩

/-- **Surrogate pairs**: the pieces that denote something are those that are
paired. -/
theorem paired_iff_exists_denotes
    (hunits : ∀ value, .unit value ∈ pieces → value < 0x10000) :
    Paired pieces ↔ ∃ cs, Denotes pieces cs := by
  constructor
  · exact fun h => h.exists_denotes hunits
  · rintro ⟨cs, hcs⟩
    exact hcs.paired

/-! ## 3. The decoder -/

theorem isLeading_iff {value : Nat} : isLeading value = true ↔ (Piece.unit value).Leads := by
  simp only [isLeading, Piece.Leads, Bool.and_eq_true, decide_eq_true_eq]
  omega

theorem isTrailing_iff {value : Nat} : isTrailing value = true ↔ (Piece.unit value).Trails := by
  simp only [isTrailing, Piece.Trails, Bool.and_eq_true, decide_eq_true_eq]
  omega

/-- What the decoder gives is what the pieces denote, and it gives something only
if control characters are escaped. -/
theorem decodePieces_sound {place : Place}
    (hunits : ∀ value, .unit value ∈ pieces → value < 0x10000)
    (h : decodePieces place pieces = .ok cs) :
    (∀ c, .plain c ∈ pieces → ' ' ≤ c) ∧ Denotes pieces cs := by
  fun_induction decodePieces place pieces generalizing cs with
  | case1 place =>
    cases h
    exact ⟨by simp, .nil⟩
  | case2 => cases h
  | case3 place c rest hc ih =>
    obtain ⟨cs, hrest, rfl⟩ := result_map_eq_ok_iff.mp h
    obtain ⟨hplain, hdenotes⟩ := ih (fun value hvalue => hunits value (by simp [hvalue])) hrest
    exact ⟨by simpa [Char.not_lt.mp hc] using hplain, .plain hdenotes⟩
  | case4 place e rest ih =>
    obtain ⟨cs, hrest, rfl⟩ := result_map_eq_ok_iff.mp h
    obtain ⟨hplain, hdenotes⟩ := ih (fun value hvalue => hunits value (by simp [hvalue])) hrest
    exact ⟨by simpa using hplain, .short hdenotes⟩
  | case5 => cases h
  | case6 place leading _ hlead trailing rest htrail ih =>
    rw [isLeading_iff] at hlead
    rw [isTrailing_iff] at htrail
    obtain ⟨cs, hrest, rfl⟩ := result_map_eq_ok_iff.mp h
    obtain ⟨hplain, hdenotes⟩ := ih (fun value hvalue => hunits value (by simp [hvalue])) hrest
    exact ⟨by simpa using hplain, .pair hlead htrail (toNat_pairedChar hlead htrail) hdenotes⟩
  | case7 => cases h
  | case8 => cases h
  | case9 place value rest htrail hlead ih =>
    rw [isLeading_iff] at hlead
    rw [isTrailing_iff] at htrail
    obtain ⟨cs, hrest, rfl⟩ := result_map_eq_ok_iff.mp h
    obtain ⟨hplain, hdenotes⟩ := ih (fun value hvalue => hunits value (by simp [hvalue])) hrest
    exact ⟨by simpa using hplain,
      .unit (toNat_ofNat_of_unit hlead htrail (hunits value (by simp))) hdenotes⟩

/-- The decoder gives what the pieces denote if control characters are escaped. -/
theorem decodePieces_of_denotes (h : Denotes pieces cs)
    (hplain : ∀ c, .plain c ∈ pieces → ' ' ≤ c) (place : Place) :
    decodePieces place pieces = .ok cs := by
  induction h generalizing place with
  | nil => rfl
  | @plain c _ _ _ ih =>
    have hc : ¬ c < ' ' := Char.not_lt.mpr (hplain c (by simp))
    rw [decodePieces, if_neg hc, ih fun c hc => hplain c (by simp [hc])]
    rfl
  | short _ ih =>
    rw [decodePieces, ih fun c hc => hplain c (by simp [hc])]
    rfl
  | unit hc _ ih =>
    obtain ⟨hlead, htrail⟩ := no_pair_of_toNat hc
    rw [← isLeading_iff] at hlead
    rw [← isTrailing_iff] at htrail
    rw [decodePieces.eq_def]
    simp only [hlead, htrail, Bool.false_eq_true, if_false]
    rw [ih fun c hc => hplain c (by simp [hc]), ← hc, Char.ofNat_toNat]
    rfl
  | @pair leading trailing c _ _ hlead htrail hc _ ih =>
    have hnot : ¬ isTrailing leading = true := fun h =>
      hlead.not_trails (isTrailing_iff.mp h)
    rw [decodePieces, if_neg hnot, if_pos (isLeading_iff.mpr hlead)]
    simp only [isTrailing_iff.mpr htrail, if_true]
    rw [ih fun c hc => hplain c (by simp [hc]), pairedChar, ← hc, Char.ofNat_toNat]
    rfl

/-- **The decoder gives what the pieces denote**, if there is something and control
characters are escaped. -/
theorem decodePieces_eq_ok_iff {place : Place}
    (hunits : ∀ value, .unit value ∈ pieces → value < 0x10000) :
    decodePieces place pieces = .ok cs ↔
      (∀ c, .plain c ∈ pieces → ' ' ≤ c) ∧ Denotes pieces cs := by
  constructor
  · exact decodePieces_sound hunits
  · rintro ⟨hplain, hdenotes⟩
    exact decodePieces_of_denotes hdenotes hplain place

/-! ## 4. Whole literals -/

/-- The white space of JSON. -/
def blanks : List Char :=
  [' ', '\t', '\n', '\r']

/-- A text without the blanks around it. -/
def withoutBlanks (text : String) : String :=
  String.ofList ((text.toList.dropWhile (· ∈ blanks)).rdropWhile (· ∈ blanks))

/-- The decoder passes over the white space of JSON. -/
theorem isBlank_eq : isBlank = fun c => decide (c ∈ blanks) := by
  funext c
  rw [Bool.eq_iff_iff]
  simp [isBlank, blanks, or_assoc]

/-- The pieces of a literal: what its body is cut into. -/
def IsCut (literal : String) (pieces : List Piece) : Prop :=
  ∃ body, CutInto body pieces ∧ literal.toList = '"' :: (body ++ ['"'])

variable {literal text s : String}

/-- The lexer takes the literals that can be cut. -/
theorem isQuoted_iff_exists_isCut :
    Quoted.IsQuoted literal.toList ↔ ∃ pieces, IsCut literal pieces := by
  unfold Quoted.IsQuoted IsCut
  simp only [isBody_iff]
  constructor
  · rintro ⟨body, ⟨pieces, hcut⟩, htext⟩
    exact ⟨pieces, body, hcut, htext⟩
  · rintro ⟨pieces, body, hcut, htext⟩
    exact ⟨body, ⟨pieces, hcut⟩, htext⟩

/-- A literal has one cut. -/
theorem IsCut.unique {pieces' : List Piece} (h : IsCut literal pieces)
    (h' : IsCut literal pieces') : pieces = pieces' := by
  obtain ⟨body, hcut, htext⟩ := h
  obtain ⟨body', hcut', htext'⟩ := h'
  have hbody : body ++ ['"'] = body' ++ ['"'] := (List.cons.inj (htext ▸ htext')).2
  have hscan := pieces?_append hcut []
  rw [hbody, pieces?_append hcut' []] at hscan
  exact (Prod.mk.inj (Option.some.inj hscan)).1.symm

/-- The blanks around a literal are what stands in front of its first quote and
behind its last. -/
theorem toList_withoutBlanks_eq_iff {body : List Char} :
    (withoutBlanks text).toList = '"' :: (body ++ ['"']) ↔
      ∃ behind, text.toList.dropWhile isBlank = '"' :: (body ++ '"' :: behind) ∧
        behind.all isBlank = true := by
  rw [withoutBlanks, String.toList_ofList, ← isBlank_eq]
  generalize text.toList.dropWhile isBlank = rest
  constructor
  · intro h
    refine ⟨rest.rtakeWhile isBlank, ?_, List.all_eq_true.mpr fun c => List.mem_rtakeWhile_imp⟩
    have hrest := List.rdropWhile_append_rtakeWhile (p := isBlank) (l := rest)
    rw [h] at hrest
    simpa using hrest.symm
  · rintro ⟨behind, rfl, hblank⟩
    have hquote : ¬ isBlank '"' = true := by decide
    have hbehind : ('"' :: (body ++ '"' :: behind)).rdropWhile isBlank =
        (('"' :: body) ++ ['"']).rdropWhile isBlank := by
      have hreverse : ∀ c ∈ behind.reverse, isBlank c = true := by
        simpa using List.all_eq_true.mp hblank
      simp only [List.rdropWhile, List.reverse_cons, List.reverse_append, List.append_assoc]
      rw [List.dropWhile_append_of_pos hreverse]
      simp
    rw [hbehind, List.rdropWhile_concat_neg isBlank ('"' :: body) _ hquote]
    rfl

/-- There are no blanks around a literal. -/
theorem IsCut.withoutBlanks_eq (h : IsCut literal pieces) : withoutBlanks literal = literal := by
  obtain ⟨body, -, htext⟩ := h
  rw [← String.toList_inj, htext, toList_withoutBlanks_eq_iff, htext]
  exact ⟨[], rfl, rfl⟩

/-- **The decoder on any text**: without the blanks around it the text is a literal,
and the string is what the pieces of the literal denote. -/
theorem decode_eq_ok_iff : decode text = .ok s ↔
    ∃ pieces, IsCut (withoutBlanks text) pieces ∧ (∀ c, .plain c ∈ pieces → ' ' ≤ c) ∧
      Denotes pieces s.toList := by
  constructor
  · intro h
    simp only [decode] at h
    split at h
    · rename_i inner hrest
      split at h
      · rename_i pieces behind hscan
        split at h
        · rename_i hblank
          obtain ⟨body, hcut, rfl⟩ := pieces?_eq_some_iff.mp hscan
          obtain ⟨cs, hdecoded, rfl⟩ := result_map_eq_ok_iff.mp h
          obtain ⟨hplain, hdenotes⟩ :=
            (decodePieces_eq_ok_iff fun value => hcut.unit_lt).mp hdecoded
          have htext := toList_withoutBlanks_eq_iff.mpr ⟨behind, hrest, hblank⟩
          exact ⟨pieces, ⟨body, hcut, htext⟩, hplain, by simpa using hdenotes⟩
        · cases h
      · cases h
    · cases h
  · rintro ⟨pieces, ⟨body, hcut, htext⟩, hplain, hdenotes⟩
    obtain ⟨behind, hrest, hblank⟩ := toList_withoutBlanks_eq_iff.mp htext
    simp only [decode, hrest, pieces?_append hcut, hblank, if_true,
      decodePieces_of_denotes hdenotes hplain]
    exact congrArg Except.ok String.ofList_toList

/-! ## 5. What the lexer accepts -/

/-- The control characters of a literal are those of its pieces that stand for
themselves. -/
theorem IsCut.forall_iff (h : IsCut literal pieces) :
    (∀ c ∈ literal.toList, ' ' ≤ c) ↔ ∀ c, .plain c ∈ pieces → ' ' ≤ c := by
  obtain ⟨body, hcut, htext⟩ := h
  have hquote : ' ' ≤ '"' := by decide
  rw [htext, ← hcut.forall_iff]
  simp [hquote, or_imp, forall_and]

/-- A literal stands for what its pieces denote. -/
theorem IsCut.decode_eq_ok_iff (h : IsCut literal pieces) : decode literal = .ok s ↔
    (∀ c ∈ literal.toList, ' ' ≤ c) ∧ Denotes pieces s.toList := by
  rw [Decoding.decode_eq_ok_iff, h.withoutBlanks_eq, h.forall_iff]
  constructor
  · rintro ⟨pieces', h', hplain, hdenotes⟩
    rw [h.unique h']
    exact ⟨hplain, hdenotes⟩
  · exact fun hdecoded => ⟨pieces, h, hdecoded⟩

/-- A literal stands for something if its pieces are paired. -/
theorem IsCut.exists_decode_iff (h : IsCut literal pieces) : (∃ s, decode literal = .ok s) ↔
    (∀ c ∈ literal.toList, ' ' ≤ c) ∧ Paired pieces := by
  obtain ⟨body, hcut, -⟩ := id h
  rw [paired_iff_exists_denotes fun value => hcut.unit_lt]
  simp only [h.decode_eq_ok_iff, exists_and_left]
  refine and_congr_right fun _ => ⟨fun hs => ?_, fun hcs => ?_⟩
  · obtain ⟨s, hs⟩ := hs
    exact ⟨_, hs⟩
  · obtain ⟨cs, hcs⟩ := hcs
    exact ⟨String.ofList cs, by simpa using hcs⟩

/-- **The decoder and the lexer.** A string that the lexer reads is cut into pieces,
in one way. It is decoded if none of its characters is a control character and every
unit of a surrogate pair has its partner next to it, and what is decoded are the
characters that the pieces denote. The other way round, a text that is decoded is, without
the blanks around it, one string to the lexer and nothing else. -/
theorem decode_lexed (literal : String) :
    (∀ text, Token.read text = .ok (.string literal) →
      (∃ pieces, IsCut literal pieces) ∧ ∀ pieces, IsCut literal pieces →
        ((∃ s, decode literal = .ok s) ↔
          (∀ c ∈ literal.toList, ' ' ≤ c) ∧ Paired pieces) ∧
        ∀ s, decode literal = .ok s ↔
          (∀ c ∈ literal.toList, ' ' ≤ c) ∧ Denotes pieces s.toList) ∧
    ∀ s, decode literal = .ok s →
      Token.ofText (withoutBlanks literal) =
        .ok [⟨0, .string (withoutBlanks literal)⟩, ⟨(withoutBlanks literal).length, .eof⟩] := by
  refine ⟨fun text hread => ⟨?_, fun pieces hcut => ?_⟩, fun s hdecoded => ?_⟩
  · exact isQuoted_iff_exists_isCut.mp (Token.read_sound hread).1
  · exact ⟨hcut.exists_decode_iff, fun s => hcut.decode_eq_ok_iff⟩
  · obtain ⟨pieces, hcut, -, -⟩ := decode_eq_ok_iff.mp hdecoded
    exact Token.ofText_string_iff.mpr (isQuoted_iff_exists_isCut.mpr ⟨pieces, hcut⟩)

/-- A surrogate pair and the escape of a line feed, read in front of a word; the same
two units the other way round, which the lexer reads as well; and a string between
blanks. -/
theorem decode_lexed_pair :
    (∃ pieces, IsCut "\"\\ud834\\uDD1E\\n\"" pieces ∧ Paired pieces ∧ Denotes pieces ['𝄞', '\n']) ∧
    Token.read "\"\\uDD1E\\ud834\"".toList = .ok (.string "\"\\uDD1E\\ud834\"") ∧
    (∃ pieces, IsCut "\"\\uDD1E\\ud834\"" pieces ∧ ¬ Paired pieces) ∧
    Token.ofText "\"a\"" = .ok [⟨0, .string "\"a\""⟩, ⟨3, .eof⟩] := by
  have hread : Token.read "\"\\ud834\\uDD1E\\n\" or".toList =
      .ok (.string "\"\\ud834\\uDD1E\\n\"") := by decide
  have hdecoded : decode "\"\\ud834\\uDD1E\\n\"" = .ok "𝄞\n" := by decide +kernel
  have hreversed : Token.read "\"\\uDD1E\\ud834\"".toList =
      .ok (.string "\"\\uDD1E\\ud834\"") := by decide
  have hrefused : decode "\"\\uDD1E\\ud834\"" = .error ⟨.loneSurrogate, 1, 7⟩ := by
    decide +kernel
  have hblanks : decode " \t\"a\"\n" = .ok "a" := by decide +kernel
  refine ⟨?_, hreversed, ?_, ?_⟩
  · obtain ⟨⟨pieces, hcut⟩, hpieces⟩ := (decode_lexed "\"\\ud834\\uDD1E\\n\"").1 _ hread
    obtain ⟨hsome, hdenotes⟩ := hpieces pieces hcut
    exact ⟨pieces, hcut, (hsome.mp ⟨_, hdecoded⟩).2, ((hdenotes _).mp hdecoded).2⟩
  · obtain ⟨⟨pieces, hcut⟩, hpieces⟩ := (decode_lexed "\"\\uDD1E\\ud834\"").1 _ hreversed
    have hprintable : ∀ c ∈ "\"\\uDD1E\\ud834\"".toList, ' ' ≤ c := by simp
    refine ⟨pieces, hcut, fun hpaired => ?_⟩
    obtain ⟨s, hs⟩ := (hpieces pieces hcut).1.mpr ⟨hprintable, hpaired⟩
    rw [hrefused] at hs
    cases hs
  · exact (decode_lexed " \t\"a\"\n").2 "a" hblanks

end ScimQuery.Decoding
