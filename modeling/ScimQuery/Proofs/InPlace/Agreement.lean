/-
ScimQuery.Proofs.InPlace.Agreement — reading in place is reading.

For each reader in place there is the reader on what is left of the text behind
the place, and both come to the same: `read?_eq` is that there always is an
answer, and that it is the token and the place behind it, or the error and the
place where the reader has stopped.

Places are sums here, of the place where a token starts and of what has been
taken of it, and each reader is followed part by part: what has been taken stands
at the start of what is left, so it is cut out as it was taken
(`slice?_of_isPrefix`).
-/
import ScimQuery.Proofs.InPlace.Token
import ScimQuery.Proofs.Lexemes.Failures

namespace ScimQuery.InPlace

open CharClass

/-! ## 1. Numbers -/

section Numbers

variable (text : List Char) (place : Nat)

theorem skipMinus_eq :
    skipMinus text place = place + (Number.minus (text.drop place)).length := by
  rw [skipMinus, ← List.head?_drop]
  cases text.drop place with
  | nil => rfl
  | cons c rest =>
    by_cases hc : c = '-'
    · subst hc
      rfl
    · simp [Number.minus, hc]

theorem skipInteger?_eq :
    skipInteger? text place =
      if Number.integer (text.drop place) = [] then none
      else some (place + (Number.integer (text.drop place)).length) := by
  rw [skipInteger?, ← List.head?_drop, isAt_eq, skipDigits_eq]
  cases text.drop place with
  | nil => rfl
  | cons c rest =>
    by_cases hc : c = '0'
    · subst hc
      rfl
    · cases hdigit : c.isDigit <;> simp [Number.integer, hc, hdigit]

theorem skipFraction_eq :
    skipFraction text place = place + (Number.fraction (text.drop place)).length := by
  rw [skipFraction, isAt_eq, skipDigits_eq, ← List.head?_drop, ← List.drop_drop]
  cases text.drop place with
  | nil => rfl
  | cons c rest =>
    by_cases hc : c = '.'
    · subst hc
      cases rest with
      | nil => rfl
      | cons d rest =>
        cases hdigit : d.isDigit
        · simp [Number.fraction, hdigit]
        · simp [Number.fraction, hdigit]
          omega
    · simp [Number.fraction, hc]

/-- The mark of an exponent stands where an `e` does, and takes the sign behind
it. -/
theorem exponentMark_eq :
    (isAt (fun c => c == 'e' || c == 'E') text place = false ∧
        Number.exponentMark (text.drop place) = []) ∨
      (isAt (fun c => c == 'e' || c == 'E') text place = true ∧
        Number.exponentMark (text.drop place) ≠ [] ∧
        (Number.exponentMark (text.drop place)).length =
          if isAt (fun c => c == '+' || c == '-') text (place + 1) then 2 else 1) := by
  simp only [isAt_eq, ← List.drop_drop]
  cases text.drop place with
  | nil => exact .inl ⟨rfl, rfl⟩
  | cons c rest =>
    have hsign : (Number.exponentSign rest).length + 1 =
        if rest.head?.any (fun c => c == '+' || c == '-') then 2 else 1 := by
      cases rest with
      | nil => rfl
      | cons d rest =>
        by_cases hplus : d = '+'
        · subst hplus
          rfl
        · by_cases hminus : d = '-'
          · subst hminus
            rfl
          · simp [Number.exponentSign, hplus, hminus]
    by_cases hlower : c = 'e'
    · subst hlower
      exact .inr ⟨rfl, by simp [Number.exponentMark], hsign⟩
    · by_cases hupper : c = 'E'
      · subst hupper
        exact .inr ⟨rfl, by simp [Number.exponentMark], hsign⟩
      · exact .inl ⟨by simp [hlower, hupper], by simp [Number.exponentMark, hlower, hupper]⟩

/-- Whether a digit stands at a place. -/
theorem isAt_isDigit_iff :
    isAt Char.isDigit text place = true ↔ (text.drop place).takeWhile Char.isDigit ≠ [] := by
  rw [isAt_eq]
  cases text.drop place with
  | nil => simp
  | cons c rest => cases hc : c.isDigit <;> simp [hc]

theorem skipExponent_eq :
    skipExponent text place =
      let behind := place + (Number.exponentMark (text.drop place)).length
      let digits := (text.drop behind).takeWhile Char.isDigit
      if Number.exponentMark (text.drop place) = [] then .ok place
      else if digits = [] then .error ⟨.exponentDigitMissing, behind⟩
      else .ok (behind + digits.length) := by
  rw [skipExponent]
  rcases exponentMark_eq text place with ⟨hat, hmark⟩ | ⟨hat, hmark, hsigned⟩
  · rw [hat, if_pos hmark]
    rfl
  · simp only [hat, if_true, if_neg hmark, ← hsigned, isAt_isDigit_iff, skipDigits_eq, ne_eq,
      ite_not]

variable {text} {start : Nat}

/-- The places that the parts of a number end at. -/
theorem skip_parts_eq (rest : List Char) (hrest : rest = text.drop start) :
    let sign := Number.minus rest
    let whole := Number.integer (rest.drop sign.length)
    skipMinus text start = start + sign.length ∧
      skipInteger? text (start + sign.length) =
        (if whole = [] then none else some (start + (sign ++ whole).length)) ∧
      skipFraction text (start + (sign ++ whole).length) = start + (Number.base rest).length ∧
      skipExponent text (start + (Number.base rest).length) =
        if Number.mark rest = [] then .ok (start + (Number.base rest).length)
        else if Number.exponentDigits rest = [] then
          .error ⟨.exponentDigitMissing, start + (Number.base rest ++ Number.mark rest).length⟩
        else .ok (start +
          (Number.base rest ++ Number.mark rest ++ Number.exponentDigits rest).length) := by
  subst hrest
  refine ⟨skipMinus_eq text start, ?_, ?_, ?_⟩
  · rw [skipInteger?_eq, ← List.drop_drop, Nat.add_assoc, ← List.length_append]
  · rw [skipFraction_eq, ← List.drop_drop, Nat.add_assoc, ← List.length_append]
    rfl
  · rw [skipExponent_eq]
    simp only [Nat.add_assoc, ← List.drop_drop, List.length_append]
    rfl

/-- **Numbers are read in place.** -/
theorem readNumber?_eq (hstart : start ≤ text.length) :
    readNumber? text start =
      some (outcome start ((Number.read (text.drop start)).map (.number <| String.ofList ·))) := by
  generalize hrest : text.drop start = rest
  obtain ⟨hsign, hwhole, hbase, hexponent⟩ := skip_parts_eq rest hrest.symm
  -- A number that is read is cut out, since it stands at the start.
  have hslice {number : List Char} (hread : Number.read rest = .ok number) :
      slice? text start (start + number.length) = some number := by
    refine slice?_of_isPrefix hstart ?_
    rw [hrest]
    exact (Number.read_sound hread).2
  have hdone (number : List Char) :
      outcome start (Except.map (.number <| String.ofList ·) (.ok number)) =
        (.ok (.number (String.ofList number)), start + number.length) := outcome_ok rfl start
  have hread := Number.read_eq rest
  simp only [readNumber?, hsign, hwhole]
  split at hread
  · rename_i hmissing
    rw [if_pos hmissing, hread]
    rfl
  · rename_i hsome
    simp only [if_neg hsome, hbase, hexponent]
    split at hread
    · rename_i hmark
      simp only [if_pos hmark, hslice hread, hread, hdone, Option.map_some]
    · rename_i hmark
      split at hread
      · rename_i hmissing
        rw [if_neg hmark, if_pos hmissing, hread]
        rfl
      · rename_i hdigits
        simp only [if_neg hmark, if_neg hdigits, hslice hread, hread, hdone, Option.map_some]

end Numbers

/-! ## 2. Strings -/

section Strings

open Quoted

/-- The reader behind a backslash and `u`. -/
theorem readBody_unicode (offset : Nat) (rest : List Char) :
    readBody offset ('\\' :: 'u' :: rest) =
      if isAt isHexDigit rest 0 && isAt isHexDigit rest 1 && isAt isHexDigit rest 2 &&
          isAt isHexDigit rest 3 then
        (readBody (offset + 6) (rest.drop 4)).map (('\\' :: 'u' :: rest.take 4) ++ ·)
      else .error (.of .unicodeEscape offset offset) := by
  rcases rest with _ | ⟨a, _ | ⟨b, _ | ⟨c, _ | ⟨d, rest⟩⟩⟩⟩
  all_goals simp [readBody, isAt]

/-- The reader behind a backslash and something else. -/
theorem readBody_short {c : Char} (hc : c ≠ 'u') (offset : Nat) (rest : List Char) :
    readBody offset ('\\' :: c :: rest) =
      if isShortEscape c then (readBody (offset + 2) rest).map (['\\', c] ++ ·)
      else .error (.of .unknownEscape offset offset) := by
  rw [readBody]
  all_goals simp_all

/-- The end of a string behind what the reader takes, or its error. -/
def bodyEnd (start offset : Nat) : Except ReadFailure (List Char) → Except LexicalError Nat
  | .ok body => .ok (start + offset + body.length)
  | .error failure => .error (failure.shift start).error

/-- With more characters in front, the end is as far behind them. -/
theorem bodyEnd_map (start offset : Nat) (front : List Char)
    (result : Except ReadFailure (List Char)) :
    bodyEnd start offset (result.map (front ++ ·)) =
      bodyEnd start (offset + front.length) result := by
  cases result with
  | error failure => rfl
  | ok body =>
    simp only [Except.map, bodyEnd, List.length_append, Nat.add_assoc]

variable {text : List Char} {start : Nat}

theorem stringEnd_eq (offset : Nat) :
    stringEnd text (start + offset) =
      bodyEnd start offset (readBody offset (text.drop (start + offset))) := by
  generalize hplace : start + offset = place
  fun_induction stringEnd text place generalizing offset with
  | case1 place h hquote =>
    rw [List.drop_eq_getElem_cons h, hquote, readBody, bodyEnd, hplace]
    rfl
  | case2 place h hquote hslash hu hhex ih =>
    have hlength : ('\\' :: 'u' :: (text.drop (place + 2)).take 4).length = 6 := by
      have hlast := lt_length_of_isAt (Bool.and_eq_true_iff.mp hhex).2
      simp only [List.length_cons, List.length_take, List.length_drop]
      omega
    rw [ih (offset + 6) (by omega), List.drop_eq_getElem_cons h, hslash, drop_of_getElem? hu,
      readBody_unicode]
    simp only [isAt_drop, Nat.add_zero, Nat.add_assoc, Nat.reduceAdd] at hhex ⊢
    rw [if_pos hhex, bodyEnd_map, hlength, List.drop_drop, Nat.add_assoc]
  | case3 place h hquote hslash hu hhex =>
    rw [List.drop_eq_getElem_cons h, hslash, drop_of_getElem? hu, readBody_unicode]
    simp only [isAt_drop, Nat.add_zero, Nat.add_assoc, Nat.reduceAdd] at hhex ⊢
    rw [if_neg hhex, ← hplace]
    rfl
  | case4 place h hquote hslash hu hshort ih =>
    obtain ⟨c, hc, hescape⟩ := (Option.any_eq_true _ _).mp hshort
    have hne : c ≠ 'u' := by
      rintro rfl
      exact hu hc
    rw [ih (offset + 2) (by omega), List.drop_eq_getElem_cons h, hslash, drop_of_getElem? hc,
      readBody_short hne, if_pos hescape, bodyEnd_map]
    rfl
  | case5 place h hquote hslash hu hshort =>
    rw [List.drop_eq_getElem_cons h, hslash]
    cases hc : text[place + 1]? with
    | none =>
      rw [List.drop_of_length_le (List.getElem?_eq_none_iff.mp hc), readBody, ← hplace]
      rfl
    | some c =>
      have hne : c ≠ 'u' := by
        rintro rfl
        exact hu hc
      have hescape : isShortEscape c = false := by simpa [isAt, hc] using hshort
      rw [drop_of_getElem? hc, readBody_short hne, hescape, ← hplace]
      rfl
  | case6 place h hquote hslash ih =>
    have hplain := passes_plain hquote hslash offset (text.drop (place + 1))
    rw [List.singleton_append] at hplain
    rw [ih (offset + 1) (by omega), List.drop_eq_getElem_cons h, hplain, bodyEnd_map]
    rfl
  | case7 place h =>
    rw [List.drop_of_length_le (Nat.le_of_not_lt h), readBody, bodyEnd]
    subst hplace
    rfl

/-- **Strings are read in place.** -/
theorem readString?_eq (hquote : text[start]? = some '"') :
    readString? text start =
      some (outcome start ((Quoted.read (text.drop start)).map (.string <| String.ofList ·))) := by
  have hdrop := drop_of_getElem? hquote
  have hstart : start ≤ text.length := (List.getElem?_eq_some_iff.mp hquote).1.le
  rw [readString?, stringEnd_eq 1, hdrop, Quoted.read, List.drop_one, List.tail_cons]
  cases hbody : readBody 1 (text.drop (start + 1)) with
  | error failure =>
    have hstop := (le_length_of_readBody_eq_error hbody).1
    simp [bodyEnd, Except.map, outcome, ReadFailure.shift, hstop]
  | ok body =>
    have hread : Quoted.read ('"' :: text.drop (start + 1)) = .ok ('"' :: body) := by
      rw [Quoted.read, List.drop_one, List.tail_cons, hbody]
      rfl
    have hprefix := (Quoted.read_sound hread).2
    rw [← hdrop] at hprefix
    have hslice := slice?_of_isPrefix hstart hprefix
    have hstop : start + 1 + body.length = start + ('"' :: body).length := by
      rw [List.length_cons, Nat.add_assoc, Nat.add_comm 1]
    have hdone : outcome start (.ok (.string (String.ofList ('"' :: body)))) =
        (.ok (.string (String.ofList ('"' :: body))), start + ('"' :: body).length) :=
      outcome_ok rfl start
    rw [bodyEnd, hstop]
    simp only [hslice, Except.map, hdone, Option.map_some]

end Strings

/-! ## 3. Words -/

section Words

variable {text : List Char} {start : Nat}

theorem attempted?_eq {taken : Nat} (htaken : start + taken ≤ text.length) (decided : Option Bool) :
    attempted? text start (start + taken) decided =
      some (decided.getD (SchemaUrn.isAttempt ((text.drop start).take (min taken 4)))) := by
  cases decided with
  | some attempted => rfl
  | none =>
    have hlength : ((text.drop start).take (min taken 4)).length = min taken 4 := by
      simp only [List.length_take, List.length_drop]
      omega
    have hstop : min (start + taken) (start + 4) =
        start + ((text.drop start).take (min taken 4)).length := by
      omega
    rw [attempted?, hstop, slice?_of_isPrefix (by omega) (List.take_prefix _ _)]
    rfl

theorem runEnd?_eq (taken : Nat) (decided : Option Bool) :
    runEnd? text start (start + taken) decided =
      some (start + taken +
        (Word.runFrom (text.drop start) taken decided (text.drop (start + taken))).length) := by
  generalize hplace : start + taken = place
  fun_induction runEnd? text start place decided generalizing taken with
  | case1 place decided h hrun =>
    rw [List.drop_eq_getElem_cons h, Word.runFrom, if_pos hrun]
    rfl
  | case2 place decided h hrun hjoint ih =>
    rw [← hplace, attempted?_eq (by omega), hplace, Option.bind_some,
      List.drop_eq_getElem_cons h, Word.runFrom, if_neg hrun, if_pos hjoint]
    cases decided.getD (SchemaUrn.isAttempt ((text.drop start).take (min taken 4))) with
    | false => rfl
    | true =>
      simp only [if_true]
      rw [ih true (taken + 1) (by omega), List.length_cons, Nat.add_assoc, Nat.add_comm 1]
  | case3 place decided h hrun hjoint ih =>
    rw [ih (taken + 1) (by omega), List.drop_eq_getElem_cons h, Word.runFrom, if_neg hrun,
      if_neg hjoint, List.length_cons, Nat.add_assoc, Nat.add_comm 1]
  | case4 place decided h =>
    rw [List.drop_of_length_le (Nat.le_of_not_lt h)]
    rfl

/-- **Names are taken apart in place**, at the byte of the last colon. -/
theorem splitSchema?_eq {run : List Char} (hascii : ∀ c ∈ run, c.utf8Size = 1) :
    splitSchema? run = some ((Word.schema? run).map fun schema => (schema, schema.length)) := by
  by_cases hcolon : ':' ∈ run
  · obtain ⟨urn, tail, rfl, htail⟩ := Word.exists_qualified_of_mem hcolon
    have hbefore : Word.beforeLastColon (Word.qualified urn tail) = urn :=
      Word.beforeLastColon_qualified htail
    have hbehind : Word.behindLastColon (Word.qualified urn tail) = tail :=
      Word.behindLastColon_qualified htail
    have hurn : byteLength urn = urn.length :=
      byteLength_of_ascii fun c hc => hascii c (List.mem_append_left _ hc)
    have hlength : (Word.qualified urn tail).length = urn.length + 1 + tail.length := by
      rw [Word.qualified, List.length_append, List.length_cons]
      omega
    have hschema : sliceBytes? (Word.qualified urn tail) 0 urn.length = some urn := by
      rw [sliceBytes?_of_ascii hascii (Nat.zero_le _) (by omega)]
      have hpre : urn <+: (Word.qualified urn tail).drop 0 := List.prefix_append _ _
      simpa using slice?_of_isPrefix (Nat.zero_le _) hpre
    have hname : sliceBytes? (Word.qualified urn tail) (urn.length + 1)
        (Word.qualified urn tail).length = some tail := by
      rw [sliceBytes?_of_ascii hascii (by omega) (Nat.le_refl _), hlength]
      have hpre : tail <+: (Word.qualified urn tail).drop (urn.length + 1) := by
        rw [Word.qualified, ← List.drop_drop, List.drop_left]
        exact List.prefix_rfl
      exact slice?_of_isPrefix (by omega) hpre
    rw [splitSchema?, lastColon?, if_pos hcolon, hbefore, hurn, byteLength_of_ascii hascii]
    simp only [hschema, hname, Option.bind_some, Option.map_some, Word.schema?, hbefore, hbehind]
    split <;> rfl
  · rw [splitSchema?, lastColon?, if_neg hcolon, Word.schema?_eq_none_of_colon hcolon]
    rfl

/-- **Runs are classified in place.** -/
theorem classify?_eq {run : List Char} (hascii : ∀ c ∈ run, c.utf8Size = 1) :
    classify? run start (start + run.length) = some (outcome start
      (match Word.classify run with
        | .ok token => .ok token
        | .error cause => .error (.of cause 0 run.length))) := by
  have hlength : (String.ofList run).length = run.length := String.length_ofList
  rw [classify?, splitSchema?_eq hascii, Word.classify]
  cases hword : Keyword.ofWord? (String.ofList run) with
  | some keyword =>
    have hkeyword := congrArg String.length (Keyword.word_of_ofWord? hword)
    simp only [outcome, Token.length, Token.text, hkeyword, hlength]
  | none =>
    by_cases hname : AttributeName.isValid run = true
    · simp only [hname, if_true, outcome, Token.length, Token.text, hlength]
    · by_cases hattempt : SchemaUrn.isAttempt run = true
      · cases hschema : Word.schema? run with
        | some schema =>
          simp [hname, hattempt, outcome, Token.length, Token.text]
        | none =>
          by_cases hvalid : SchemaUrn.isValid run = true
          · simp [hname, hattempt, hvalid, outcome, Token.length, Token.text]
          · simp [hname, hattempt, hvalid, outcome, ReadFailure.of, ReadFailure.shift]
      · simp [hname, hattempt, outcome, ReadFailure.of, ReadFailure.shift]

/-- The characters of a run are those of words. -/
theorem isRun_of_mem_run {cs : List Char} : ∀ c ∈ Word.run cs, isRun c = true := by
  intro c hc
  rw [Word.run_eq] at hc
  split at hc
  · exact List.mem_takeWhile_imp hc
  · exact List.mem_takeWhile_imp ((Word.front_isPrefix _).subset hc)

/-- **Words are read in place.** -/
theorem readWord?_eq (hstart : start ≤ text.length) :
    readWord? text start = some (outcome start (Word.read (text.drop start))) := by
  have hend : runEnd? text start start none =
      some (start + (Word.run (text.drop start)).length) := runEnd?_eq 0 none
  have hslice := slice?_of_isPrefix hstart (Word.run_isPrefix (text.drop start))
  have hascii : ∀ c ∈ Word.run (text.drop start), c.utf8Size = 1 := fun c hc =>
    utf8Size_of_isRun (isRun_of_mem_run c hc)
  rw [readWord?, hend, Option.bind_some, hslice, Option.bind_some, classify?_eq hascii]
  rfl

end Words

/-! ## 4. Tokens -/

/-- A character that is no token by itself is no mark. -/
theorem not_mem_of_mark?_eq_none {c : Char} (h : mark? c = none) :
    c ∉ [' ', '(', ')', '[', ']', '.', ':'] := by
  intro hc
  simp only [List.mem_cons, List.not_mem_nil, or_false] at hc
  rcases hc with rfl | rfl | rfl | rfl | rfl | rfl | rfl <;> cases h

/-- A character that is a token by itself is read as this token. -/
theorem read_of_mark? {c : Char} {token : Token} (h : mark? c = some token) (rest : List Char) :
    Token.read (c :: rest) = .ok token ∧ token.length = 1 := by
  unfold mark? at h
  split at h <;> cases h <;> exact ⟨rfl, rfl⟩

/-- **Every token is read in place**: no cut is out of range, and the outcome is
that of reading what is left of the text. -/
theorem read?_eq {text : List Char} {place : Nat} (hplace : place ≤ text.length) :
    read? text place = some (outcome place (Token.read (text.drop place))) := by
  unfold read?
  cases hc : text[place]? with
  | none =>
    rw [List.drop_of_length_le (List.getElem?_eq_none_iff.mp hc)]
    rfl
  | some c =>
    have hdrop := drop_of_getElem? hc
    cases hmark : mark? c with
    | some token =>
      obtain ⟨hread, hlength⟩ := read_of_mark? hmark (text.drop (place + 1))
      simp only [hmark, hdrop, hread, outcome, hlength]
    | none =>
      rw [hdrop, Token.read_of_not_mark (not_mem_of_mark?_eq_none hmark), ← hdrop]
      simp only [hmark]
      split
      · rename_i hquote
        obtain rfl : c = '"' := by simpa using hquote
        exact readString?_eq hc
      · split
        · exact readNumber?_eq hplace
        · split
          · exact readWord?_eq hplace
          · rfl

end ScimQuery.InPlace
