/-
ScimQuery.Proofs.Lexemes.Word — how far a word reaches, and what it is.

The run of a word is first given without the scanner: it is the longest
stretch of run characters if the part of it in front of the first joint (a
parenthesis or the dot) is an attempt at a URN, and that part alone
otherwise (`run_eq`). From this the two kinds of words follow:

* a plain word, that is a keyword or a name, is a run in front of everything
  that is a joint or no run character (`run_plain`);
* a URN, a colon, and a name with or without a sub-attribute are one run in
  front of everything that is no run character (`run_qualified`).

The second run is cut at its last colon, and the token is the URN alone. The
name behind it is read again as a plain word.
-/
import ScimQuery.Proofs.Lexemes.SchemaUrn
import ScimQuery.Token.Word

namespace ScimQuery.Word

open CharClass

/-! ## 1. The run -/

/-- The part of a stretch in front of its first joint. -/
def front (stretch : List Char) : List Char :=
  stretch.takeWhile (!isJoint ·)

/-- Once a run is known for an attempt, joints do not end it. -/
theorem runFrom_attempted (text : List Char) :
    ∀ (rest : List Char) (taken : Nat),
      runFrom text taken (some true) rest = rest.takeWhile isRun
  | [], _ => by simp [runFrom]
  | c :: rest, taken => by
      rw [runFrom]
      cases hrun : isRun c with
      | false => simp [hrun]
      | true => cases isJoint c <;> simp [hrun, runFrom_attempted text rest]

/-- What the scan looks at, if it asks behind `taken`. -/
theorem take_min_length (taken rest : List Char) :
    (taken ++ rest).take (min taken.length 4) = taken.take 4 := by
  rw [Nat.min_comm, ← List.take_take, List.take_left]

/-- The rest of a run of which `taken` is known, with no joint in it. -/
theorem runFrom_undecided :
    ∀ (rest taken : List Char), runFrom (taken ++ rest) taken.length none rest =
      if SchemaUrn.isAttempt (taken ++ front (rest.takeWhile isRun)) then rest.takeWhile isRun
      else front (rest.takeWhile isRun)
  | [], taken => by simp [runFrom, front]
  | c :: rest, taken => by
      rw [runFrom]
      cases hrun : isRun c with
      | false => simp [hrun, front]
      | true =>
        cases hjoint : isJoint c with
        | true =>
          simp only [hrun, Bool.not_true, Bool.false_eq_true, if_false, if_true, Option.getD_none,
            take_min_length, SchemaUrn.isAttempt_take, front, List.takeWhile_cons, hjoint,
            List.append_nil]
          cases SchemaUrn.isAttempt taken <;> simp [runFrom_attempted]
        | false =>
          have ih := runFrom_undecided rest (taken ++ [c])
          simp only [List.append_assoc, List.singleton_append, List.length_append,
            List.length_singleton] at ih
          simp only [hrun, Bool.not_true, Bool.false_eq_true, if_false, ih, front,
            List.takeWhile_cons, hjoint, Bool.not_false, if_true]
          exact apply_ite (List.cons c) _ _ _

/-- **The run of a word**: the longest stretch of run characters, cut at its
first joint unless what stands in front of that is an attempt at a URN. -/
theorem run_eq (text : List Char) :
    run text =
      if SchemaUrn.isAttempt (front (text.takeWhile isRun)) then text.takeWhile isRun
      else front (text.takeWhile isRun) := by
  simpa [run] using runFrom_undecided text []

theorem front_isPrefix (stretch : List Char) : front stretch <+: stretch :=
  List.takeWhile_prefix _

theorem run_isPrefix (text : List Char) : run text <+: text := by
  rw [run_eq]
  split
  · exact List.takeWhile_prefix _
  · exact (front_isPrefix _).trans (List.takeWhile_prefix _)

/-- What ends a plain word: a joint, or what is no run character. -/
def isPlainRun (c : Char) : Bool :=
  isRun c && !isJoint c

/-- What ends a run ends a plain word. -/
theorem stops_isPlainRun {rest : List Char} (h : Stops isRun rest) : Stops isPlainRun rest :=
  h.mono fun c hc => by
    simp only [isPlainRun, Bool.and_eq_true] at hc
    exact hc.1

/-- **Where a run stops**: a joint or no run character follows, and no run
character behind an attempt at a URN. -/
theorem stops_of_run_append {word rest : List Char} (h : run (word ++ rest) = word) :
    Stops isPlainRun rest ∧ (SchemaUrn.isAttempt word = true → Stops isRun rest) := by
  rw [run_eq] at h
  split at h
  · have hstops := stops_of_takeWhile_append h
    exact ⟨stops_isPlainRun hstops, fun _ => hstops⟩
  · rename_i hattempt
    rw [h] at hattempt
    rw [front, List.takeWhile_takeWhile] at h
    exact ⟨(stops_of_takeWhile_append h).mono fun c hc => by simpa [isPlainRun, and_comm] using hc,
      fun h' => absurd h' hattempt⟩

/-- A plain word is its own run. -/
theorem run_plain {word rest : List Char} (hword : ∀ c ∈ word, isNameChar c = true)
    (hrest : Stops isPlainRun rest) : run (word ++ rest) = word := by
  have hrun : ∀ c ∈ word, isRun c = true := fun c hc => isRun_of_isNameChar (hword c hc)
  have hjoint : ∀ c ∈ word, (!isJoint c) = true := by
    intro c hc
    simp [not_isJoint_of_isNameChar (hword c hc)]
  have hstretch : (word ++ rest).takeWhile isRun = word ++ rest.takeWhile isRun :=
    List.takeWhile_append_of_pos hrun
  have hstop : Stops (!isJoint ·) (rest.takeWhile isRun) := by
    cases rest with
    | nil => simp
    | cons c rest =>
      have hc := Stops.cons_iff.mp hrest
      cases hr : isRun c with
      | false => simp [hr]
      | true =>
        have hj : isJoint c = true := by simpa [isPlainRun, hr] using hc
        simp [hr, hj]
  have hfront : front ((word ++ rest).takeWhile isRun) = word := by
    rw [hstretch]
    exact takeWhile_append_of_stops hjoint hstop
  have hattempt : SchemaUrn.isAttempt word = false :=
    SchemaUrn.not_isAttempt_of_colon fun c hc => ne_colon_of_isNameChar (hword c hc)
  rw [run_eq, hfront, hattempt]
  rfl

/-- A word that starts as a URN does is a run, joints and all. -/
theorem run_attempt {word rest : List Char} (hword : ∀ c ∈ word, isRun c = true)
    (hattempt : SchemaUrn.isAttempt word = true) (hrest : Stops isRun rest) :
    run (word ++ rest) = word := by
  have hfront : front word = word.take 4 ++ front (word.drop 4) := by
    have hjoint : ∀ c ∈ word.take 4, (!isJoint c) = true := fun c hc => by
      rw [SchemaUrn.not_isJoint_of_isAttempt hattempt c hc]
      rfl
    rw [front, front, ← List.takeWhile_append_of_pos hjoint, List.take_append_drop]
  rw [← SchemaUrn.isAttempt_take] at hattempt
  rw [run_eq, takeWhile_append_of_stops hword hrest, hfront, SchemaUrn.isAttempt_append hattempt]
  rfl

/-! ## 2. The token of a run -/

/-- A URN, a colon and a name, and what else stands in front of the end of the
run. -/
def qualified (urn tail : List Char) : List Char :=
  urn ++ ':' :: tail

theorem beforeLastColon_qualified {urn tail : List Char} (h : ∀ c ∈ tail, c ≠ ':') :
    beforeLastColon (qualified urn tail) = urn := by
  have hall : ∀ c ∈ tail.reverse, (c != ':') = true := by
    intro c hc
    simpa using h c (List.mem_reverse.mp hc)
  have hstops : Stops (· != ':') (':' :: urn.reverse) := by simp
  have hdrop := dropWhile_append_of_stops hall hstops
  simp [beforeLastColon, qualified, hdrop]

theorem behindLastColon_qualified {urn tail : List Char} (h : ∀ c ∈ tail, c ≠ ':') :
    behindLastColon (qualified urn tail) = tail := by
  have hall : ∀ c ∈ tail.reverse, (c != ':') = true := by
    intro c hc
    simpa using h c (List.mem_reverse.mp hc)
  have hstops : Stops (· != ':') (':' :: urn.reverse) := by simp
  have htake := takeWhile_append_of_stops hall hstops
  simp [behindLastColon, qualified, htake]

theorem beforeLastColon_isPrefix (run : List Char) : beforeLastColon run <+: run := by
  have h : (run.reverse.dropWhile (· != ':')).drop 1 <:+ run.reverse :=
    (List.drop_suffix _ _).trans (List.dropWhile_suffix _)
  simpa [beforeLastColon] using List.reverse_prefix.mpr h

/-- A colon in a run is the last one somewhere. -/
theorem exists_qualified_of_mem {run : List Char} (h : ':' ∈ run) :
    ∃ urn tail, run = qualified urn tail ∧ ∀ c ∈ tail, c ≠ ':' := by
  obtain ⟨tail, urn, hsplit, htail⟩ := List.eq_append_cons_of_mem (List.mem_reverse.mpr h)
  refine ⟨urn.reverse, tail.reverse, ?_, ?_⟩
  · rw [← List.reverse_reverse run, hsplit]
    simp [qualified]
  · rintro c hc rfl
    exact htail (List.mem_reverse.mp hc)

/-- Without a colon there is no schema. -/
theorem schema?_eq_none_of_colon {run : List Char} (h : ':' ∉ run) : schema? run = none := by
  have hall : run.reverse.dropWhile (· != ':') = [] := by
    rw [List.dropWhile_eq_nil_iff]
    intro c hc
    rw [bne_iff_ne]
    rintro rfl
    exact h (List.mem_reverse.mp hc)
  have hinvalid : SchemaUrn.isValid [] = false := rfl
  simp [schema?, beforeLastColon, hall, hinvalid]

/-- A schema is what stands in front of the last colon, if it is a URN and a name
stands behind the colon. -/
theorem schema?_eq_some_iff {run schema : List Char} :
    schema? run = some schema ↔ ∃ tail, run = qualified schema tail ∧ (∀ c ∈ tail, c ≠ ':') ∧
      SchemaUrn.isValid schema = true ∧
      AttributeName.isValid (tail.takeWhile (· != '.')) = true := by
  constructor
  · intro h
    by_cases hcolon : ':' ∈ run
    · obtain ⟨urn, tail, rfl, htail⟩ := exists_qualified_of_mem hcolon
      rw [schema?, beforeLastColon_qualified htail, behindLastColon_qualified htail,
        Option.ite_none_right_eq_some, Option.some.injEq, Bool.and_eq_true] at h
      obtain ⟨⟨hurn, hname⟩, rfl⟩ := h
      exact ⟨tail, rfl, htail, hurn, hname⟩
    · rw [schema?_eq_none_of_colon hcolon] at h
      cases h
  · intro h
    obtain ⟨tail, rfl, htail, hurn, hname⟩ := h
    simp [schema?, beforeLastColon_qualified htail, behindLastColon_qualified htail, hurn, hname]

/-- A keyword is found by its letters. -/
theorem classify_keyword (keyword : Keyword) :
    classify keyword.word.toList = .ok (.keyword keyword) := by
  simp [classify, Keyword.ofWord?_word]

/-- A name that is no keyword is an attribute. -/
theorem classify_attribute {name : String} (hname : AttributeName.isValid name.toList = true)
    (hfree : Keyword.ofWord? name = none) :
    classify name.toList = .ok (.attribute name) := by
  simp [classify, hfree, hname]

/-- No keyword has a colon in it. -/
theorem ofWord?_eq_none_of_colon {word : List Char} (h : ':' ∈ word) :
    Keyword.ofWord? (String.ofList word) = none := by
  have hall : ∀ keyword ∈ Keyword.all, ':' ∉ keyword.word.toList := by decide
  cases hk : Keyword.ofWord? (String.ofList word) with
  | none => rfl
  | some keyword =>
    have hword := congrArg String.toList (Keyword.word_of_ofWord? hk)
    rw [String.toList_ofList] at hword
    exact absurd (hword ▸ h) (hall keyword (Keyword.mem_all keyword))

/-- The characters of an attribute name. -/
theorem isNameChar_of_isValid {name : List Char} (h : AttributeName.isValid name = true) :
    ∀ c ∈ name, isNameChar c = true := by
  cases name with
  | nil => simp
  | cons first rest =>
    simp only [AttributeName.isValid, Bool.and_eq_true, List.all_eq_true] at h
    simp only [List.mem_cons, forall_eq_or_imp]
    exact ⟨isNameChar_of_isAlpha h.1, h.2⟩

/-- No attribute name has a colon in it. -/
theorem not_isValid_of_colon {word : List Char} (h : ':' ∈ word) :
    AttributeName.isValid word = false := by
  rw [← Bool.not_eq_true]
  intro hvalid
  exact ne_colon_of_isNameChar (isNameChar_of_isValid hvalid _ h) rfl

/-- A name, alone or in front of a dot and a sub-attribute, is written with the
characters of names and with a joint, and it goes up to the joint. -/
theorem tail_of_isValid {name behind : List Char} (hname : AttributeName.isValid name = true)
    (hbehind : behind = [] ∨ ∃ sub, AttributeName.isValid sub = true ∧ behind = '.' :: sub) :
    (∀ c ∈ name ++ behind, isNameChar c = true ∨ isJoint c = true) ∧
      (name ++ behind).takeWhile (· != '.') = name := by
  have hchars := isNameChar_of_isValid hname
  have hdot : ∀ c ∈ name, (c != '.') = true := by
    intro c hc
    rw [bne_iff_ne]
    rintro rfl
    exact absurd (hchars _ hc) (by decide)
  obtain rfl | ⟨sub, hsub, rfl⟩ := hbehind
  · refine ⟨fun c hc => .inl (hchars c ?_), takeWhile_append_of_stops hdot Stops.nil⟩
    rwa [List.append_nil] at hc
  · refine ⟨fun c hc => ?_, takeWhile_append_of_stops hdot (Stops.cons_iff.mpr (by decide))⟩
    simp only [List.mem_append, List.mem_cons] at hc
    rcases hc with hc | rfl | hc
    · exact .inl (hchars c hc)
    · exact .inr (by decide)
    · exact .inl (isNameChar_of_isValid hsub c hc)

/-- A valid URN in front of a colon and a name is a schema, and the schema is
the token. -/
theorem classify_qualified {urn tail : List Char} (hurn : SchemaUrn.isValid urn = true)
    (htail : ∀ c ∈ tail, c ≠ ':')
    (hname : AttributeName.isValid (tail.takeWhile (· != '.')) = true) :
    classify (qualified urn tail) = .ok (.urn (String.ofList urn)) := by
  have hcolon : ':' ∈ qualified urn tail := by simp [qualified]
  have hattempt : SchemaUrn.isAttempt (qualified urn tail) = true :=
    SchemaUrn.isAttempt_append (SchemaUrn.isAttempt_of_isValid hurn) _
  have hschema : schema? (qualified urn tail) = some urn :=
    schema?_eq_some_iff.mpr ⟨tail, rfl, htail, hurn, hname⟩
  simp [classify, ofWord?_eq_none_of_colon hcolon, not_isValid_of_colon hcolon, hattempt, hschema]

/-! ## 3. The reader -/

theorem read_eq_ok_iff {text : List Char} {token : Token} :
    read text = .ok token ↔ classify (run text) = .ok token := by
  unfold read
  cases classify (run text) <;> simp

/-- A keyword is read in front of everything that ends a plain word. -/
theorem read_keyword (keyword : Keyword) {rest : List Char} (hrest : Stops isPlainRun rest) :
    read (keyword.word.toList ++ rest) = .ok (.keyword keyword) := by
  have hall : Keyword.all.all (·.word.toList.all isNameChar) = true := by decide
  simp only [List.all_eq_true] at hall
  rw [read_eq_ok_iff, run_plain (hall keyword (Keyword.mem_all keyword)) hrest]
  exact classify_keyword keyword

/-- An attribute name is read in front of everything that ends a plain word. -/
theorem read_attribute {name : String} (hname : AttributeName.isValid name.toList = true)
    (hfree : Keyword.ofWord? name = none) {rest : List Char} (hrest : Stops isPlainRun rest) :
    read (name.toList ++ rest) = .ok (.attribute name) := by
  rw [read_eq_ok_iff, run_plain (isNameChar_of_isValid hname) hrest]
  exact classify_attribute hname hfree

/-- A URN is read in front of a colon and a name. Behind the name the run may
go on with joints and name characters; the next colon would end the URN at
another place. -/
theorem read_urn {urn : String} (hurn : SchemaUrn.isValid urn.toList = true) {tail rest : List Char}
    (htail : ∀ c ∈ tail, isNameChar c = true ∨ isJoint c = true)
    (hname : AttributeName.isValid (tail.takeWhile (· != '.')) = true)
    (hrest : Stops isRun rest) :
    read (urn.toList ++ ':' :: (tail ++ rest)) = .ok (.urn urn) := by
  have hrun : ∀ c ∈ qualified urn.toList tail, isRun c = true := by
    intro c hc
    rcases List.mem_append.mp hc with hc | hc
    · exact isRun_of_isNamestring (SchemaUrn.isNamestring_of_isValid hurn c hc)
    · rcases List.mem_cons.mp hc with rfl | hc
      · decide
      · rcases htail c hc with h | h
        · exact isRun_of_isNameChar h
        · rcases isJoint_iff.mp h with rfl | rfl | rfl <;> decide
  have hcolon : ∀ c ∈ tail, c ≠ ':' := by
    rintro c hc rfl
    rcases htail _ hc with h | h <;> exact absurd h (by decide)
  have hattempt : SchemaUrn.isAttempt (qualified urn.toList tail) = true :=
    SchemaUrn.isAttempt_append (SchemaUrn.isAttempt_of_isValid hurn) _
  have hsplit : urn.toList ++ ':' :: (tail ++ rest) = qualified urn.toList tail ++ rest := by
    simp [qualified]
  rw [read_eq_ok_iff, hsplit, run_attempt hrun hattempt hrest,
    classify_qualified hurn hcolon hname, String.ofList_toList]

end ScimQuery.Word
