/-
ScimQuery.Proofs.AskedRuns — to ask once about a run is to ask at every joint.

At the first joint of a run it is decided whether the run is an attempt at a URN. Four
characters are looked at, and the answer is kept for the rest of the run, however long.
`askedRun` keeps nothing: at every joint it asks about all that has been taken.

An answer that is given at a joint is final (`isAttempt_append_joint`). An attempt starts
with three letters and a colon. So with a joint among its first four characters a text is
none, whatever follows, and behind the fourth one nothing counts. The scan keeps this as
an invariant of the answer that it carries along (`Settled`).
-/
import ScimQuery.Proofs.InPlace.Agreement

namespace ScimQuery

open CharClass

/-! ## 1. Attempts -/

namespace SchemaUrn

/-- **What stands behind a joint does not make an attempt**, nor does it unmake one. -/
theorem isAttempt_append_joint {c : Char} (hc : isJoint c = true) (taken more : List Char) :
    isAttempt (taken ++ c :: more) = isAttempt taken := by
  by_cases hlength : 4 ≤ taken.length
  · rw [← isAttempt_take, List.take_append_of_le_length hlength, isAttempt_take]
  · rw [Bool.eq_iff_iff]
    refine ⟨fun h => ?_, fun h => isAttempt_append h _⟩
    -- The joint is one of the first four characters.
    have hmem : c ∈ (taken ++ c :: more).take 4 := by
      obtain ⟨k, hk⟩ : ∃ k, 4 - taken.length = k + 1 := ⟨3 - taken.length, by omega⟩
      simp [List.take_append, hk]
    rw [not_isJoint_of_isAttempt h c hmem] at hc
    cases hc

/-- Only a colon has a colon for its lower case. -/
theorem toLower_eq_colon_iff {c : Char} : c.toLower = ':' ↔ c = ':' := by
  constructor
  · intro h
    unfold Char.toLower at h
    split at h
    · rename_i hupper
      -- The lower case of a capital is a letter.
      have hval : (c.val + ('a'.val - 'A'.val)).toNat = ':'.toNat := congrArg Char.toNat h
      simp only [Char.reduceVal, ge_iff_le, UInt32.le_iff_toNat_le, UInt32.reduceToNat,
        Char.toNat_val, UInt32.reduceSub, UInt32.toNat_add, Nat.reducePow,
        Char.reduceToNat] at hupper hval
      omega
    · exact h
  · rintro rfl
    decide

/-- An attempt begins with `urn:` in any case. -/
theorem isAttempt_iff {text : List Char} :
    isAttempt text = true ↔ (text.take 4).map Char.toLower = "urn:".toList := by
  rcases text with _ | ⟨u, _ | ⟨r, _ | ⟨n, _ | ⟨d, rest⟩⟩⟩⟩
  · decide
  · simp [isAttempt]
  · simp [isAttempt]
  · simp [isAttempt]
  · by_cases hd : d = ':'
    · subst hd
      simp [isAttempt, and_assoc]
    · simp [isAttempt, hd, toLower_eq_colon_iff]

end SchemaUrn

namespace Word

/-! ## 2. Asking at every joint -/

/-- The rest of a run behind `taken`. At every joint all that has been taken is asked
about. -/
def askedRunFrom (taken : List Char) : List Char → List Char
  | [] => []
  | c :: rest =>
    if isRun c && (!isJoint c || SchemaUrn.isAttempt taken) then
      c :: askedRunFrom (taken ++ [c]) rest
    else []

/-- The run at the start of a text, asked about at every joint. -/
def askedRun (text : List Char) : List Char :=
  askedRunFrom [] text

/-- The answer that has been given is right about what has been taken, and stays so. -/
def Settled (decided : Option Bool) (taken : List Char) : Prop :=
  ∀ answer ∈ decided, ∀ more, SchemaUrn.isAttempt (taken ++ more) = answer

variable {decided : Option Bool} {taken : List Char}

theorem settled_none (taken : List Char) : Settled none taken := by
  rintro _ ⟨⟩

/-- An answer stays right about longer texts. -/
theorem Settled.append (h : Settled decided taken) (c : Char) : Settled decided (taken ++ [c]) := by
  intro answer hanswer more
  rw [List.append_assoc]
  exact h answer hanswer _

/-- What is answered at a joint is settled. -/
theorem settled_joint {c : Char} (hc : isJoint c = true) (taken : List Char) :
    Settled (some (SchemaUrn.isAttempt taken)) (taken ++ [c]) := by
  rintro _ ⟨⟩ more
  rw [List.append_assoc]
  exact SchemaUrn.isAttempt_append_joint hc taken more

/-- The answer that the scan goes by is the one about all that has been taken. -/
theorem Settled.getD_eq (h : Settled decided taken) (rest : List Char) :
    decided.getD (SchemaUrn.isAttempt ((taken ++ rest).take (min taken.length 4))) =
      SchemaUrn.isAttempt taken := by
  cases decided with
  | none => rw [Option.getD_none, take_min_length, SchemaUrn.isAttempt_take]
  | some answer =>
    have hanswer := h answer rfl []
    rw [List.append_nil] at hanswer
    exact hanswer.symm

/-- **Asking once is asking at every joint**, from any place in a run on. -/
theorem runFrom_eq_askedRunFrom (h : Settled decided taken) (rest : List Char) :
    runFrom (taken ++ rest) taken.length decided rest = askedRunFrom taken rest := by
  induction rest generalizing taken decided with
  | nil => rfl
  | cons c rest ih =>
    have hnext {decided : Option Bool} (h : Settled decided (taken ++ [c])) :
        runFrom (taken ++ c :: rest) (taken.length + 1) decided rest =
          askedRunFrom (taken ++ [c]) rest := by
      have hrest := ih h
      rwa [List.append_assoc, List.singleton_append, List.length_append,
        List.length_singleton] at hrest
    rw [runFrom, askedRunFrom, h.getD_eq]
    cases hrun : isRun c with
    | false => rfl
    | true =>
      cases hjoint : isJoint c with
      | false => simp [hnext (h.append c)]
      | true =>
        have hsettled := hnext (settled_joint hjoint taken)
        cases hattempt : SchemaUrn.isAttempt taken with
        | false => simp
        | true =>
          rw [hattempt] at hsettled
          simp [hsettled]

/-- **The run at a place of a text** may be scanned with one answer or with an answer at
every joint, on what is left of the text or in place. It is the longest stretch of run
characters if the part of it in front of its first joint begins with `urn:` in any case,
and that part alone otherwise. -/
theorem run_eq_askedRun (text : List Char) (start : Nat) :
    let rest := text.drop start
    let stretch := rest.takeWhile isRun
    run rest = askedRun rest ∧
    InPlace.runEnd? text start start none = some (start + (askedRun rest).length) ∧
    askedRun rest =
      if ((front stretch).take 4).map Char.toLower = "urn:".toList then stretch
      else front stretch := by
  intro rest stretch
  have hasked : run rest = askedRun rest := runFrom_eq_askedRunFrom (settled_none []) rest
  refine ⟨hasked, ?_, ?_⟩
  · rw [← hasked]
    exact InPlace.runEnd?_eq 0 none
  · simp only [← hasked, run_eq, SchemaUrn.isAttempt_iff]
    rfl

/-- A parenthesis among the first four characters ends a word, and behind them it may
stand in one. -/
example : askedRun "ur(n:a b".toList = "ur".toList ∧
    askedRun "uRN:(.a b".toList = "uRN:(.a".toList := by decide

end Word

end ScimQuery
