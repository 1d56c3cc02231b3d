/-
ScimQuery.Proofs.Precedence — rows of operands and what they stand for.

`Disjunction.ofSequence` turns the operands of a text into groups, and `row` writes
the connectives of the groups down again: `and` inside a group, `or` between two of
them. Each undoes the other, so the groups of a row are a matter of its connectives
alone, and no operand is lost, doubled or moved. The groups can be found in one pass
from left to right, too, that closes the group at hand at every `or`
(`groups_ofSequence_eq_onePass`).

What the groups mean is compared with a `Bracketing` of the row, where every
connective has two sides. There are many bracketings of one row, and a rule of
precedence tells them apart: `and` binds tighter if there is no `or` on a side of an
`and`. Joining two rows joins their groups (`ofRow_connectRows`), so a bracketing has
the groups of its row, and under that rule it has their truth value.
-/
import ScimQuery.Proofs.Composition

namespace ScimQuery

variable {α : Type}

/-! ## 1. Rows -/

/-- An operand, and the ones behind it, each with the connective in front of it. -/
abbrev Row (α : Type) : Type :=
  Operand α × List (Connective × Operand α)

/-- Two rows with a connective between them. -/
def connectRows (connective : Connective) (front back : Row α) : Row α :=
  (front.1, front.2 ++ (connective, back.1) :: back.2)

/-- The operands of a conjunction with `and` between them. -/
def Conjunction.row : Conjunction α → Row α
  | .one o => (o, [])
  | .and o c => connectRows .and (o, []) c.row

/-- The conjunctions of a disjunction with `or` between them. -/
def Disjunction.row : Disjunction α → Row α
  | .one c => c.row
  | .or c d => connectRows .or c.row d.row

/-- The disjunction that a row stands for. -/
def Disjunction.ofRow (row : Row α) : Disjunction α :=
  ofSequence row.1 row.2

namespace Disjunction

/-- To put an operand in front is to join it. -/
theorem andFirst_eq_join (o : Operand α) (d : Disjunction α) :
    d.andFirst o = (one (.one o)).join d := by
  cases d <;> rfl

theorem andFirst_append (o : Operand α) (d e : Disjunction α) :
    (d.append e).andFirst o = (d.andFirst o).append e := by
  cases d <;> rfl

theorem andFirst_join (o : Operand α) (d e : Disjunction α) :
    (d.join e).andFirst o = (d.andFirst o).join e := by
  cases d with
  | one c => cases e <;> rfl
  | or c d => rfl

/-- **Joined rows**: behind `or` the groups follow each other, and `and` makes one of
the two groups next to it. -/
theorem ofRow_connectRows (connective : Connective) (front back : Row α) :
    ofRow (connectRows connective front back) =
      match connective with
      | .or => (ofRow front).append (ofRow back)
      | .and => (ofRow front).join (ofRow back) := by
  obtain ⟨first, rest⟩ := front
  simp only [ofRow, connectRows]
  induction rest generalizing first with
  | nil =>
    cases connective with
    | or => rfl
    | and => exact andFirst_eq_join first _
  | cons pair rest ih =>
    obtain ⟨between, second⟩ := pair
    cases between with
    | or =>
      rw [List.cons_append, ofSequence, ofSequence, ih]
      cases connective <;> rfl
    | and =>
      rw [List.cons_append, ofSequence, ofSequence, ih]
      cases connective with
      | or => exact andFirst_append first _ _
      | and => exact andFirst_join first _ _

/-! ## 2. Rows and groups -/

theorem row_andFirst (o : Operand α) (d : Disjunction α) :
    (d.andFirst o).row = connectRows .and (o, []) d.row := by
  cases d <;> rfl

/-- The row of the groups of a row is that row. -/
theorem row_ofSequence (first : Operand α) (rest : List (Connective × Operand α)) :
    (ofSequence first rest).row = (first, rest) := by
  induction rest generalizing first with
  | nil => rfl
  | cons pair rest ih =>
    obtain ⟨connective, second⟩ := pair
    cases connective with
    | and => rw [ofSequence, row_andFirst, ih]; rfl
    | or => rw [ofSequence, row, ih]; rfl

end Disjunction

theorem Conjunction.ofRow_row (c : Conjunction α) : Disjunction.ofRow c.row = .one c := by
  cases c with
  | one o => rfl
  | and o c =>
    rw [row, Disjunction.ofRow_connectRows, Conjunction.ofRow_row c]
    rfl

/-- The groups of the row of some groups are those groups. -/
theorem Disjunction.ofRow_row (d : Disjunction α) : ofRow d.row = d := by
  cases d with
  | one c => exact c.ofRow_row
  | or c d =>
    rw [row, ofRow_connectRows, c.ofRow_row, Disjunction.ofRow_row d]
    rfl

/-! ## 3. Groups as lists -/

theorem Conjunction.toList_ne_nil (c : Conjunction α) : c.toList ≠ [] := by
  cases c <;> simp [toList]

theorem Conjunction.toList_ofList (first : Operand α) (rest : List (Operand α)) :
    (ofList first rest).toList = first :: rest := by
  induction rest generalizing first with
  | nil => rfl
  | cons second rest ih => rw [ofList, toList, ih]

theorem Conjunction.toList_injective :
    ∀ {c c' : Conjunction α}, c.toList = c'.toList → c = c'
  | .one _, .one _, h => by cases h; rfl
  | .one _, .and _ c', h => absurd (List.cons.inj h).2.symm c'.toList_ne_nil
  | .and _ c, .one _, h => absurd (List.cons.inj h).2 c.toList_ne_nil
  | .and _ _, .and _ _, h => by
      obtain ⟨rfl, hrest⟩ := List.cons.inj h
      rw [Conjunction.toList_injective hrest]

namespace Disjunction

/-- No group is empty. -/
theorem ne_nil_of_mem_groups {d : Disjunction α} {group : List (Operand α)}
    (h : group ∈ d.groups) : group ≠ [] := by
  obtain ⟨c, -, rfl⟩ := List.mem_map.mp h
  exact c.toList_ne_nil

theorem groups_injective : ∀ {d e : Disjunction α}, d.groups = e.groups → d = e
  | .one _, .one _, h => by rw [Conjunction.toList_injective (List.cons.inj h).1]
  | .one _, .or _ e, h => absurd (List.cons.inj h).2.symm e.groups_ne_nil
  | .or _ d, .one _, h => absurd (List.cons.inj h).2 d.groups_ne_nil
  | .or _ _, .or _ _, h => by
      obtain ⟨hgroup, hrest⟩ := List.cons.inj h
      rw [Conjunction.toList_injective hgroup, groups_injective hrest]

/-- **Disjunctions are the rows of groups** of which none is empty, the row of them
neither. -/
theorem existsUnique_groups {groups : List (List (Operand α))} (hne : groups ≠ [])
    (hgroups : ∀ group ∈ groups, group ≠ []) : ∃! d : Disjunction α, d.groups = groups := by
  have hexists : ∃ d : Disjunction α, d.groups = groups := by
    induction groups with
    | nil => exact absurd rfl hne
    | cons group rest ih =>
      obtain ⟨first, others, rfl⟩ := List.exists_cons_of_ne_nil (hgroups group (by simp))
      have hgroup := Conjunction.toList_ofList first others
      by_cases hrest : rest = []
      · subst hrest
        exact ⟨.one (.ofList first others), by rw [groups_one, hgroup]⟩
      · obtain ⟨d, hd⟩ := ih hrest fun g hg => hgroups g (by simp [hg])
        exact ⟨.or (.ofList first others) d, by rw [groups_or, hgroup, hd]⟩
  obtain ⟨d, rfl⟩ := hexists
  exact ⟨d, rfl, fun e he => groups_injective he⟩

/-! ## 4. One pass -/

/-- One turn of the pass: `and` puts the operand into the group at hand, and `or`
closes that group and opens one with the operand. -/
def turn (groups : List (List (Operand α)) × List (Operand α))
    (next : Connective × Operand α) : List (List (Operand α)) × List (Operand α) :=
  match next.1 with
  | .and => (groups.1, groups.2 ++ [next.2])
  | .or => (groups.1 ++ [groups.2], [next.2])

/-- The closed groups and the one at hand behind the whole row. -/
def onePass (first : Operand α) (rest : List (Connective × Operand α)) :
    List (List (Operand α)) :=
  let (closed, current) := rest.foldl turn ([], [first])
  closed ++ [current]

/-- A pass that has come to `first`, with closed groups and with operands in front of
`first` in the group at hand. The groups of the row depend on neither. -/
theorem foldl_turn (closed : List (List (Operand α))) (front : List (Operand α))
    (first : Operand α) (rest : List (Connective × Operand α)) :
    (rest.foldl turn (closed, front ++ [first])).1 ++
        [(rest.foldl turn (closed, front ++ [first])).2] =
      closed ++ (front ++ (ofSequence first rest).groups.head (groups_ne_nil _)) ::
        (ofSequence first rest).groups.tail := by
  induction rest generalizing first closed front with
  | nil => rfl
  | cons pair rest ih =>
    obtain ⟨connective, second⟩ := pair
    cases connective with
    | and =>
      have hturn : turn (closed, front ++ [first]) (.and, second) =
          (closed, (front ++ [first]) ++ [second]) := rfl
      rw [List.foldl_cons, hturn, ih]
      simp only [ofSequence, andFirst_eq_join, join, groups_andBefore, List.head_cons,
        List.tail_cons, Conjunction.toList, List.append_assoc]
    | or =>
      have hturn : turn (closed, front ++ [first]) (.or, second) =
          (closed ++ [front ++ [first]], [] ++ [second]) := rfl
      rw [List.foldl_cons, hturn, ih]
      simp only [ofSequence, groups_or, List.head_cons, List.tail_cons, List.nil_append,
        Conjunction.toList, List.cons_head_tail, List.append_assoc, List.singleton_append]

/-- **The groups of a row are found in one pass.** -/
theorem groups_ofSequence_eq_onePass (first : Operand α)
    (rest : List (Connective × Operand α)) :
    (ofSequence first rest).groups = onePass first rest := by
  have hpass := foldl_turn [] [] first rest
  simp only [List.nil_append, List.cons_head_tail] at hpass
  exact hpass.symm

end Disjunction

/-! ## 5. Truth -/

/-- A row of operands in which every connective has its two sides. -/
inductive Bracketing (α : Type) where
  | operand (o : Operand α)
  | join (connective : Connective) (left right : Bracketing α)

/-- The truth value of two sides. -/
def Connective.apply : Connective → Bool → Bool → Bool
  | .and => (· && ·)
  | .or => (· || ·)

namespace Bracketing

/-- The row without its brackets. -/
def row : Bracketing α → Row α
  | .operand o => (o, [])
  | .join connective left right => connectRows connective left.row right.row

/-- The truth value, given those of the operands. -/
def eval (truth : Operand α → Bool) : Bracketing α → Bool
  | .operand o => truth o
  | .join connective left right => connective.apply (left.eval truth) (right.eval truth)

/-- There is no `or`. -/
def IsConjunction : Bracketing α → Prop
  | .operand _ => True
  | .join .and left right => left.IsConjunction ∧ right.IsConjunction
  | .join .or _ _ => False

/-- `and` binds tighter than `or`: there is no `or` on a side of an `and`. -/
def AndBindsTighter : Bracketing α → Prop
  | .operand _ => True
  | .join .and left right => left.IsConjunction ∧ right.IsConjunction
  | .join .or left right => left.AndBindsTighter ∧ right.AndBindsTighter

variable {b : Bracketing α}

/-- Without `or` there is one group, and it has the value of the bracketing. -/
theorem IsConjunction.exists_ofRow_eq (h : b.IsConjunction) : ∃ c : Conjunction α,
    Disjunction.ofRow b.row = .one c ∧ ∀ truth, c.toList.all truth = b.eval truth := by
  induction b with
  | operand o => exact ⟨.one o, rfl, fun truth => by simp [Conjunction.toList, eval]⟩
  | join connective left right ihleft ihright =>
    cases connective with
    | or => cases h
    | and =>
      obtain ⟨c, hc, hleft⟩ := ihleft h.1
      obtain ⟨c', hc', hright⟩ := ihright h.2
      refine ⟨c.append c', ?_, fun truth => ?_⟩
      · rw [row, Disjunction.ofRow_connectRows, hc, hc']
        rfl
      · rw [Conjunction.toList_append, List.all_append, hleft, hright]
        rfl

/-- Where there is no `or` there is none on a side of an `and`. -/
theorem IsConjunction.andBindsTighter (h : b.IsConjunction) : b.AndBindsTighter := by
  cases b with
  | operand o => exact h
  | join connective left right =>
    cases connective with
    | and => exact h
    | or => cases h

/-- **The groups have the value of the row** with `and` binding tighter. -/
theorem AndBindsTighter.any_groups (h : b.AndBindsTighter) (truth : Operand α → Bool) :
    (Disjunction.ofRow b.row).groups.any (·.all truth) = b.eval truth := by
  have hconjunction {b : Bracketing α} (h : b.IsConjunction) :
      (Disjunction.ofRow b.row).groups.any (·.all truth) = b.eval truth := by
    obtain ⟨c, hc, heval⟩ := h.exists_ofRow_eq
    rw [hc, Disjunction.groups_one, List.any_cons, heval]
    exact Bool.or_false _
  induction b with
  | operand o => exact hconjunction trivial
  | join connective left right ihleft ihright =>
    cases connective with
    | and => exact hconjunction h
    | or =>
      rw [row, Disjunction.ofRow_connectRows, Disjunction.groups_append, List.any_append,
        ihleft h.1, ihright h.2]
      rfl

end Bracketing

/-- The bracketing of a conjunction, from the right. -/
def Conjunction.bracketing : Conjunction α → Bracketing α
  | .one o => .operand o
  | .and o c => .join .and (.operand o) c.bracketing

/-- The bracketing of a disjunction, from the right. -/
def Disjunction.bracketing : Disjunction α → Bracketing α
  | .one c => c.bracketing
  | .or c d => .join .or c.bracketing d.bracketing

theorem Conjunction.isConjunction_bracketing (c : Conjunction α) :
    c.bracketing.IsConjunction ∧ c.bracketing.row = c.row := by
  cases c with
  | one o => exact ⟨trivial, rfl⟩
  | and o c =>
    obtain ⟨hc, hrow⟩ := Conjunction.isConjunction_bracketing c
    exact ⟨⟨trivial, hc⟩, by rw [bracketing, Bracketing.row, hrow]; rfl⟩

theorem Disjunction.andBindsTighter_bracketing (d : Disjunction α) :
    d.bracketing.AndBindsTighter ∧ d.bracketing.row = d.row := by
  cases d with
  | one c =>
    obtain ⟨hc, hrow⟩ := c.isConjunction_bracketing
    exact ⟨hc.andBindsTighter, hrow⟩
  | or c d =>
    obtain ⟨hc, hrow⟩ := c.isConjunction_bracketing
    obtain ⟨hd, hrest⟩ := Disjunction.andBindsTighter_bracketing d
    exact ⟨⟨hc.andBindsTighter, hd⟩, by rw [bracketing, Bracketing.row, hrow, hrest]; rfl⟩

/-- **Grouping by precedence.** The row of the groups of a row is that row; there is
a group, no group is empty, and they are the groups that one pass over the row finds.
The other way round, every list of groups is that of one disjunction, unless it is
empty or one of its groups is, and a disjunction has the groups of its row. Whatever
holds of the operands, some group holds as a whole exactly if the row does in the
bracketings in which `and` binds tighter than `or`, and every row has one of these. -/
theorem Disjunction.ofSequence_inverse :
    (∀ (first : Operand α) (rest : List (Connective × Operand α)),
      (ofSequence first rest).row = (first, rest) ∧
      (ofSequence first rest).groups ≠ [] ∧
      (∀ group ∈ (ofSequence first rest).groups, group ≠ []) ∧
      (ofSequence first rest).groups = onePass first rest) ∧
    (∀ groups : List (List (Operand α)), groups ≠ [] → (∀ group ∈ groups, group ≠ []) →
      ∃! d : Disjunction α, d.groups = groups) ∧
    (∀ d : Disjunction α, ofSequence d.row.1 d.row.2 = d) ∧
    (∀ b : Bracketing α, b.AndBindsTighter → ∀ truth,
      (ofSequence b.row.1 b.row.2).groups.any (·.all truth) = b.eval truth) ∧
    ∀ (first : Operand α) (rest : List (Connective × Operand α)),
      ∃ b : Bracketing α, b.AndBindsTighter ∧ b.row = (first, rest) := by
  refine ⟨fun first rest => ⟨row_ofSequence first rest, groups_ne_nil _,
    fun group => ne_nil_of_mem_groups, groups_ofSequence_eq_onePass first rest⟩,
    fun groups => existsUnique_groups, ofRow_row, fun b hb truth => hb.any_groups truth,
    fun first rest => ?_⟩
  obtain ⟨hb, hrow⟩ := (ofSequence first rest).andBindsTighter_bracketing
  exact ⟨_, hb, by rw [hrow, row_ofSequence]⟩

/-- `0 or 1 and 2 or 3`, where `0` alone holds. In the bracketing that takes the two
`or` first nothing does. -/
theorem Disjunction.ofSequence_inverse_mixed :
    let o (n : Nat) : Operand Nat := .leaf n
    let tight : Bracketing Nat := .join .or (.operand (o 0))
      (.join .or (.join .and (.operand (o 1)) (.operand (o 2))) (.operand (o 3)))
    let loose : Bracketing Nat := .join .and (.join .or (.operand (o 0)) (.operand (o 1)))
      (.join .or (.operand (o 2)) (.operand (o 3)))
    tight.AndBindsTighter ∧ tight.row = loose.row ∧
    (∃! d : Disjunction Nat, d.groups = [[o 0], [o 1, o 2], [o 3]]) ∧
    (ofSequence tight.row.1 tight.row.2).groups = [[o 0], [o 1, o 2], [o 3]] ∧
    (ofSequence tight.row.1 tight.row.2).groups.any (·.all (· = o 0)) = true ∧
    loose.eval (· = o 0) = false := by
  intro o tight loose
  have htight : tight.AndBindsTighter := ⟨trivial, ⟨trivial, trivial⟩, trivial⟩
  obtain ⟨-, hunique, -, htruth, -⟩ := @ofSequence_inverse Nat
  have hvalue : tight.eval (· = o 0) = true := by decide
  exact ⟨htight, rfl, hunique _ (by simp) (by simp), rfl,
    (htruth tight htight (· = o 0)).trans hvalue, by decide⟩

end ScimQuery
