import Quereus.Planner.PredicateClauses

/-! # Entailment between recognized predicates

One clause is taken to entail another by a comparison of their constants under BINARY. Equal
constants are equal for every column, so this is so for every row except where the bounds of
two ranges are compared by order.
-/

namespace Quereus.Planner

open ThreeValued List Option GuardClause

variable {ν : Type}

section Entailment

variable (isNull : ν → Bool) (compareSqlValues : ν → ν → Ordering)

def boundsEqual (a b : Option ν) : Bool :=
  match a.filter (!isNull ·), b.filter (!isNull ·) with
  | none, none => true
  | some a, some b => compareSqlValues a b == .eq
  | _, _ => false

mutual

/-- Structural equality, the constants compared under BINARY. A disjunction equals another
of the same length that has all its disjuncts. -/
def clausesEqual : GuardClause ν → GuardClause ν → Bool
  | .eqLiteral column value, .eqLiteral column' value' =>
    column == column' && compareSqlValues value value' == .eq
  | .eqColumn left right, .eqColumn left' right' =>
    (left == left' && right == right') || (left == right' && right == left')
  | .isNull column negated, .isNull column' negated' => column == column' && negated == negated'
  | .range column min max minInclusive maxInclusive,
    .range column' min' max' minInclusive' maxInclusive' =>
    column == column' && boundsEqual isNull compareSqlValues min min' &&
      boundsEqual isNull compareSqlValues max max' && minInclusive == minInclusive' &&
        maxInclusive == maxInclusive'
  | .orOf clauses, .orOf clauses' =>
    clauses.length == clauses'.length && everyEqualsSome clauses clauses'
  | _, _ => false

def everyEqualsSome : List (GuardClause ν) → List (GuardClause ν) → Bool
  | [], _ => true
  | clause :: clauses, clauses' =>
    clauses'.any (clausesEqual clause) && everyEqualsSome clauses clauses'

end

mutual

def clauseForcesColumnNonNull (column : Nat) : GuardClause ν → Bool
  | .isNull column' negated => negated && column' == column
  | .eqLiteral column' value => column' == column && !isNull value
  | .range column' _ _ _ _ => column' == column
  | .eqColumn left right => left == column || right == column
  | .orOf clauses => !clauses.isEmpty && everyForcesColumnNonNull column clauses

def everyForcesColumnNonNull (column : Nat) : List (GuardClause ν) → Bool
  | [] => true
  | clause :: clauses =>
    clauseForcesColumnNonNull column clause && everyForcesColumnNonNull column clauses

end

/-- A range ends on one side within where another ends. -/
def boundWithin (side : Ordering) (bound bound' : Option ν) (inclusive inclusive' : Bool) : Bool :=
  match bound'.filter (!isNull ·), bound.filter (!isNull ·) with
  | none, _ => true
  | some _, none => false
  | some limit', some limit =>
    match compareSqlValues limit limit' with
    | .eq => !(inclusive && !inclusive')
    | order => order == side

def rangeSubset : GuardClause ν → GuardClause ν → Bool
  | .range column min max minInclusive maxInclusive,
    .range column' min' max' minInclusive' maxInclusive' =>
    column == column' && boundWithin isNull compareSqlValues .gt min min' minInclusive
      minInclusive' &&
      boundWithin isNull compareSqlValues .lt max max' maxInclusive maxInclusive'
  | _, _ => false

def clauseEntails (a b : GuardClause ν) : Bool :=
  match b with
  | .isNull column true => clauseForcesColumnNonNull isNull column a
  | b => clausesEqual isNull compareSqlValues a b || rangeSubset isNull compareSqlValues a b

/-- Every clause of the second conjunction is entailed by one of the first. -/
def guardClausesEntail (a b : List (GuardClause ν)) : Bool :=
  b.all fun target => a.any fun source => clauseEntails isNull compareSqlValues source target

end Entailment

section Soundness

/-- The column of a range clause. -/
def GuardClause.rangeColumn : GuardClause ν → Option Nat
  | .range column _ _ _ _ => some column
  | _ => none

variable (engine : QueryEngine ν) (compareSqlValues : ν → ν → Ordering)

/-- What BINARY takes for equal is equal. -/
structure BinaryIsFinest : Prop where
  eq_of_binary : ∀ column a b, compareSqlValues a b = .eq → engine.constant column a b = .eq
  null_of_binary : ∀ a b, compareSqlValues a b = .eq → engine.semantics.isNull a =
    engine.semantics.isNull b

/-- Each range of the second conjunction has one of the first within it when their bounds
are compared as the column compares. -/
def RangesWithin (a b : List (GuardClause ν)) : Prop :=
  ∀ target ∈ b, ∀ column ∈ target.rangeColumn, ∃ source ∈ a,
    rangeSubset engine.semantics.isNull (engine.constant column) source target = true

variable {engine compareSqlValues} {row : Nat → ν}

mutual

theorem notNull_of_clauseForcesColumnNonNull {column : Nat} : ∀ (clause : GuardClause ν),
    clauseForcesColumnNonNull engine.semantics.isNull column clause = true →
      clause.Holds engine row →
    engine.semantics.isNull (row column) = false
  | .isNull column' negated, forces, holds => by
    rw [clauseForcesColumnNonNull, Bool.and_eq_true_iff, beq_iff_eq] at forces
    obtain ⟨rfl, rfl⟩ := forces
    rwa [GuardClause.Holds] at holds
  | .eqLiteral column' value, forces, holds => by
    rw [clauseForcesColumnNonNull, Bool.and_eq_true_iff, beq_iff_eq] at forces
    rw [GuardClause.Holds, compare3_eq_true] at holds
    exact forces.1 ▸ holds.1
  | .range column' _ _ _ _, forces, holds => by
    rw [clauseForcesColumnNonNull, beq_iff_eq] at forces
    exact forces ▸ holds.1
  | .eqColumn left right, forces, holds => by
    rw [clauseForcesColumnNonNull, Bool.or_eq_true_iff, beq_iff_eq, beq_iff_eq] at forces
    rw [GuardClause.Holds, compare3_eq_true] at holds
    rcases forces with rfl | rfl
    · exact holds.1
    · exact holds.2.1
  | .orOf clauses, forces, holds => by
    rw [clauseForcesColumnNonNull, Bool.and_eq_true_iff] at forces
    exact notNull_of_everyForcesColumnNonNull clauses forces.2 holds

theorem notNull_of_everyForcesColumnNonNull {column : Nat} : ∀ (clauses : List (GuardClause ν)),
    everyForcesColumnNonNull engine.semantics.isNull column clauses = true →
      SomeHolds engine row clauses →
    engine.semantics.isNull (row column) = false
  | [], _, holds => by cases holds
  | clause :: clauses, forces, holds => by
    rw [everyForcesColumnNonNull, Bool.and_eq_true_iff] at forces
    exact holds.elim (notNull_of_clauseForcesColumnNonNull clause forces.1)
      (notNull_of_everyForcesColumnNonNull clauses forces.2)

end

variable {bound value : ν} {inclusive : Bool} {bound' : Option ν} {a b : GuardClause ν}

theorem filter_notNull_eq {isNull : ν → Bool} (notNull : isNull bound = false) :
    (some bound).filter (!isNull ·) = some bound := by
  simp [notNull]

variable {column : Nat} {side : Ordering}

/-- A value beyond a bound is beyond one that compares equal. -/
theorem constant_eq_of_eq {bound' : ν} (same : engine.constant column bound bound' = .eq) :
    engine.constant column value bound' = engine.constant column value bound :=
  (Std.TransCmp.congr_right same).symm

variable (finest : BinaryIsFinest engine compareSqlValues)

include finest in
theorem beyondBound_of_boundsEqual {bound : Option ν}
    (same : boundsEqual engine.semantics.isNull compareSqlValues bound bound' = true)
    (beyond : BeyondBound engine side column inclusive value bound) :
    BeyondBound engine side column inclusive value bound' := by
  intro limit' isLimit' notNull'
  rw [isLimit', boundsEqual, filter_notNull_eq notNull'] at same
  split at same
  · next isNone => cases isNone
  · next limit _ isSome isSome' =>
    cases isSome'
    obtain ⟨isLimit, passes⟩ := filter_eq_some_iff.mp isSome
    rw [constant_eq_of_eq (finest.eq_of_binary column _ _ (beq_iff_eq.mp same))]
    exact beyond limit isLimit (by simpa using passes)
  · cases same

mutual

theorem holds_of_clausesEqual (finest : BinaryIsFinest engine compareSqlValues) :
    ∀ (a b : GuardClause ν),
    clausesEqual engine.semantics.isNull compareSqlValues a b = true → a.Holds engine row →
      b.Holds engine row
  | .eqLiteral column value, b, same, holds => by
    cases b <;> rw [clausesEqual] at same <;> try cases same
    rw [Bool.and_eq_true_iff, beq_iff_eq, beq_iff_eq] at same
    obtain ⟨rfl, same⟩ := same
    rw [GuardClause.Holds, compare3_eq_true] at holds ⊢
    obtain ⟨columnNotNull, valueNotNull, isEq⟩ := holds
    refine ⟨columnNotNull, (finest.null_of_binary _ _ same).symm.trans valueNotNull, ?_⟩
    rwa [constant_eq_of_eq (finest.eq_of_binary column _ _ same)]
  | .eqColumn left right, b, same, holds => by
    cases b <;> rw [clausesEqual] at same <;> try cases same
    simp only [Bool.or_eq_true_iff, Bool.and_eq_true_iff, beq_iff_eq] at same
    rcases same with ⟨rfl, rfl⟩ | ⟨rfl, rfl⟩
    · exact holds
    · rw [GuardClause.Holds, compare3_eq_true, beq_iff_eq] at holds ⊢
      exact ⟨holds.2.1, holds.1, engine.symmetric _ _ _ _ holds.2.2⟩
  | .isNull column negated, b, same, holds => by
    cases b <;> rw [clausesEqual] at same <;> try cases same
    rw [Bool.and_eq_true_iff, beq_iff_eq, beq_iff_eq] at same
    obtain ⟨rfl, rfl⟩ := same
    exact holds
  | .range column min max minInclusive maxInclusive, b, same, holds => by
    cases b <;> rw [clausesEqual] at same <;> try cases same
    simp only [Bool.and_eq_true_iff, beq_iff_eq] at same
    obtain ⟨⟨⟨⟨rfl, sameMin⟩, sameMax⟩, rfl⟩, rfl⟩ := same
    exact ⟨holds.1, beyondBound_of_boundsEqual finest sameMin holds.2.1,
      beyondBound_of_boundsEqual finest sameMax holds.2.2⟩
  | .orOf clauses, b, same, holds => by
    cases b <;> rw [clausesEqual] at same <;> try cases same
    rw [Bool.and_eq_true_iff] at same
    exact someHolds_of_everyEqualsSome finest clauses _ same.2 holds

theorem someHolds_of_everyEqualsSome (finest : BinaryIsFinest engine compareSqlValues) :
    ∀ (clauses clauses' : List (GuardClause ν)),
    everyEqualsSome engine.semantics.isNull compareSqlValues clauses clauses' = true →
      SomeHolds engine row clauses →
    SomeHolds engine row clauses'
  | [], _, _, holds => by cases holds
  | clause :: clauses, clauses', same, holds => by
    rw [everyEqualsSome, Bool.and_eq_true_iff] at same
    rcases holds with holds | holds
    · obtain ⟨clause', member, equal⟩ := any_eq_true.mp same.1
      exact someHolds_iff.mpr ⟨clause', member,
        holds_of_clausesEqual finest clause clause' equal holds⟩
    · exact someHolds_of_everyEqualsSome finest clauses clauses' same.2 holds

end

/-- A value beyond a limit that is beyond another is beyond the other. -/
theorem beyond_trans {limit limit' : ν} (isSide : side ≠ .eq)
    (beyond : engine.constant column value limit ≠ side.swap)
    (further : engine.constant column limit limit' = side) :
    engine.constant column value limit' = side := by
  cases side with
  | eq => exact absurd rfl isSide
  | lt => exact Std.TransCmp.lt_of_isLE_of_lt (Ordering.isLE_iff_ne_gt.mpr beyond) further
  | gt => exact Std.TransCmp.gt_of_isGE_of_gt (Ordering.isGE_iff_ne_lt.mpr beyond) further

/-- A value beyond a bound within another is beyond the other. -/
theorem beyondBound_of_boundWithin {inclusive' : Bool} {bound : Option ν} (isSide : side ≠ .eq)
    (within : boundWithin engine.semantics.isNull (engine.constant column) side bound bound'
      inclusive inclusive' = true)
    (beyond : BeyondBound engine side column inclusive value bound) :
    BeyondBound engine side column inclusive' value bound' := by
  intro limit' isLimit' notNull'
  rw [boundWithin, isLimit', filter_notNull_eq notNull'] at within
  split at within
  · next isNone => cases isNone
  · cases within
  · next _ limit isSome' isSome =>
    cases isSome'
    obtain ⟨isLimit, passes⟩ := filter_eq_some_iff.mp isSome
    have beyond := beyond limit isLimit (by simpa using passes)
    split at within
    · next same =>
      rw [constant_eq_of_eq same]
      cases inclusive <;> cases inclusive' <;> simp_all
      cases side <;> simp_all
    · next order isOrder notEq =>
      have notBehind : engine.constant column value limit ≠ side.swap := by
        cases inclusive <;> cases side <;> simp_all
      rw [beyond_trans isSide notBehind (beq_iff_eq.mp within)]
      cases inclusive' <;> cases side <;> simp_all

theorem holds_of_rangeSubset (isColumn : b.rangeColumn = some column)
    (within : rangeSubset engine.semantics.isNull (engine.constant column) a b = true)
    (holds : a.Holds engine row) : b.Holds engine row := by
  unfold rangeSubset at within
  split at within
  · simp only [Bool.and_eq_true_iff, beq_iff_eq] at within
    obtain ⟨⟨rfl, lower⟩, upper⟩ := within
    cases isColumn
    exact ⟨holds.1, beyondBound_of_boundWithin (by decide) lower holds.2.1,
      beyondBound_of_boundWithin (by decide) upper holds.2.2⟩
  · cases within

include finest in
/-- What is not a range is entailed by equality or by a clause that forces a value, and both
are as the column compares. -/
theorem holds_of_clauseEntails (notRange : b.rangeColumn = none)
    (entails : clauseEntails engine.semantics.isNull compareSqlValues a b = true)
    (holds : a.Holds engine row) : b.Holds engine row := by
  unfold clauseEntails at entails
  split at entails
  · exact notNull_of_clauseForcesColumnNonNull a entails holds
  · rcases Bool.or_eq_true_iff.mp entails with same | within
    · exact holds_of_clausesEqual finest a b same holds
    · unfold rangeSubset at within
      split at within
      · cases notRange
      · cases within

variable {first second : List (GuardClause ν)}

/-- A row of which all clauses of a conjunction are true makes true what the conjunction
entails, if it does so for the ranges. -/
theorem holds_of_guardClausesEntail (finest : BinaryIsFinest engine compareSqlValues)
    (entails : guardClausesEntail engine.semantics.isNull compareSqlValues first second = true)
    (inRanges : ∀ clause ∈ second, clause.rangeColumn.isSome → clause.Holds engine row)
    (holds : ∀ clause ∈ first, clause.Holds engine row) :
    ∀ clause ∈ second, clause.Holds engine row := by
  intro target inTargets
  cases isColumn : target.rangeColumn with
  | some column => exact inRanges target inTargets (isColumn ▸ rfl)
  | none =>
    obtain ⟨source, inSources, entails⟩ := any_eq_true.mp (all_eq_true.mp entails target inTargets)
    exact holds_of_clauseEntails finest isColumn entails (holds source inSources)

theorem RangesWithin.holds (within : RangesWithin engine first second)
    (holds : ∀ clause ∈ first, clause.Holds engine row) :
    ∀ clause ∈ second, clause.rangeColumn.isSome → clause.Holds engine row := by
  intro target inTargets isRange
  obtain ⟨column, isColumn⟩ := Option.isSome_iff_exists.mp isRange
  obtain ⟨source, inSources, within⟩ := within target inTargets column isColumn
  exact holds_of_rangeSubset isColumn within (holds source inSources)

end Soundness

end Quereus.Planner
