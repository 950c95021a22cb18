import Quereus.Lib.Fallible
import Quereus.Planner.SatChecker

/-! # Contradictions are real

A value that has every property an accumulator has gathered stays when the next one is
gathered, and a contradictory accumulator has no such value. The value of a row that makes
every conjunct true is such a value of its column, unless it is NULL: domains and bindings
say nothing of NULL, so a verdict is right if the rows that are NULL in a column found
contradictory are rejected as well.
-/

namespace Quereus.Planner

open List Option

variable {ν : Type}

variable {cmp : ν → ν → Ordering} {value : ν}

section Column

variable {acc : ColumnAccumulator ν}

/-- A value meets what an accumulator has gathered. -/
structure Admits (cmp : ν → ν → Ordering) (acc : ColumnAccumulator ν) (value : ν) : Prop where
  range : withinRange cmp acc value = true
  allowed : ∀ allowed, acc.allowedValues = some allowed → ∃ member ∈ allowed, cmp member value = .eq
  excluded : ∀ member ∈ acc.excluded, cmp member value ≠ .eq

theorem admits_emptyAccumulator : Admits cmp emptyAccumulator value :=
  ⟨rfl, nofun, nofun⟩

variable (admits : Admits cmp acc value)

include admits

theorem Admits.min {min : ν} (isMin : acc.minValue = some min) :
    reachesMin cmp min acc.minInclusive value = true := by
  have inRange := (Bool.and_eq_true_iff.mp admits.range).1
  rwa [isMin] at inRange

theorem Admits.max {max : ν} (isMax : acc.maxValue = some max) :
    reachesMax cmp max acc.maxInclusive value = true := by
  have inRange := (Bool.and_eq_true_iff.mp admits.range).2
  rwa [isMax] at inRange

variable {inclusive : Bool}

/-- Change the lower bound to one that the value reaches. -/
theorem Admits.withMin {min : ν} (reaches : reachesMin cmp min inclusive value = true) :
    Admits cmp { acc with minValue := some min, minInclusive := inclusive } value :=
  { admits with
    range := Bool.and_eq_true_iff.mpr ⟨reaches, (Bool.and_eq_true_iff.mp admits.range).2⟩ }

theorem Admits.withMax {max : ν} (reaches : reachesMax cmp max inclusive value = true) :
    Admits cmp { acc with maxValue := some max, maxInclusive := inclusive } value :=
  { admits with
    range := Bool.and_eq_true_iff.mpr ⟨(Bool.and_eq_true_iff.mp admits.range).1, reaches⟩ }

theorem Admits.seedBound {isNull : ν → Bool} {bound : Option ν} {tighten : ν → ColumnAccumulator ν}
    (tightens : ∀ limit, bound = some limit → isNull limit = false → Admits cmp acc value →
      Admits cmp (tighten limit) value) :
    Admits cmp (match bound.filter (!isNull ·) with
      | some limit => tighten limit
      | none => acc) value := by
  split
  · next limit found =>
    obtain ⟨isBound, notNull⟩ := filter_eq_some_iff.mp found
    exact tightens limit isBound (by simpa using notNull) admits
  · exact admits

variable [Std.TransCmp cmp]

theorem Admits.tightenLower {min : ν} (reaches : reachesMin cmp min inclusive value = true) :
    Admits cmp (tightenLower cmp min inclusive acc) value := by
  unfold Planner.tightenLower
  split
  · exact admits.withMin reaches
  · next old isMin =>
    split
    · exact admits.withMin reaches
    · next same =>
      split
      · next narrows =>
        -- the bounds compare equal, and the new one excludes the value they share
        obtain rfl : inclusive = false := by simpa using (Bool.and_eq_true_iff.mp narrows).2
        have moved := admits.withMin (reachesMin_congr same ▸ reaches)
        rwa [← isMin] at moved
      · exact admits
    · exact admits

theorem Admits.tightenUpper {max : ν} (reaches : reachesMax cmp max inclusive value = true) :
    Admits cmp (tightenUpper cmp max inclusive acc) value := by
  unfold Planner.tightenUpper
  split
  · exact admits.withMax reaches
  · next old isMax =>
    split
    · exact admits.withMax reaches
    · next same =>
      split
      · next narrows =>
        obtain rfl : inclusive = false := by simpa using (Bool.and_eq_true_iff.mp narrows).2
        have moved := admits.withMax (reachesMax_congr same ▸ reaches)
        rwa [← isMax] at moved
      · exact admits
    · exact admits

theorem Admits.intersectAllowed {isNull : ν → Bool} {values : List ν}
    (among : ∃ member ∈ values, isNull member = false ∧ cmp member value = .eq) :
    Admits cmp (intersectAllowed cmp isNull values acc) value := by
  obtain ⟨member, inValues, notNull, same⟩ := among
  have inNonNull : member ∈ values.filter (!isNull ·) :=
    mem_filter.mpr ⟨inValues, by simp [notNull]⟩
  unfold Planner.intersectAllowed
  simp only
  split
  · exact { admits with }
  split
  · refine ⟨admits.range, fun allowed isAllowed => ?_, admits.excluded⟩
    cases isAllowed
    exact ⟨member, inNonNull, same⟩
  · next old isOld =>
    refine ⟨admits.range, fun allowed isAllowed => ?_, admits.excluded⟩
    cases isAllowed
    obtain ⟨kept, inOld, keptSame⟩ := admits.allowed old isOld
    refine ⟨kept, mem_filter.mpr ⟨inOld, any_eq_true.mpr ⟨member, inNonNull, ?_⟩⟩, keptSame⟩
    exact beq_iff_eq.mpr (Std.TransCmp.eq_trans same (Std.OrientedCmp.eq_symm keptSame))

omit [Std.TransCmp cmp] in
theorem Admits.exclude {other : ν} (differs : cmp other value ≠ .eq) :
    Admits cmp (exclude cmp other acc) value := by
  unfold Planner.exclude
  split
  · split
    · exact admits
    · refine ⟨admits.range, admits.allowed, fun member inExcluded => ?_⟩
      rcases mem_append.mp inExcluded with old | new
      · exact admits.excluded member old
      · rw [mem_singleton.mp new]
        exact differs
  · exact { admits with }

theorem Admits.pin {isNull : ν → Bool} {constant : ν} (notNull : isNull constant = false)
    (same : cmp value constant = .eq) : Admits cmp (pin cmp isNull constant acc) value := by
  have lower : reachesMin cmp constant true value = true := by simp [reachesMin, same]
  have upper : reachesMax cmp constant true value = true := by simp [reachesMax, same]
  exact ((admits.tightenLower lower).tightenUpper upper).intersectAllowed
    ⟨constant, mem_singleton.mpr rfl, notNull, Std.OrientedCmp.eq_symm same⟩

omit admits in
theorem withinRange_congr {other : ν} (same : cmp other value = .eq) :
    withinRange cmp acc other = withinRange cmp acc value := by
  simp only [withinRange, reachesMin, reachesMax, Std.TransCmp.congr_left same]

theorem Admits.not_containsValue {other : ν} (same : cmp other value = .eq) :
    containsValue cmp acc.excluded other = false := by
  rw [← Bool.not_eq_true]
  intro contained
  obtain ⟨member, inExcluded, equal⟩ := any_eq_true.mp contained
  exact admits.excluded member inExcluded (Std.TransCmp.eq_trans (beq_iff_eq.mp equal) same)

/-- A member of the allowed values that compares equal to an admitted value remains. -/
theorem Admits.remains {remaining : List ν}
    (isRemaining : remainingValues cmp acc = some remaining) :
    ∃ member, member ∈ remaining := by
  obtain ⟨allowed, isAllowed, rfl⟩ := map_eq_some_iff.mp isRemaining
  obtain ⟨member, inAllowed, same⟩ := admits.allowed allowed isAllowed
  refine ⟨member, mem_filter.mpr ⟨inAllowed, ?_⟩⟩
  rw [withinRange_congr same, admits.range, admits.not_containsValue same]
  rfl

/-- A range with a value in it is not empty. -/
theorem Admits.not_rangeEmpty : rangeEmpty cmp acc = false := by
  unfold rangeEmpty
  split
  · next min max isMin isMax =>
    have low := admits.min isMin
    have high := admits.max isMax
    simp only [reachesMin, reachesMax, Bool.or_eq_true, Bool.and_eq_true, beq_iff_eq] at low high
    split
    · next crossed =>
      have aboveMin : (cmp min value).isLE := by
        have swap : cmp min value = (cmp value min).swap := Std.OrientedCmp.eq_swap
        rcases low with greater | ⟨same, -⟩ <;> simp [*]
      have belowMax : (cmp value max).isLE := by
        rcases high with less | ⟨same, -⟩ <;> simp [*]
      have ordered := Std.TransCmp.isLE_trans aboveMin belowMax
      simp [crossed] at ordered
    · next meet =>
      rw [← Std.TransCmp.congr_right meet] at high
      -- the value equals both bounds, which are inclusive then
      obtain ⟨same, minInclusive⟩ : cmp value min = .eq ∧ acc.minInclusive = true := by
        rcases low with greater | both
        · rcases high with less | ⟨same, -⟩ <;> simp_all
        · exact both
      have maxInclusive : acc.maxInclusive = true := by
        rcases high with less | ⟨-, inclusive⟩
        · simp [less] at same
        · exact inclusive
      rw [minInclusive, maxInclusive, admits.not_containsValue (Std.OrientedCmp.eq_symm same)]
      rfl
    · rfl
  · rfl

/-- An accumulator that admits a value is not contradictory. -/
theorem Admits.not_contradictory : contradictory cmp acc = false := by
  unfold contradictory
  rw [admits.not_rangeEmpty]
  cases isRemaining : remainingValues cmp acc with
  | none => rfl
  | some remaining =>
    obtain ⟨member, inRemaining⟩ := admits.remains isRemaining
    have some : remaining.isEmpty = false := by
      cases remaining with
      | nil => cases inRemaining
      | cons => rfl
    rw [any_some, some]
    split
    · next single isSingle =>
      -- No remaining value is excluded.
      obtain ⟨allowed, -, isList⟩ := map_eq_some_iff.mp isRemaining
      have kept := mem_filter.mp (isList.trans (Option.some.inj isSingle) ▸ mem_singleton.mpr rfl)
      exact Bool.not_eq_true' _ ▸ (Bool.and_eq_true_iff.mp kept.2).2
    · rfl

end Column

variable {isNull : ν → Bool} {fact : ColumnFact ν} {operator : BinaryOperator}

section Facts

/-- A recognized fact is true of a value. -/
def ColumnFact.HoldsOf (cmp : ν → ν → Ordering) (isNull : ν → Bool) (value : ν) :
    ColumnFact ν → Prop
  | .equals constant => isNull constant = false ∧ cmp value constant = .eq
  | .differs constant => cmp value constant ≠ .eq
  | .below constant inclusive => reachesMax cmp constant inclusive value = true
  | .above constant inclusive => reachesMin cmp constant inclusive value = true
  | .between low high =>
    reachesMin cmp low true value = true ∧ reachesMax cmp high true value = true
  | .among constants => ∃ constant ∈ constants, isNull constant = false ∧ cmp value constant = .eq

/-- A fact that holds of the value is absorbed. -/
theorem Admits.absorb [Std.TransCmp cmp] {acc : ColumnAccumulator ν} (admits : Admits cmp acc value)
    (holds : fact.HoldsOf cmp isNull value) :
    Admits cmp (fact.absorb cmp isNull acc) value := by
  cases fact with
  | equals constant => exact admits.pin holds.1 holds.2
  | differs constant => exact admits.exclude fun same => holds (Std.OrientedCmp.eq_symm same)
  | below constant inclusive => exact admits.tightenUpper holds
  | above constant inclusive => exact admits.tightenLower holds
  | between low high => exact (admits.tightenLower holds.1).tightenUpper holds.2
  | among constants =>
    obtain ⟨constant, member, notNull, same⟩ := holds
    exact admits.intersectAllowed ⟨constant, member, notNull, Std.OrientedCmp.eq_symm same⟩

/-- What a comparison says of its left operand. -/
theorem factOf_holds (cmp : ν → ν → Ordering) (value : ν) {constant : ν}
    (isFact : factOf operator constant = some fact) (notNull : isNull constant = false) :
    ∃ test, operator.test? = some test ∧
      (test (cmp value constant) = true → fact.HoldsOf cmp isNull value) := by
  cases operator <;> cases isFact <;> refine ⟨_, rfl, fun holds => ?_⟩
  · exact ⟨notNull, beq_iff_eq.mp holds⟩
  · exact ⟨notNull, beq_iff_eq.mp holds⟩
  · exact bne_iff_ne.mp holds
  · exact bne_iff_ne.mp holds
  all_goals
    simp only [ColumnFact.HoldsOf, reachesMax, reachesMin]
    cases compared : cmp value constant <;> simp_all

/-- Swapping the operands of a comparison and its operator changes nothing. -/
theorem flipComparison_test (cmp : ν → ν → Ordering) [Std.OrientedCmp cmp] (value : ν)
    {test : Ordering → Bool} (isTest : (flipComparison operator).test? = some test) (constant : ν) :
    ∃ test', operator.test? = some test' ∧ test' (cmp constant value) =
      test (cmp value constant) := by
  have swap : cmp constant value = (cmp value constant).swap := Std.OrientedCmp.eq_swap
  cases operator <;> cases isTest <;> refine ⟨_, rfl, ?_⟩ <;> rw [swap] <;>
    cases cmp value constant <;> rfl

end Facts

variable {comparators : Comparators ν} {attrIndex : Nat → Option Nat}

section Conjuncts

variable {semantics : ScalarSemantics ν} {env : Environment ν} {row : Nat → ν}

instance (col : Nat) : Std.TransCmp (comparators.compare col) :=
  comparators.lawful col

/-- The runtime compares the column of a conjunct the checker reads by the comparator of
the column. -/
def RunsWith (semantics : ScalarSemantics ν) (comparators : Comparators ν)
    (attrIndex : Nat → Option Nat)
    (conjunct : Scalar ν) : Prop :=
  ∀ col fact, recognize semantics.isNull attrIndex conjunct = some (col, fact) →
    match conjunct with
    | .binary _ _ left right =>
      semantics.comparison left.getType [right.getType] = comparators.compare col
    | .between _ _ expr lower upper =>
      semantics.comparison expr.getType [lower.getType] = comparators.compare col ∧
        semantics.comparison expr.getType [upper.getType] = comparators.compare col
    | .inList _ condition values =>
      semantics.comparison condition.getType (values.map Scalar.getType) = comparators.compare col
    | _ => True

variable {node : Scalar ν} {col : Nat} {type : ScalarType}

variable {left right : Scalar ν}

theorem eval_of_literalOf (isLiteral : literalOf node = some value) :
    node.eval semantics env = value := by
  unfold literalOf at isLiteral
  split at isLiteral
  · next type literal unwrapped =>
    cases isLiteral
    rw [← eval_unwrapCast node, unwrapped, Scalar.eval]
  · cases isLiteral

theorem eval_of_valueOf (env : Environment ν)
    (isValue : valueOf semantics.isNull node = some value) :
    node.eval semantics env = value ∧ semantics.isNull value = false := by
  obtain ⟨isLiteral, notNull⟩ := filter_eq_some_iff.mp isValue
  exact ⟨eval_of_literalOf isLiteral, by simpa using notNull⟩

theorem eval_of_columnOf
    (reads : ∀ attributeId col, attrIndex attributeId = some col →
      env.attributes attributeId = row col)
    (isColumn : columnOf attrIndex node = some col) : node.eval semantics env = row col := by
  unfold columnOf at isColumn
  split at isColumn
  · next type attributeId unwrapped =>
    rw [← eval_unwrapCast node, unwrapped]
    exact reads attributeId col isColumn
  · cases isColumn

variable (reads : ∀ attributeId col, attrIndex attributeId = some col →
    env.attributes attributeId = row col)

include reads

/-- What is recognized of a true comparison holds. -/
theorem recognizeBinary_holds
    (compares : semantics.comparison left.getType [right.getType] = comparators.compare col)
    (isTrue : Scalar.IsTrue semantics env (.binary type operator left right))
    (recognized : recognizeBinary semantics.isNull attrIndex operator left right =
      some (col, fact)) :
    semantics.isNull (row col) = false ∧ fact.HoldsOf (comparators.compare col) semantics.isNull
      (row col) := by
  unfold recognizeBinary at recognized
  split at recognized
  all_goals
    simp only [bind_eq_bind, bind_eq_some_iff] at recognized
  · next found isColumn =>
    obtain ⟨value, isValue, _, isFact, rfl, rfl⟩ := recognized
    obtain ⟨evaluates, notNull⟩ := eval_of_valueOf env isValue
    obtain ⟨test, isTest, meaning⟩ := factOf_holds (comparators.compare col) (row col)
      isFact notNull
    obtain ⟨present, -, holds⟩ := compare3_eq_true.mp ((isTrue_comparison isTest).mp isTrue)
    rw [compares, eval_of_columnOf reads isColumn, evaluates] at holds
    rw [eval_of_columnOf reads isColumn] at present
    exact ⟨present, meaning holds⟩
  · obtain ⟨_, isColumn, value, isValue, _, isFact, rfl, rfl⟩ := recognized
    obtain ⟨evaluates, notNull⟩ := eval_of_valueOf env isValue
    obtain ⟨flipped, isFlipped, meaning⟩ := factOf_holds (comparators.compare col) (row col)
      isFact notNull
    obtain ⟨test, isTest, swapped⟩ := flipComparison_test (comparators.compare col) (row col)
      isFlipped value
    obtain ⟨-, present, holds⟩ := compare3_eq_true.mp ((isTrue_comparison isTest).mp isTrue)
    rw [compares, eval_of_columnOf reads isColumn, evaluates, swapped] at holds
    rw [eval_of_columnOf reads isColumn] at present
    exact ⟨present, meaning holds⟩

/-- A conjunct that is true says what the checker reads of it. -/
theorem recognize_holds {conjunct : Scalar ν}
    (runs : RunsWith semantics comparators attrIndex conjunct)
    (isTrue : conjunct.IsTrue semantics env)
    (recognized : recognize semantics.isNull attrIndex conjunct = some (col, fact)) :
    semantics.isNull (row col) = false ∧ fact.HoldsOf (comparators.compare col) semantics.isNull
      (row col) := by
  have compares := runs col fact recognized
  unfold recognize at recognized
  split at recognized
  · exact recognizeBinary_holds reads compares isTrue recognized
  · obtain ⟨found, isColumn, rest⟩ := bind_eq_some_iff.mp recognized
    obtain ⟨low, isLow, rest⟩ := bind_eq_some_iff.mp rest
    obtain ⟨high, isHigh, pair⟩ := bind_eq_some_iff.mp rest
    cases pair
    obtain ⟨aboveLow, belowHigh⟩ := isTrue_between.mp isTrue
    rw [compare3_eq_true, eval_of_columnOf reads isColumn, (eval_of_valueOf env isLow).1,
      compares.1] at aboveLow
    rw [compare3_eq_true, eval_of_columnOf reads isColumn, (eval_of_valueOf env isHigh).1,
      compares.2] at belowHigh
    exact ⟨aboveLow.1, reachesMin_eq_test.trans aboveLow.2.2,
      reachesMax_eq_test.trans belowHigh.2.2⟩
  · obtain ⟨found, isColumn, rest⟩ := bind_eq_some_iff.mp recognized
    obtain ⟨literals, areLiterals, pair⟩ := bind_eq_some_iff.mp rest
    cases pair
    obtain ⟨value, inValues, equal⟩ := isTrue_inList.mp isTrue
    rw [compare3_eq_true, eval_of_columnOf reads isColumn, compares] at equal
    obtain ⟨present, notNull, same⟩ := equal
    obtain ⟨literal, inLiterals, isLiteral⟩ :=
      Fallible.exists_of_mem_left (Fallible.mapM_eq_some_iff.mp areLiterals) inValues
    rw [eval_of_literalOf isLiteral] at notNull same
    exact ⟨present, literal, inLiterals, notNull, beq_iff_eq.mp same⟩
  · cases recognized

end Conjuncts

section Gathered

/-- A value is in the domain. -/
def Domain.AdmitsValue (cmp : ν → ν → Ordering) (isNull : ν → Bool) (value : ν) : Domain ν → Prop
  | .range min max minInclusive maxInclusive =>
    (∀ bound, min = some bound → isNull bound = false →
      reachesMin cmp bound minInclusive value = true) ∧
      ∀ bound, max = some bound → isNull bound = false →
        reachesMax cmp bound maxInclusive value = true
  | .enum values => ∃ member ∈ values, isNull member = false ∧ cmp value member = .eq

/-- A literal binding pins a column; a parameter says nothing before it is bound. -/
def ConstantValue.AdmitsValue (cmp : ν → ν → Ordering) (isNull : ν → Bool) (value : ν) :
    ConstantValue ν → Prop
  | .literal constant => isNull constant = false → cmp value constant = .eq
  | .parameter _ => True

/-- Every accumulator of a column admits a value. -/
def AdmitsAt (comparators : Comparators ν) (col : Nat) (value : ν) (accs : Accumulators ν) : Prop :=
  ∀ acc, (col, acc) ∈ accs → Admits (comparators.compare col) acc value

variable {accs : Accumulators ν} {col : Nat}

theorem admitsAt_cons {other : Nat} {acc : ColumnAccumulator ν} :
    AdmitsAt comparators col value ((other, acc) :: accs) ↔
      (other = col → Admits (comparators.compare col) acc value) ∧
        AdmitsAt comparators col value accs := by
  simp only [AdmitsAt, mem_cons, Prod.mk.injEq, or_imp, forall_and, and_imp]
  exact and_congr_left fun _ => ⟨fun admits same => admits acc same.symm rfl,
    fun admits _ same isAcc => isAcc ▸ admits same.symm⟩

variable (admitted : AdmitsAt comparators col value accs)

include admitted

/-- A change of some column's accumulator that keeps the value where it is this column. -/
theorem AdmitsAt.updateAcc {other : Nat} {change : ColumnAccumulator ν → ColumnAccumulator ν}
    (keeps : other = col → ∀ acc, Admits (comparators.compare col) acc value →
      Admits (comparators.compare col) (change acc) value) :
    AdmitsAt comparators col value (updateAcc other change accs) := by
  induction accs with
  | nil =>
    refine admitsAt_cons.mpr ⟨fun same => keeps same _ admits_emptyAccumulator, nofun⟩
  | cons first accs ih =>
    obtain ⟨here, rest⟩ := admitsAt_cons.mp admitted
    unfold Planner.updateAcc
    split
    · next same =>
      exact admitsAt_cons.mpr ⟨fun isCol => keeps isCol _ (here (same.trans isCol)), rest⟩
    · exact admitsAt_cons.mpr ⟨here, ih rest⟩

theorem AdmitsAt.seedDomain {constraint : DomainConstraint ν}
    (admits : constraint.column = col →
      constraint.domain.AdmitsValue (comparators.compare col) isNull value) :
    AdmitsAt comparators col value (seedDomain isNull comparators accs constraint) := by
  refine admitted.updateAcc fun same acc known => ?_
  have admits := admits same
  rw [same]
  cases isDomain : constraint.domain with
  | range min max minInclusive maxInclusive =>
    rw [isDomain] at admits
    refine Admits.seedBound (known.seedBound fun bound isMin notNull _ => ?_)
      fun bound isMax notNull lowered => ?_
    · exact known.tightenLower (admits.1 bound isMin notNull)
    · exact lowered.tightenUpper (admits.2 bound isMax notNull)
  | enum values =>
    rw [isDomain] at admits
    obtain ⟨member, inValues, notNull, same⟩ := admits
    exact known.intersectAllowed ⟨member, inValues, notNull, Std.OrientedCmp.eq_symm same⟩

theorem AdmitsAt.seedBinding {binding : ConstantBinding ν}
    (admits : col ∈ binding.attrs →
      binding.value.AdmitsValue (comparators.compare col) isNull value) :
    AdmitsAt comparators col value (seedBinding isNull comparators accs binding) := by
  unfold Planner.seedBinding
  split
  · next constant isConstant =>
    rw [isConstant] at admits
    split
    · exact admitted
    · next notNull =>
      rw [Bool.not_eq_true] at notNull
      refine foldlRecOn (motive := AdmitsAt comparators col value) binding.attrs _ admitted ?_
      intro accs admitted other member
      refine admitted.updateAcc fun same acc known => ?_
      subst same
      exact known.pin notNull (admits member notNull)
  · exact admitted

/-- A true conjunct keeps the value admitted. -/
theorem AdmitsAt.absorb {conjunct : Scalar ν}
    (holds : ∀ fact, recognize isNull attrIndex conjunct = some (col, fact) →
      fact.HoldsOf (comparators.compare col) isNull value) :
    AdmitsAt comparators col value (absorb isNull comparators attrIndex accs conjunct) := by
  unfold Planner.absorb
  split
  · next other fact recognized =>
    refine admitted.updateAcc fun same acc known => ?_
    subst same
    exact known.absorb (holds fact recognized)
  · refine foldlRecOn (motive := AdmitsAt comparators col value) _ _ admitted ?_
    exact fun accs admitted other _ => admitted.updateAcc fun _ acc known => { known with }

variable {conjuncts : List (Scalar ν)} {domains : List (DomainConstraint ν)}
  {bindings : List (ConstantBinding ν)}

omit admitted

/-- A column of a contradictory filter has a contradictory accumulator. -/
theorem exists_contradictory
    (unsat : checkSatisfiability isNull comparators attrIndex conjuncts domains bindings = .unsat) :
    ∃ col acc, (col, acc) ∈ gatherFacts isNull comparators attrIndex conjuncts domains bindings ∧
      contradictory (comparators.compare col) acc = true := by
  unfold checkSatisfiability at unsat
  simp only at unsat
  split_ifs at unsat with _ _ found
  obtain ⟨⟨col, acc⟩, member, empty⟩ := any_eq_true.mp found
  exact ⟨col, acc, member, empty⟩

end Gathered

section Verdict

variable (semantics : ScalarSemantics ν) (comparators : Comparators ν)
    (attrIndex : Nat → Option Nat)
  (conjuncts : List (Scalar ν)) (domains : List (DomainConstraint ν))
  (bindings : List (ConstantBinding ν))

/-- A value lies in all domains of a column and equals its literal bindings. -/
def InDomains (col : Nat) (value : ν) : Prop :=
  (∀ constraint ∈ domains, constraint.column = col →
      constraint.domain.AdmitsValue (comparators.compare col) semantics.isNull value) ∧
    ∀ binding ∈ bindings, col ∈ binding.attrs →
      binding.value.AdmitsValue (comparators.compare col) semantics.isNull value

/-- Some conjunct the checker reads compares the column. -/
def IsCompared (col : Nat) : Prop :=
  ∃ conjunct ∈ conjuncts, ∃ fact, recognize semantics.isNull attrIndex conjunct = some (col, fact)

/-- The filter keeps none of some rows: whatever row of them lies in the domains and has the
bindings, where it is not NULL, some conjunct is not true of it. -/
def Rejects (among : (Nat → ν) → Prop) : Prop :=
  ∀ row, among row →
    (∀ col, semantics.isNull (row col) = false →
      InDomains semantics comparators domains bindings col (row col)) →
    ∀ env : Environment ν,
      (∀ attributeId col, attrIndex attributeId = some col → env.attributes attributeId = row col) →
      ∃ conjunct ∈ conjuncts, ¬ conjunct.IsTrue semantics env

variable {semantics comparators attrIndex conjuncts domains bindings}
  (runs : ∀ conjunct ∈ conjuncts, RunsWith semantics comparators attrIndex conjunct)

include runs

/-- A filter rejects the rows that are NULL in a column it compares. -/
theorem rejects_null_of_isCompared {col : Nat}
    (compared : IsCompared semantics attrIndex conjuncts col) :
    Rejects semantics comparators attrIndex conjuncts domains bindings
      fun row => semantics.isNull (row col) = true := by
  obtain ⟨conjunct, member, fact, recognized⟩ := compared
  intro row isNull _ env reads
  refine ⟨conjunct, member, fun isTrue => ?_⟩
  have present := (recognize_holds reads (runs conjunct member) isTrue recognized).1
  rw [isNull] at present
  cases present

/-- A filter rejects the rows that are not NULL in a column found contradictory. -/
theorem rejects_of_contradictory {col : Nat} {acc : ColumnAccumulator ν}
    (gathered : (col, acc) ∈
      gatherFacts semantics.isNull comparators attrIndex conjuncts domains bindings)
    (empty : contradictory (comparators.compare col) acc = true) :
    Rejects semantics comparators attrIndex conjuncts domains bindings
      fun row => semantics.isNull (row col) = false := by
  intro row present inDomains env reads
  by_contra allTrue
  push Not at allTrue
  obtain ⟨inside, bound⟩ := inDomains col present
  have seeded := foldlRecOn (motive := AdmitsAt comparators col (row col)) domains
    (seedDomain semantics.isNull comparators) (b := []) nofun
    fun accs admitted constraint member => admitted.seedDomain (inside constraint member)
  have pinned := foldlRecOn (motive := AdmitsAt comparators col (row col)) bindings
    (seedBinding semantics.isNull comparators) seeded
    fun accs admitted binding member => admitted.seedBinding (bound binding member)
  have all := foldlRecOn (motive := AdmitsAt comparators col (row col)) conjuncts
    (absorb semantics.isNull comparators attrIndex) pinned
    fun accs admitted conjunct member => admitted.absorb fun fact recognized =>
      (recognize_holds reads (runs conjunct member) (allTrue conjunct member) recognized).2
  rw [(all acc gathered).not_contradictory] at empty
  cases empty

omit runs

end Verdict

def numberComparators : Comparators (Option Nat) :=
  ⟨fun _ => compareNumbers?, fun _ => inferInstance, fun _ => true⟩

def equation (column value : Nat) : Scalar (Option Nat) :=
  .binary truthType .eq (.column numberType column) (.literal numberType (some value))

theorem equation_runsWith (column value : Nat) :
    RunsWith numberSemantics numberComparators some (equation column value) :=
  fun _ _ _ => rfl

/-- Two checks no number passes, on a column that is NULL. -/
def crossedDomains : List (DomainConstraint (Option Nat)) :=
  [⟨0, .range (some (some 5)) none true false⟩, ⟨0, .range none (some (some 3)) false true⟩]

def nullRow : Nat → Option Nat :=
  fun column => if column = 1 then some 1 else none

end Quereus.Planner
