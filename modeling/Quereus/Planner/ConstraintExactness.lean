import Quereus.Planner.ConstraintMeaning

/-! # Extracted constraints are exact

A predicate is true of a row exactly when the constraints extracted from it hold of the
row and the residual predicate is true. In a disjunction that collapses into one constraint
every branch has to compare as the column does; the collation check of the extractor sees
to it where values compare by collations.
-/

namespace Quereus.Planner

open Fallible List Scalar PredicateConstraint

variable {ν : Type}

section Produced

variable (semantics : ScalarSemantics ν) (ofColumn : Nat → ν → ν → Ordering) (env : Environment ν)
  (columnIndexMap : Nat → Option Nat)

/-- A constraint that passes the collation check compares as its column. -/
def PredicateConstraint.ReadsAsColumn (constraint : PredicateConstraint ν) : Prop :=
  constraint.op.compares = true → orBranchConstraintCollationOk constraint = true →
    constraint.comparison semantics ofColumn = ofColumn constraint.attributeId

/-- What a disjunction needs of the constraints of its branches. -/
structure Produced (constraint : PredicateConstraint ν) : Prop where
  indexed : columnIndexMap constraint.attributeId = some constraint.columnIndex
  gated : constraint.ReadsAsColumn semantics ofColumn
  scalar : constraint.op.compares = true → constraint.op ≠ .isIn → ∃ value, constraint.value =
    .scalar value ∧
    (constraint.valueExpr = .absent ∨ ∃ expr, constraint.valueExpr = .scalar expr)
  members : constraint.op.compares = true → ∀ members, branchMembers constraint = some members →
    members.exprs.map (Scalar.eval semantics env) = constraint.operands semantics env ∧
      (members.hasNonLiteral = false → members.values.filterMap id =
        constraint.operands semantics env)

end Produced

variable {semantics : ScalarSemantics ν} {ofColumn : Nat → ν → ν → Ordering} {env : Environment ν}
  {columnIndexMap : Nat → Option Nat} {isNull : ν → Bool}
  {constraint : PredicateConstraint ν} {type : ScalarType}

section Leaves

theorem produced_of_not_compares
    (indexed : columnIndexMap constraint.attributeId = some constraint.columnIndex)
    (notCompares : constraint.op.compares = false) :
    Produced semantics ofColumn env columnIndexMap constraint := by
  have absurdly : constraint.op.compares ≠ true := ne_true_of_eq_false notCompares
  exact ⟨indexed, fun compares => absurd compares absurdly, fun compares =>
    absurd compares absurdly,
    fun compares => absurd compares absurdly⟩

theorem produced_extractBinaryConstraint {operator : BinaryOperator} {left right : Scalar ν}
    (reads : constraint.ReadsAsColumn semantics ofColumn)
    (extracted : extractBinaryConstraint isNull columnIndexMap (.binary type operator left right)
      operator left right = some constraint) :
    Produced semantics ofColumn env columnIndexMap constraint := by
  obtain ⟨attributeId, op, valueSide, sides, -, isComparison⟩ :=
    extractBinaryConstraint_sides extracted
  have spec : ComparisonConstraint semantics env columnIndexMap _ attributeId op valueSide
      constraint := extractComparison_spec isComparison
  obtain ⟨rfl⟩ := spec.isAttribute
  refine ⟨spec.indexed, reads, fun _ _ => ?_, fun isComparison members isMembers => ?_⟩
  · rcases spec.binding with ⟨isExpr, isValue⟩ | ⟨isExpr, isValue⟩
    · exact ⟨_, isValue, Or.inl isExpr⟩
    · exact ⟨_, isValue, Or.inr ⟨_, isExpr⟩⟩
  · rw [spec.operands]
    rcases spec.binding with ⟨isExpr, isValue⟩ | ⟨isExpr, isValue⟩
    · simp only [branchMembers, isValue, isExpr, spec.isSource, sides.valueSideOf_eq] at isMembers
      cases isMembers
      exact ⟨rfl, fun _ => rfl⟩
    · simp only [branchMembers, isValue, isExpr] at isMembers
      cases isMembers
      exact ⟨rfl, nofun⟩

theorem produced_extractInConstraint {condition : Scalar ν} {values : List (Scalar ν)}
    (reads : constraint.ReadsAsColumn semantics ofColumn)
    (extracted : extractInConstraint columnIndexMap (.inList type condition values) condition
      values = some constraint) : Produced semantics ofColumn env columnIndexMap constraint := by
  obtain ⟨columnType, attributeId, columnIndex, rfl, isIndex, rfl, rfl, isOp, isSource, isValue,
    isExpr, -⟩ := extractInConstraint_eq_some extracted
  refine ⟨isIndex, reads, fun _ notIn => absurd isOp notIn, fun _ members isMembers => ?_⟩
  rw [operands_of_list isValue isExpr]
  by_cases allLiteral : values.all (fun value => (literalOf value).isSome) = true
  · rw [if_pos allLiteral] at isExpr
    simp only [branchMembers, isOp, isValue, isExpr, isSource, length_map] at isMembers
    cases isMembers
    exact ⟨rfl, fun _ => filterMap_literalOf env allLiteral⟩
  · rw [if_neg allLiteral] at isExpr
    simp only [branchMembers, isOp, isValue, isExpr] at isMembers
    cases isMembers
    exact ⟨rfl, by simp⟩

theorem forall_constraint_ofConstraint {P : PredicateConstraint ν → Prop} {source : Scalar ν}
    {found : Option (PredicateConstraint ν)}
    (each : ∀ constraint, found = some constraint → P constraint) :
    ∀ constraint ∈ (Extracted.ofConstraint source found).constraints, P constraint := by
  cases found with
  | none => exact forall_mem_nil _
  | some constraint => exact forall_mem_singleton.mpr (each constraint rfl)

/-- What is extracted from a leaf has all that a disjunction needs, if it reads as its column. -/
theorem produced_extractLeaf {leaf : Scalar ν}
    (reads : ∀ constraint ∈ (extractLeaf isNull columnIndexMap leaf).constraints,
      constraint.ReadsAsColumn semantics ofColumn) :
    ∀ constraint ∈ (extractLeaf isNull columnIndexMap leaf).constraints,
      Produced semantics ofColumn env columnIndexMap constraint := by
  intro constraint member
  have readsHere := reads constraint member
  clear reads
  revert constraint
  unfold extractLeaf
  split
  · split
    · next isExtracted =>
      obtain ⟨rfl, attributeId, low, high, columnIndex, isColumn, -, -, isIndex, rfl⟩ :=
        extractBetweenConstraints_eq_some isExtracted
      rw [forall_mem_cons, forall_mem_singleton]
      exact ⟨fun reads => ⟨isIndex, reads, fun _ _ => ⟨_, rfl, Or.inl rfl⟩, nofun⟩,
        fun reads => ⟨isIndex, reads, fun _ _ => ⟨_, rfl, Or.inl rfl⟩, nofun⟩⟩
    · exact forall_mem_nil _
  · exact forall_constraint_ofConstraint fun _ isExtracted reads =>
      produced_extractInConstraint reads isExtracted
  iterate 2
    · refine forall_constraint_ofConstraint fun constraint isExtracted _ => ?_
      obtain ⟨attributeId, columnIndex, -, isIndex, rfl⟩ :=
        extractNullConstraint_eq_some isExtracted
      exact produced_of_not_compares isIndex rfl
  · exact forall_constraint_ofConstraint fun _ isExtracted reads =>
      produced_extractBinaryConstraint reads isExtracted
  · exact forall_mem_nil _

end Leaves

section Collapse

theorem operands_of_mapM {branches : List (PredicateConstraint ν)} {members : List (Members ν)}
    (areMembers : branches.mapM branchMembers = some members)
    (each : ∀ branch ∈ branches, Produced semantics ofColumn env columnIndexMap branch ∧
      branch.op.compares = true) :
    (members.flatMap (·.exprs)).map (Scalar.eval semantics env) =
        branches.flatMap (PredicateConstraint.operands semantics env) ∧
      (members.any (·.hasNonLiteral) = false → (members.flatMap (·.values)).filterMap id =
        branches.flatMap (PredicateConstraint.operands semantics env)) := by
  rw [mapM_eq_some_iff] at areMembers
  induction areMembers with
  | nil => exact ⟨rfl, fun _ => rfl⟩
  | cons isFirst _ ih =>
    obtain ⟨⟨produced, compares⟩, others⟩ := forall_mem_cons.mp each
    obtain ⟨exprs, values⟩ := produced.members compares _ isFirst
    obtain ⟨restExprs, restValues⟩ := ih others
    refine ⟨?_, fun literal => ?_⟩
    · rw [flatMap_cons, map_append, exprs, restExprs, flatMap_cons]
    · obtain ⟨firstLiteral, restLiteral⟩ := Bool.or_eq_false_iff.mp (any_cons ▸ literal)
      rw [flatMap_cons, filterMap_append, values firstLiteral, restValues restLiteral, flatMap_cons]

variable {collapsed : PredicateConstraint ν} {right : Scalar ν} {target : PredicateConstraint ν}
  {branches : List (Extracted ν)}

variable {left : Scalar ν} {constraints : List (PredicateConstraint ν)}

/-- One of the branches of a list of values holds exactly when the collapsed list does. -/
theorem collapseBranchesToIn_holdsFor {branches : List (PredicateConstraint ν)}
    {template : PredicateConstraint ν}
    (isCollapsed : collapseBranchesToIn branches template (.binary type .or left right) =
      some collapsed)
    (each : ∀ branch ∈ branches, Produced semantics ofColumn env columnIndexMap branch ∧
      (branch.op = .eq ∨ branch.op = .isIn) ∧ branch.attributeId = template.attributeId ∧
      orBranchConstraintCollationOk branch = true) :
    collapsed.HoldsFor semantics ofColumn env ↔
      ∃ branch ∈ branches, branch.HoldsFor semantics ofColumn env := by
  have compares : ∀ branch ∈ branches, branch.op.compares = true := by
    intro branch member
    obtain ⟨-, isOp | isOp, -⟩ := each branch member <;> rw [isOp] <;> rfl
  obtain ⟨members, areMembers, isRecord⟩ := Option.bind_eq_some_iff.mp isCollapsed
  obtain ⟨exprs, values⟩ := operands_of_mapM areMembers fun branch member =>
    ⟨(each branch member).1, compares branch member⟩
  have operands : collapsed.operands semantics env = branches.flatMap (operands semantics env) := by
    cases isRecord
    cases nonLiteral : members.any (·.hasNonLiteral) with
    | true => simpa [operands] using exprs
    | false => simpa [operands] using values nonLiteral
  have holds : collapsed.HoldsFor semantics ofColumn env ↔
      ∃ operand ∈ collapsed.operands semantics env, compare3 semantics (· == .eq)
        (ofColumn template.attributeId)
          (env.attributes template.attributeId) operand = some true := by
    cases isRecord
    exact holdsFor_iff_of_compares rfl
  rw [holds, operands]
  simp only [mem_flatMap]
  constructor
  · rintro ⟨operand, ⟨branch, member, inOperands⟩, isEqual⟩
    obtain ⟨produced, isOp, sameColumn, ok⟩ := each branch member
    refine ⟨branch, member, (holdsFor_iff_of_compares (compares branch member)).mpr
      ⟨operand, inOperands, ?_⟩⟩
    rw [produced.gated (compares branch member) ok, sameColumn]
    rcases isOp with isOp | isOp <;> rw [isOp] <;> exact isEqual
  · rintro ⟨branch, member, branchHolds⟩
    obtain ⟨produced, isOp, sameColumn, ok⟩ := each branch member
    obtain ⟨operand, inOperands, isEqual⟩ :=
      (holdsFor_iff_of_compares (compares branch member)).mp branchHolds
    rw [produced.gated (compares branch member) ok, sameColumn] at isEqual
    refine ⟨operand, ⟨branch, member, inOperands⟩, ?_⟩
    rcases isOp with isOp | isOp <;> rw [isOp] at isEqual <;> exact isEqual

theorem boundOf_operands (inclusive : Bool)
    (produced : Produced semantics ofColumn env columnIndexMap constraint)
    (compares : constraint.op.compares = true) (notIn : constraint.op ≠ .isIn) :
    (boundOf constraint inclusive).operands semantics env = constraint.operands semantics env ∧
      ∀ a ∈ constraint.operands semantics env, ∀ b ∈ constraint.operands semantics env, a = b := by
  obtain ⟨value, isValue, isExpr | ⟨expr, isExpr⟩⟩ := produced.scalar compares notIn
  · cases value <;> simp [boundOf, RangeBound.operands, operands, isValue, isExpr]
  · simp [boundOf, RangeBound.operands, operands, isExpr]

/-- A constraint put into a range narrows it to the values of the constraint. -/
theorem contains_addToRangeSpec {spec next : RangeSpec ν}
    (produced : Produced semantics ofColumn env columnIndexMap constraint)
    (added : addToRangeSpec spec constraint = some next) :
    next.Contains semantics env (constraint.comparison semantics ofColumn)
        (env.attributes constraint.attributeId) ↔
      spec.Contains semantics env (constraint.comparison semantics ofColumn)
          (env.attributes constraint.attributeId) ∧ constraint.HoldsFor semantics ofColumn env := by
  obtain ⟨lower, upper⟩ := spec
  unfold addToRangeSpec at added
  cases isOp : constraint.op <;> simp only [isOp, reduceCtorEq] at added
  all_goals
    have compares : constraint.op.compares = true := by rw [isOp]; rfl
    have notIn : constraint.op ≠ .isIn := by rw [isOp]; exact nofun
    rw [holdsFor_iff_of_compares compares, isOp]
  case eq =>
    -- both bounds are the one value
    obtain ⟨same, single⟩ := boundOf_operands true produced compares notIn
    cases lower <;> cases upper <;> cases added
    simp only [RangeSpec.Contains, Option.some.injEq, forall_eq', reduceCtorEq, false_imp_iff,
      implies_true,
      and_self, true_and, same]
    simp only [compare3_eq_true]
    -- a value equal to the one operand is neither below nor above it
    constructor
    · rintro ⟨⟨operand, member, present, other, notLt⟩, operand', member', -, -, notGt⟩
      rw [single operand' member' operand member] at notGt
      refine ⟨operand, member, present, other, ?_⟩
      cases order : constraint.comparison semantics ofColumn _ operand <;>
        rw [order] at notLt notGt <;> first | rfl | contradiction
    · rintro ⟨operand, member, present, other, equal⟩
      have equal := beq_iff_eq.mp equal
      exact ⟨⟨operand, member, present, other, by rw [equal]; rfl⟩, operand, member, present, other,
        by rw [equal]; rfl⟩
  case gt | ge =>
    cases lower <;> cases added
    simp only [RangeSpec.Contains, Option.some.injEq, forall_eq', reduceCtorEq, false_imp_iff,
      implies_true,
      true_and, (boundOf_operands _ produced compares notIn).1]
    exact and_comm
  case lt | le =>
    cases upper <;> cases added
    simp only [RangeSpec.Contains, Option.some.injEq, forall_eq', reduceCtorEq, false_imp_iff,
      implies_true,
      and_true, (boundOf_operands _ produced compares notIn).1]
    rfl

theorem addToRangeSpec_compares {spec next : RangeSpec ν}
    (added : addToRangeSpec spec constraint = some next) : constraint.op.compares = true := by
  unfold addToRangeSpec at added
  cases isOp : constraint.op <;> simp only [isOp, reduceCtorEq] at added <;> rfl

/-- The constraints of a branch hold exactly of the values in its range. -/
theorem contains_branchToRangeSpec {range : RangeSpec ν} {attributeId : Nat}
    (isRange : branchToRangeSpec constraints = some range)
    (each : ∀ constraint ∈ constraints, Produced semantics ofColumn env columnIndexMap constraint ∧
      constraint.attributeId = attributeId ∧ orBranchConstraintCollationOk constraint = true) :
    range.Contains semantics env (ofColumn attributeId)
        (env.attributes attributeId) ↔
      ∀ constraint ∈ constraints, constraint.HoldsFor semantics ofColumn env := by
  -- the range so far and the constraints to come are together what all constraints are
  have all := foldlM_invariant (fun rest spec => (∀ constraint ∈ rest, constraint ∈ constraints) ∧
    ((spec.Contains semantics env (ofColumn attributeId)
        (env.attributes attributeId) ∧
      ∀ constraint ∈ rest, constraint.HoldsFor semantics ofColumn env) ↔
    ∀ constraint ∈ constraints, constraint.HoldsFor semantics ofColumn env))
    ?step isRange ⟨fun _ member => member, by simp [RangeSpec.Contains]⟩
  · simpa using all.2
  case step =>
    rintro constraint rest spec next added ⟨inAll, together⟩
    obtain ⟨member, others⟩ := forall_mem_cons.mp inAll
    obtain ⟨produced, rfl, ok⟩ := each constraint member
    refine ⟨others, ?_⟩
    rw [← together, ← produced.gated (addToRangeSpec_compares added) ok,
      contains_addToRangeSpec produced added,
      forall_mem_cons, and_assoc]

variable (distinct : ∀ a b index, columnIndexMap a = some index → columnIndexMap b =
    some index → a = b)

include distinct in
theorem tryCollapseToOrRange_holdsFor {branches : List (List (PredicateConstraint ν))}
    (isCollapsed : tryCollapseToOrRange branches target (.binary type .or left right) =
      some collapsed)
    (isTarget : columnIndexMap target.attributeId = some target.columnIndex)
    (each : ∀ branch ∈ branches, ∀ constraint ∈ branch,
      Produced semantics ofColumn env columnIndexMap constraint ∧
        orBranchConstraintCollationOk constraint = true) :
    collapsed.HoldsFor semantics ofColumn env ↔
      ∃ branch ∈ branches, ∀ constraint ∈ branch, constraint.HoldsFor semantics ofColumn env := by
  unfold tryCollapseToOrRange at isCollapsed
  split at isCollapsed
  · cases isCollapsed
  · next areRanges =>
    obtain ⟨ranges, isRanges, rest⟩ := Option.bind_eq_some_iff.mp isCollapsed
    split at rest
    · cases rest
    · cases rest
      rw [mapM_eq_some_iff] at isRanges
      have onTarget : ∀ branch ∈ branches, ∀ constraint ∈ branch,
          Produced semantics ofColumn env columnIndexMap constraint ∧
            constraint.attributeId = target.attributeId ∧
              orBranchConstraintCollationOk constraint = true := by
        intro branch inBranches constraint inBranch
        obtain ⟨produced, ok⟩ := each branch inBranches constraint inBranch
        have isRange := all_eq_true.mp (not_not.mp areRanges) branch inBranches
        have sameIndex :=
          all_eq_true.mp (Bool.and_eq_true_iff.mp (Bool.and_eq_true_iff.mp isRange).1).2
          constraint inBranch
        exact ⟨produced, distinct _ _ _ (of_decide_eq_true sameIndex ▸ produced.indexed) isTarget,
          ok⟩
      constructor
      · rintro ⟨range, member, contains⟩
        obtain ⟨branch, inBranches, isRange⟩ := exists_of_mem_left isRanges.flip member
        exact ⟨branch, inBranches,
          (contains_branchToRangeSpec isRange (onTarget branch inBranches)).mp contains⟩
      · rintro ⟨branch, inBranches, holds⟩
        obtain ⟨range, member, isRange⟩ := exists_of_mem_left isRanges inBranches
        exact ⟨range, member, (contains_branchToRangeSpec isRange (onTarget branch inBranches)).mpr
          holds⟩

theorem mem_flatten_constraints :
    constraint ∈ (branches.map Extracted.constraints).flatten ↔
      ∃ branch ∈ branches, constraint ∈ branch.constraints := by
  simp

/-- A disjunction collapses if every branch is nothing but constraints, all on the column
of the first one and under its collation. -/
theorem tryExtractOrBranches_eq_some {source : Scalar ν}
    (isCollapsed : tryExtractOrBranches branches source = some collapsed) :
    2 ≤ branches.length ∧
      (∀ branch ∈ branches, branch.residual = [] ∧ branch.constraints ≠ [] ∧
        ∀ constraint ∈ branch.constraints, orBranchConstraintCollationOk constraint = true) ∧
      ∃ first, (∃ branch ∈ branches, first ∈ branch.constraints) ∧
        (((branches.map Extracted.constraints).all (isMemberBranch first) = true ∧
            collapseBranchesToIn (branches.map Extracted.constraints).flatten first source =
              some collapsed) ∨
          tryCollapseToOrRange (branches.map Extracted.constraints) first source =
            some collapsed) := by
  simp only [tryExtractOrBranches] at isCollapsed
  split at isCollapsed
  · cases isCollapsed
  next several =>
  split at isCollapsed
  · cases isCollapsed
  next noResidual =>
  split at isCollapsed
  · cases isCollapsed
  next checked =>
  split at isCollapsed
  · cases isCollapsed
  next first isFirst =>
  refine ⟨not_lt.mp several, fun branch member =>
    ?_, first, mem_flatten_constraints.mp (mem_of_head? isFirst), ?_⟩
  · have complete : ¬ (!branch.residual.isEmpty || branch.constraints.isEmpty) = true :=
      fun incomplete => noResidual (any_eq_true.mpr ⟨branch, member, incomplete⟩)
    have allOk := all_eq_true.mp (not_not.mp checked) _ (mem_map.mpr ⟨branch, member, rfl⟩)
    rw [Bool.or_eq_true, not_or] at complete
    refine ⟨by simpa using complete.1, by simpa using complete.2, all_eq_true.mp allOk⟩
  · rcases Option.or_eq_some_iff.mp isCollapsed with asIn | ⟨-, asRange⟩
    · split at asIn
      · next areMembers => exact Or.inl ⟨areMembers, asIn⟩
      · cases asIn
    · exact Or.inr asRange

variable (isCollapsed : tryExtractOrBranches branches (.binary type .or left right) =
    some collapsed)

include distinct isCollapsed in
/-- A collapsed disjunction holds exactly when one of its branches does. -/
theorem tryExtractOrBranches_holdsFor
    (each : ∀ branch ∈ branches, ∀ constraint ∈ branch.constraints,
      Produced semantics ofColumn env columnIndexMap constraint) :
    collapsed.HoldsFor semantics ofColumn env ↔
      ∃ branch ∈ branches, branch.HoldsFor semantics ofColumn env := by
  obtain ⟨-, checked, first, ⟨branch, member, inBranch⟩, asIn | asRange⟩ :=
    tryExtractOrBranches_eq_some isCollapsed
  all_goals
    have complete : ∀ branch ∈ branches, (branch.HoldsFor semantics ofColumn env ↔
        ∀ constraint ∈ branch.constraints, constraint.HoldsFor semantics ofColumn env) := by
      intro branch member
      unfold Extracted.HoldsFor
      rw [(checked branch member).1]
      simp
  · obtain ⟨areMembers, asIn⟩ := asIn
    have single : ∀ branch ∈ branches, ∃ constraint, branch.constraints = [constraint] ∧
        (constraint.op = .eq ∨ constraint.op = .isIn) ∧ constraint.attributeId =
          first.attributeId := by
      intro branch member
      have isMember := all_eq_true.mp areMembers _ (mem_map.mpr ⟨branch, member, rfl⟩)
      unfold isMemberBranch at isMember
      split at isMember
      · next constraint isOnly =>
        simp only [Bool.and_eq_true, Bool.or_eq_true, decide_eq_true_eq] at isMember
        exact ⟨constraint, isOnly, isMember.1.1, isMember.2⟩
      · cases isMember
    have ready : ∀ constraint ∈ (branches.map Extracted.constraints).flatten,
        Produced semantics ofColumn env columnIndexMap constraint ∧
          (constraint.op = .eq ∨ constraint.op = .isIn) ∧ constraint.attributeId =
            first.attributeId ∧
            orBranchConstraintCollationOk constraint = true := by
      intro constraint inFlat
      obtain ⟨branch, member, inBranch⟩ := mem_flatten_constraints.mp inFlat
      obtain ⟨only, isOnly, isOp, sameColumn⟩ := single branch member
      obtain rfl : constraint = only := mem_singleton.mp (isOnly ▸ inBranch)
      exact ⟨each branch member constraint inBranch, isOp, sameColumn,
        (checked branch member).2.2 constraint inBranch⟩
    rw [collapseBranchesToIn_holdsFor asIn ready]
    constructor
    · rintro ⟨constraint, inFlat, holds⟩
      obtain ⟨branch, member, inBranch⟩ := mem_flatten_constraints.mp inFlat
      obtain ⟨only, isOnly, -⟩ := single branch member
      obtain rfl : constraint = only := mem_singleton.mp (isOnly ▸ inBranch)
      refine ⟨branch, member, (complete branch member).mpr ?_⟩
      rw [isOnly]
      exact forall_mem_singleton.mpr holds
    · rintro ⟨branch, member, holds⟩
      obtain ⟨only, isOnly, -⟩ := single branch member
      have inBranch : only ∈ branch.constraints := isOnly ▸ mem_singleton.mpr rfl
      exact ⟨only, mem_flatten_constraints.mpr ⟨branch, member, inBranch⟩,
        (complete branch member).mp holds only inBranch⟩
  · rw [tryCollapseToOrRange_holdsFor distinct asRange (each branch member first inBranch).indexed]
    · simp only [mem_map, exists_exists_and_eq_and]
      exact exists_congr fun branch => and_congr_right fun member => (complete branch member).symm
    · intro constraints inBranches constraint inConstraints
      obtain ⟨branch, member, rfl⟩ := mem_map.mp inBranches
      exact ⟨each branch member constraint inConstraints,
        (checked branch member).2.2 constraint inConstraints⟩

theorem tryCollapseToOrRange_eq_some {branches : List (List (PredicateConstraint ν))}
    {source : Scalar ν}
    (isCollapsed : tryCollapseToOrRange branches target source = some collapsed) :
    collapsed.op = .orRange ∧ collapsed.value = .scalar none ∧ collapsed.attributeId =
      target.attributeId ∧
      collapsed.columnIndex = target.columnIndex := by
  unfold tryCollapseToOrRange at isCollapsed
  split at isCollapsed
  · cases isCollapsed
  · obtain ⟨ranges, -, rest⟩ := Option.bind_eq_some_iff.mp isCollapsed
    split at rest
    · cases rest
    · cases rest
      exact ⟨rfl, rfl, rfl, rfl⟩

include isCollapsed in
/-- A collapsed disjunction is a constraint like the others. -/
theorem produced_tryExtractOrBranches
    (each : ∀ branch ∈ branches, ∀ constraint ∈ branch.constraints,
      Produced semantics ofColumn env columnIndexMap constraint) :
    Produced semantics ofColumn env columnIndexMap collapsed := by
  obtain ⟨-, -, first, ⟨branch, member, inBranch⟩, ⟨-, asIn⟩ | asRange⟩ :=
    tryExtractOrBranches_eq_some isCollapsed
  all_goals have indexed := (each branch member first inBranch).indexed
  · obtain ⟨members, -, isRecord⟩ := Option.bind_eq_some_iff.mp asIn
    cases isRecord
    refine ⟨indexed, fun _ _ => rfl, fun _ notIn => absurd rfl notIn, fun _ found isFound => ?_⟩
    cases nonLiteral : members.any (·.hasNonLiteral) <;> simp [branchMembers, nonLiteral] at isFound
    cases isFound
    exact ⟨by simp [operands], nofun⟩
  · obtain ⟨isOp, -, sameAttribute, sameIndex⟩ := tryCollapseToOrRange_eq_some asRange
    exact produced_of_not_compares (by rw [sameAttribute, sameIndex]; exact indexed)
      (by rw [isOp]; rfl)

end Collapse

/-- To show something of every predicate, show it of the leaves, of a conjunction by its
two sides and of a disjunction by all its disjuncts. -/
theorem disjunct_induction {motive : Scalar ν → Prop}
    (leaf : ∀ node : Scalar ν, (∀ type left right, node ≠ .binary type .and left right) →
      (∀ type left right, node ≠ .binary type .or left right) → motive node)
    (conjunction : ∀ type left right, motive left → motive right →
      motive (.binary type .and left right))
    (disjunction : ∀ type left right,
      (∀ disjunct ∈ flattenOrDisjuncts (.binary type .or left right), motive disjunct) →
      motive (.binary type .or left right))
    (predicate : Scalar ν) : motive predicate := by
  have conclude : ∀ node : Scalar ν, (∀ disjunct ∈ flattenOrDisjuncts node, motive disjunct) →
      motive node := by
    intro node each
    unfold flattenOrDisjuncts at each
    split at each
    · exact disjunction _ _ _ each
    · exact each node (mem_singleton.mpr rfl)
  refine conclude predicate ?_
  fun_induction leaves predicate with
  | case1 type left right ihLeft ihRight =>
    exact forall_mem_singleton.mpr (conjunction type left right (conclude left ihLeft)
      (conclude right ihRight))
  | case2 type left right ihLeft ihRight =>
    intro disjunct member
    rcases mem_append.mp member with inLeft | inRight
    · exact ihLeft disjunct inLeft
    · exact ihRight disjunct inRight
  | case3 node notAnd notOr =>
    unfold flattenOrDisjuncts
    split
    · next type left right => exact absurd rfl (notOr type left right)
    · exact forall_mem_singleton.mpr (leaf node notAnd notOr)

variable {predicate : Scalar ν}

/-- What a disjunct is made of, the disjunction is made of. -/
theorem leaves_of_mem_flatten {disjunct : Scalar ν}
    (member : disjunct ∈ flattenOrDisjuncts predicate) : disjunct.leaves ⊆ predicate.leaves := by
  fun_induction flattenOrDisjuncts predicate with
  | case1 type left right ihLeft ihRight =>
    rcases mem_append.mp member with inLeft | inRight
    · exact subset_append_of_subset_left _ (ihLeft inLeft)
    · exact subset_append_of_subset_right _ (ihRight inRight)
  | case2 node =>
    rw [mem_singleton.mp member]
    exact Subset.refl _

theorem collapsedLeaves_subset_leaves (predicate : Scalar ν) :
    predicate.collapsedLeaves isNull columnIndexMap ⊆ predicate.leaves := by
  fun_induction collapsedLeaves isNull columnIndexMap predicate with
  | case1 type left right ihLeft ihRight =>
    exact append_subset.mpr
      ⟨subset_append_of_subset_left _ ihLeft, subset_append_of_subset_right _ ihRight⟩
  | case2 => exact Subset.refl _
  | case3 | case4 => exact nil_subset _

theorem isTrue_flattenOrDisjuncts (predicate : Scalar ν) :
    predicate.IsTrue semantics env ↔ ∃ disjunct ∈ flattenOrDisjuncts predicate,
      disjunct.IsTrue semantics env := by
  fun_induction flattenOrDisjuncts predicate with
  | case1 type left right ihLeft ihRight =>
    simp only [isTrue_or, ihLeft, ihRight, mem_append, or_and_right, exists_or]
  | case2 node => simp

theorem isTrue_residualPredicate (residual : List (Scalar ν)) :
    (∀ predicate, residualPredicate residual = some predicate → predicate.IsTrue semantics env) ↔
      ∀ part ∈ residual, part.IsTrue semantics env := by
  cases residual with
  | nil => simp [residualPredicate]
  | cons first rest =>
    simp only [residualPredicate]
    induction rest generalizing first with
    | nil => simp
    | cons next rest ih =>
      rw [foldl_cons, ih, forall_mem_cons, isTrue_and, forall_mem_cons, forall_mem_cons, and_assoc]

section Extraction

theorem extractFromExpression_leaf (isNull : ν → Bool) (columnIndexMap : Nat → Option Nat)
    {node : Scalar ν}
    (notAnd : ∀ type left right, node ≠ .binary type .and left right)
    (notOr : ∀ type left right, node ≠ .binary type .or left right) :
    extractFromExpression isNull columnIndexMap node = extractLeaf isNull columnIndexMap node ∧
      node.leaves = [node] := by
  constructor
  · have single : extractDisjuncts isNull columnIndexMap node =
        [extractLeaf isNull columnIndexMap node] := by
      unfold extractDisjuncts
      split
      · next type left right => exact absurd rfl (notOr type left right)
      · next type left right => exact absurd rfl (notAnd type left right)
      · rfl
    rw [extractDisjuncts_of_not_or notOr] at single
    exact singleton_injective single
  · unfold leaves
    split
    · next type left right => exact absurd rfl (notAnd type left right)
    · next type left right => exact absurd rfl (notOr type left right)
    · rfl

theorem extractedLeaves_leaf {node : Scalar ν}
    (notAnd : ∀ type left right, node ≠ .binary type .and left right)
    (notOr : ∀ type left right, node ≠ .binary type .or left right)
    (isExtracted : (extractLeaf isNull columnIndexMap node).residual = []) :
    node ∈ node.extractedLeaves isNull columnIndexMap := by
  unfold extractedLeaves
  split
  · next type left right => exact absurd rfl (notAnd type left right)
  · next type left right => exact absurd rfl (notOr type left right)
  · rw [if_pos isExtracted]
    exact mem_singleton.mpr rfl

theorem extractedLeaves_subset_leaves (predicate : Scalar ν) :
    predicate.extractedLeaves isNull columnIndexMap ⊆ predicate.leaves := by
  fun_induction extractedLeaves isNull columnIndexMap predicate with
  | case1 type left right ihLeft ihRight =>
    exact append_subset.mpr
      ⟨subset_append_of_subset_left _ ihLeft, subset_append_of_subset_right _ ihRight⟩
  | case2 type left right => exact collapsedLeaves_subset_leaves _
  | case3 node notAnd notOr =>
    rw [(extractFromExpression_leaf isNull columnIndexMap notAnd notOr).2]
    exact Subset.refl _
  | case4 => exact nil_subset _

/-- What is extracted from a predicate inside a disjunction has all its branches need. -/
theorem produced_extractFromExpression (predicate : Scalar ν)
    (reads : ∀ leaf ∈ predicate.leaves,
      ∀ constraint ∈ (extractLeaf isNull columnIndexMap leaf).constraints,
        constraint.ReadsAsColumn semantics ofColumn) :
    ∀ constraint ∈ (extractFromExpression isNull columnIndexMap predicate).constraints,
      Produced semantics ofColumn env columnIndexMap constraint := by
  induction predicate using disjunct_induction with
  | leaf node notAnd notOr =>
    obtain ⟨isLeaf, isSingle⟩ := extractFromExpression_leaf isNull columnIndexMap notAnd notOr
    rw [isLeaf]
    exact produced_extractLeaf (reads node (isSingle ▸ mem_singleton.mpr rfl))
  | conjunction type left right ihLeft ihRight =>
    rw [leaves, forall_mem_append] at reads
    exact forall_mem_append.mpr ⟨ihLeft reads.1, ihRight reads.2⟩
  | disjunction type left right ih =>
    rw [extractFromExpression_or]
    refine forall_constraint_ofConstraint fun constraint isCollapsed =>
      produced_tryExtractOrBranches isCollapsed ?_
    intro branch inBranches
    obtain ⟨disjunct, member, rfl⟩ := mem_map.mp inBranches
    exact ih disjunct member fun leaf inside => reads leaf (leaves_of_mem_flatten member inside)

end Extraction

section Collated

variable {collations : Collations ν} {types : Nat → ScalarType}

/-- Columns compare under the collations of their types. -/
def collatedColumns (collations : Collations ν) (types : Nat → ScalarType) (attributeId : Nat) :
    ν → ν → Ordering :=
  collations.collated (operandCollation (types attributeId))

/-- The operands of a comparison compare under the collation they resolve to, and a
BETWEEN has the collation of its column. -/
def ComparesAsColumn (semantics : ScalarSemantics ν) (collations : Collations ν)
    (types : Nat → ScalarType) : Scalar ν → Prop
  | .binary _ _ left right => ComparesByCollation semantics collations left.getType [right.getType]
  | .between _ _ expr lower upper =>
    ComparesByCollation semantics collations expr.getType [lower.getType] ∧
      ComparesByCollation semantics collations expr.getType [upper.getType] ∧
        ∀ attributeId, columnReference? expr = some attributeId →
          operandCollation expr.getType = operandCollation (types attributeId)
  | .inList _ condition values =>
    ComparesByCollation semantics collations condition.getType (values.map Scalar.getType)
  | _ => True

theorem wellTyped_binary {operator : BinaryOperator} {left right : Scalar ν}
    (wellTyped : (Scalar.binary type operator left right).WellTyped types) :
    left.WellTyped types ∧ right.WellTyped types :=
  forall_mem_append.mp wellTyped

/-- Where values compare by collations, what passes the collation check reads as its column. -/
theorem readsAsColumn_of_comparesAsColumn {leaf : Scalar ν} (wellTyped : leaf.WellTyped types)
    (compares : ComparesAsColumn semantics collations types leaf) :
    ∀ constraint ∈ (extractLeaf isNull columnIndexMap leaf).constraints,
      constraint.ReadsAsColumn semantics (collatedColumns collations types) := by
  unfold extractLeaf
  split
  · split
    · next isExtracted =>
      obtain ⟨rfl, attributeId, low, high, columnIndex, isColumn, -, -, -, rfl⟩ :=
        extractBetweenConstraints_eq_some isExtracted
      obtain ⟨lowerCompares, upperCompares, keeps⟩ := compares
      have sameCollation := keeps attributeId isColumn
      rw [forall_mem_cons, forall_mem_singleton]
      constructor <;> intro _ ok <;>
        simp only [orBranchConstraintCollationOk, sameCollation, Bool.and_eq_true,
          decide_eq_true_eq] at ok
      · exact lowerCompares.comparison ok.1
      · exact upperCompares.comparison ok.2
    · exact forall_mem_nil _
  · refine forall_constraint_ofConstraint fun constraint isExtracted _ ok => ?_
    obtain ⟨columnType, attributeId, columnIndex, rfl, -, -, rfl, -, isSource, -⟩ :=
      extractInConstraint_eq_some isExtracted
    have columnTyped : columnType = types constraint.attributeId :=
      wellTyped (constraint.attributeId, columnType) (by rw [columnTypes, columnTypes]; simp)
    simp only [orBranchConstraintCollationOk, isSource] at ok
    simp only [comparison, isSource]
    rw [collatedColumns, ← columnTyped]
    exact compares _ (of_decide_eq_true ok)
  iterate 2
    · refine forall_constraint_ofConstraint fun constraint isExtracted isComparison => ?_
      obtain ⟨_, _, -, -, rfl⟩ := extractNullConstraint_eq_some isExtracted
      cases isComparison
  · refine forall_constraint_ofConstraint fun constraint isExtracted _ ok => ?_
    obtain ⟨attributeId, op, valueSide, sides, -, isComparison⟩ :=
      extractBinaryConstraint_sides isExtracted
    obtain ⟨original, mapped, -⟩ := sides.mapped
    obtain ⟨leftTyped, rightTyped⟩ := wellTyped_binary wellTyped
    obtain ⟨-, -, isSource, -⟩ := extractComparison_shape isComparison
    rw [comparison_of_binary isSource (ne_or_of_mapOperatorToConstraint mapped)]
    simp only [orBranchConstraintCollationOk, isSource] at ok
    split at ok
    · cases ok
    · next side isSide =>
      rw [getType_of_columnSideOf leftTyped rightTyped isSide] at ok
      exact compares.comparison (of_decide_eq_true ok)
  · exact forall_mem_nil _

end Collated

/-- Texts with NULL, where the pattern `%` matches every text and every other pattern
only itself. -/
def textSemantics : ScalarSemantics (Option String) where
  isNull := Option.isNone
  truth := Option.map (· == "1")
  ofTruth := Option.map fun truth => if truth then "1" else "0"
  truth_ofTruth := by rintro (_ | _ | _) <;> rfl
  comparison := fun _ _ => compare
  convert := fun _ => id
  apply := fun operator value pattern =>
    match operator, value, pattern with
    | .like, some value, some pattern =>
      some (if pattern == "%" || pattern == value then "1" else "0")
    | _, _, _ => none
  applyUnary := fun _ _ => none
  contains := fun _ _ _ => none
  call := fun _ _ => none

def binaryTexts : Collations (Option String) where
  collated := fun _ => compare
  lawful := fun _ => inferInstance
  eq_of_binary := fun _ _ _ => id

def textType : ScalarType :=
  ⟨none, .default, "TEXT"⟩

/-- `(x = 'b' OR x = 'a') AND x LIKE '%'` -/
def matchingChoice : Scalar (Option String) :=
  .binary truthType .and
    (.binary truthType .or
      (.binary truthType .eq (.column textType 0) (.literal textType (some "b")))
      (.binary truthType .eq (.literal textType (some "a")) (.column textType 0)))
    (.binary truthType .like (.column textType 0) (.literal textType (some "%")))

theorem matchingChoice_reads (leaf : Scalar (Option String))
    (inside : leaf ∈ matchingChoice.leaves) :
    ∀ constraint ∈ (extractLeaf textSemantics.isNull some leaf).constraints,
      constraint.ReadsAsColumn textSemantics (collatedColumns binaryTexts fun _ => textType) := by
  simp only [matchingChoice, leaves, cons_append, nil_append, mem_cons, not_mem_nil, or_false]
    at inside
  rcases inside with rfl | rfl | rfl <;>
    refine readsAsColumn_of_comparesAsColumn ?_ ?_ <;>
    simp [Scalar.WellTyped, columnTypes, ComparesAsColumn, ComparesByCollation, textSemantics,
      binaryTexts]

end Quereus.Planner
