import Quereus.Planner.ConstraintExactness
import Quereus.Planner.Uniqueness

/-! # Keys covered by equality constraints

A key is covered if its columns are in the closure of the columns that a predicate
compares for equality with a value that is the same for every row. At most one row
then makes the predicate true. The list of an IN with one element counts as such a value
although the element may be a column of the same table; a key that is covered without
counting such constraints still has at most one row.
-/

namespace Quereus.Planner

open List Scalar

variable {ν : Type}

/-- A comparison pins its column only if it tells apart what the key tells apart. -/
def equalityConstraintCollationOk (constraint : PredicateConstraint ν) : Bool :=
  match constraint.sourceExpression with
  | .binary _ _ left right =>
    match effectiveComparisonCollation left.getType right.getType with
    | none => false
    | some effective =>
      match columnSideOf left right constraint.attributeId with
      | none => effective = "BINARY"
      | some side => collationRefines effective (operandCollation side.getType)
  | _ => true

def inConstraintCollationOk (constraint : PredicateConstraint ν) : Bool :=
  match constraint.sourceExpression with
  | .inList _ condition values =>
    match resolveInCollation condition.getType (values.map Scalar.getType) with
    | none => false
    | some effective => collationRefines effective (operandCollation condition.getType)
  | _ => true

/-- The constraint counts as an equality of its column. -/
def isCoveringEquality (constraint : PredicateConstraint ν) : Bool :=
  !constraint.correlated &&
    match constraint.op, constraint.value with
    | .eq, _ => equalityConstraintCollationOk constraint
    | .isIn, .list [_] => inConstraintCollationOk constraint
    | _, _ => false

/-- The dependencies with one for each two members of an equivalence class. -/
def expandEcsToFds (ecs : List (List Nat)) (fds : List (FunctionalDependency ν)) :
    List (FunctionalDependency ν) :=
  fds ++ ecs.flatMap fun cls =>
    if cls.length < 2 then []
    else cls.zipIdx.flatMap fun (first, i) => cls.zipIdx.filterMap fun (second, j) =>
      if i = j then none else some ⟨[first], [second], none, .determination⟩

def computeCoveredKeysForConstraints (constraints : List (PredicateConstraint ν))
    (tableUniqueKeys : List (List Nat))
    (fds : List (FunctionalDependency ν)) (equivClasses : List (List Nat)) : List (List Nat) :=
  let eqCols := ((constraints.filter isCoveringEquality).map (·.columnIndex)).toFinset
  let allFds := if fds.isEmpty && equivClasses.isEmpty then [] else expandEcsToFds equivClasses fds
  let closure := if allFds.isEmpty then eqCols else computeClosure eqCols allFds
  tableUniqueKeys.filter fun key => key.all (· ∈ closure)

/-- The keys of a table that a predicate covers. Without a constraint on the table there
are none. -/
def coveredKeysOf (isNull : ν → Bool) (columnIndexMap : Nat → Option Nat) (predicate : Scalar ν)
    (candidateKeys : List (List Nat)) (fds : List (FunctionalDependency ν))
    (equivClasses : List (List Nat)) :
    List (List Nat) :=
  let constraints := (extractFromExpression isNull columnIndexMap predicate).constraints
  if constraints.isEmpty then [] else computeCoveredKeysForConstraints constraints candidateKeys fds
    equivClasses

/-- The attributes of the table are those of the row, all others are fixed. -/
def rowEnvironment (columnIndexMap : Nat → Option Nat) (surroundings : Environment ν)
    (row : Nat → ν) :
    Environment ν where
  attributes := fun attributeId =>
    match columnIndexMap attributeId with
    | some index => row index
    | none => surroundings.attributes attributeId
  parameters := surroundings.parameters

section Facts

variable (collations : Collations ν) (declared : Nat → String)

/-- Two rows have the same values in some columns, under the declared collation of each. -/
def AgreeOn (columns : List Nat) (first second : Nat → ν) : Prop :=
  ∀ column ∈ columns, collations.collated (declared column) (first column) (second column) = .eq

/-- The keys of a table are unique, and its dependencies and classes hold. A guarded
dependency does not take part. -/
structure TableFacts (rows : List (Nat → ν)) (keys : List (List Nat))
    (fds : List (FunctionalDependency ν))
    (equivClasses : List (List Nat)) : Prop where
  unique : ∀ key ∈ keys, rows.Pairwise fun first second =>
    ¬ AgreeOn collations declared key first second
  determined : ∀ fd ∈ fds, fd.guard.isNone → ∀ first ∈ rows, ∀ second ∈ rows,
    AgreeOn collations declared fd.determinants first second →
      AgreeOn collations declared fd.dependents first second
  equivalent : ∀ cls ∈ equivClasses, ∀ a ∈ cls, ∀ b ∈ cls, ∀ first ∈ rows, ∀ second ∈ rows,
    AgreeOn collations declared [a] first second → AgreeOn collations declared [b] first second

end Facts

variable {collations : Collations ν} {declared : Nat → String} {rows : List (Nat → ν)}
  {keys equivClasses : List (List Nat)} {fds : List (FunctionalDependency ν)}

section Closure

theorem mem_expandEcsToFds {fd : FunctionalDependency ν}
    (member : fd ∈ expandEcsToFds equivClasses fds) :
    fd ∈ fds ∨ ∃ cls ∈ equivClasses, ∃ a ∈ cls, ∃ b ∈ cls,
      fd = ⟨[a], [b], none, .determination⟩ := by
  rcases mem_append.mp member with given | expanded
  · exact Or.inl given
  · obtain ⟨cls, inClasses, inPairs⟩ := mem_flatMap.mp expanded
    split at inPairs
    · cases inPairs
    · obtain ⟨⟨a, i⟩, isFirst, inRow⟩ := mem_flatMap.mp inPairs
      obtain ⟨⟨b, j⟩, isSecond, isPair⟩ := mem_filterMap.mp inRow
      simp only at isPair
      split at isPair
      · cases isPair
      · cases isPair
        exact Or.inr ⟨cls, inClasses, a, fst_mem_of_mem_zipIdx isFirst, b,
          fst_mem_of_mem_zipIdx isSecond, rfl⟩

/-- Rows that agree on the pinned columns agree on every covered key. -/
theorem agreeOn_of_covered (facts : TableFacts collations declared rows keys fds equivClasses)
    {constraints : List (PredicateConstraint ν)} {key : List Nat}
    (covered : key ∈ computeCoveredKeysForConstraints constraints keys fds equivClasses)
    {first second : Nat → ν} (inFirst : first ∈ rows) (inSecond : second ∈ rows)
    (pinned : ∀ constraint ∈ constraints, isCoveringEquality constraint = true →
      AgreeOn collations declared [constraint.columnIndex] first second) :
    key ∈ keys ∧ AgreeOn collations declared key first second := by
  obtain ⟨isKey, inClosure⟩ := mem_filter.mp covered
  refine ⟨isKey, fun column member => ?_⟩
  have start : ∀ column ∈ ((constraints.filter isCoveringEquality).map (·.columnIndex)).toFinset,
      collations.collated (declared column) (first column) (second column) = .eq := by
    intro column inside
    obtain ⟨constraint, inConstraints, rfl⟩ := mem_map.mp (mem_toFinset.mp inside)
    obtain ⟨isConstraint, isCovering⟩ := mem_filter.mp inConstraints
    exact pinned constraint isConstraint isCovering _ (mem_singleton.mpr rfl)
  have inClosure := of_decide_eq_true (all_eq_true.mp inClosure column member)
  generalize isAll :
    (if fds.isEmpty && equivClasses.isEmpty then [] else expandEcsToFds equivClasses fds) = allFds
    at inClosure
  split at inClosure
  · exact start column inClosure
  · refine forall_mem_computeClosure (fun fd inFds unguarded agree => ?_) start column inClosure
    rw [← isAll] at inFds
    split at inFds
    · cases inFds
    · rcases mem_expandEcsToFds inFds with given | ⟨cls, inClasses, a, inClass, b, inClass', rfl⟩
      · exact facts.determined fd given unguarded first inFirst second inSecond agree
      · exact facts.equivalent cls inClasses a inClass b inClass' first inFirst second
          inSecond agree

end Closure

variable {semantics : ScalarSemantics ν} {columnIndexMap : Nat → Option Nat} {isNull : ν → Bool}

section Values

/-- The value of a node does not depend on the row. -/
def RowIndependent (semantics : ScalarSemantics ν) (columnIndexMap : Nat → Option Nat)
    (node : Scalar ν) : Prop :=
  ∀ surroundings first second, node.eval semantics
    (rowEnvironment columnIndexMap surroundings first) =
    node.eval semantics (rowEnvironment columnIndexMap surroundings second)

variable {node : Scalar ν}

theorem rowIndependent_of_literal {value : ν} (isLiteral : literalOf node = some value) :
    RowIndependent semantics columnIndexMap node :=
  fun _ _ _ => (eval_of_literalOf isLiteral).trans (eval_of_literalOf isLiteral).symm

theorem rowIndependent_of_unwrapped
    (unwrapped : RowIndependent semantics columnIndexMap (unwrapCastForBindingKind node)) :
    RowIndependent semantics columnIndexMap node := by
  fun_induction unwrapCastForBindingKind node with
  | case1 type noOp operand ih =>
    intro surroundings first second
    rw [eval, eval, ih unwrapped surroundings first second]
  | case2 node => exact unwrapped

theorem attributeIds_unwrapCastForBindingKind (node : Scalar ν) :
    (unwrapCastForBindingKind node).attributeIds = node.attributeIds := by
  fun_induction unwrapCastForBindingKind node with
  | case1 type noOp operand ih => rw [ih, attributeIds]
  | case2 node => rfl

/-- A usable value is the same for every row unless it is a column of the table. -/
theorem rowIndependent_of_usable (usable : isUsableValue node = true)
    (foreign : ∀ type attributeId, unwrapCastForBindingKind node = .column type attributeId →
      columnIndexMap attributeId = none) : RowIndependent semantics columnIndexMap node := by
  rcases Bool.or_eq_true_iff.mp usable with isLiteral | isDynamic
  · obtain ⟨value, isLiteral⟩ := Option.isSome_iff_exists.mp isLiteral
    exact rowIndependent_of_literal isLiteral
  · unfold isDynamicValue at isDynamic
    split at isDynamic
    · next type ref unwrapped =>
      refine rowIndependent_of_unwrapped fun surroundings first second => ?_
      rw [unwrapped, eval]
      rfl
    · next type attributeId unwrapped =>
      refine rowIndependent_of_unwrapped fun surroundings first second => ?_
      rw [unwrapped, eval, eval]
      simp only [rowEnvironment, foreign type attributeId unwrapped]
    · cases isDynamic

/-- The value of an equality with a binding is no column of the table. -/
theorem rowIndependent_of_extractComparison {source valueSide : Scalar ν} {attributeId : Nat}
    {op : ConstraintOp}
    {constraint : PredicateConstraint ν} (usable : isUsableValue valueSide = true)
    (extracted : extractComparison isNull columnIndexMap source attributeId op valueSide =
      some constraint) :
    RowIndependent semantics columnIndexMap valueSide := by
  unfold extractComparison at extracted
  split at extracted
  · next constant isLiteral => exact rowIndependent_of_literal isLiteral
  · obtain ⟨columnIndex, -, bound⟩ := Option.bind_eq_some_iff.mp extracted
    obtain ⟨bindingKind, isKind, -⟩ := Option.bind_eq_some_iff.mp bound
    refine rowIndependent_of_usable usable fun type reference unwrapped => ?_
    simp only [bindingKindOf, unwrapped] at isKind
    split at isKind
    · cases isKind
    · next outside => simpa using outside

end Values

variable {types : Nat → ScalarType} {surroundings : Environment ν}
  {constraint : PredicateConstraint ν}

section Pins

variable {first second : Nat → ν}

theorem rowEnvironment_attributes {attributeId index : Nat}
    (isIndex : columnIndexMap attributeId = some index)
    (row : Nat → ν) : (rowEnvironment columnIndexMap surroundings row).attributes attributeId =
      row index := by
  simp only [rowEnvironment, isIndex]

/-- Values equal to the same value under a collation are equal under a coarser one. -/
theorem collated_eq_of_common {effective name : String}
    (refines : collationRefines effective name = true)
    {a b common : ν}
    (left : compare3 semantics (· == .eq) (collations.collated effective) a common = some true)
    (right : compare3 semantics (· == .eq) (collations.collated effective) b common = some true) :
    collations.collated name a b = .eq := by
  have leftEq := beq_iff_eq.mp (compare3_eq_true.mp left).2.2
  have rightEq := beq_iff_eq.mp (compare3_eq_true.mp right).2.2
  have same := Std.TransCmp.eq_trans leftEq (Std.OrientedCmp.eq_symm rightEq)
  rcases Bool.or_eq_true_iff.mp refines with binary | equal
  · rw [of_decide_eq_true binary] at same
    exact collations.eq_of_binary name a b same
  · rwa [← of_decide_eq_true equal]

variable (oriented : ∀ condition values, Std.OrientedCmp (semantics.comparison condition values))
  (declares : ∀ attributeId index, columnIndexMap attributeId = some index →
    operandCollation (types attributeId) = declared index)

include oriented declares

variable {type : ScalarType}

/-- Rows that make an equality true have the same value in its column. -/
theorem agreeOn_of_equality {operator : BinaryOperator} {left right : Scalar ν}
    (wellTyped : (Scalar.binary type operator left right).WellTyped types)
    (compares : ComparesByCollation semantics collations left.getType [right.getType])
    (extracted : extractBinaryConstraint isNull columnIndexMap (.binary type operator left right)
      operator left right =
      some constraint) (isOp : constraint.op = .eq)
    (ok : equalityConstraintCollationOk constraint = true)
    (firstTrue : Scalar.IsTrue semantics (rowEnvironment columnIndexMap surroundings first)
      (.binary type operator left right))
    (secondTrue : Scalar.IsTrue semantics (rowEnvironment columnIndexMap surroundings second)
      (.binary type operator left right)) :
    AgreeOn collations declared [constraint.columnIndex] first second := by
  obtain ⟨attributeId, op, valueSide, sides, usable, isComparison⟩ :=
    extractBinaryConstraint_sides extracted
  have spec : ComparisonConstraint semantics (rowEnvironment columnIndexMap surroundings first)
    columnIndexMap _
      attributeId op valueSide constraint := extractComparison_spec isComparison
  obtain rfl : op = .eq := spec.isOp.symm.trans isOp
  obtain ⟨leftTyped, rightTyped⟩ := wellTyped_binary wellTyped
  rw [sides.isTrue_iff oriented rfl, rowEnvironment_attributes spec.indexed] at firstTrue secondTrue
  rw [rowIndependent_of_extractComparison usable isComparison surroundings second first]
    at secondTrue
  simp only [equalityConstraintCollationOk, spec.isSource, spec.isAttribute] at ok
  split at ok
  · cases ok
  · next effective isEffective =>
    rw [compares.comparison isEffective] at firstTrue secondTrue
    refine forall_mem_singleton.mpr (collated_eq_of_common ?_ firstTrue secondTrue)
    split at ok
    · exact Bool.or_eq_true_iff.mpr (Or.inl ok)
    · next side isSide =>
      rw [getType_of_columnSideOf leftTyped rightTyped isSide, declares attributeId _ spec.indexed]
        at ok
      exact ok

omit oriented in
/-- Rows that make an IN with one element true have the same value in its column, if the
element is no column of the table. -/
theorem agreeOn_of_singleton {condition value : Scalar ν}
    (wellTyped : (Scalar.inList type condition [value]).WellTyped types)
    (compares : ComparesByCollation semantics collations condition.getType [value.getType])
    (extracted : extractInConstraint columnIndexMap (.inList type condition [value])
      condition [value] =
      some constraint)
    (foreign : ∀ attributeId ∈ value.attributeIds, columnIndexMap attributeId = none)
    (ok : inConstraintCollationOk constraint = true)
    (firstTrue : Scalar.IsTrue semantics (rowEnvironment columnIndexMap surroundings first)
      (.inList type condition [value]))
    (secondTrue : Scalar.IsTrue semantics (rowEnvironment columnIndexMap surroundings second)
      (.inList type condition [value])) :
    AgreeOn collations declared [constraint.columnIndex] first second := by
  obtain ⟨columnType, attributeId, columnIndex, rfl, isIndex, rfl, rfl, -, isSource, -, -,
      -, usable⟩ :=
    extractInConstraint_eq_some extracted
  have columnTyped : columnType = types constraint.attributeId :=
    wellTyped (constraint.attributeId, columnType) (by rw [columnTypes, columnTypes]; simp)
  have independent : RowIndependent semantics columnIndexMap value := by
    refine rowIndependent_of_usable (usable value (mem_singleton.mpr rfl)) fun type reference
      unwrapped => ?_
    refine foreign reference ?_
    rw [← attributeIds_unwrapCastForBindingKind, unwrapped]
    exact mem_singleton.mpr rfl
  simp only [isTrue_inList, mem_singleton, exists_eq_left, map_cons, map_nil]
    at firstTrue secondTrue
  rw [eval, rowEnvironment_attributes isIndex] at firstTrue secondTrue
  rw [independent surroundings second first] at secondTrue
  simp only [inConstraintCollationOk, isSource] at ok
  split at ok
  · cases ok
  · next effective isEffective =>
    rw [compares effective isEffective] at firstTrue secondTrue
    refine forall_mem_singleton.mpr (collated_eq_of_common ?_ firstTrue secondTrue)
    rw [← declares _ _ isIndex, ← columnTyped]
    exact ok

end Pins

/-- The parts of a predicate under its conjunctions. -/
def Scalar.conjuncts : Scalar ν → List (Scalar ν)
  | .binary _ .and left right => left.conjuncts ++ right.conjuncts
  | node => [node]

/-- An IN with one element that refers to a column of the table. -/
def isSelfReferencingIn (columnIndexMap : Nat → Option Nat) : Scalar ν → Bool
  | .inList _ _ [value] =>
    value.attributeIds.any fun attributeId => (columnIndexMap attributeId).isSome
  | _ => false

section Sources

variable {source : Scalar ν}

/-- The list of a constraint has an element. -/
def NonemptyList (constraint : PredicateConstraint ν) : Prop :=
  ∀ values, constraint.value = .list values → values ≠ []

theorem nonemptyList_of_scalar {value : Option ν} (isValue : constraint.value = .scalar value) :
    NonemptyList constraint := by
  intro values isList
  rw [isValue] at isList
  cases isList

/-- The constraints of a leaf come from it, and their lists have elements. -/
theorem extractLeaf_source (leaf : Scalar ν) :
    ∀ constraint ∈ (extractLeaf isNull columnIndexMap leaf).constraints,
      NonemptyList constraint ∧ constraint.sourceExpression = leaf := by
  unfold extractLeaf
  split
  · split
    · next isExtracted =>
      obtain ⟨-, _, _, _, _, -, -, -, -, rfl⟩ := extractBetweenConstraints_eq_some isExtracted
      rw [forall_mem_cons, forall_mem_singleton]
      exact ⟨⟨nonemptyList_of_scalar rfl, rfl⟩, nonemptyList_of_scalar rfl, rfl⟩
    · exact forall_mem_nil _
  · refine forall_constraint_ofConstraint fun constraint isExtracted => ?_
    obtain ⟨_, _, _, -, -, -, -, -, isSource, isValue, -, nonempty, -⟩ :=
      extractInConstraint_eq_some isExtracted
    refine ⟨fun values isList => ?_, isSource⟩
    rw [isValue] at isList
    cases isList
    exact fun isNil => nonempty (map_eq_nil_iff.mp isNil)
  iterate 2
    · refine forall_constraint_ofConstraint fun constraint isExtracted => ?_
      obtain ⟨_, _, -, -, rfl⟩ := extractNullConstraint_eq_some isExtracted
      exact ⟨nonemptyList_of_scalar rfl, rfl⟩
  · refine forall_constraint_ofConstraint fun constraint isExtracted => ?_
    obtain ⟨_, _, _, -, -, isComparison⟩ := extractBinaryConstraint_sides isExtracted
    obtain ⟨-, -, isSource, value, isValue⟩ := extractComparison_shape isComparison
    exact ⟨nonemptyList_of_scalar isValue, isSource⟩
  · exact forall_mem_nil _

theorem branchMembers_values_ne_nil {members : Members ν} (nonempty : NonemptyList constraint)
    (isMembers : branchMembers constraint = some members) : members.values ≠ [] := by
  unfold branchMembers at isMembers
  split at isMembers
  · next values isOp isValue =>
    split at isMembers
    · cases isMembers
      exact nonempty values isValue
    · split at isMembers
      · split at isMembers
        · cases isMembers
          exact nonempty values isValue
        · cases isMembers
      · cases isMembers
  · split at isMembers
    · cases isMembers
      exact cons_ne_nil _ _
    · split at isMembers
      · obtain ⟨expr, -, rfl⟩ := Option.map_eq_some_iff.mp isMembers
        exact cons_ne_nil _ _
      · cases isMembers
  · cases isMembers

variable {collapsed : PredicateConstraint ν} (predicate : Scalar ν)

theorem collapseBranchesToIn_length {branches : List (PredicateConstraint ν)}
    {template : PredicateConstraint ν}
    (isCollapsed : collapseBranchesToIn branches template source = some collapsed)
    (each : ∀ branch ∈ branches, NonemptyList branch) :
    ∃ values, collapsed.value = .list values ∧ branches.length ≤ values.length := by
  obtain ⟨members, areMembers, isRecord⟩ := Option.bind_eq_some_iff.mp isCollapsed
  cases isRecord
  refine ⟨_, rfl, ?_⟩
  rw [Fallible.mapM_eq_some_iff] at areMembers
  have sameLength : branches.length = (members.map fun found => found.values.length).length := by
    rw [length_map, areMembers.length_eq]
  rw [sameLength, length_flatMap]
  refine length_le_sum_of_one_le _ fun length isLength => ?_
  obtain ⟨found, inMembers, rfl⟩ := mem_map.mp isLength
  obtain ⟨branch, inBranches, isFound⟩ := Fallible.exists_of_mem_left areMembers.flip inMembers
  exact length_pos_iff.mpr (branchMembers_values_ne_nil (each branch inBranches) isFound)

/-- A collapsed disjunction is a list of ranges or a list of two values at least. -/
theorem tryExtractOrBranches_shape {branches : List (Extracted ν)}
    (isCollapsed : tryExtractOrBranches branches source = some collapsed)
    (each : ∀ branch ∈ branches, ∀ constraint ∈ branch.constraints, NonemptyList constraint) :
    (collapsed.op = .orRange ∧ collapsed.value = .scalar none) ∨
      (collapsed.op = .isIn ∧ ∃ values, collapsed.value = .list values ∧ 2 ≤ values.length) := by
  obtain ⟨several, checked, first, -, ⟨areMembers, asIn⟩ | asRange⟩ :=
    tryExtractOrBranches_eq_some isCollapsed
  · have isOp : collapsed.op = .isIn := by
      obtain ⟨members, -, isRecord⟩ := Option.bind_eq_some_iff.mp asIn
      cases isRecord
      rfl
    obtain ⟨values, isValue, length⟩ := collapseBranchesToIn_length asIn fun constraint inFlat => by
      obtain ⟨branch, member, inBranch⟩ := mem_flatten_constraints.mp inFlat
      exact each branch member constraint inBranch
    refine Or.inr ⟨isOp, values, isValue, several.trans (le_trans ?_ length)⟩
    have sameLength :
        branches.length = (branches.map (List.length ∘ Extracted.constraints)).length :=
      (length_map _).symm
    rw [length_flatten, map_map, sameLength]
    refine length_le_sum_of_one_le _ fun length isLength => ?_
    obtain ⟨branch, member, rfl⟩ := mem_map.mp isLength
    exact length_pos_iff.mpr (checked branch member).2.1
  · obtain ⟨isOp, isValue, -⟩ := tryCollapseToOrRange_eq_some asRange
    exact Or.inl ⟨isOp, isValue⟩

theorem nonemptyList_extractFromExpression :
    ∀ constraint ∈ (extractFromExpression isNull columnIndexMap predicate).constraints,
      NonemptyList constraint := by
  induction predicate using disjunct_induction with
  | leaf node notAnd notOr =>
    rw [(extractFromExpression_leaf isNull columnIndexMap notAnd notOr).1]
    exact fun constraint has => (extractLeaf_source node constraint has).1
  | conjunction type left right ihLeft ihRight =>
    exact forall_mem_append.mpr ⟨ihLeft, ihRight⟩
  | disjunction type left right ih =>
    rw [extractFromExpression_or]
    refine forall_constraint_ofConstraint fun constraint isCollapsed => ?_
    have each : ∀ branch ∈ (flattenOrDisjuncts (.binary type .or left right)).map
        (extractFromExpression isNull columnIndexMap), ∀ constraint ∈ branch.constraints,
          NonemptyList constraint := by
      intro branch inBranches
      obtain ⟨disjunct, member, rfl⟩ := mem_map.mp inBranches
      exact ih disjunct member
    rcases tryExtractOrBranches_shape isCollapsed each with
      ⟨-, isValue⟩ | ⟨-, values, isValue, length⟩
    · exact nonemptyList_of_scalar isValue
    · intro found isFound
      rw [isValue] at isFound
      cases isFound
      exact length_pos_iff.mp (Nat.lt_of_lt_of_le Nat.zero_lt_two length)

/-- A constraint is that of a conjunct, unless it is collapsed from a disjunction. -/
theorem constraint_cases :
    ∀ constraint ∈ (extractFromExpression isNull columnIndexMap predicate).constraints,
      (∃ conjunct ∈ predicate.conjuncts, constraint ∈
        (extractLeaf isNull columnIndexMap conjunct).constraints) ∨
        constraint.op = .orRange ∨
        (constraint.op = .isIn ∧ ∃ values, constraint.value = .list values ∧
          2 ≤ values.length) := by
  fun_induction conjuncts predicate with
  | case1 type left right ihLeft ihRight =>
    intro constraint member
    rcases mem_append.mp member with inLeft | inRight
    · exact (ihLeft constraint inLeft).imp_left fun ⟨conjunct, inside, has⟩ =>
        ⟨conjunct, mem_append_left _ inside, has⟩
    · exact (ihRight constraint inRight).imp_left fun ⟨conjunct, inside, has⟩ =>
        ⟨conjunct, mem_append_right _ inside, has⟩
  | case2 node notAnd =>
    by_cases isOr : ∃ type left right, node = .binary type .or left right
    · obtain ⟨type, left, right, rfl⟩ := isOr
      rw [extractFromExpression_or]
      refine forall_constraint_ofConstraint fun constraint isCollapsed => Or.inr ?_
      refine (tryExtractOrBranches_shape isCollapsed ?_).imp_left And.left
      intro branch inBranches
      obtain ⟨disjunct, -, rfl⟩ := mem_map.mp inBranches
      exact nonemptyList_extractFromExpression disjunct
    · intro constraint member
      rw [(extractFromExpression_leaf isNull columnIndexMap notAnd
        fun type left right isOr' => isOr ⟨type, left, right, isOr'⟩).1] at member
      exact Or.inl ⟨node, mem_singleton.mpr rfl, member⟩

end Sources

section Rows

variable {predicate : Scalar ν}

theorem isTrue_conjuncts {env : Environment ν} (isTrue : predicate.IsTrue semantics env) :
    ∀ conjunct ∈ predicate.conjuncts, conjunct.IsTrue semantics env := by
  fun_induction conjuncts predicate with
  | case1 type left right ihLeft ihRight =>
    obtain ⟨leftTrue, rightTrue⟩ := isTrue_and.mp isTrue
    exact forall_mem_append.mpr ⟨ihLeft leftTrue, ihRight rightTrue⟩
  | case2 node => exact forall_mem_singleton.mpr isTrue

theorem wellTyped_conjuncts (wellTyped : predicate.WellTyped types) :
    ∀ conjunct ∈ predicate.conjuncts, conjunct.WellTyped types := by
  fun_induction conjuncts predicate with
  | case1 type left right ihLeft ihRight =>
    obtain ⟨leftTyped, rightTyped⟩ := wellTyped_binary wellTyped
    exact forall_mem_append.mpr ⟨ihLeft leftTyped, ihRight rightTyped⟩
  | case2 node => exact forall_mem_singleton.mpr wellTyped

/-- The equalities of a predicate compare under the collation their operands resolve to. -/
def ComparesEqualities (semantics : ScalarSemantics ν) (collations : Collations ν) : Scalar ν → Prop
  | .binary _ .eq left right =>
    ComparesByCollation semantics collations left.getType [right.getType]
  | .inList _ condition values =>
    ComparesByCollation semantics collations condition.getType (values.map Scalar.getType)
  | _ => True

/-- A constraint that compares its column under a collation, and with no column of the table. -/
def Pins (semantics : ScalarSemantics ν) (collations : Collations ν)
    (columnIndexMap : Nat → Option Nat) (constraint : PredicateConstraint ν) : Prop :=
  isSelfReferencingIn columnIndexMap constraint.sourceExpression = false ∧
    ComparesEqualities semantics collations constraint.sourceExpression

variable (oriented : ∀ condition values, Std.OrientedCmp (semantics.comparison condition values))
  (declares : ∀ attributeId index, columnIndexMap attributeId = some index →
    operandCollation (types attributeId) = declared index)

include oriented declares

variable {first second : Nat → ν}

theorem agreeOn_of_leaf {leaf : Scalar ν} (wellTyped : leaf.WellTyped types)
    (compares : ComparesEqualities semantics collations leaf)
    (foreign : isSelfReferencingIn columnIndexMap leaf = false)
    (firstTrue : leaf.IsTrue semantics (rowEnvironment columnIndexMap surroundings first))
    (secondTrue : leaf.IsTrue semantics (rowEnvironment columnIndexMap surroundings second)) :
    ∀ constraint ∈ (extractLeaf semantics.isNull columnIndexMap leaf).constraints,
      isCoveringEquality constraint = true → AgreeOn collations declared [constraint.columnIndex]
        first second := by
  unfold extractLeaf
  split
  · split
    · next isExtracted =>
      obtain ⟨-, _, _, _, _, -, -, -, -, rfl⟩ := extractBetweenConstraints_eq_some isExtracted
      rw [forall_mem_cons, forall_mem_singleton]
      exact ⟨nofun, nofun⟩
    · exact forall_mem_nil _
  · next type condition values =>
    refine forall_constraint_ofConstraint fun constraint isExtracted covering => ?_
    obtain ⟨_, _, _, -, -, -, -, isOp, -, isValue, -, nonempty, -⟩ :=
      extractInConstraint_eq_some isExtracted
    have ok := (Bool.and_eq_true_iff.mp covering).2
    rw [isOp, isValue] at ok
    rcases values with _ | ⟨value, _ | ⟨other, rest⟩⟩
    · exact absurd rfl nonempty
    · refine agreeOn_of_singleton declares wellTyped compares isExtracted
        (fun reference member => ?_) ok firstTrue
        secondTrue
      simpa using any_eq_false.mp foreign reference member
    · cases ok
  iterate 2
    · refine forall_constraint_ofConstraint fun constraint isExtracted covering => ?_
      obtain ⟨_, _, -, -, rfl⟩ := extractNullConstraint_eq_some isExtracted
      cases covering
  · next type operator left right =>
    refine forall_constraint_ofConstraint fun constraint isExtracted covering => ?_
    obtain ⟨attributeId, op, valueSide, sides, -, isComparison⟩ :=
      extractBinaryConstraint_sides isExtracted
    obtain ⟨-, isOp, -, value, isValue⟩ := extractComparison_shape isComparison
    have ok := (Bool.and_eq_true_iff.mp covering).2
    rw [isOp] at ok
    obtain ⟨original, mapped, related⟩ := sides.mapped
    cases operator <;> cases mapped <;> rcases related with rfl | rfl <;>
      simp [flipOperator] at ok <;>
      exact agreeOn_of_equality oriented declares wellTyped compares isExtracted isOp ok
        firstTrue secondTrue
  · exact forall_mem_nil _

/-- Rows that make a predicate true agree on every column that one of its constraints pins. -/
theorem agreeOn_of_isCoveringEquality (wellTyped : predicate.WellTyped types)
    (firstTrue : predicate.IsTrue semantics (rowEnvironment columnIndexMap surroundings first))
    (secondTrue : predicate.IsTrue semantics (rowEnvironment columnIndexMap surroundings second))
    (member : constraint ∈
      (extractFromExpression semantics.isNull columnIndexMap predicate).constraints)
    (pins : Pins semantics collations columnIndexMap constraint)
    (covering : isCoveringEquality constraint = true) :
    AgreeOn collations declared [constraint.columnIndex] first second := by
  rcases constraint_cases predicate constraint member with
    ⟨conjunct, inside, has⟩ | isOp | ⟨isOp, values, isValue, length⟩
  · rw [Pins, (extractLeaf_source conjunct constraint has).2] at pins
    exact agreeOn_of_leaf oriented declares (wellTyped_conjuncts wellTyped conjunct inside) pins.2
      pins.1 (isTrue_conjuncts firstTrue conjunct inside)
      (isTrue_conjuncts secondTrue conjunct inside) constraint has covering
  all_goals have shape := (Bool.and_eq_true_iff.mp covering).2
  · rw [isOp] at shape
    cases shape
  · -- a collapsed list has two values at least
    rw [isOp, isValue] at shape
    rcases values with _ | ⟨a, _ | ⟨b, rest⟩⟩ <;> simp at length shape

end Rows

def numberCollations : Collations (Option Nat) where
  collated := fun _ => compareNumbers?
  lawful := fun _ => inferInstance
  eq_of_binary := fun _ _ _ => id

/-- The rows of a table of two columns. -/
def pairRow (first second : Nat) (column : Nat) : Option Nat :=
  if column = 0 then some first else some second

theorem tableFacts_pairRow : TableFacts numberCollations (fun _ => "BINARY")
    [pairRow 1 1, pairRow 2 2] [[0]] [] [] where
  unique := by
    simp only [forall_mem_singleton, pairwise_cons, AgreeOn]
    decide
  determined := nofun
  equivalent := nofun

end Quereus.Planner
