import Quereus.Planner.ClauseEntailment
import Quereus.Planner.PartialUnique

/-! # Queries answered from a materialized view

A fragment that projects and filters one table is matched with a view that does the same.
The matcher keeps the conjuncts that the view does not enforce as a residual, and reads
the columns of the table where the view stores them. The residual and the projection give
on the rows of the view what the fragment gives on the rows of the table.
-/

namespace Quereus.Planner

open List

variable {ν : Type}

inductive RewriteFailureReason where
  | noCandidate
  | shape
  | sourceMismatch
  | predicateNotEntailed
  | missingColumn
  deriving DecidableEq

structure BaseTable where
  /-- In lower case, without and with the schema. -/
  name : String
  qualified : String
  columns : PredicateColumns

/-- A conjunct of a WHERE: what the plan computes from a row, and the expression it was
built from. -/
structure Conjunct (ν : Type) where
  expression : Option (PredicateExpr ν)
  value : (Nat → ν) → ν

structure FragmentOutput (ν : Type) where
  attrId : Nat
  /-- The index of a bare column reference. -/
  baseCol : Option Nat
  value : (Nat → ν) → ν

structure FragmentShape (ν : Type) where
  baseTable : BaseTable
  outputs : List (FragmentOutput ν)
  conjuncts : List (Conjunct ν)

inductive SelectItem (ν : Type) where
  | all (table : Option String)
  | column (baseCol : Nat)
  | computed (value : (Nat → ν) → ν) (nonDeterministic : Bool)

inductive FromItem where
  | table
  | other
  deriving DecidableEq

/-- What the matcher reads of a view besides its select list. -/
structure ViewBody (ν : Type) where
  stale : Bool
  hasBacking : Bool
  sourceTables : List String
  isSelect : Bool
  having : Bool
  distinct : Bool
  limit : Bool
  offset : Bool
  union : Bool
  compound : Bool
  sources : List FromItem
  predicate : Option (PredicateExpr ν)
  predicateNonDeterministic : Bool

structure ProjectionView (ν : Type) extends ViewBody ν where
  grouped : Bool
  items : List (SelectItem ν)

def SelectItem.nonDeterministic : SelectItem ν → Bool
  | .computed _ nonDeterministic => nonDeterministic
  | _ => false

def mvBodyHasNonDeterminism (view : ProjectionView ν) : Bool :=
  view.isSelect && (view.predicateNonDeterministic || view.items.any SelectItem.nonDeterministic)

section Matcher

variable (isNull : ν → Bool) (compareSqlValues : ν → ν → Ordering) (zero : ν)

/-- The column of the table that each column of the view stores. -/
def mvProjectionBaseCols (table : BaseTable) : List (SelectItem ν) → Option (List (Option Nat))
  | [] => some []
  | .all named :: items => do
    if named.all (· == table.name) then
      return (range table.columns.count).map some ++ (← mvProjectionBaseCols table items)
    else none
  | .column baseCol :: items => do return some baseCol :: (← mvProjectionBaseCols table items)
  | .computed _ _ :: items => do return none :: (← mvProjectionBaseCols table items)

/-- The first column of the view that stores a column of the table. -/
def backingColOf (baseCols : List (Option Nat)) (baseCol : Nat) : Option Nat :=
  baseCols.findIdx? (· == some baseCol)

def viewClauses (columns : PredicateColumns) (body : ViewBody ν) : Option (List (GuardClause ν)) :=
  match body.predicate with
  | some predicate => recognizeGuardClauses isNull zero columns predicate
  | none => some []

structure PredicateAlignment (ν : Type) where
  queryClauses : List (GuardClause ν)
  residualConjuncts : List (Conjunct ν)
  residualClauses : List (GuardClause ν)

/-- The clauses that a conjunct is recognized as. -/
def Conjunct.clauses (columns : PredicateColumns) (conjunct : Conjunct ν) :
    Option (List (GuardClause ν)) :=
  conjunct.expression.bind (recognizeGuardClauses isNull zero columns)

/-- Recognize all conjuncts. Those that the view enforces are not in the residual. -/
def alignConjuncts (columns : PredicateColumns) (mvClauses : List (GuardClause ν)) :
    List (Conjunct ν) → Option (PredicateAlignment ν)
  | [] => some ⟨[], [], []⟩
  | conjunct :: conjuncts => do
    let clauses ← conjunct.clauses isNull zero columns
    let rest ← alignConjuncts columns mvClauses conjuncts
    if guardClausesEntail isNull compareSqlValues mvClauses clauses then
      return { rest with queryClauses := clauses ++ rest.queryClauses }
    else
      return ⟨clauses ++ rest.queryClauses, conjunct :: rest.residualConjuncts,
        clauses ++ rest.residualClauses⟩

/-- The residual of a fragment over a view, whose rows include those of the fragment. -/
def alignPredicates (columns : PredicateColumns) (body : ViewBody ν)
    (conjuncts : List (Conjunct ν)) :
    Option (PredicateAlignment ν) := do
  let mvClauses ← viewClauses isNull zero columns body
  let aligned ← alignConjuncts isNull compareSqlValues zero columns mvClauses conjuncts
  if guardClausesEntail isNull compareSqlValues aligned.queryClauses mvClauses then return aligned
    else none

structure RewriteMatch (ν : Type) where
  residualConjuncts : List (Conjunct ν)
  residualClauses : List (GuardClause ν)
  outputColumnMap : List (Nat × Nat)
  backingColOfBaseCol : Nat → Option Nat

def outputColumn (backing : Nat → Option Nat) (output : FragmentOutput ν) : Option (Nat × Nat) := do
  return (output.attrId, ← backing (← output.baseCol))

def matchFragmentToMv (shape : FragmentShape ν) (view : ProjectionView ν) :
    Except RewriteFailureReason (RewriteMatch ν) :=
  if view.stale || !view.hasBacking || mvBodyHasNonDeterminism view then .error .noCandidate
  else if view.sourceTables ≠ [shape.baseTable.qualified] then .error .sourceMismatch
  else if !view.isSelect || view.grouped || view.having || view.distinct || view.limit ||
    view.offset ||
      view.union || view.compound || view.sources ≠ [.table] then .error .shape
  else
    match mvProjectionBaseCols shape.baseTable view.items with
    | none => .error .shape
    | some baseCols =>
      match alignPredicates isNull compareSqlValues zero shape.baseTable.columns view.toViewBody
        shape.conjuncts with
      | none => .error .predicateNotEntailed
      | some aligned =>
        match shape.outputs.mapM (outputColumn (backingColOf baseCols)) with
        | none => .error .missingColumn
        | some outputs =>
          if (clauseColumnsAll aligned.residualClauses).all
            ((backingColOf baseCols · |>.isSome)) then
            .ok ⟨aligned.residualConjuncts, aligned.residualClauses, outputs, backingColOf baseCols⟩
          else .error .missingColumn

end Matcher

section Rows

variable (engine : QueryEngine ν)

def Conjunct.Keeps (row : Nat → ν) (conjunct : Conjunct ν) : Prop :=
  engine.semantics.truth (conjunct.value row) = some true

instance (row : Nat → ν) (conjunct : Conjunct ν) : Decidable (conjunct.Keeps engine row) :=
  inferInstanceAs (Decidable (_ = _))

def FragmentShape.rows (shape : FragmentShape ν) (table : List (Nat → ν)) : List (List ν) :=
  (table.filter fun row => ∀ conjunct ∈ shape.conjuncts, conjunct.Keeps engine row).map fun row =>
    shape.outputs.map (·.value row)

def ViewBody.Keeps (body : ViewBody ν) (row : Nat → ν) : Prop :=
  ∀ predicate ∈ body.predicate, predicate.Keeps engine row

instance (body : ViewBody ν) (row : Nat → ν) : Decidable (body.Keeps engine row) :=
  inferInstanceAs (Decidable (∀ predicate ∈ body.predicate, predicate.Keeps engine row))

def SelectItem.values (columns : PredicateColumns) (row : Nat → ν) : SelectItem ν → List ν
  | .all _ => (range columns.count).map row
  | .column baseCol => [row baseCol]
  | .computed value _ => [value row]

def ProjectionView.viewRow (view : ProjectionView ν) (columns : PredicateColumns)
    (row : Nat → ν) : List ν :=
  view.items.flatMap (SelectItem.values columns row)

def ProjectionView.rows (view : ProjectionView ν) (columns : PredicateColumns)
    (table : List (Nat → ν)) : List (List ν) :=
  (table.filter fun row => view.Keeps engine row).map (view.viewRow columns)

/-- A row of the view as a row of the table. A column the view does not store is NULL. -/
def rebind (backing : Nat → Option Nat) (stored : List ν) (baseCol : Nat) : ν :=
  ((backing baseCol).bind (stored[·]?)).getD (engine.semantics.ofTruth none)

/-- The answer from the rows of the view. -/
def RewriteMatch.rows (found : RewriteMatch ν) (stored : List (List ν)) : List (List ν) :=
  (stored.filter fun row =>
      ∀ conjunct ∈ found.residualConjuncts, conjunct.Keeps engine
        (rebind engine found.backingColOfBaseCol row)).map
    fun row => found.outputColumnMap.map fun output =>
      (row[output.2]?).getD (engine.semantics.ofTruth none)

end Rows

variable {row : Nat → ν} {engine : QueryEngine ν}

section Stored

variable {baseCols : List (Option Nat)}

/-- Each column of the view that stores a column of the table has its value. -/
theorem viewRow_stores {table : BaseTable} {items : List (SelectItem ν)}
    (isCols : mvProjectionBaseCols table items = some baseCols) :
    List.Forall₂ (fun baseCol value => ∀ column, baseCol = some column → value = row column)
      baseCols
      (items.flatMap (SelectItem.values table.columns row)) := by
  induction items generalizing baseCols with
  | nil =>
    cases isCols
    exact List.Forall₂.nil
  | cons item items ih =>
    cases item with
    | all named =>
      rw [mvProjectionBaseCols] at isCols
      split at isCols
      · obtain ⟨rest, isRest, isCols⟩ := Option.bind_eq_some_iff.mp isCols
        cases isCols
        refine rel_append ?_ (ih isRest)
        rw [SelectItem.values, forall₂_map_left_iff, forall₂_map_right_iff, forall₂_same]
        rintro index - column isColumn
        rw [Option.some.inj isColumn]
      · cases isCols
    | column baseCol =>
      obtain ⟨rest, isRest, isCols⟩ := Option.bind_eq_some_iff.mp isCols
      cases isCols
      refine List.Forall₂.cons ?_ (ih isRest)
      intro column isColumn
      rw [Option.some.inj isColumn]
    | computed value nonDeterministic =>
      obtain ⟨rest, isRest, isCols⟩ := Option.bind_eq_some_iff.mp isCols
      cases isCols
      refine List.Forall₂.cons ?_ (ih isRest)
      rintro column ⟨⟩

variable {values : List ν}

theorem getElem?_backingColOf {baseCol index : Nat}
    (stores : List.Forall₂ (fun baseCol value => ∀ column, baseCol = some column →
      value = row column) baseCols values)
    (isIndex : backingColOf baseCols baseCol = some index) :
    values[index]? = some (row baseCol) := by
  obtain ⟨inBounds, isColumn, -⟩ := findIdx?_eq_some_iff_getElem.mp isIndex
  have inValues : index < values.length := stores.length_eq ▸ inBounds
  rw [getElem?_eq_getElem inValues]
  exact congrArg some (stores.get inBounds inValues _ (beq_iff_eq.mp isColumn))

variable (stores : List.Forall₂ (fun baseCol value => ∀ column, baseCol = some column →
    value = row column) baseCols values)

include stores

theorem output_eq {outputs : List (FragmentOutput ν)} {mapped : List (Nat × Nat)}
    (own : ∀ output ∈ outputs, ∀ column, output.baseCol = some column →
      output.value row = row column)
    (isMapped : outputs.mapM (outputColumn (backingColOf baseCols)) = some mapped) :
    (mapped.map fun output => (values[output.2]?).getD (engine.semantics.ofTruth none)) =
      outputs.map (·.value row) := by
  rw [Fallible.mapM_eq_some_iff] at isMapped
  induction isMapped with
  | nil => rfl
  | cons isEntry _ ih =>
    obtain ⟨baseCol, isBaseCol, isEntry⟩ := Option.bind_eq_some_iff.mp isEntry
    obtain ⟨index, isIndex, isEntry⟩ := Option.bind_eq_some_iff.mp isEntry
    cases isEntry
    rw [forall_mem_cons] at own
    rw [map_cons, map_cons, ih own.2, getElem?_backingColOf stores isIndex, Option.getD_some,
      own.1 baseCol isBaseCol]

omit stores

end Stored

variable {compareSqlValues : ν → ν → Ordering} {zero : ν}

section Residual

variable {columns : PredicateColumns}

/-- The conjunct computes its expression from the columns of the table. -/
def Conjunct.IsOwn (engine : QueryEngine ν) (conjunct : Conjunct ν) : Prop :=
  ∀ expr ∈ conjunct.expression, ∀ row, conjunct.value row = expr.value engine row

variable {conjunct : Conjunct ν} {body : ViewBody ν} {mvClauses : List (GuardClause ν)}
  {aligned : PredicateAlignment ν}

variable (zeroNotNull : engine.semantics.isNull zero = false)

include zeroNotNull in
theorem keeps_conjunct {clauses : List (GuardClause ν)} (own : conjunct.IsOwn engine)
    (recognized : conjunct.clauses engine.semantics.isNull zero columns = some clauses)
    (conforms : ∀ column ∈ clauseColumnsAll clauses, ConformsAt engine zero columns row column) :
    conjunct.Keeps engine row ↔ ∀ clause ∈ clauses, clause.Holds engine row := by
  obtain ⟨expr, isExpr, areClauses⟩ := Option.bind_eq_some_iff.mp recognized
  rw [Conjunct.Keeps, own expr isExpr row]
  exact keeps_recognizeGuardClauses zeroNotNull areClauses conforms

variable (areClauses : viewClauses engine.semantics.isNull zero columns body = some mvClauses)

include zeroNotNull areClauses in
theorem keeps_view (conforms : ∀ column, ConformsAt engine zero columns row column) :
    body.Keeps engine row ↔ ∀ clause ∈ mvClauses, clause.Holds engine row := by
  unfold viewClauses at areClauses
  unfold ViewBody.Keeps
  cases isPredicate : body.predicate with
  | none =>
    rw [isPredicate] at areClauses
    cases areClauses
    simp
  | some predicate =>
    rw [isPredicate] at areClauses
    simp only [Option.mem_some_iff, forall_eq']
    exact keeps_recognizeGuardClauses zeroNotNull areClauses fun column _ => conforms column

variable {conjuncts : List (Conjunct ν)}

/-- The conjuncts of a fragment with their clauses. Those whose clauses the view does not
entail are the residual. -/
theorem alignConjuncts_eq_some
    (isAligned : alignConjuncts engine.semantics.isNull compareSqlValues zero columns mvClauses
      conjuncts = some aligned) :
    ∃ pairs : List (Conjunct ν × List (GuardClause ν)), pairs.map Prod.fst = conjuncts ∧
      (∀ pair ∈ pairs, pair.1.clauses engine.semantics.isNull zero columns = some pair.2) ∧
      aligned.queryClauses = pairs.flatMap Prod.snd ∧
      aligned.residualConjuncts =
        (pairs.filter fun pair => !guardClausesEntail engine.semantics.isNull compareSqlValues
          mvClauses pair.2).map
          Prod.fst ∧
      aligned.residualClauses =
        (pairs.filter fun pair => !guardClausesEntail engine.semantics.isNull compareSqlValues
          mvClauses pair.2).flatMap
          Prod.snd := by
  induction conjuncts generalizing aligned with
  | nil =>
    cases isAligned
    exact ⟨[], rfl, by simp, rfl, rfl, rfl⟩
  | cons conjunct conjuncts ih =>
    obtain ⟨clauses, areClauses, rest⟩ := Option.bind_eq_some_iff.mp isAligned
    obtain ⟨others, areOthers, rest⟩ := Option.bind_eq_some_iff.mp rest
    obtain ⟨pairs, areConjuncts, recognized, isQuery, isResidual, isClauses⟩ := ih areOthers
    refine ⟨(conjunct, clauses) :: pairs, by rw [map_cons, areConjuncts],
      forall_mem_cons.mpr ⟨areClauses, recognized⟩, ?_⟩
    split at rest
    · next entails =>
      cases rest
      simp only [flatMap_cons, filter_cons, entails, Bool.not_true, Bool.false_eq_true,
        if_false, isQuery,
        isResidual, isClauses, and_self]
    · next entails =>
      cases rest
      simp only [flatMap_cons, filter_cons, entails, Bool.not_false, if_true, map_cons, isQuery,
        isResidual, isClauses, and_self]

variable
  (isAligned : alignPredicates engine.semantics.isNull compareSqlValues zero columns body
    conjuncts = some aligned)

include isAligned in
theorem alignPredicates_eq_some :
    ∃ mvClauses, viewClauses engine.semantics.isNull zero columns body = some mvClauses ∧
      alignConjuncts engine.semantics.isNull compareSqlValues zero columns mvClauses conjuncts =
        some aligned ∧
      guardClausesEntail engine.semantics.isNull compareSqlValues aligned.queryClauses mvClauses =
        true := by
  obtain ⟨mvClauses, areClauses, rest⟩ := Option.bind_eq_some_iff.mp isAligned
  obtain ⟨found, isFound, rest⟩ := Option.bind_eq_some_iff.mp rest
  split at rest
  · next contained =>
    cases rest
    exact ⟨mvClauses, areClauses, isFound, contained⟩
  · cases rest

/-- A row that the fragment keeps lies in the ranges of the view, and a row that the view has
and the residual keeps lies in the ranges of the fragment. -/
structure RangesHold (engine : QueryEngine ν) (zero : ν) (columns : PredicateColumns)
    (body : ViewBody ν) (conjuncts residual : List (Conjunct ν)) (row : Nat → ν) : Prop where
  ofView : (∀ conjunct ∈ conjuncts, conjunct.Keeps engine row) →
    ∀ clauses ∈ viewClauses engine.semantics.isNull zero columns body, ∀ clause ∈ clauses,
      clause.rangeColumn.isSome → clause.Holds engine row
  ofFragment : body.Keeps engine row → (∀ conjunct ∈ residual, conjunct.Keeps engine row) →
    ∀ conjunct ∈ conjuncts, ∀ clauses ∈ conjunct.clauses engine.semantics.isNull zero columns,
      ∀ clause ∈ clauses, clause.rangeColumn.isSome → clause.Holds engine row

/-- Where the matcher has taken ranges to be entailed, they are within one another also when
their bounds are compared as the column compares. -/
structure ComparedInOrder (engine : QueryEngine ν) (compareSqlValues : ν → ν → Ordering) (zero : ν)
    (columns : PredicateColumns) (body : ViewBody ν) (conjuncts : List (Conjunct ν)) : Prop where
  contained : ∀ mvClauses ∈ viewClauses engine.semantics.isNull zero columns body,
    RangesWithin engine
      (conjuncts.flatMap fun conjunct =>
        (conjunct.clauses engine.semantics.isNull zero columns).getD []) mvClauses
  enforced : ∀ mvClauses ∈ viewClauses engine.semantics.isNull zero columns body,
    ∀ conjunct ∈ conjuncts, ∀ clauses ∈ conjunct.clauses engine.semantics.isNull zero columns,
      guardClausesEntail engine.semantics.isNull compareSqlValues mvClauses clauses = true →
        RangesWithin engine mvClauses clauses

section Aligned

variable (conforms : ∀ column, ConformsAt engine zero columns row column)
  (own : ∀ conjunct ∈ conjuncts, conjunct.IsOwn engine)

include conforms own zeroNotNull

theorem keeps_conjuncts : ∀ conjunct ∈ conjuncts, ∀ clauses,
    conjunct.clauses engine.semantics.isNull zero columns = some clauses →
    (conjunct.Keeps engine row ↔ ∀ clause ∈ clauses, clause.Holds engine row) :=
  fun conjunct member _ areClauses =>
    keeps_conjunct zeroNotNull (own conjunct member) areClauses fun column _ => conforms column

include isAligned

/-- The residual keeps on the rows of the view what the fragment keeps, exactly if ranges are
respected: every other clause that the matcher has found entailed is so. -/
theorem keeps_iff_residual_iff (finest : BinaryIsFinest engine compareSqlValues) :
    ((∀ conjunct ∈ conjuncts, conjunct.Keeps engine row) ↔
      body.Keeps engine row ∧ ∀ conjunct ∈ aligned.residualConjuncts, conjunct.Keeps engine row) ↔
    RangesHold engine zero columns body conjuncts aligned.residualConjuncts row := by
  obtain ⟨mvClauses, areClauses, isFound, contained⟩ := alignPredicates_eq_some isAligned
  obtain ⟨pairs, rfl, recognized, isQuery, isResidual, -⟩ := alignConjuncts_eq_some isFound
  have keepsView := keeps_view zeroNotNull areClauses conforms
  have keepsConjunct := keeps_conjuncts zeroNotNull conforms own
  constructor
  · intro same
    refine ⟨fun keeps clauses areClauses' clause member _ => ?_,
      fun keepsBody keeps conjunct member clauses areClauses' clause inClauses _ => ?_⟩
    · cases areClauses.symm.trans areClauses'
      exact keepsView.mp (same.mp keeps).1 clause member
    · have keepsFragment := same.mpr ⟨keepsBody, keeps⟩ conjunct member
      exact (keepsConjunct conjunct member clauses areClauses').mp keepsFragment clause inClauses
  · intro ranges
    constructor
    · intro keeps
      refine ⟨keepsView.mpr (holds_of_guardClausesEntail finest contained
        (ranges.ofView keeps mvClauses areClauses) ?_), fun conjunct member => keeps conjunct ?_⟩
      · rw [isQuery]
        intro clause member
        obtain ⟨pair, inPairs, inClauses⟩ := mem_flatMap.mp member
        have inConjuncts := mem_map_of_mem (f := Prod.fst) inPairs
        exact (keepsConjunct _ inConjuncts _ (recognized pair inPairs)).mp
          (keeps pair.1 inConjuncts) clause inClauses
      · rw [isResidual] at member
        exact map_subset _ (filter_subset_self _) member
    · rintro ⟨keepsBody, keeps⟩ conjunct member
      obtain ⟨pair, inPairs, rfl⟩ := mem_map.mp member
      by_cases entailed :
          guardClausesEntail engine.semantics.isNull compareSqlValues mvClauses pair.2 = true
      · exact (keepsConjunct _ member _ (recognized pair inPairs)).mpr
          (holds_of_guardClausesEntail finest entailed
            (ranges.ofFragment keepsBody keeps _ member _ (recognized pair inPairs))
            (keepsView.mp keepsBody))
      · refine keeps pair.1 (isResidual ▸ mem_map_of_mem (mem_filter.mpr ⟨inPairs, ?_⟩))
        simpa using entailed

theorem ComparedInOrder.rangesHold
    (inOrder : ComparedInOrder engine compareSqlValues zero columns body conjuncts) :
    RangesHold engine zero columns body conjuncts aligned.residualConjuncts row := by
  obtain ⟨mvClauses, areClauses, isFound, -⟩ := alignPredicates_eq_some isAligned
  obtain ⟨pairs, rfl, recognized, -, isResidual, -⟩ := alignConjuncts_eq_some isFound
  have keepsConjunct := keeps_conjuncts zeroNotNull conforms own
  refine ⟨fun keeps clauses areClauses' => (inOrder.contained clauses areClauses').holds ?_,
    fun keepsBody keeps conjunct member clauses areClauses' => ?_⟩
  · intro clause inClauses
    obtain ⟨conjunct, member, inClauses⟩ := mem_flatMap.mp inClauses
    obtain ⟨pair, inPairs, rfl⟩ := mem_map.mp member
    rw [recognized pair inPairs] at inClauses
    exact (keepsConjunct _ member _ (recognized pair inPairs)).mp (keeps _ member) clause inClauses
  · by_cases entailed :
        guardClausesEntail engine.semantics.isNull compareSqlValues mvClauses clauses = true
    · exact (inOrder.enforced mvClauses areClauses conjunct member clauses areClauses'
        entailed).holds
        ((keeps_view zeroNotNull areClauses conforms).mp keepsBody)
    · -- a conjunct that the view does not enforce is in the residual
      obtain ⟨pair, inPairs, rfl⟩ := mem_map.mp member
      cases (recognized pair inPairs).symm.trans areClauses'
      have inResidual : pair.1 ∈ aligned.residualConjuncts :=
        isResidual ▸ mem_map_of_mem (mem_filter.mpr ⟨inPairs, by simpa using entailed⟩)
      intro clause inClauses _
      exact (keepsConjunct _ member _ areClauses').mp (keeps pair.1 inResidual) clause inClauses

end Aligned

include isAligned in
/-- A residual conjunct is one of the fragment and is recognized as residual clauses. -/
theorem mem_residualConjuncts (member : conjunct ∈ aligned.residualConjuncts) :
    conjunct ∈ conjuncts ∧ ∃ clauses,
      conjunct.clauses engine.semantics.isNull zero columns = some clauses ∧
      clauseColumnsAll clauses ⊆ clauseColumnsAll aligned.residualClauses := by
  obtain ⟨mvClauses, -, isFound, -⟩ := alignPredicates_eq_some isAligned
  obtain ⟨pairs, rfl, recognized, -, isResidual, areResidual⟩ := alignConjuncts_eq_some isFound
  rw [isResidual] at member
  obtain ⟨pair, inKept, rfl⟩ := mem_map.mp member
  have inPairs := (mem_filter.mp inKept).1
  refine ⟨mem_map_of_mem inPairs, pair.2, recognized pair inPairs, fun column inColumns => ?_⟩
  rw [areResidual, clauseColumnsAll_eq_flatMap, flatMap_assoc]
  rw [clauseColumnsAll_eq_flatMap] at inColumns
  exact mem_flatMap.mpr ⟨pair, inKept, inColumns⟩

end Residual

section Answer

theorem matchFragmentToMv_eq_ok {isNull : ν → Bool} {shape : FragmentShape ν}
    {view : ProjectionView ν}
    {found : RewriteMatch ν}
    (matched : matchFragmentToMv isNull compareSqlValues zero shape view = .ok found) :
    ∃ baseCols aligned, mvProjectionBaseCols shape.baseTable view.items = some baseCols ∧
      alignPredicates isNull compareSqlValues zero shape.baseTable.columns view.toViewBody
        shape.conjuncts =
        some aligned ∧
      shape.outputs.mapM (outputColumn (backingColOf baseCols)) = some found.outputColumnMap ∧
      (∀ column ∈ clauseColumnsAll aligned.residualClauses, (backingColOf baseCols column).isSome) ∧
      found.residualConjuncts = aligned.residualConjuncts ∧ found.backingColOfBaseCol =
        backingColOf baseCols := by
  unfold matchFragmentToMv at matched
  split at matched
  · cases matched
  split at matched
  · cases matched
  split at matched
  · cases matched
  split at matched
  · cases matched
  next baseCols areCols =>
  split at matched
  · cases matched
  next aligned isAligned =>
  split at matched
  · cases matched
  next outputs areOutputs =>
  split at matched
  · next covered =>
    cases matched
    exact ⟨baseCols, aligned, areCols, isAligned, areOutputs, all_eq_true.mp covered, rfl, rfl⟩
  · cases matched

/-- The fragment refers to columns of its own table only. -/
structure FragmentShape.IsOwn (engine : QueryEngine ν) (shape : FragmentShape ν) : Prop where
  conjuncts : ∀ conjunct ∈ shape.conjuncts, conjunct.IsOwn engine
  outputs : ∀ output ∈ shape.outputs, ∀ column, output.baseCol = some column → ∀ row,
    output.value row = row column

/-- On the rows of the view the residual and the projection give the rows of the fragment,
whatever the table holds. -/
def RewriteMatch.Answers (engine : QueryEngine ν) (zero : ν) (shape : FragmentShape ν)
    (view : ProjectionView ν) (found : RewriteMatch ν) : Prop :=
  ∀ table : List (Nat → ν),
    (∀ row ∈ table, ∀ column, ConformsAt engine zero shape.baseTable.columns row column) →
    ∀ stored : List (List ν), stored.Perm (view.rows engine shape.baseTable.columns table) →
      (found.rows engine stored).Perm (shape.rows engine table)

variable {shape : FragmentShape ν} {view : ProjectionView ν} {found : RewriteMatch ν}
  (zeroNotNull : engine.semantics.isNull zero = false) (own : shape.IsOwn engine)
  (matched : matchFragmentToMv engine.semantics.isNull compareSqlValues zero shape view = .ok found)

include zeroNotNull own matched

/-- The residual and the projection read a row of the view as they read the row of the table. -/
theorem rows_viewRows {table : List (Nat → ν)}
    (conforms : ∀ row ∈ table, ∀ column,
      ConformsAt engine zero shape.baseTable.columns row column) :
    found.rows engine (view.rows engine shape.baseTable.columns table) =
      (table.filter fun row => view.Keeps engine row ∧
        ∀ conjunct ∈ found.residualConjuncts, conjunct.Keeps engine row).map fun row =>
          shape.outputs.map (·.value row) := by
  obtain ⟨baseCols, aligned, areCols, isAligned, areOutputs, covered, isResidual, isBacking⟩ :=
    matchFragmentToMv_eq_ok matched
  have stores : ∀ row, List.Forall₂
      (fun baseCol value => ∀ column, baseCol = some column → value = row column)
      baseCols (view.viewRow shape.baseTable.columns row) := fun row => viewRow_stores areCols
  unfold RewriteMatch.rows ProjectionView.rows
  rw [filter_map, filter_filter, map_map]
  have sameRows :
    ∀ row ∈ table, (decide (∀ conjunct ∈ found.residualConjuncts, conjunct.Keeps engine
        (rebind engine found.backingColOfBaseCol (view.viewRow shape.baseTable.columns row))) &&
      decide (view.Keeps engine row)) = decide (view.Keeps engine row ∧
        ∀ conjunct ∈ found.residualConjuncts, conjunct.Keeps engine row) := by
    intro row inTable
    have same : ∀ column ∈ clauseColumnsAll aligned.residualClauses,
        rebind engine (backingColOf baseCols) (view.viewRow shape.baseTable.columns row) column =
          row column := by
      intro column member
      obtain ⟨index, isIndex⟩ := Option.isSome_iff_exists.mp (covered column member)
      rw [rebind, isIndex, Option.bind_some, getElem?_backingColOf (stores row) isIndex,
        Option.getD_some]
    rw [isResidual, isBacking, ← Bool.decide_and, decide_eq_decide, and_comm]
    -- a residual conjunct reads columns of the residual clauses only
    refine and_congr_right fun _ => forall₂_congr fun conjunct member => ?_
    obtain ⟨inConjuncts, clauses, recognized, within⟩ := mem_residualConjuncts isAligned member
    have isOwn := own.conjuncts conjunct inConjuncts
    rw [keeps_conjunct zeroNotNull isOwn recognized fun column inColumns =>
        (conforms row inTable column).congr (same column (within inColumns)),
      keeps_conjunct zeroNotNull isOwn recognized fun column _ => conforms row inTable column]
    refine forall₂_congr fun clause inClauses =>
      GuardClause.holds_congr clause fun column inColumns =>
      same column (within ?_)
    rw [clauseColumnsAll_eq_flatMap]
    exact mem_flatMap.mpr ⟨clause, inClauses, inColumns⟩
  refine (congrArg (map _) (filter_congr sameRows)).trans (map_congr_left fun row _ => ?_)
  exact output_eq (stores row)
    (fun output member column isColumn => own.outputs output member column isColumn row) areOutputs

/-- A match answers the fragment if view and residual together keep the rows that the fragment
keeps. A table of one row shows that nothing less is enough. -/
theorem answers_iff_keeps :
    found.Answers engine zero shape view ↔
      ∀ row, (∀ column, ConformsAt engine zero shape.baseTable.columns row column) →
        ((∀ conjunct ∈ shape.conjuncts, conjunct.Keeps engine row) ↔ view.Keeps engine row ∧
          ∀ conjunct ∈ found.residualConjuncts, conjunct.Keeps engine row) := by
  constructor
  · intro answers row conforms
    have conforms : ∀ other ∈ [row], ∀ column,
        ConformsAt engine zero shape.baseTable.columns other column := by simpa using conforms
    have sameLength := (answers [row] conforms _ (Perm.refl _)).length_eq
    rw [rows_viewRows zeroNotNull own matched conforms, FragmentShape.rows, length_map, length_map,
      filter_singleton, filter_singleton, Bool.cond_decide, Bool.cond_decide] at sameLength
    split at sameLength <;> split at sameLength
    · next both fragment => exact iff_of_true fragment both
    · cases sameLength
    · cases sameLength
    · next both fragment => exact iff_of_false fragment both
  · intro keeps table conforms stored isStored
    have answer : found.rows engine (view.rows engine shape.baseTable.columns table) =
        shape.rows engine table := by
      rw [rows_viewRows zeroNotNull own matched conforms, FragmentShape.rows]
      refine congrArg (map _) (filter_congr fun row inTable => ?_)
      exact decide_eq_decide.mpr (keeps row (conforms row inTable)).symm
    exact answer ▸ (isStored.filter _).map _

end Answer

/-- Columns of letters that all declare one collation. -/
def letterEngine (collation : String) : QueryEngine (Option Char) where
  semantics := Letter.semantics
  constant := fun _ => Letter.collations.collated collation
  columns := fun _ _ => Letter.collations.collated collation
  operands := fun _ _ => Letter.collations.collated collation
  compute := fun _ _ => none
  lawful := fun _ => Letter.collations.lawful collation
  symmetric := fun _ _ _ _ same =>
    have := Letter.collations.lawful collation
    Std.OrientedCmp.eq_symm same

/-- `x0 > letter`. -/
def letterAbove (letter : Char) : PredicateExpr (Option Char) :=
  .binary .gt (.column (some 0)) (.literal (some letter))

/-- `select x0 from t where x0 > letter`. -/
def letterFragment (collation : String) (letter : Char) : FragmentShape (Option Char) :=
  ⟨⟨"t", "main.t", letterColumns⟩, [⟨7, some 0, fun row => row 0⟩],
    [⟨some (letterAbove letter), (letterAbove letter).value (letterEngine collation)⟩]⟩

/-- A view of the rows with `x0 > letter`. -/
def letterView (letter : Char) : ProjectionView (Option Char) where
  stale := false
  hasBacking := true
  sourceTables := ["main.t"]
  isSelect := true
  having := false
  distinct := false
  limit := false
  offset := false
  union := false
  compound := false
  sources := [.table]
  predicate := some (letterAbove letter)
  predicateNonDeterministic := false
  grouped := false
  items := [.all none]

theorem letterFragment_isOwn (collation : String) (letter : Char) :
    (letterFragment collation letter).IsOwn (letterEngine collation) := by
  constructor
  · intro conjunct member expr isExpr row
    rw [mem_singleton.mp member] at isExpr ⊢
    cases isExpr
    rfl
  · intro output member column isColumn row
    rw [mem_singleton.mp member] at isColumn ⊢
    cases isColumn
    rfl

end Quereus.Planner
