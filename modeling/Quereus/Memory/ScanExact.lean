import Quereus.Memory.IndexRuns
import Quereus.Memory.ScanWindow

/-! # Scans are exact

A scan of one seek or one range yields the effective rows whose key is wanted, each
once and in the order of the tree. Several ranges are scanned one after the other
and nothing is left out, so a plan of several ranges is exact if and only if no row
is in two of them. Several seeks leave out a row whose primary key has the code of
an earlier one.
-/

namespace Quereus.Memory

open List OrderedWalk TableSchema Layer

/-- The plans that are made from constraints. -/
inductive ScanShape where
  | equality (key : Key)
  | multiSeek (keys : List Key)
  | prefixRange (values : List Cell) (range : ScanPlanRange)
  | singleRange (range : ScanPlanRange)
  | multiRange (ranges : List ScanPlanRange)

namespace TableSchema

variable (schema : TableSchema) (indexName : Option String)

/-- The key of a row in the scanned tree. -/
def scanKey (row : Row) : Key :=
  keyOf (schema.resolveIndexColumns indexName) row

/-- Whether the scanned tree has a row. -/
def scanScope (row : Row) : Bool :=
  match indexName with
  | none => true
  | some name => (schema.indexes.find? (·.name = name)).any fun spec => inScope spec.predicate row

/-- The order of the scanned tree: rows with one index key are in primary-key order. -/
def scanOrder (first second : Row) : Ordering :=
  (schema.compareKeyTuples (schema.resolveIndexColumns indexName) (schema.scanKey indexName first)
      (schema.scanKey indexName second)).then
    (schema.comparePrimaryKeys (schema.primaryKeyFromRow first) (schema.primaryKeyFromRow second))

end TableSchema

namespace ScanShape

/-- The seeks and ranges of a plan, each as the keys it wants. -/
def parts (schema : TableSchema) (columns : List KeyColumn) : ScanShape → List (Key → Bool)
  | .equality key => [fun rowKey => schema.partsEqual columns rowKey key]
  | .multiSeek keys => keys.map fun key rowKey => schema.partsEqual columns rowKey key
  | .prefixRange values range => [schema.inWindow columns values range]
  | .singleRange range => [schema.inWindow columns [] range]
  | .multiRange ranges => ranges.map fun range => schema.inWindow columns [] range

/-- A plan over a tree with these columns. -/
def WellFormed (columns : List KeyColumn) : ScanShape → Prop
  | .equality key => key.length = columns.length
  | .multiSeek keys => keys ≠ [] ∧ ∀ key ∈ keys, key.length = columns.length
  | .prefixRange values range => range.Proper ∧ values.length ≤ columns.length ∧
      (range.lowerBound.isSome ∨ range.upperBound.isSome → values.length < columns.length)
  | .singleRange range => range.Proper ∧
      (range.lowerBound.isSome ∨ range.upperBound.isSome → 0 < columns.length)
  | .multiRange ranges => ranges ≠ [] ∧ (∀ range ∈ ranges, range.Proper) ∧ 0 < columns.length

/-- The ascending plan of a shape. The collations are those of the columns. -/
def toPlan (schema : TableSchema) (indexName : Option String) (shape : ScanShape) : ScanPlan :=
  let columns := schema.resolveIndexColumns indexName
  let plan : ScanPlan :=
    { indexName
      descending := false
      equalityKey := none
      equalityKeys := none
      equalityPrefix := none
      equalityPrefixCollations := []
      boundCollation := columns[0]?.bind KeyColumn.collation
      lowerBound := none
      upperBound := none
      ranges := none }
  match shape with
  | .equality key => { plan with equalityKey := some key, boundCollation := none }
  | .multiSeek keys => { plan with equalityKeys := some keys, boundCollation := none }
  | .prefixRange values range =>
    { plan with
      equalityPrefix := some values
      equalityPrefixCollations :=
        (columns.take values.length).map fun column => column.collation.getD "BINARY"
      boundCollation := columns[values.length]?.bind KeyColumn.collation
      lowerBound := range.lowerBound
      upperBound := range.upperBound }
  | .singleRange range =>
    { plan with lowerBound := range.lowerBound, upperBound := range.upperBound }
  | .multiRange ranges => { plan with ranges := some ranges }

end ScanShape

/-- A scan yields the wanted rows, each once, and one run in the order of the tree for
each seek or range. -/
structure ScanExact (schema : TableSchema) (layer : Layer) (indexName : Option String)
    (parts : List (Key → Bool)) (rows : List Row) : Prop where
  members : ∀ row, row ∈ rows ↔ row ∈ layer.primary ∧ schema.scanScope indexName row = true ∧
    ∃ part ∈ parts, part (schema.scanKey indexName row) = true
  once : rows.Nodup
  ordered : ∃ walked runs, walked.Perm parts ∧ rows = runs.flatten ∧
    List.Forall₂ (fun part run => run.Pairwise (fun first second =>
      schema.scanOrder indexName first second = .lt) ∧
        ∀ row ∈ run, part (schema.scanKey indexName row) = true) walked runs

/-- No row is in both parts. -/
def Apart (schema : TableSchema) (layer : Layer) (indexName : Option String)
    (first second : Key → Bool) : Prop :=
  ∀ row ∈ layer.primary, schema.scanScope indexName row = true →
    first (schema.scanKey indexName row) = true → second (schema.scanKey indexName row) = false

/-- The condition on the rows under which a plan is exact: no row is in two of its
ranges, and no two rows its seeks find have primary keys of one code. -/
def ScanShape.Clean (schema : TableSchema) (layer : Layer) (indexName : Option String)
    (shape : ScanShape) : Prop :=
  match shape with
  | .multiRange ranges =>
    ranges.Pairwise fun first second => Apart schema layer indexName
      (schema.inWindow (schema.resolveIndexColumns indexName) [] first)
      (schema.inWindow (schema.resolveIndexColumns indexName) [] second)
  | .multiSeek keys =>
    ∀ first ∈ layer.primary, ∀ second ∈ layer.primary,
      (∀ row ∈ [first, second], schema.scanScope indexName row = true ∧
        ∃ key ∈ keys, schema.partsEqual (schema.resolveIndexColumns indexName)
          (schema.scanKey indexName row) key = true) →
      encodePrimaryKey (schema.primaryKeyFromRow first) =
        encodePrimaryKey (schema.primaryKeyFromRow second) → first = second
  | _ => True

/-- A run of a scan: the rows of one seek or range, in the order of the tree. -/
structure IsRun (schema : TableSchema) (layer : Layer) (indexName : Option String)
    (part : Key → Bool) (rows : List Row) : Prop where
  members : ∀ row, row ∈ rows ↔ row ∈ layer.primary ∧ schema.scanScope indexName row = true ∧
    part (schema.scanKey indexName row) = true
  ordered : rows.Pairwise fun first second => schema.scanOrder indexName first second = .lt

/-- A key column without a collation compares as one with the collation `BINARY`. -/
structure TableSchema.DefaultsToBinary (schema : TableSchema) : Prop where
  resolver : schema.collationResolver "BINARY" = BINARY_COLLATION
  types : ∀ index, createTypedComparator (schema.typeAt index) none =
    createTypedComparator (schema.typeAt index) (some BINARY_COLLATION)

variable {schema : TableSchema}

section Comparators

variable (defaults : schema.DefaultsToBinary)

include defaults

variable {columns : List KeyColumn} {position : Nat} {column : KeyColumn} {range : ScanPlanRange}
  (indexName : Option String)

theorem comparatorAt_declared (found : columns[position]? = some column) :
    schema.comparatorAt columns position (columns[position]?.bind KeyColumn.collation) =
      schema.columnComparator column := by
  simp only [comparatorAt, found, Option.bind_some, columnComparator]
  cases column.collation with
  | none => exact (defaults.types column.index).symm
  | some collation => rfl

theorem comparatorAt_named (found : columns[position]? = some column) :
    schema.comparatorAt columns position (some (column.collation.getD "BINARY")) =
      schema.columnComparator column := by
  rw [← comparatorAt_declared defaults found, found, Option.bind_some]
  cases column.collation with
  | none => simp [comparatorAt, defaults.resolver]
  | some collation => rfl

/-- The plan of a window has the comparators of the tree. -/
theorem fits_prefixRange {values : List Cell}
    (wellFormed :
      (ScanShape.prefixRange values range).WellFormed (schema.resolveIndexColumns indexName)) :
    let plan := (ScanShape.prefixRange values range).toPlan schema indexName
    plan.Fits schema (schema.resolveIndexColumns indexName)
      (schema.resolveScanComparators plan) := by
  obtain ⟨-, short, bounded⟩ := wellFormed
  refine ⟨rfl, rfl, short, ?_, fun column found => comparatorAt_declared defaults found, bounded⟩
  refine ext_getElem ?_ fun position left right => ?_
  · simpa [resolveScanComparators, ScanShape.toPlan] using short
  · obtain ⟨inValues, inColumns⟩ : position < values.length ∧
        position < (schema.resolveIndexColumns indexName).length := by
      simpa [ScanShape.toPlan] using right
    have found := getElem?_eq_getElem inColumns
    have collation : (ScanShape.toPlan schema indexName
        (.prefixRange values range)).equalityPrefixCollations[position]? =
          some ((schema.resolveIndexColumns indexName)[position].collation.getD "BINARY") := by
      simp [ScanShape.toPlan, inValues, found]
    simp only [resolveScanComparators, getElem_map, getElem_zipIdx,
      Nat.zero_add, collation, getElem_take]
    exact comparatorAt_named defaults found

theorem fits_singleRange
    (wellFormed : (ScanShape.singleRange range).WellFormed (schema.resolveIndexColumns indexName)) :
    let plan := (ScanShape.singleRange range).toPlan schema indexName
    plan.Fits schema (schema.resolveIndexColumns indexName) (schema.resolveScanComparators plan) :=
  ⟨rfl, rfl, Nat.zero_le _, rfl, fun _ found => comparatorAt_declared defaults found, wellFormed.2⟩

end Comparators

variable {layer : Layer} {index : MemoryIndex}

section IndexRun

/-- The rows of one index key are in primary-key order. -/
theorem rowsOrdered_rowsOfEntry (consistent : layer.Consistent schema)
    (inLayer : index ∈ layer.secondaryIndexes) (indexKey : Key) :
    RowsOrdered schema (layer.rowsOfEntry schema
      (PostingTree.items (index.compareKeys schema) index.data indexKey)) := by
  have sorted : (layer.rowsOfEntry schema
      (PostingTree.items (index.compareKeys schema) index.data indexKey)).Pairwise
        fun first second =>
        (schema.comparePrimaryKeys (schema.primaryKeyFromRow first)
          (schema.primaryKeyFromRow second)).isLE := by
    refine (Comparator.pairwise_insertionSort schema.comparePrimaryKeys _).filterMap _ ?_
    intro first second below firstRow firstFound secondRow secondFound
    rwa [Std.TransCmp.congr_left (KeyTree.mem_of_find firstFound).2,
      Std.TransCmp.congr_right (KeyTree.mem_of_find secondFound).2]
  have member : ∀ row ∈ layer.rowsOfEntry schema
      (PostingTree.items (index.compareKeys schema) index.data indexKey), row ∈ layer.primary :=
    fun row inEntry => ((consistent.mem_rowsOfEntry inLayer).mp inEntry).1
  refine (sorted.and (consistent.nodup_rowsOfEntry inLayer indexKey)).imp_of_mem ?_
  intro first second first_mem second_mem both
  refine Ordering.isLE_iff_eq_lt_or_eq_eq.mp both.1 |>.resolve_right fun same => both.2 ?_
  exact consistent.ordered.eq_of_key_eq (member first first_mem) (member second second_mem) same

/-- The keys of an index are as long as those of its rows. -/
theorem length_le_entry_key (consistent : layer.Consistent schema)
    (inLayer : index ∈ layer.secondaryIndexes) {entry : MemoryIndexEntry}
    (inData : entry ∈ index.data) :
    index.spec.columns.length ≤ entry.key.length := by
  have wellFormed := (consistent.exact index inLayer).wellFormed
  obtain ⟨item, listed⟩ := exists_mem_of_ne_nil _ (wellFormed.nonempty entry inData)
  rw [← wellFormed.items_eq inData Std.ReflCmp.compare_self] at listed
  obtain ⟨row, -, place, -⟩ := consistent.lookup_of_listed inLayer listed
  exact (parts_of_compare_eq place.2 (Nat.le_of_eq (length_map _).symm)).1

end IndexRun

/-- A tree of a layer that a plan can name. An index that is scanned lists the rows exactly;
the others do not matter. -/
structure ScanTarget (schema : TableSchema) (layer : Layer) (indexName : Option String) : Prop where
  ordered : RowsOrdered schema layer.primary
  exact : ∀ name ∈ indexName, ∀ index ∈ layer.getSecondaryIndex name,
    index.Exact schema layer.primary
  specs : layer.secondaryIndexes.map MemoryIndex.spec = schema.indexes
  known : ∀ name ∈ indexName, ∃ spec ∈ schema.indexes, spec.name = name

variable {indexName : Option String} {part : Key → Bool}

section Runs

variable {name : String}

/-- The layer with one of its indexes. -/
def Layer.only (layer : Layer) (index : MemoryIndex) : Layer :=
  { layer with secondaryIndexes := [index] }

/-- The index a plan names. -/
theorem ScanTarget.exists_index (target : ScanTarget schema layer (some name)) :
    ∃ index, (layer.only index).Consistent schema ∧ layer.getSecondaryIndex name = some index ∧
      schema.indexes.find? (·.name = name) = some index.spec := by
  have found : schema.indexes.find? (·.name = name) =
      (layer.getSecondaryIndex name).map MemoryIndex.spec := by
    rw [← target.specs, find?_map]
    rfl
  cases stored : layer.getSecondaryIndex name with
  | some index =>
    rw [stored] at found
    refine ⟨index, ⟨target.ordered, fun other isOther => ?_⟩, rfl, found⟩
    rw [mem_singleton.mp isOther]
    exact target.exact name rfl index stored
  | none =>
    rw [stored] at found
    obtain ⟨spec, member, named⟩ := target.known name rfl
    have other := find?_eq_none.mp found spec member
    exact absurd (decide_eq_true named) other

variable {spec : IndexSchema} {key : Key}

variable (found : schema.indexes.find? (·.name = name) = some spec)

include found

theorem resolveIndexColumns_some : schema.resolveIndexColumns (some name) = spec.columns := by
  simp [resolveIndexColumns, found]

theorem scanScope_some (row : Row) :
    schema.scanScope (some name) row = inScope spec.predicate row := by
  simp [scanScope, found]

theorem scanKey_some (row : Row) : schema.scanKey (some name) row = keyOf spec.columns row := by
  rw [scanKey, resolveIndexColumns_some found]

omit found

/-- An index has the row whose place is a key. -/
theorem scan_place_iff (found : schema.indexes.find? (·.name = name) = some index.spec)
    {row : Row} :
    index.Place schema row key ↔ schema.scanScope (some name) row = true ∧
      schema.compareKeyTuples (schema.resolveIndexColumns (some name)) key
        (schema.scanKey (some name) row) = .eq := by
  rw [scanScope_some found, scanKey_some found, resolveIndexColumns_some found]
  exact Iff.rfl

/-- A run through the primary tree. -/
theorem isRun_primary (ordered : RowsOrdered schema layer.primary) (part : Key → Bool) :
    IsRun schema layer none part
      (layer.primary.filter fun row => part (schema.primaryKeyFromRow row)) where
  members row := by
    rw [mem_filter]
    exact and_congr_right fun _ => (and_iff_right rfl).symm
  ordered := by
    refine (ordered.filter _).imp fun below => ?_
    have first : schema.compareKeyTuples (schema.resolveIndexColumns none) _ _ = .lt := below
    exact Ordering.then_eq_lt.mpr (.inl first)

variable (consistent : layer.Consistent schema)

include consistent

/-- The rows of one index key are in the order of the index. -/
theorem scanOrdered_rowsOfEntry (inLayer : index ∈ layer.secondaryIndexes)
    (found : schema.indexes.find? (·.name = name) = some index.spec) (key : Key) :
    (layer.rowsOfEntry schema (PostingTree.items (index.compareKeys schema) index.data
      key)).Pairwise
      fun first second => schema.scanOrder (some name) first second = .lt := by
  refine (rowsOrdered_rowsOfEntry consistent inLayer key).imp_of_mem ?_
  intro first second first_mem second_mem below
  have firstPlace := (scan_place_iff found).mp ((consistent.mem_rowsOfEntry inLayer).mp first_mem).2
  have secondPlace := (scan_place_iff found).mp
    ((consistent.mem_rowsOfEntry inLayer).mp second_mem).2
  have same := Std.TransCmp.eq_trans (Std.OrientedCmp.eq_symm firstPlace.2) secondPlace.2
  exact Ordering.then_eq_lt.mpr (.inr ⟨same, below⟩)

/-- A run through a secondary index. -/
theorem isRun_secondary (inLayer : index ∈ layer.secondaryIndexes)
    (found : schema.indexes.find? (·.name = name) = some index.spec)
    (respects : ∀ (key : Key) (row : Row), index.compareKeys schema key (index.keyFromRow row) =
      .eq →
      part key = part (index.keyFromRow row)) :
    IsRun schema layer (some name) part
      ((index.data.filter fun entry => part entry.key).flatMap fun entry =>
        layer.rowsOfEntry schema entry.items) where
  members row := by
    refine (consistent.scanIndex_perm inLayer false respects).mem_iff.trans ?_
    rw [mem_filter, Bool.and_eq_true, scanScope_some found, scanKey_some found]
    exact Iff.rfl
  ordered := by
    have wellFormed := (consistent.exact index inLayer).wellFormed
    -- The rows of a posting are at the place of its key.
    have placed : ∀ entry ∈ index.data, ∀ row ∈ layer.rowsOfEntry schema entry.items,
        schema.compareKeyTuples (schema.resolveIndexColumns (some name)) entry.key
          (schema.scanKey (some name) row) = .eq := by
      intro entry inData row inEntry
      rw [← wellFormed.items_eq inData Std.ReflCmp.compare_self] at inEntry
      exact ((scan_place_iff found).mp ((consistent.mem_rowsOfEntry inLayer).mp inEntry).2).2
    refine pairwise_flatMap.mpr ⟨fun entry member => ?_, ?_⟩
    · have rows := scanOrdered_rowsOfEntry consistent inLayer found entry.key
      rwa [wellFormed.items_eq (mem_filter.mp member).1 Std.ReflCmp.compare_self] at rows
    · refine (wellFormed.ordered.filter _).imp_of_mem fun first_mem second_mem below => ?_
      intro firstRow firstFound secondRow secondFound
      have firstPlace := placed _ (mem_filter.mp first_mem).1 _ firstFound
      have secondPlace := placed _ (mem_filter.mp second_mem).1 _ secondFound
      refine Ordering.then_eq_lt.mpr (.inl ?_)
      rw [← Std.TransCmp.congr_left firstPlace, ← Std.TransCmp.congr_right secondPlace,
        resolveIndexColumns_some found]
      exact below

omit consistent

/-- A key that no row has is the part of an empty run. -/
theorem isRun_nil (none_wanted : ∀ key, part key = false) :
    IsRun schema layer indexName part [] where
  members row := by simp [none_wanted]
  ordered := .nil

/-- A seek for a whole key. -/
theorem partsEqual_whole (schema : TableSchema) {columns : List KeyColumn}
    (whole : key.length = columns.length) (rowKey : Key) :
    schema.partsEqual columns rowKey key =
      (!Layer.seekKeyHasNull key && schema.compareKeyTuples columns rowKey key == .eq) := by
  have agrees : ScanPlan.prefixAgrees ((columns.take key.length).map schema.columnComparator)
    rowKey key =
      (schema.compareKeyTuples (columns.take key.length) rowKey key == .eq) :=
    Bool.eq_iff_iff.mpr
      ((ScanPlan.prefixAgrees_iff_tuple (Nat.le_of_eq whole) rowKey).trans beq_iff_eq.symm)
  rw [ScanPlan.partsEqual_eq schema (Nat.le_of_eq whole), agrees, whole, take_length]
  rfl

/-- A seek finds the rows that have its key. -/
theorem scanSingle_equality (target : ScanTarget schema layer indexName) (plan : ScanPlan)
    (named : plan.indexName = indexName) (prefixless : plan.equalityPrefix = none)
    (seeks : plan.equalityKey = some key)
    (whole : key.length = (schema.resolveIndexColumns indexName).length)
    (comparators : ResolvedScanComparators) :
    ∃ rows, layer.scanSingle schema plan comparators = .ok rows ∧
      IsRun schema layer indexName
        (fun rowKey => schema.partsEqual (schema.resolveIndexColumns indexName) rowKey key)
          rows := by
  have wanted := partsEqual_whole schema whole
  cases null : seekKeyHasNull key with
  | true =>
    have none_wanted : ∀ rowKey,
        schema.partsEqual (schema.resolveIndexColumns indexName) rowKey key = false := by
      intro rowKey
      rw [wanted rowKey, null]
      rfl
    refine ⟨[], ?_, isRun_nil none_wanted⟩
    simp only [scanSingle, prefixless, named, seeks, null]
    cases indexName with
    | none => rfl
    | some name =>
      obtain ⟨index, -, stored, -⟩ := target.exists_index
      simp only [stored, scanEqualityKey, null]
      rfl
  | false =>
    simp only [null, Bool.not_false, Bool.true_and] at wanted
    simp only [scanSingle, prefixless, named, seeks, null]
    cases indexName with
    | none =>
      refine ⟨_, rfl, ?_⟩
      have run := isRun_primary target.ordered
        fun rowKey => schema.partsEqual (schema.resolveIndexColumns none) rowKey key
      simp only [wanted] at run ⊢
      have one := target.ordered.toList_find key
      exact one ▸ run
    | some name =>
      obtain ⟨index, consistent, stored, found⟩ := target.exists_index
      have inLayer := mem_singleton_self index
      simp only [stored, scanEqualityKey, null]
      refine ⟨_, rfl, fun row => ?_, scanOrdered_rowsOfEntry consistent inLayer found key⟩
      refine (consistent.mem_rowsOfEntry inLayer).trans (and_congr_right fun _ => ?_)
      rw [scan_place_iff found, wanted, beq_iff_eq]
      exact and_congr_right fun _ => ⟨Std.OrientedCmp.eq_symm, Std.OrientedCmp.eq_symm⟩

/-- A walk finds the rows in the window of the plan. -/
theorem scanSingle_window (target : ScanTarget schema layer indexName) {plan : ScanPlan}
    (named : plan.indexName = indexName) {comparators : ResolvedScanComparators}
    (fits : plan.Fits schema (schema.resolveIndexColumns indexName) comparators)
    (proper : ScanPlanRange.Proper ⟨plan.lowerBound, plan.upperBound⟩) :
    ∃ rows, layer.scanSingle schema plan comparators = .ok rows ∧
      IsRun schema layer indexName
        (schema.inWindow (schema.resolveIndexColumns indexName) (plan.equalityPrefix.getD [])
          ⟨plan.lowerBound, plan.upperBound⟩) rows := by
  cases null : (plan.equalityPrefix.getD []).any (·.isNull) with
  | true =>
    refine ⟨[], by simp only [scanSingle, null, if_true], isRun_nil fun key => ?_⟩
    rw [inWindow, ScanPlan.partsEqual_eq schema fits.prefix_le, null]
    rfl
  | false =>
    simp only [scanSingle, null, named, fits.equalityKey]
    cases indexName with
    | none =>
      refine ⟨_, rfl, ?_⟩
      have walked := ScanPlan.walkTree_eq_window proper fits target.ordered
        fun row _ => Nat.le_of_eq (length_map _).symm
      have run := isRun_primary target.ordered (schema.inWindow (schema.resolveIndexColumns none)
        (plan.equalityPrefix.getD []) ⟨plan.lowerBound, plan.upperBound⟩)
      exact walked ▸ run
    | some name =>
      obtain ⟨index, consistent, stored, found⟩ := target.exists_index
      have inLayer := mem_singleton_self index
      have columns := resolveIndexColumns_some found
      have exact := consistent.exact index inLayer
      simp only [stored, columns] at fits ⊢
      refine ⟨_, rfl, ?_⟩
      have walked := ScanPlan.walkTree_eq_window proper fits exact.wellFormed.ordered
        fun entry => length_le_entry_key consistent inLayer
      rw [MemoryIndex.compareKeys, walked]
      have run := isRun_secondary consistent inLayer found fun key row same =>
        inWindow_congr same (Nat.le_of_eq (length_map _).symm) (plan.equalityPrefix.getD [])
          ⟨plan.lowerBound, plan.upperBound⟩
      exact ⟨run.members, run.ordered⟩

end Runs

section Several

variable {parts : List (Key → Bool)} {runs : List (List Row)}

variable (related : List.Forall₂ (IsRun schema layer indexName) parts runs)

include related in
theorem mem_flatten_runs (row : Row) :
    row ∈ runs.flatten ↔ row ∈ layer.primary ∧ schema.scanScope indexName row = true ∧
      ∃ part ∈ parts, part (schema.scanKey indexName row) = true := by
  induction related with
  | nil => simp
  | cons first _ ih =>
    rw [flatten_cons, mem_append, first.members row, ih]
    simp only [exists_mem_cons_iff]
    tauto

theorem scanOrder_self (row : Row) : schema.scanOrder indexName row row = .eq := by
  simp [scanOrder, Std.ReflCmp.compare_self]

variable {rows : List Row} {empty wanted : List (Key → Bool)}

theorem IsRun.nodup (run : IsRun schema layer indexName part rows) : rows.Nodup := by
  refine run.ordered.imp fun {first second} below same => ?_
  rw [same, scanOrder_self] at below
  cases below

include related in
/-- Ranges that are scanned one after the other are exact if and only if no row is in
two of them. -/
theorem scanExact_flatten_iff :
    ScanExact schema layer indexName parts runs.flatten ↔
      parts.Pairwise (Apart schema layer indexName) := by
  have each : ∀ run ∈ runs, run.Nodup := by
    intro run member
    obtain ⟨part, -, isRun⟩ := Fallible.exists_of_mem_left related.flip member
    exact IsRun.nodup isRun
  have disjoint : parts.Pairwise (Apart schema layer indexName) ↔ runs.Pairwise List.Disjoint := by
    refine pairwise_iff_of_forall₂ (fun first second firstRun secondRun isFirst isSecond => ?_)
      related
    constructor
    · intro apart row inFirst inSecond
      obtain ⟨member, covered, wanted⟩ := (isFirst.members row).mp inFirst
      have also := ((isSecond.members row).mp inSecond).2.2
      rw [apart row member covered wanted] at also
      cases also
    · intro disjoint row member covered wanted
      refine Bool.eq_false_iff.mpr fun also => ?_
      exact disjoint ((isFirst.members row).mpr ⟨member, covered, wanted⟩)
        ((isSecond.members row).mpr ⟨member, covered, also⟩)
  rw [disjoint]
  constructor
  · intro exact
    exact (nodup_flatten.mp exact.once).2
  · intro apart
    refine ⟨mem_flatten_runs related, nodup_flatten.mpr ⟨each, apart⟩, parts, runs,
      .refl _, rfl, ?_⟩
    refine related.imp fun part run isRun => ⟨isRun.ordered, fun row member => ?_⟩
    exact ((isRun.members row).mp member).2.2

/-- One seek or range is exact. -/
theorem scanExact_single (run : IsRun schema layer indexName part rows) :
    ScanExact schema layer indexName [part] rows := by
  have single := (scanExact_flatten_iff (List.Forall₂.cons run .nil)).mpr (pairwise_singleton _ _)
  rwa [flatten_singleton] at single

include related

/-- What is kept of a run is still in the order of the tree. -/
theorem segments_of_runs {segments : List (List Row)}
    (sublists : List.Forall₂ Sublist segments runs) :
    List.Forall₂ (fun part run => run.Pairwise (fun first second =>
      schema.scanOrder indexName first second = .lt) ∧
        ∀ row ∈ run, part (schema.scanKey indexName row) = true) parts segments := by
  induction related generalizing segments with
  | nil =>
    cases sublists
    exact .nil
  | cons isRun _ ih =>
    cases sublists with
    | cons sublist rest =>
      refine .cons ⟨isRun.ordered.sublist sublist, fun row member => ?_⟩ (ih rest)
      exact ((isRun.members row).mp (sublist.mem member)).2.2

/-- Parts that want no key can be left out. -/
theorem mem_flatten_wanted (none_wanted : ∀ part ∈ empty, ∀ key, part key = false)
    (split : (parts ++ empty).Perm wanted) (row : Row) :
    row ∈ runs.flatten ↔ row ∈ layer.primary ∧ schema.scanScope indexName row = true ∧
      ∃ part ∈ wanted, part (schema.scanKey indexName row) = true := by
  rw [mem_flatten_runs related]
  refine and_congr_right fun _ => and_congr_right fun _ => ⟨?_, ?_⟩
  · rintro ⟨part, member, holds⟩
    exact ⟨part, split.mem_iff.mp (mem_append_left _ member), holds⟩
  · rintro ⟨part, member, holds⟩
    obtain inParts | inEmpty := mem_append.mp (split.mem_iff.mpr member)
    · exact ⟨part, inParts, holds⟩
    · rw [none_wanted part inEmpty] at holds
      cases holds

/-- Seeks that leave out repeated codes are exact if and only if no two rows they find
have one code. -/
theorem scanExact_distinct_iff (none_wanted : ∀ part ∈ empty, ∀ key, part key = false)
    (split : (parts ++ empty).Perm wanted) :
    ScanExact schema layer indexName wanted
        (distinctBy (fun row => encodePrimaryKey (schema.primaryKeyFromRow row)) []
          runs.flatten) ↔
      ∀ first ∈ runs.flatten, ∀ second ∈ runs.flatten,
        encodePrimaryKey (schema.primaryKeyFromRow first) =
          encodePrimaryKey (schema.primaryKeyFromRow second) → first = second := by
  rw [← forall_mem_distinctBy_iff]
  have found := mem_flatten_wanted related none_wanted split
  constructor
  · intro exact row member
    exact (exact.members row).mpr ((found row).mp member)
  · intro kept
    obtain ⟨segments, flat, sublists⟩ := distinctBy_flatten
      (fun row => encodePrimaryKey (schema.primaryKeyFromRow row)) [] runs
    refine ⟨fun row => ?_, (nodup_map_distinctBy _ _).of_map _, ?_⟩
    · exact Iff.trans ⟨fun member => (distinctBy_sublist _ _).mem member, kept row⟩ (found row)
    · refine ⟨parts ++ empty, segments ++ empty.map fun _ => [], split, ?_, ?_⟩
      · rw [flat]
        simp
      · refine rel_append (segments_of_runs related sublists) ?_
        rw [forall₂_map_right_iff, forall₂_same]
        exact fun part _ => ⟨.nil, nofun⟩

end Several

section Plans

/-- The ranges of a plan. -/
theorem scanLayer_multiRange (target : ScanTarget schema layer indexName)
    (defaults : schema.DefaultsToBinary) {ranges : List ScanPlanRange}
    (wellFormed : (ScanShape.multiRange ranges).WellFormed (schema.resolveIndexColumns indexName)) :
    ∃ runs, layer.scanLayer schema ((ScanShape.multiRange ranges).toPlan schema indexName) =
        .ok runs.flatten ∧
      List.Forall₂ (IsRun schema layer indexName)
        ((ScanShape.multiRange ranges).parts schema (schema.resolveIndexColumns indexName))
          runs := by
  obtain ⟨nonempty, proper, bounded⟩ := wellFormed
  have each : ∀ range ∈ ranges, ∃ rows,
      layer.scanSingle schema ((ScanShape.singleRange range).toPlan schema indexName)
        (schema.resolveScanComparators ((ScanShape.singleRange range).toPlan schema indexName)) =
          .ok rows ∧
      IsRun schema layer indexName (schema.inWindow (schema.resolveIndexColumns indexName) [] range)
        rows :=
    fun range member => scanSingle_window target rfl
      (fits_singleRange defaults indexName ⟨proper range member, fun _ => bounded⟩)
        (proper range member)
  obtain ⟨runs, ok, related⟩ := mapM_eq_ok each
  refine ⟨runs, ?_, forall₂_map_left_iff.mpr related⟩
  cases ranges with
  | nil => exact absurd rfl nonempty
  | cons range rest => exact congrArg (Except.map flatten) ok

/-- The seeks of a plan: those with a NULL find nothing and are not made. -/
theorem scanLayer_multiSeek (target : ScanTarget schema layer indexName) {keys : List Key}
    (wellFormed : (ScanShape.multiSeek keys).WellFormed (schema.resolveIndexColumns indexName)) :
    ∃ parts empty runs,
      layer.scanLayer schema ((ScanShape.multiSeek keys).toPlan schema indexName) =
        .ok (distinctBy (fun row => encodePrimaryKey (schema.primaryKeyFromRow row)) []
          runs.flatten) ∧
      List.Forall₂ (IsRun schema layer indexName) parts runs ∧
      (∀ part ∈ empty, ∀ key, part key = false) ∧
      (parts ++ empty).Perm
        ((ScanShape.multiSeek keys).parts schema (schema.resolveIndexColumns indexName)) := by
  obtain ⟨nonempty, whole⟩ := wellFormed
  generalize planned : (ScanShape.multiSeek keys).toPlan schema indexName = plan
  have sorted : (layer.orderSeekKeys schema keys plan).Perm keys := by
    simp only [orderSeekKeys]
    split
    · exact .refl _
    · exact perm_insertionSort _ _
  have each : ∀ key ∈ (layer.orderSeekKeys schema keys plan).filter fun key => !seekKeyHasNull key,
      ∃ rows, layer.scanRanges schema { plan with equalityKey := some key, equalityKeys := none }
        (schema.resolveScanComparators plan) = .ok rows ∧
      IsRun schema layer indexName
        (fun rowKey => schema.partsEqual (schema.resolveIndexColumns indexName) rowKey key)
          rows := by
    intro key member
    have listed := sorted.mem_iff.mp (mem_filter.mp member).1
    subst planned
    exact scanSingle_equality target
      { (ScanShape.multiSeek keys).toPlan schema indexName with
        equalityKey := some key, equalityKeys := none } rfl rfl rfl (whole key listed)
      (schema.resolveScanComparators ((ScanShape.multiSeek keys).toPlan schema indexName))
  obtain ⟨runs, ok, related⟩ := mapM_eq_ok each
  refine ⟨_, ((layer.orderSeekKeys schema keys plan).filter seekKeyHasNull).map
    fun key rowKey => schema.partsEqual (schema.resolveIndexColumns indexName) rowKey key, runs, ?_,
    forall₂_map_left_iff.mpr related, ?_, ?_⟩
  · cases keys with
    | nil => exact absurd rfl nonempty
    | cons key rest =>
      subst planned
      exact congrArg (Except.map fun found => distinctBy
        (fun row => encodePrimaryKey (schema.primaryKeyFromRow row)) [] found.flatten) ok
  · intro part member rowKey
    obtain ⟨key, inKeys, rfl⟩ := mem_map.mp member
    obtain ⟨listed, null⟩ := mem_filter.mp inKeys
    refine (partsEqual_whole schema (whole key (sorted.mem_iff.mp listed)) rowKey).trans ?_
    rw [null]
    rfl
  · rw [← map_append]
    exact ((perm_append_comm.trans (filter_append_perm _ _)).trans sorted).map _

end Plans

/-- A table of one text column, its key. -/
def lettersSchema : TableSchema where
  name := "t"
  columns := [⟨"k", plainType, "BINARY", none⟩]
  primaryKeyDefinition := [⟨0, false, none⟩]
  primaryKeyDefaultConflict := none
  uniqueConstraints := []
  indexes := []
  collationResolver _ := BINARY_COLLATION

/-- The letters `a`, `b` and `d`. -/
def lettersLayer : Layer where
  primary := [97, 98, 100].map fun letter => [⟨.string [letter], Eq.refl false⟩]
  secondaryIndexes := []

/-- The key column is after a letter. -/
def afterLetter (letter : UInt16) : ScanPlanRange where
  lowerBound := some ⟨.gt, ⟨.string [letter], Eq.refl false⟩⟩
  upperBound := none

def upToLetter (letter : UInt16) : ScanPlanRange where
  lowerBound := none
  upperBound := some ⟨.le, ⟨.string [letter], Eq.refl false⟩⟩

theorem lettersTarget : ScanTarget lettersSchema lettersLayer none where
  ordered := by
    unfold RowsOrdered KeyTree.Ordered
    decide
  exact := nofun
  specs := rfl
  known _ named := nomatch named

theorem lettersDefaults : lettersSchema.DefaultsToBinary where
  resolver := rfl
  types index := by
    cases index <;> rfl

end Quereus.Memory
