import Quereus.Isolation.ReadWindow
import Quereus.Memory.ScanExact

/-! # Merged reads are exact

A merged read yields the rows of the merged view in the window, in the order of the
scan, if the underlying table serves the window in that order. A secondary scan
yields each of them once. A primary scan yields a staged row as often as the overlay
lists it, and shows the committed row of a key whose staged row the overlay leaves out.
-/

namespace Quereus.Isolation

open Memory List Comparator ShadowMerge

namespace MergedTable

variable (table : MergedTable)

/-- The order of the rows of a scan. -/
def scanOrder (indexInfo : IndexScanInfo) : Row → Row → Ordering :=
  via (table.buildMergeConfig indexInfo).extractSortKey
    (table.buildMergeConfig indexInfo).compareSortKey

/-- The keys of the stored rows. -/
def keys : List Key :=
  (table.overlayRows ++ table.underlyingRows).map table.schema.primaryKeyFromRow

/-- The rows of the merged view in the window, each once and in the order of the scan. -/
structure MergedExact (filterInfo : FilterInfo) (indexInfo : IndexScanInfo)
    (result : List Row) : Prop where
  rows : ∀ row, row ∈ result ↔
    row ∈ mergedView table.schema table.underlyingRows table.overlayRows ∧
      table.InWindow filterInfo row
  once : result.Nodup
  order : result.Pairwise fun first second => table.scanOrder indexInfo first second = .lt

/-- A table whose parts do what a scan relies on: there is one row per key in each of
them, comparators order, the key comparators agree on which keys are equal, and
the underlying table serves the window in the order of the scan. -/
structure Serves (filterInfo : FilterInfo) (indexInfo : IndexScanInfo) : Prop where
  resolved : table.resolveScanIndex filterInfo = .ok indexInfo
  keyInColumns : KeyInColumns table.schema
  underlyingOrdered : RowsOrdered table.schema table.underlyingRows
  overlayOrdered : RowsOrdered table.schema table.overlayRows
  comparesKeys : ∀ cmp ∈ table.comparePrimaryKey, Std.TransCmp cmp
  comparesIndexKeys : ∀ name, ∀ comparators ∈ table.getIndexComparator name,
    ∀ cmp ∈ comparators, Std.TransCmp cmp
  sameKeys : ∀ first ∈ table.keys, ∀ second ∈ table.keys,
    table.getComparePK first second = .eq ↔ table.schema.comparePrimaryKeys first second = .eq
  served : ∀ row, row ∈ table.queryUnderlying filterInfo ↔
    row ∈ table.underlyingRows ∧ table.InWindow filterInfo row
  servedInOrder : (table.queryUnderlying filterInfo).Pairwise
    fun first second => table.scanOrder indexInfo first second = .lt

/-- A primary scan: its window is over the key, whose columns the window compares as
the key comparator does, and the overlay lists staged rows only. -/
structure ServesPrimary (filterInfo : FilterInfo) : Prop where
  keyWindow : ∀ first ∈ table.overlayRows ++ table.underlyingRows,
    ∀ second ∈ table.overlayRows ++ table.underlyingRows,
    table.schema.comparePrimaryKeys (table.schema.primaryKeyFromRow first)
      (table.schema.primaryKeyFromRow second) = .eq →
    ∀ index ∈ scannedIndex filterInfo, ∀ column ∈ windowLooksAt filterInfo,
      column < table.schema.columns.length ∧
      table.constraintComparator index column (cellAt first column) (cellAt second column) = .eq
  staged : ∀ row ∈ table.queryOverlay (adaptFilterInfoForOverlay filterInfo),
    row ∈ table.overlayRows

/-- The serializer of keys agrees with the comparator. -/
def SerializesKeys : Prop :=
  ∀ first ∈ table.keys, ∀ second ∈ table.keys,
    table.pkKeyOf first = table.pkKeyOf second ↔ table.schema.comparePrimaryKeys first second = .eq

/-- What each kind of scan needs besides. -/
def ServesScan (filterInfo : FilterInfo) : IndexScanInfo → Prop
  | .primary _ => table.ServesPrimary filterInfo
  | .secondary .. => table.SerializesKeys

/-- The live staged rows in the window that the overlay lists. -/
def listedRows (filterInfo : FilterInfo) : List Row :=
  (table.queryOverlay (adaptFilterInfoForOverlay filterInfo)).filter fun overlayRow =>
    !isTombstone table.schema overlayRow &&
      table.buildConstraintMatcher filterInfo (dataRow table.schema overlayRow)

/-- A staged row that a scan of the window need not know: it shows just what is committed
at its key. -/
structure Harmless (filterInfo : FilterInfo) (overlayRow : Row) : Prop where
  hides : ∀ row ∈ table.underlyingRows, table.InWindow filterInfo row →
    table.schema.comparePrimaryKeys (table.schema.primaryKeyFromRow overlayRow)
      (table.schema.primaryKeyFromRow row) = .eq → shownRow table.schema overlayRow = some row
  shows : ∀ row ∈ shownRow table.schema overlayRow, table.InWindow filterInfo row →
    row ∈ table.underlyingRows

/-- In a primary scan the overlay lists no live row of the window twice, and leaves out
harmless rows only. -/
def ListsOnce (filterInfo : FilterInfo) : IndexScanInfo → Prop
  | .primary _ => (table.listedRows filterInfo).Nodup ∧ ∀ overlayRow ∈ table.overlayRows,
      overlayRow ∉ table.queryOverlay (adaptFilterInfoForOverlay filterInfo) →
        table.Harmless filterInfo overlayRow
  | .secondary .. => True

variable {table} {filterInfo : FilterInfo} {indexInfo : IndexScanInfo}

variable {overlayRow : Row}

section Order

variable (serves : table.Serves filterInfo indexInfo)

include serves in
theorem getComparePK_trans : Std.TransCmp table.getComparePK := by
  unfold getComparePK
  cases given : table.comparePrimaryKey with
  | some cmp => exact serves.comparesKeys cmp given
  | none =>
    apply transCmp_tuple
    intro cmp member
    obtain ⟨column, -, rfl⟩ := mem_map.mp member
    unfold pkCompare
    split <;> infer_instance

theorem buildCompareSortKey_trans (indexKeyLength : Nat) {comparePK : Key → Key → Ordering}
    (keys : Std.TransCmp comparePK) {indexComparators : List (Cell → Cell → Ordering)}
    (lawful : ∀ cmp ∈ indexComparators, Std.TransCmp cmp) :
    Std.TransCmp (buildCompareSortKey indexKeyLength comparePK indexComparators) := by
  have columns : ∀ cmp ∈ (range indexKeyLength).map fun position =>
      indexComparators[position]?.getD (compareCells BINARY_COLLATION), Std.TransCmp cmp := by
    intro cmp member
    obtain ⟨position, -, rfl⟩ := mem_map.mp member
    cases found : indexComparators[position]? with
    | none => exact inferInstanceAs (Std.TransCmp (compareCells BINARY_COLLATION))
    | some cmp => exact lawful cmp (mem_of_getElem? found)
  have tuples := transCmp_tuple columns
  exact inferInstanceAs (Std.TransCmp (compareLex _ _))

include serves

theorem compareSortKey_trans : Std.TransCmp (table.buildMergeConfig indexInfo).compareSortKey := by
  have keys := getComparePK_trans serves
  cases indexInfo with
  | primary reverse => exact inferInstanceAs (Std.TransCmp (directed reverse _))
  | secondary indexName keyColumns reverse =>
    have columns : ∀ cmp ∈ (table.getIndexComparator indexName).getD
        (table.buildDescriptorComparators keyColumns), Std.TransCmp cmp := by
      cases given : table.getIndexComparator indexName with
      | some comparators => exact serves.comparesIndexKeys indexName comparators given
      | none =>
        intro cmp member
        obtain ⟨column, -, rfl⟩ := mem_map.mp member
        split <;> infer_instance
    have order := buildCompareSortKey_trans keyColumns.length keys columns
    exact inferInstanceAs (Std.TransCmp (directed reverse
      (buildCompareSortKey keyColumns.length table.getComparePK _)))

/-- The order of the merged scan is transitive. -/
theorem scanOrder_trans : Std.TransCmp (table.scanOrder indexInfo) := by
  have lawful := compareSortKey_trans serves
  exact inferInstanceAs (Std.TransCmp (via _ _))

omit serves

/-- Rows at one place of the scan have one key. -/
theorem getComparePK_of_scanOrder {first second : Row}
    (same : table.scanOrder indexInfo first second = .eq) :
    table.getComparePK (table.schema.primaryKeyFromRow first)
      (table.schema.primaryKeyFromRow second) = .eq := by
  cases indexInfo with
  | primary reverse => exact directed_eq_eq.mp same
  | secondary indexName keyColumns reverse =>
    have keys := (directed_eq_eq.mp same)
    unfold buildCompareSortKey at keys
    simp only [compareLex, Ordering.then_eq_eq, via] at keys
    have length : ∀ row, (keyOf keyColumns row).length = keyColumns.length :=
      fun row => length_map _
    simpa [buildMergeConfig, drop_left' (length _)] using keys.2

variable {row : Row}

theorem key_mem_of_staged (staged : overlayRow ∈ table.overlayRows) :
    table.schema.primaryKeyFromRow overlayRow ∈ table.keys :=
  mem_map_of_mem (mem_append_left _ staged)

theorem key_mem_of_underlying (stored : row ∈ table.underlyingRows) :
    table.schema.primaryKeyFromRow row ∈ table.keys :=
  mem_map_of_mem (mem_append_right _ stored)

theorem shownRow_eq_some {schema : TableSchema} :
    shownRow schema overlayRow = some row ↔
      isTombstone schema overlayRow = false ∧ dataRow schema overlayRow = row := by
  unfold shownRow
  cases isTombstone schema overlayRow <;> simp

include serves

theorem key_of_shownRow (shown : shownRow table.schema overlayRow = some row) :
    table.schema.primaryKeyFromRow row = table.schema.primaryKeyFromRow overlayRow := by
  rw [← (shownRow_eq_some.mp shown).2]
  exact primaryKeyFromRow_dataRow serves.keyInColumns overlayRow

theorem key_mem_of_merged
    (merged : row ∈ mergedView table.schema table.underlyingRows table.overlayRows) :
    table.schema.primaryKeyFromRow row ∈ table.keys := by
  obtain ⟨stored, -⟩ | ⟨overlayRow, staged, shown⟩ :=
    (mem_mergedView serves.keyInColumns serves.underlyingOrdered serves.overlayOrdered).mp merged
  · exact key_mem_of_underlying stored
  · rw [key_of_shownRow serves shown]
    exact key_mem_of_staged staged

theorem nodup_queryUnderlying : (table.queryUnderlying filterInfo).Nodup := by
  have lawful := scanOrder_trans serves
  refine serves.servedInOrder.imp fun {first second} below same => ?_
  have self : table.scanOrder indexInfo second second = .eq := Std.ReflCmp.compare_self
  rw [same, self] at below
  cases below

theorem nodup_map_dataRow {rows : List Row} (staged : ∀ row ∈ rows, row ∈ table.overlayRows) :
    (rows.map (dataRow table.schema)).Nodup ↔ rows.Nodup := by
  refine ⟨Nodup.of_map _, fun once => once.map_on fun first inFirst second inSecond same => ?_⟩
  -- A staged row is known by what it shows.
  apply serves.overlayOrdered.eq_of_key_eq (staged _ inFirst) (staged _ inSecond)
  rw [← primaryKeyFromRow_dataRow serves.keyInColumns first, same,
    primaryKeyFromRow_dataRow serves.keyInColumns second]
  exact Std.ReflCmp.compare_self

/-- A key is staged at most once. -/
theorem staged_eq_of_key {first second : Row} (inFirst : first ∈ table.overlayRows)
    (inSecond : second ∈ table.overlayRows)
    (atFirst : table.schema.comparePrimaryKeys (table.schema.primaryKeyFromRow first)
      (table.schema.primaryKeyFromRow row) = .eq)
    (atSecond : table.schema.comparePrimaryKeys (table.schema.primaryKeyFromRow second)
      (table.schema.primaryKeyFromRow row) = .eq) : first = second :=
  serves.overlayOrdered.eq_of_key_eq inFirst inSecond
    (Std.TransCmp.eq_trans atFirst (Std.OrientedCmp.eq_symm atSecond))

theorem compare_of_shownRow (shown : shownRow table.schema overlayRow = some row) :
    table.schema.comparePrimaryKeys (table.schema.primaryKeyFromRow overlayRow)
      (table.schema.primaryKeyFromRow row) = .eq := by
  rw [key_of_shownRow serves shown]
  exact Std.ReflCmp.compare_self

-- A scan shows the staged rows it has heard of and the committed rows at no key of theirs.
variable {result shown : List Row} {free : Row → Bool} (heard : Row → Prop)
  (split : result.Perm (shown ++ (table.queryUnderlying filterInfo).filter free))
  (shows : ∀ row, row ∈ shown ↔ (∃ overlayRow ∈ table.overlayRows, heard overlayRow ∧
    shownRow table.schema overlayRow = some row) ∧ table.InWindow filterInfo row)
  (frees : ∀ row ∈ table.underlyingRows, table.InWindow filterInfo row →
    (free row = true ↔ ∀ overlayRow ∈ table.overlayRows, heard overlayRow →
      table.schema.comparePrimaryKeys (table.schema.primaryKeyFromRow overlayRow)
        (table.schema.primaryKeyFromRow row) ≠ .eq))

include split shows frees

/-- What a scan of the overlay and the underlying table returns. -/
theorem mem_scan (row : Row) : row ∈ result ↔
    (∃ overlayRow ∈ table.overlayRows, heard overlayRow ∧
      shownRow table.schema overlayRow = some row) ∧ table.InWindow filterInfo row ∨
    (row ∈ table.underlyingRows ∧ table.InWindow filterInfo row) ∧
      ∀ overlayRow ∈ table.overlayRows, heard overlayRow →
        table.schema.comparePrimaryKeys (table.schema.primaryKeyFromRow overlayRow)
          (table.schema.primaryKeyFromRow row) ≠ .eq := by
  rw [split.mem_iff, mem_append, shows, mem_filter, serves.served]
  exact or_congr_right (and_congr_right fun served => frees row served.1 served.2)

/-- The scan has the rows of the merged view exactly if the staged rows it has not heard of
are harmless. -/
theorem scan_rows_iff :
    (∀ row, row ∈ result ↔ row ∈ mergedView table.schema table.underlyingRows table.overlayRows ∧
      table.InWindow filterInfo row) ↔
    ∀ overlayRow ∈ table.overlayRows, ¬ heard overlayRow →
      table.Harmless filterInfo overlayRow := by
  have inView : ∀ row, row ∈ mergedView table.schema table.underlyingRows table.overlayRows ↔ _ :=
    fun row => mem_mergedView serves.keyInColumns serves.underlyingOrdered serves.overlayOrdered
  have inScan := mem_scan serves heard split shows frees
  constructor
  · intro exact overlayRow staged unheard
    constructor
    · intro row stored inside same
      have apart : ∀ other ∈ table.overlayRows, heard other → table.schema.comparePrimaryKeys
          (table.schema.primaryKeyFromRow other) (table.schema.primaryKeyFromRow row) ≠ .eq := by
        intro other stagedToo isHeard sameToo
        exact unheard (staged_eq_of_key serves staged stagedToo same sameToo ▸ isHeard)
      have merged := ((exact row).mp ((inScan row).mpr (.inr ⟨⟨stored, inside⟩, apart⟩))).1
      obtain ⟨-, alone⟩ | ⟨other, stagedToo, showsRow⟩ := (inView row).mp merged
      · exact absurd same (alone overlayRow staged)
      · rwa [staged_eq_of_key serves staged stagedToo same (compare_of_shownRow serves showsRow)]
    · intro row showsRow inside
      have scanned :=
        (exact row).mpr ⟨(inView row).mpr (.inr ⟨overlayRow, staged, showsRow⟩), inside⟩
      obtain ⟨⟨other, stagedToo, isHeard, showsToo⟩, -⟩ | ⟨⟨stored, -⟩, -⟩ :=
        (inScan row).mp scanned
      · have equal := staged_eq_of_key serves staged stagedToo (compare_of_shownRow serves showsRow)
          (compare_of_shownRow serves showsToo)
        exact absurd (equal ▸ isHeard) unheard
      · exact stored
  · intro harmless row
    rw [inScan, inView]
    constructor
    · rintro (⟨⟨overlayRow, staged, -, showsRow⟩, inside⟩ | ⟨⟨stored, inside⟩, apart⟩)
      · exact ⟨.inr ⟨overlayRow, staged, showsRow⟩, inside⟩
      · refine ⟨?_, inside⟩
        by_contra hidden
        rw [not_or] at hidden
        refine hidden.1 ⟨stored, fun overlayRow staged same => ?_⟩
        have unheard : ¬ heard overlayRow := fun isHeard => apart overlayRow staged isHeard same
        exact hidden.2 ⟨overlayRow, staged, (harmless overlayRow staged unheard).hides row stored
          inside same⟩
    · rintro ⟨⟨stored, alone⟩ | ⟨overlayRow, staged, showsRow⟩, inside⟩
      · exact .inr ⟨⟨stored, inside⟩, fun overlayRow staged _ => alone overlayRow staged⟩
      · by_cases isHeard : heard overlayRow
        · exact .inl ⟨⟨overlayRow, staged, isHeard, showsRow⟩, inside⟩
        · refine .inr ⟨⟨(harmless overlayRow staged isHeard).shows row showsRow inside, inside⟩, ?_⟩
          intro other stagedToo heardToo same
          exact isHeard (staged_eq_of_key serves stagedToo staged same
            (compare_of_shownRow serves showsRow) ▸ heardToo)

theorem nodup_scan_iff : result.Nodup ↔ shown.Nodup := by
  rw [split.nodup_iff, nodup_append']
  refine ⟨And.left, fun once => ⟨once, (nodup_queryUnderlying serves).filter _, ?_⟩⟩
  intro row listed kept
  obtain ⟨⟨overlayRow, staged, isHeard, showsRow⟩, inside⟩ := (shows row).mp listed
  obtain ⟨served, isFree⟩ := mem_filter.mp kept
  exact (frees row ((serves.served row).mp served).1 inside).mp isFree overlayRow staged isHeard
    (compare_of_shownRow serves showsRow)

/-- Such a scan in order is exact unless it shows a staged row twice or has not heard of one
that matters. -/
theorem mergedExact_iff
    (ordered : result.Pairwise fun first second => (table.scanOrder indexInfo first second).isLE) :
    table.MergedExact filterInfo indexInfo result ↔ shown.Nodup ∧
      ∀ overlayRow ∈ table.overlayRows, ¬ heard overlayRow →
        table.Harmless filterInfo overlayRow := by
  rw [← nodup_scan_iff serves heard split shows frees,
    ← scan_rows_iff serves heard split shows frees]
  refine ⟨fun exact => ⟨exact.once, exact.rows⟩, fun ⟨once, rows⟩ => ⟨rows, once, ?_⟩⟩
  refine (ordered.and once).imp_of_mem fun {first second} first_mem second_mem ⟨below, different⟩ =>
    ?_
  cases order : table.scanOrder indexInfo first second with
  | lt => rfl
  | eq =>
    -- Rows of the merged view at one place of the scan are one row.
    have first_shown := ((rows _).mp first_mem).1
    have second_shown := ((rows _).mp second_mem).1
    have equal := (serves.sameKeys _ (key_mem_of_merged serves first_shown) _
      (key_mem_of_merged serves second_shown)).mp (getComparePK_of_scanOrder order)
    exact absurd ((rowsOrdered_mergedView serves.underlyingOrdered table.overlayRows).eq_of_key_eq
      first_shown second_shown equal) different
  | gt =>
    rw [order] at below
    cases below

end Order

variable {reverse : Bool}

section Secondary

variable {indexName : String} {keyColumns : List KeyColumn}

variable (serves : table.Serves filterInfo (.secondary indexName keyColumns reverse))

include serves

theorem nodup_shown : ((table.overlayRows.filterMap (shownRow table.schema)).filter
    (table.buildConstraintMatcher filterInfo)).Nodup := by
  have live : table.overlayRows.filterMap (shownRow table.schema) =
      (table.overlayRows.filter fun row => !isTombstone table.schema row).map
        (dataRow table.schema) := by
    induction table.overlayRows with
    | nil => rfl
    | cons row rows ih =>
      rw [filterMap_cons, filter_cons, ih, shownRow]
      cases isTombstone table.schema row <;> rfl
  rw [live]
  exact ((nodup_map_dataRow serves fun _ => mem_of_mem_filter).mpr
    (serves.overlayOrdered.nodup.filter _)).filter _

end Secondary

section Primary

/-- What the overlay's answer contributes before it is sorted. -/
def stagedEntry (table : MergedTable) (filterInfo : FilterInfo) (overlayRow : Row) :
    Option MergeEntry :=
  let pk := table.schema.primaryKeyFromRow overlayRow
  if isTombstone table.schema overlayRow then some ⟨none, pk⟩
  else if table.buildConstraintMatcher filterInfo (dataRow table.schema overlayRow) then
    some ⟨some (dataRow table.schema overlayRow), pk⟩
  else none

variable (compareSortKey : Key → Key → Ordering) {entry : MergeEntry}

/-- The entries are those of the overlay rows, in some order. -/
theorem entries_perm :
    (table.queryOverlayAsMergeEntries (adaptFilterInfoForOverlay filterInfo) compareSortKey).Perm
      ((table.queryOverlay (adaptFilterInfoForOverlay filterInfo)).filterMap
        (table.stagedEntry filterInfo)) := by
  unfold queryOverlayAsMergeEntries stagedEntry
  simp only [matcher_adapt]
  exact perm_insertionSort _ _

theorem of_stagedEntry (listed : table.stagedEntry filterInfo overlayRow = some entry) :
    entry.sortKey = table.schema.primaryKeyFromRow overlayRow ∧
      ∀ row, entry.row = some row → dataRow table.schema overlayRow = row := by
  unfold stagedEntry at listed
  split at listed
  · cases listed
    exact ⟨rfl, nofun⟩
  · split at listed <;> cases listed
    exact ⟨rfl, fun _ => Option.some.inj⟩

theorem shown_entries (rows : List Row) :
    (rows.filterMap (table.stagedEntry filterInfo)).filterMap MergeEntry.row =
      (rows.filter fun overlayRow => !isTombstone table.schema overlayRow &&
        table.buildConstraintMatcher filterInfo (dataRow table.schema overlayRow)).map
          (dataRow table.schema) := by
  induction rows with
  | nil => rfl
  | cons row rows ih =>
    rw [filterMap_cons, filter_cons]
    unfold stagedEntry at ih ⊢
    cases isTombstone table.schema row with
    | true => exact ih
    | false =>
      cases table.buildConstraintMatcher filterInfo (dataRow table.schema row) with
      | false => exact ih
      | true => exact congrArg (dataRow table.schema row :: ·) ih

variable (primary : table.ServesPrimary filterInfo)

include primary in
theorem entry_staged {compareSortKey : Key → Key → Ordering}
    (member : entry ∈
      table.queryOverlayAsMergeEntries (adaptFilterInfoForOverlay filterInfo) compareSortKey) :
    ∃ overlayRow ∈ table.overlayRows, table.stagedEntry filterInfo overlayRow = some entry := by
  obtain ⟨overlayRow, answered, listed⟩ := mem_filterMap.mp ((entries_perm _).mem_iff.mp member)
  exact ⟨overlayRow, primary.staged overlayRow answered, listed⟩

/-- The entries are sorted. -/
theorem entries_ordered [Std.TransCmp compareSortKey] (asked : FilterInfo) :
    (table.queryOverlayAsMergeEntries asked compareSortKey).Pairwise
      fun first second => (compareSortKey first.sortKey second.sortKey).isLE :=
  pairwise_insertionSort (via MergeEntry.sortKey compareSortKey) _

variable (serves : table.Serves filterInfo (.primary reverse))

include serves

/-- The underlying scan is in the order of the keys. -/
theorem servedInKeyOrder :
    (table.queryUnderlying filterInfo).Pairwise fun first second =>
      directed reverse table.getComparePK (table.schema.primaryKeyFromRow first)
        (table.schema.primaryKeyFromRow second) = .lt :=
  serves.servedInOrder

include primary

/-- A committed row of the window is shadowed by the entry of a staged row exactly if
a listed row is staged at its key: the window holds of both rows or of neither. -/
theorem unshadowed_iff (row : Row) (stored : row ∈ table.underlyingRows)
    (inside : table.InWindow filterInfo row) :
    ShadowMerge.unshadowed MergeEntry.sortKey table.schema.primaryKeyFromRow
        (directed reverse table.getComparePK)
        (table.queryOverlayAsMergeEntries (adaptFilterInfoForOverlay filterInfo)
          (directed reverse table.getComparePK)) row = true ↔
      ∀ overlayRow ∈ table.overlayRows,
        overlayRow ∈ table.queryOverlay (adaptFilterInfoForOverlay filterInfo) →
        table.schema.comparePrimaryKeys (table.schema.primaryKeyFromRow overlayRow)
          (table.schema.primaryKeyFromRow row) ≠ .eq := by
  unfold unshadowed
  rw [all_eq_true]
  constructor
  · intro apart overlayRow staged answered same
    have agree := primary.keyWindow overlayRow (mem_append_left _ staged) row
      (mem_append_right _ stored) same
    have both : table.buildConstraintMatcher filterInfo (dataRow table.schema overlayRow) =
        table.buildConstraintMatcher filterInfo row := by
      apply matcher_congr
      intro index scanned column looked
      obtain ⟨inTable, equal⟩ := agree index scanned column looked
      rw [cellAt_dataRow overlayRow inTable]
      exact equal
    have insideToo : table.InWindow filterInfo (dataRow table.schema overlayRow) := by
      rw [← matcher_iff, both, matcher_iff]
      exact inside
    obtain ⟨entry, listed⟩ : ∃ entry, table.stagedEntry filterInfo overlayRow = some entry := by
      simp only [stagedEntry, matcher_iff, insideToo]
      split <;> exact ⟨_, rfl⟩
    have member := (entries_perm (directed reverse table.getComparePK)).mem_iff.mpr
      (mem_filterMap.mpr ⟨overlayRow, answered, listed⟩)
    apply bne_iff_ne.mp (apart entry member)
    rw [directed_eq_eq, (of_stagedEntry listed).1]
    exact (serves.sameKeys _ (key_mem_of_staged staged) _ (key_mem_of_underlying stored)).mpr same
  · intro apart entry member
    obtain ⟨overlayRow, answered, listed⟩ := mem_filterMap.mp ((entries_perm _).mem_iff.mp member)
    have staged := primary.staged overlayRow answered
    rw [bne_iff_ne, Ne, directed_eq_eq, (of_stagedEntry listed).1,
      serves.sameKeys _ (key_mem_of_staged staged) _ (key_mem_of_underlying stored)]
    exact apart overlayRow staged answered

omit serves in
theorem mem_listedRows (row : Row) :
    row ∈ (table.listedRows filterInfo).map (dataRow table.schema) ↔
      (∃ overlayRow ∈ table.overlayRows,
        overlayRow ∈ table.queryOverlay (adaptFilterInfoForOverlay filterInfo) ∧
          shownRow table.schema overlayRow = some row) ∧ table.InWindow filterInfo row := by
  simp only [listedRows, mem_map, mem_filter, Bool.and_eq_true, Bool.not_eq_true', matcher_iff,
    shownRow_eq_some]
  constructor
  · rintro ⟨overlayRow, ⟨answered, live, inside⟩, rfl⟩
    exact ⟨⟨overlayRow, primary.staged overlayRow answered, answered, live, rfl⟩, inside⟩
  · rintro ⟨⟨overlayRow, -, answered, live, rfl⟩, inside⟩
    exact ⟨overlayRow, ⟨answered, live, inside⟩, rfl⟩

/-- The merged scan of the primary key is in order. -/
theorem ordered_primary :
    (table.mergedPrimaryQuery filterInfo (table.buildMergeConfig (.primary reverse))).Pairwise
      fun first second => (table.scanOrder (.primary reverse) first second).isLE := by
  have lawful : Std.TransCmp (directed reverse table.getComparePK) :=
    compareSortKey_trans serves
  apply merge_ordered (entries_ordered _ _) (servedInKeyOrder serves)
  intro entry member row shown
  obtain ⟨overlayRow, -, listed⟩ := entry_staged primary member
  rw [(of_stagedEntry listed).1, ← (of_stagedEntry listed).2 row shown]
  rw [primaryKeyFromRow_dataRow serves.keyInColumns]
  exact Std.ReflCmp.compare_self

end Primary

/-- A letter is committed and another one staged, each in a memory table. -/
def lettersMerged : MergedTable where
  schema := lettersSchema
  tableName := "t"
  underlyingRows := [[⟨.string [98], rfl⟩]]
  overlayRows := [[⟨.string [100], rfl⟩, liveFlag]]
  comparePrimaryKey := some lettersSchema.comparePrimaryKeys
  getIndexComparator _ := none
  -- a primary scan serializes no key
  pkKeyOf _ := ""
  queryUnderlying filterInfo :=
    ((Layer.scanLayer lettersSchema ⟨[[⟨.string [98], rfl⟩]], []⟩
      ((ScanShape.multiRange filterInfo.ranges).toPlan lettersSchema none)).toOption).getD []
  queryOverlay filterInfo :=
    let overlaySchema := createOverlaySchema "_tombstone" "_overlay_t_1" lettersSchema
    ((Layer.scanLayer overlaySchema ⟨[[⟨.string [100], rfl⟩, liveFlag]], []⟩
      ((ScanShape.multiRange filterInfo.ranges).toPlan overlaySchema none)).toOption).getD []

/-- The key is in one of some ranges. -/
def keyInRanges (ranges : List ScanPlanRange) : FilterInfo where
  accessPath := .index ⟨"_primary_", .primary, [⟨0, false, none⟩], false⟩ .multiRangeSeek
  constraints := []
  ranges := ranges

variable (ranges : List ScanPlanRange)

theorem lettersMerged_serves
    (scanned : lettersMerged.queryUnderlying (keyInRanges ranges) = lettersMerged.underlyingRows)
    (inside : lettersMerged.buildConstraintMatcher (keyInRanges ranges) [⟨.string [98], rfl⟩] =
      true) :
    lettersMerged.Serves (keyInRanges ranges) (.primary false) where
  resolved := rfl
  keyInColumns := by
    unfold KeyInColumns
    decide
  underlyingOrdered := pairwise_singleton _ _
  overlayOrdered := pairwise_singleton _ _
  comparesKeys cmp given := by
    obtain rfl := Option.some.inj given
    infer_instance
  comparesIndexKeys _ _ given := nomatch given
  sameKeys _ _ _ _ := Iff.rfl
  served row := by
    rw [scanned]
    refine ⟨fun stored => ⟨stored, ?_⟩, And.left⟩
    rw [mem_singleton.mp stored, ← matcher_iff]
    exact inside
  servedInOrder := by
    rw [scanned]
    exact pairwise_singleton _ _

theorem lettersMerged_servesPrimary
    (scanned : ∀ row, row ∈ lettersMerged.queryOverlay (keyInRanges ranges) ↔
      row ∈ lettersMerged.overlayRows) :
    lettersMerged.ServesPrimary (keyInRanges ranges) where
  keyWindow := by
    intro first _ second _ same index scans column looked
    obtain rfl := Option.some.inj scans
    obtain rfl := mem_singleton.mp looked
    exact ⟨by decide, (Ordering.then_eq_eq.mp same).1⟩
  staged row answered := (scanned row).mp answered

end MergedTable

end Quereus.Isolation
