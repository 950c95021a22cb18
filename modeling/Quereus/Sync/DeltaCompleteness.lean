import Quereus.Sync.DeltaGroups

/-! # A peer that pulls to the end misses nothing

One reply holds everything filed up to its watermark. The log scan and the
grouping cut a reply at the same kind of boundary, the end of a group, and the
facts of a group are contiguous in filing order; so whatever the scan did not
read lies after the last group the reply keeps. From this the pull loop delivers
every live record, migration and forwardable hold, and ends.
-/

namespace Quereus.Sync.Delta

open Quereus.Sync List PagedRead FilingGroup KeyedList

section Store

variable {ι : Type} [DecidableEq ι]

def FiledChange.filedAt (filed : FiledChange) : FiledAt :=
  ⟨filed.change.change.hlc, filed.position⟩

/-- Where the log entries, the migrations and the holds to forward are filed. -/
def SyncStore.filed (store : SyncStore ι) : Set FiledAt :=
  {filed | (∃ entry ∈ store.changeLog, entry.filedAt = filed) ∨
    (∃ migration ∈ store.schemaMigrations, (FiledFact.migration migration).filedAt = filed) ∨
    ∃ entry ∈ store.quarantine, entry.forwardable ∧
      ⟨entry.change.change.hlc, holdPosition entry⟩ = filed}

/-- The filing discipline of a store. It is an assumption: `commitChangeMetadata` and the local
recording write a record together with its log entry, at positions of a fresh tick and in the order
of the transactions, but that every writer keeps the discipline is not derived from them here. -/
structure WellFiled (store : SyncStore ι) : Prop where
  versions_keyed : (store.columnVersions.map Prod.fst).Nodup
  tombstones_keyed : (store.tombstones.map Prod.fst).Nodup
  /-- The log is read in the order of its keys, which start with the position. -/
  log_sorted : store.changeLog.Pairwise fun first second => first.position ≤ second.position
  /-- Every live record has an entry at its own position with its own timestamp. -/
  version_logged : ∀ generation identity column version,
    ((generation, identity, column), version) ∈ store.columnVersions →
    (store.nameOf generation).isSome →
      ⟨version.position, version.hlc, generation, identity, some column⟩ ∈ store.changeLog
  tombstone_logged : ∀ generation identity tombstone,
    ((generation, identity), tombstone) ∈ store.tombstones →
    (store.nameOf generation).isSome →
      ⟨tombstone.position, tombstone.hlc, generation, identity, none⟩ ∈ store.changeLog
  /-- An entry that is not stale carries the timestamp of its record. -/
  origin_logged : ∀ entry ∈ store.changeLog, ∀ change,
    resolveLogEntry store entry = some change → entry.hlc = change.change.hlc
  /-- The facts of one transaction filed at one tick are contiguous. -/
  contiguous : Contiguous FiledAt.position filingGroupKey store.filed

variable {store : SyncStore ι} {wanted : HLC → Bool}

variable {change : FiledChange} {batchSize : Nat} {since : Option HLC}

variable (store) in
/-- A live record: the entry it has in the log, and the change it is reported as. -/
inductive LiveRecord : ChangeLogEntry ι → FiledChange → Prop
  | version {generation : String} {identity : ι} {column : String} {version : ColumnVersion}
      {name : TableName} (stored : ((generation, identity, column), version) ∈ store.columnVersions)
      (named : store.nameOf generation = some name) :
      LiveRecord ⟨version.position, version.hlc, generation, identity, some column⟩
        ⟨columnChange name column version, version.position⟩
  | tombstone {generation : String} {identity : ι} {tombstone : Tombstone} {name : TableName}
      (stored : ((generation, identity), tombstone) ∈ store.tombstones)
      (named : store.nameOf generation = some name) :
      LiveRecord ⟨tombstone.position, tombstone.hlc, generation, identity, none⟩
        ⟨rowDeletion name tombstone, tombstone.position⟩

variable {entry : ChangeLogEntry ι}

omit [DecidableEq ι] in
theorem LiveRecord.filedAt_eq (record : LiveRecord store entry change) :
    change.filedAt = entry.filedAt := by
  cases record <;> rfl

omit [DecidableEq ι] in
theorem mem_collectAllChanges : change ∈ collectAllChanges store wanted ↔
    ∃ entry, LiveRecord store entry change ∧ wanted entry.hlc := by
  simp only [collectAllChanges, mem_append, mem_filterMap, Option.bind_eq_some_iff,
    Option.ite_none_right_eq_some, Option.some.injEq]
  constructor
  · rintro (⟨entry, stored, name, named, fromWanted, rfl⟩ |
      ⟨entry, stored, name, named, fromWanted, rfl⟩)
    · exact ⟨_, .version stored named, fromWanted⟩
    · exact ⟨_, .tombstone stored named, fromWanted⟩
  · rintro ⟨_, ⟨stored, named⟩ | ⟨stored, named⟩, fromWanted⟩
    · exact .inl ⟨_, stored, _, named, fromWanted, rfl⟩
    · exact .inr ⟨_, stored, _, named, fromWanted, rfl⟩

variable (filed : WellFiled store)

include filed in
/-- The log leads to the live records and to nothing else. -/
theorem live_iff :
    entry ∈ store.changeLog ∧ liveChange store wanted entry = some change ↔
      LiveRecord store entry change ∧ wanted entry.hlc := by
  constructor
  · rintro ⟨logged, live⟩
    obtain ⟨fromWanted, live⟩ := Option.ite_none_right_eq_some.mp live
    obtain ⟨named, resolved, rfl⟩ := Option.map_eq_some_iff.mp live
    have origin := filed.origin_logged entry logged named resolved
    obtain ⟨position, hlc, generation, identity, column⟩ := entry
    cases column <;>
      simp only [resolveLogEntry, Option.bind_eq_bind, Option.bind_eq_some_iff,
        Option.ite_none_right_eq_some, Option.some.injEq] at resolved <;>
      obtain ⟨name, found, record, stored, rfl, rfl⟩ := resolved <;> cases origin
    · exact ⟨.tombstone (mem_of_lookup stored) found, fromWanted⟩
    · exact ⟨.version (mem_of_lookup stored) found, fromWanted⟩
  · rintro ⟨⟨stored, found⟩ | ⟨stored, found⟩, fromWanted⟩ <;>
      rw [liveChange, if_pos fromWanted, resolveLogEntry, found]
    · refine ⟨filed.version_logged _ _ _ _ stored (Option.isSome_of_eq_some found), ?_⟩
      simp [lookup_of_mem filed.versions_keyed stored]
    · refine ⟨filed.tombstone_logged _ _ _ stored (Option.isSome_of_eq_some found), ?_⟩
      simp [lookup_of_mem filed.tombstones_keyed stored]

/-- The records a pull reads. -/
def dataChanges (store : SyncStore ι) (batchSize : Nat) (wanted : HLC → Bool) :
    Option HLC → List FiledChange
  | some position => collectChangesSince store batchSize (changeLogSince store position) wanted
  | none => collectAllChanges store wanted

/-- A scan that passes a group has read something: a batch is not empty, or every wanted entry of
the log leads to a record. -/
def ReadsOn (store : SyncStore ι) (batchSize : Nat) (wanted : HLC → Bool) : Prop :=
  0 < batchSize ∨ ∀ entry ∈ store.changeLog, wanted entry.hlc → (resolveLogEntry store entry).isSome

/-- What the records read leave unread: nothing, or only what lies at or after the
entry the scan stopped at, which belongs to none of the groups read. -/
def LeavesNoGap (store : SyncStore ι) (batchSize : Nat) (wanted : HLC → Bool)
    (since : Option HLC) (collected : List FiledChange) : Prop :=
  (∀ change ∈ collectAllChanges store wanted, After since change.position →
    change ∈ collected) ∨
  ∃ next ∈ store.filed, collected ≠ [] ∧ batchSize ≤ collected.length ∧
    (∀ change ∈ collected, change.position ≤ next.position ∧
      filingGroupKey change.filedAt ≠ filingGroupKey next) ∧
    ∀ change ∈ collectAllChanges store wanted, After since change.position →
      change ∉ collected → next.position ≤ change.position

include filed in
/-- A scan from a position reads a part of the log after it. It stops only between two groups,
with a full batch read. -/
theorem dataChanges_some (batchSize : Nat) (wanted : HLC → Bool) (position : HLC) :
    ∃ scanned rest, dataChanges store batchSize wanted (some position) =
        scanned.filterMap (liveChange store wanted) ∧
      (∀ entry, entry ∈ scanned ++ rest ↔ entry ∈ store.changeLog ∧ position < entry.position) ∧
      (scanned ++ rest).Pairwise (fun first second => first.position ≤ second.position) ∧
      ∀ next ∈ rest.head?, batchSize ≤ (scanned.filterMap (liveChange store wanted)).length ∧
        ∃ group, groupAfter wanted none scanned = some group ∧
          group ≠ filingGroupKey next.filedAt := by
  obtain ⟨scanned, rest, split, taken, stopped⟩ :=
    scanLog_spec store batchSize wanted ⟨0, none, 0⟩ (changeLogSince store position)
  refine ⟨scanned, rest, taken, fun entry => ?_, split ▸ filed.log_sorted.filter _, ?_⟩
  · rw [← split, changeLogSince, mem_filter, decide_eq_true_eq]
  · simpa [ScanState.total] using stopped

include filed in
theorem mem_dataChanges (member : change ∈ dataChanges store batchSize wanted since) :
    change ∈ collectAllChanges store wanted ∧ After since change.position := by
  cases since with
  | none => exact ⟨member, after_none _⟩
  | some position =>
    obtain ⟨scanned, rest, taken, listed, -, -⟩ := dataChanges_some filed batchSize wanted position
    obtain ⟨entry, inside, live⟩ := mem_filterMap.mp (taken ▸ member)
    obtain ⟨logged, later⟩ := (listed entry).mp (mem_append_left rest inside)
    have record := (live_iff filed).mp ⟨logged, live⟩
    have here : change.position = entry.position := congrArg FiledAt.position record.1.filedAt_eq
    exact ⟨mem_collectAllChanges.mpr ⟨entry, record⟩, after_some.mpr (here ▸ later)⟩

include filed in
theorem dataChanges_leavesNoGap (readsOn : ReadsOn store batchSize wanted) (since : Option HLC) :
    LeavesNoGap store batchSize wanted since (dataChanges store batchSize wanted since) := by
  cases since with
  | none => exact Or.inl fun change member _ => member
  | some position =>
    obtain ⟨scanned, rest, taken, listed, sorted, stopped⟩ :=
      dataChanges_some filed batchSize wanted position
    obtain ⟨scannedSorted, restSorted, below⟩ := pairwise_append.mp sorted
    have stored : ∀ entry ∈ scanned ++ rest, entry.filedAt ∈ store.filed :=
      fun entry inside => Or.inl ⟨entry, ((listed entry).mp inside).1, rfl⟩
    -- A record the scan missed is behind the entry it stopped at.
    have missed : ∀ change ∈ collectAllChanges store wanted, After (some position) change.position →
        change ∉ dataChanges store batchSize wanted (some position) →
          ∃ entry ∈ rest, entry.position = change.position := by
      intro change member later unread
      obtain ⟨entry, record⟩ := mem_collectAllChanges.mp member
      obtain ⟨logged, live⟩ := (live_iff filed).mpr record
      have here : change.position = entry.position := congrArg FiledAt.position record.1.filedAt_eq
      rcases mem_append.mp ((listed entry).mpr ⟨logged, here ▸ after_some.mp later⟩) with
        inScanned | inRest
      · exact absurd (taken ▸ mem_filterMap.mpr ⟨entry, inScanned, live⟩) unread
      · exact ⟨entry, inRest, here.symm⟩
    cases rest with
    | nil =>
      refine Or.inl fun change member later => ?_
      by_contra unread
      obtain ⟨entry, inside, -⟩ := missed change member later unread
      cases inside
    | cons next rest =>
      obtain ⟨reached, group, inGroup, different⟩ := stopped next rfl
      obtain ⟨last, last_mem, last_wanted, last_group, above⟩ :=
        groupAfter_spec scannedSorted inGroup
      refine Or.inr ⟨next.filedAt, stored next (mem_append_right _ mem_cons_self), ?_,
        taken ▸ reached, ?_, ?_⟩
      · rcases readsOn with positive | resolves
        · exact taken ▸ ne_nil_of_length_pos (Nat.lt_of_lt_of_le positive reached)
        · obtain ⟨change, resolved⟩ := Option.isSome_iff_exists.mp
            (resolves last ((listed last).mp (mem_append_left _ last_mem)).1 last_wanted)
          have live : liveChange store wanted last = some ⟨change, last.position⟩ := by
            simp [liveChange, last_wanted, resolved]
          exact taken ▸ ne_nil_of_mem (mem_filterMap.mpr ⟨last, last_mem, live⟩)
      · intro change member
        obtain ⟨entry, inScanned, live⟩ := mem_filterMap.mp (taken ▸ member)
        have inside := mem_append_left (next :: rest) inScanned
        obtain ⟨record, fromWanted⟩ := (live_iff filed).mp ⟨((listed entry).mp inside).1, live⟩
        rw [record.filedAt_eq]
        refine ⟨(congrArg FiledAt.position record.filedAt_eq).trans_le
          (below entry inScanned next mem_cons_self), fun joined => ?_⟩
        -- The entry before the stop lies between two entries of one group.
        have between := filed.contiguous _ (stored entry inside)
          _ (stored last (mem_append_left _ last_mem))
          _ (stored next (mem_append_right _ mem_cons_self))
          (above entry inScanned fromWanted) (below last last_mem next mem_cons_self) joined
        exact different (last_group.symm.trans between)
      · intro change member later unread
        obtain ⟨entry, inside, here⟩ := missed change member later unread
        rw [← here]
        rcases mem_cons.mp inside with rfl | behind
        · exact le_refl _
        · exact (pairwise_cons.mp restSorted).1 entry behind

/-- The migrations a pull reads. -/
def pulledMigrations (store : SyncStore ι) (wanted : HLC → Bool) (since : Option HLC) :
    List SchemaMigration :=
  collectSchemaMigrations store fun migration =>
    wanted migration.hlc && decide (After since migration.filingPosition)

/-- Everything a pull reads. -/
def pulledFacts (store : SyncStore ι) (batchSize : Nat) (wanted : HLC → Bool)
    (since : Option HLC) : List FiledFact :=
  allFacts (dataChanges store batchSize wanted since ++
    collectForwardableChanges store wanted since)
    (pulledMigrations store wanted since)

/-- Everything a peer that starts from nothing is owed. -/
def owedFacts (store : SyncStore ι) (wanted : HLC → Bool) : List FiledFact :=
  allFacts (collectAllChanges store wanted ++ collectForwardableChanges store wanted none)
    (pulledMigrations store wanted none)

omit [DecidableEq ι] in
theorem mem_pulledMigrations {migration : SchemaMigration} :
    migration ∈ pulledMigrations store wanted since ↔
      migration ∈ pulledMigrations store wanted none ∧
        After since migration.filingPosition := by
  simp only [pulledMigrations, collectSchemaMigrations, mem_filter, Bool.and_eq_true,
    decide_eq_true_eq, after_none, and_true, and_assoc]

omit [DecidableEq ι] in
theorem mem_collectForwardableChanges :
    change ∈ collectForwardableChanges store wanted since ↔
      change ∈ collectForwardableChanges store wanted none ∧
        After since change.position := by
  simp only [collectForwardableChanges, mem_map, mem_filter, Bool.and_eq_true,
    decide_eq_true_eq, after_none, and_true]
  constructor
  · rintro ⟨entry, ⟨forwardable, kept, later⟩, rfl⟩
    exact ⟨⟨entry, ⟨forwardable, kept⟩, rfl⟩, later⟩
  · rintro ⟨⟨entry, ⟨forwardable, kept⟩, rfl⟩, later⟩
    exact ⟨entry, ⟨forwardable, kept, later⟩, rfl⟩

variable {fact : FiledFact}

include filed in
/-- Everything read is owed and lies after the watermark. -/
theorem mem_pulledFacts (read : fact ∈ pulledFacts store batchSize wanted since) :
    fact ∈ owedFacts store wanted ∧ After since fact.filedAt.position := by
  simp only [pulledFacts, owedFacts, allFacts, mem_append, mem_map] at read ⊢
  rcases read with ⟨change, record | held, rfl⟩ | ⟨migration, member, rfl⟩
  · obtain ⟨known, later⟩ := mem_dataChanges filed record
    exact ⟨.inl ⟨change, .inl known, rfl⟩, later⟩
  · obtain ⟨known, later⟩ := mem_collectForwardableChanges.mp held
    exact ⟨.inl ⟨change, .inr known, rfl⟩, later⟩
  · obtain ⟨known, later⟩ := mem_pulledMigrations.mp member
    exact ⟨.inr ⟨migration, known, rfl⟩, later⟩

/-- A fact that is owed and not read is a record the scan did not reach. -/
theorem unread_is_record (owed : fact ∈ owedFacts store wanted)
    (later : After since fact.filedAt.position)
    (unread : fact ∉ pulledFacts store batchSize wanted since) :
    ∃ change ∈ collectAllChanges store wanted, fact = .change change ∧
      change ∉ dataChanges store batchSize wanted since := by
  simp only [pulledFacts, owedFacts, allFacts, mem_append, mem_map] at owed unread
  rcases owed with ⟨change, record | held, rfl⟩ | ⟨migration, member, rfl⟩
  · exact ⟨change, record, rfl, fun read => unread (.inl ⟨change, .inl read, rfl⟩)⟩
  · have read := mem_collectForwardableChanges.mpr ⟨held, later⟩
    exact absurd (.inl ⟨change, .inr read, rfl⟩) unread
  · exact absurd (.inr ⟨migration, mem_pulledMigrations.mpr ⟨member, later⟩, rfl⟩) unread

include filed in
theorem filedAt_mem_of_owed (owed : fact ∈ owedFacts store wanted) :
    fact.filedAt ∈ store.filed := by
  simp only [owedFacts, allFacts, mem_append, mem_map] at owed
  rcases owed with ⟨change, record | held, rfl⟩ | ⟨migration, member, rfl⟩
  · obtain ⟨entry, record⟩ := mem_collectAllChanges.mp record
    exact Or.inl ⟨entry, ((live_iff filed).mpr record).1, record.1.filedAt_eq.symm⟩
  · obtain ⟨entry, kept, rfl⟩ := mem_map.mp held
    have forwardable := mem_filter.mp (mem_filter.mp kept).1
    exact Or.inr (Or.inr ⟨entry, forwardable.1, forwardable.2, rfl⟩)
  · exact Or.inr (Or.inl ⟨migration, (mem_filter.mp member).1, rfl⟩)

/-- The groups of a pull, in filing order. -/
def pulledGroups (store : SyncStore ι) (batchSize : Nat) (wanted : HLC → Bool)
    (since : Option HLC) : List FilingGroup :=
  groupByTransactionAndTick
    (dataChanges store batchSize wanted since ++ collectForwardableChanges store wanted since)
    (pulledMigrations store wanted since)

theorem pulledGroups_ne_nil (read : fact ∈ pulledFacts store batchSize wanted since) :
    pulledGroups store batchSize wanted since ≠ [] := by
  obtain ⟨group, listed, -⟩ := exists_group_of_fact read
  exact ne_nil_of_mem listed

include filed in
/-- The facts of the groups of a pull are stored facts. -/
theorem filed_of_pulledGroups :
    ∀ group ∈ pulledGroups store batchSize wanted since, ∀ fact ∈ group.filed,
      fact ∈ store.filed := by
  intro group listed fact inside
  obtain ⟨item, item_mem, rfl⟩ := mem_map.mp inside
  obtain ⟨key, -, members⟩ := exists_key_of_group listed
  exact filedAt_mem_of_owed filed (mem_pulledFacts filed ((members item).mp item_mem).1).1

/-- Changes that no later group holds are counted by the groups in front. -/
theorem length_le_of_front {front back : List FilingGroup} {collected more : List FiledChange}
    (shared : ((front ++ back).flatMap FilingGroup.changes).Perm (collected ++ more))
    (absent : ∀ change ∈ collected, ∀ group ∈ back, change ∉ group.changes) :
    collected.length ≤ (front.map fun group => group.changes.length).sum := by
  have behind : (back.flatMap changes).filter (fun change => decide (change ∈ collected)) =
      [] := by
    rw [filter_eq_nil_iff]
    intro change member inCollected
    obtain ⟨group, listed, inside⟩ := mem_flatMap.mp member
    exact absent change (of_decide_eq_true inCollected) group listed inside
  have kept : collected.filter (fun change => decide (change ∈ collected)) = collected :=
    filter_eq_self.mpr fun change member => decide_eq_true member
  have counts := (shared.filter fun change => decide (change ∈ collected)).length_eq
  rw [flatMap_append, filter_append, filter_append, behind, kept,
    append_nil, length_append] at counts
  calc collected.length
      ≤ ((front.flatMap changes).filter
          fun change => decide (change ∈ collected)).length := by omega
    _ ≤ (front.flatMap changes).length := length_filter_le _ _
    _ = (front.map fun group => group.changes.length).sum := length_flatMap

include filed in
/-- No unread record lies up to the end of the last group a reply keeps. -/
theorem lastPosition_lt_of_unread (readsOn : ReadsOn store batchSize wanted)
    {front dropped : List FilingGroup} {last : FilingGroup}
    (split : pulledGroups store batchSize wanted since = (front ++ [last]) ++ dropped)
    (below : front ≠ [] → (front.map fun group => group.changes.length).sum < batchSize)
    (record : change ∈ collectAllChanges store wanted)
    (later : After since change.position)
    (unread : change ∉ dataChanges store batchSize wanted since) :
    last.lastPosition < change.position := by
  rcases dataChanges_leavesNoGap filed readsOn since with
    complete | ⟨next, next_filed, some_read, full, apart, behind⟩
  · exact absurd (complete change record later) unread
  by_contra above
  have next_below : next.position ≤ last.lastPosition :=
    (behind change record later unread).trans (not_lt.mp above)
  rw [append_assoc] at split
  have runs : Runs FiledAt.position filingGroupKey FilingGroup.filed FilingGroup.lastPosition
      (front ++ last :: dropped) := split ▸ runs_groupByTransactionAndTick
  have shared : ((front ++ last :: dropped).flatMap changes).Perm
      (dataChanges store batchSize wanted since ++
        collectForwardableChanges store wanted since) := split ▸ flatMap_changes_perm
  -- Every change read lies before the stop, so its group ends before the last one.
  have counted := length_le_of_front shared fun read read_mem group isBehind inside => by
    have listed : group ∈ front ++ last :: dropped := mem_append_right _ isBehind
    have reaches : last.lastPosition ≤ group.lastPosition := by
      rcases mem_cons.mp isBehind with rfl | isDropped
      · exact le_refl _
      · exact (pairwise_cons.mp (pairwise_append.mp runs.sorted).2.1).1 group isDropped
    obtain ⟨read_below, read_apart⟩ := apart read read_mem
    have read_filed : read.filedAt ∈ group.filed :=
      mem_map.mpr ⟨.change read, mem_append_left _ (mem_map_of_mem inside), rfl⟩
    obtain ⟨final, final_mem, final_last⟩ := runs.last_mem group listed
    have stored := filed_of_pulledGroups filed group (split ▸ listed)
    have same := runs.same_key group listed _ read_filed _ final_mem
    have joined := filed.contiguous _ (stored _ read_filed) next next_filed final
      (stored _ final_mem) read_below (final_last ▸ next_below.trans reaches) same
    exact read_apart (same.trans joined.symm)
  by_cases alone : front = []
  · subst alone
    simp only [map_nil, sum_nil, Nat.le_zero] at counted
    exact some_read (eq_nil_of_length_eq_zero counted)
  · have := below alone
    omega

/-- A reply is empty exactly when nothing was read; otherwise it keeps a front of
the groups and resumes at the end of the last one kept. -/
theorem getChangesSince_spec (store : SyncStore ι) (batchSize : Nat) (peerSiteId : SiteId)
    (since : Option HLC) :
    (pulledGroups store batchSize (notFromPeer peerSiteId) since = [] ∧
      replyWatermark (getChangesSince store batchSize peerSiteId since) = none) ∨
    ∃ front last dropped,
      pulledGroups store batchSize (notFromPeer peerSiteId) since = (front ++ [last]) ++ dropped ∧
      (front ≠ [] → (front.map fun group => group.changes.length).sum < batchSize) ∧
      getChangesSince store batchSize peerSiteId since = (front ++ [last]).map toChangeSet ∧
      replyWatermark (getChangesSince store batchSize peerSiteId since) =
        some last.lastPosition := by
  have pulled : getChangesSince store batchSize peerSiteId since =
      (takeUntil (fun group => group.changes.length) batchSize 0
        (pulledGroups store batchSize (notFromPeer peerSiteId) since)).map toChangeSet := by
    cases since <;> rfl
  rw [pulled]
  by_cases empty : pulledGroups store batchSize (notFromPeer peerSiteId) since = []
  · rw [empty]
    exact Or.inl ⟨rfl, rfl⟩
  · obtain ⟨front, last, dropped, taken, split, below⟩ :=
      takeUntil_spec (fun group : FilingGroup => group.changes.length) batchSize 0 _ empty
    have sorted : ((front ++ [last]) ++ dropped).Pairwise
        fun first second => first.lastPosition ≤ second.lastPosition :=
      split ▸ runs_groupByTransactionAndTick.sorted
    refine Or.inr ⟨front, last, dropped, split, ?_, by rw [taken], ?_⟩
    · intro more
      have := below more
      omega
    · rw [taken]
      exact replyWatermark_groups (pairwise_append.mp sorted).1

include filed in
/-- The replies of a well-filed store hold its facts in filing order, without gaps. -/
theorem getChangesSince_servesInOrder {peerSiteId : SiteId}
    (readsOn : ReadsOn store batchSize (notFromPeer peerSiteId)) :
    ServesInOrder (fun fact => fact.filedAt.position)
      (owedFacts store (notFromPeer peerSiteId)) (getChangesSince store batchSize peerSiteId)
      replyWatermark (fun reply fact => ∃ set ∈ reply, Carries set fact) where
  exhausted := by
    intro since ended fact owed later
    rcases getChangesSince_spec store batchSize peerSiteId since with
      ⟨empty, -⟩ | ⟨front, last, dropped, -, -, -, moved⟩
    · have unread : fact ∉ pulledFacts store batchSize (notFromPeer peerSiteId) since :=
        fun read => pulledGroups_ne_nil read empty
      obtain ⟨change, record, rfl, unscanned⟩ := unread_is_record owed later unread
      -- A scan that stopped early has read something, hence a group.
      rcases dataChanges_leavesNoGap filed readsOn since with
        complete | ⟨next, -, some_read, -, -, -⟩
      · exact unscanned (complete change record later)
      · obtain ⟨read, read_mem⟩ := exists_mem_of_ne_nil _ some_read
        have pulled : .change read ∈ pulledFacts store batchSize (notFromPeer peerSiteId) since :=
          mem_append_left _ (mem_map_of_mem (mem_append_left _ read_mem))
        exact pulledGroups_ne_nil pulled empty
    · rw [ended] at moved
      cases moved
  advances := by
    intro since reached moved
    rcases getChangesSince_spec store batchSize peerSiteId since with
      ⟨-, ended⟩ | ⟨front, last, dropped, split, -, -, moves⟩
    · rw [ended] at moved
      cases moved
    · rw [moves] at moved
      obtain rfl := Option.some.inj moved
      have listed : last ∈ pulledGroups store batchSize (notFromPeer peerSiteId) since := by
        rw [split]
        simp
      obtain ⟨filedFact, inside, here⟩ := runs_groupByTransactionAndTick.last_mem last listed
      obtain ⟨fact, fact_mem, rfl⟩ := mem_map.mp inside
      obtain ⟨key, -, members⟩ := exists_key_of_group listed
      obtain ⟨owed, later⟩ := mem_pulledFacts filed ((members fact).mp fact_mem).1
      exact ⟨fact, owed, here, here ▸ later⟩
  closed := by
    intro since reached moved fact owed later upTo
    rcases getChangesSince_spec store batchSize peerSiteId since with
      ⟨-, ended⟩ | ⟨front, last, dropped, split, below, reply, moves⟩
    · rw [ended] at moved
      cases moved
    · rw [moves] at moved
      obtain rfl := Option.some.inj moved
      have read : fact ∈ pulledFacts store batchSize (notFromPeer peerSiteId) since := by
        by_contra unread
        obtain ⟨change, record, rfl, unscanned⟩ := unread_is_record owed later unread
        exact absurd upTo (not_le.mpr
          (lastPosition_lt_of_unread filed readsOn split below record later unscanned))
      obtain ⟨group, listed, inside⟩ := exists_group_of_fact read
      have runs : Runs FiledAt.position filingGroupKey FilingGroup.filed
          lastPosition ((front ++ [last]) ++ dropped) :=
        split ▸ runs_groupByTransactionAndTick
      have stored : ∀ group ∈ (front ++ [last]) ++ dropped, ∀ fact ∈ group.filed,
          fact ∈ store.filed := split ▸ filed_of_pulledGroups filed
      have placed : group ∈ (front ++ [last]) ++ dropped := split ▸ listed
      rcases mem_append.mp placed with kept | isDropped
      · rw [reply]
        exact ⟨toChangeSet group, mem_map_of_mem kept, carries_toChangeSet inside⟩
      · have after := runs.last_lt_of_dropped filed.contiguous stored
          (mem_append_right _ (mem_singleton.mpr rfl)) isDropped
          (mem_map_of_mem inside)
        exact absurd upTo (not_le.mpr after)

end Store

def sampleName : TableName := ⟨"main", "t"⟩

/-- A stamp of the serving replica, whose site is `[1]`. -/
def sampleTick (wallTime : Nat) : HLC := ⟨wallTime, 0, [1], 0⟩

def sampleVersion : ColumnVersion := ⟨sampleTick 3, sampleTick 3, .null, [], none⟩

/-- A cell whose earlier version left a stale entry behind. -/
def sampleStore : SyncStore Nat where
  tableNames := [("g", sampleName)]
  columnVersions := [(("g", 0, "a"), sampleVersion)]
  tombstones := []
  changeLog := [⟨sampleTick 2, sampleTick 2, "g", 0, some "a"⟩,
    ⟨sampleTick 3, sampleTick 3, "g", 0, some "a"⟩]
  schemaMigrations := []
  quarantine := []

theorem sampleStore_wellFiled : WellFiled sampleStore where
  versions_keyed := by decide
  tombstones_keyed := by decide
  log_sorted := by decide
  version_logged := by
    intro generation identity column version stored _
    simp only [sampleStore, mem_singleton] at stored
    obtain ⟨⟨rfl, rfl, rfl⟩, rfl⟩ := stored
    decide
  tombstone_logged := by
    intro generation identity tombstone stored
    simp [sampleStore] at stored
  origin_logged := by
    intro entry logged change resolved
    simp only [sampleStore, mem_cons, not_mem_nil, or_false] at logged
    rcases logged with rfl | rfl
    · cases resolved
    · cases resolved
      rfl
  contiguous := by
    have two : ∀ filed ∈ sampleStore.filed,
        filed = ⟨sampleTick 2, sampleTick 2⟩ ∨ filed = ⟨sampleTick 3, sampleTick 3⟩ := by
      rintro filed (⟨entry, logged, rfl⟩ | ⟨migration, stored, _⟩ | ⟨entry, stored, _⟩)
      · simp only [sampleStore, mem_cons, not_mem_nil, or_false] at logged
        rcases logged with rfl | rfl
        · exact Or.inl rfl
        · exact Or.inr rfl
      · simp [sampleStore] at stored
      · simp [sampleStore] at stored
    intro first first_filed middle middle_filed last last_filed
    rcases two first first_filed with rfl | rfl <;> rcases two middle middle_filed with
      rfl | rfl <;>
      rcases two last last_filed with rfl | rfl <;> decide

end Quereus.Sync.Delta
