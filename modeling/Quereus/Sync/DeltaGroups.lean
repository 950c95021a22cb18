import Quereus.Sync.Delta

/-! # Where a reply is cut

The grouping step shares its facts out into groups of one transaction and one
filing tick, and a reply resumes at the end of the last group it keeps. The log
scan reads a prefix of the log and stops only between two groups, once it has
the changes of a full batch.
-/

namespace Quereus.Sync.Delta

open Quereus.Sync List FiledFact KeyedList FilingGroup ScanState

namespace FilingGroup

/-- The facts of a group. -/
def facts (group : FilingGroup) : List FiledFact :=
  group.changes.map .change ++ group.migrations.map .migration

def filed (group : FilingGroup) : List FiledAt :=
  group.facts.map FiledFact.filedAt

end FilingGroup

variable {fact : FiledFact}

theorem mem_facts_filingGroup {entry : GroupKey × List FiledFact} :
    fact ∈ (filingGroup entry).facts ↔ fact ∈ entry.2 := by
  simp only [facts, filingGroup, mem_append, mem_map, mem_insertionSort, mem_filterMap]
  constructor
  · rintro (⟨filed, ⟨item, member, same⟩, rfl⟩ | ⟨record, ⟨item, member, same⟩, rfl⟩)
    · cases item <;> simp_all [FiledFact.change?]
    · cases item <;> simp_all [migration?]
  · intro member
    cases fact with
    | change filed => exact Or.inl ⟨filed, ⟨_, member, rfl⟩, rfl⟩
    | migration record => exact Or.inr ⟨record, ⟨_, member, rfl⟩, rfl⟩

section Grouping

variable (changes : List FiledChange) (migrations : List SchemaMigration)

/-- The facts to group. -/
def allFacts : List FiledFact :=
  changes.map .change ++ migrations.map .migration

variable {changes migrations}

variable {group : FilingGroup}

theorem mem_groupByTransactionAndTick :
    group ∈ groupByTransactionAndTick changes migrations ↔
      ∃ entry ∈ KeyedList.groupBy (fun fact => filingGroupKey fact.filedAt)
        (allFacts changes migrations), filingGroup entry = group := by
  rw [groupByTransactionAndTick, mem_insertionSort, mem_map]
  rfl

/-- A group holds the facts of one key. -/
theorem exists_key_of_group (listed : group ∈ groupByTransactionAndTick changes migrations) :
    ∃ key, group.facts ≠ [] ∧ ∀ fact, fact ∈ group.facts ↔
      fact ∈ allFacts changes migrations ∧ filingGroupKey fact.filedAt = key := by
  obtain ⟨entry, member, rfl⟩ := mem_groupByTransactionAndTick.mp listed
  obtain ⟨items, inhabited⟩ := mem_groupBy member
  obtain ⟨first, first_mem⟩ := exists_mem_of_ne_nil _ inhabited
  refine ⟨entry.1, ne_nil_of_mem (mem_facts_filingGroup.mpr first_mem), ?_⟩
  intro fact
  rw [mem_facts_filingGroup, items, mem_filter, beq_iff_eq]

/-- Every fact is in a group. -/
theorem exists_group_of_fact (member : fact ∈ allFacts changes migrations) :
    ∃ group ∈ groupByTransactionAndTick changes migrations, fact ∈ group.facts := by
  have spread := (flatMap_groupBy_perm
    (fun fact => filingGroupKey fact.filedAt) (allFacts changes migrations)).mem_iff (a := fact)
  obtain ⟨entry, entry_mem, inside⟩ := mem_flatMap.mp (spread.mpr member)
  exact ⟨filingGroup entry, mem_groupByTransactionAndTick.mpr ⟨entry, entry_mem, rfl⟩,
    mem_facts_filingGroup.mpr inside⟩

/-- The groups are runs of filed facts, listed by their last positions. -/
theorem runs_groupByTransactionAndTick :
    PagedRead.Runs FiledAt.position filingGroupKey FilingGroup.filed FilingGroup.lastPosition
      (groupByTransactionAndTick changes migrations) where
  sorted := pairwise_insertionSort _ _
  apart := by
    have symmetric : ∀ {first second : FilingGroup},
        (∀ fact ∈ first.filed, ∀ other ∈ second.filed, filingGroupKey fact ≠ filingGroupKey other) →
        ∀ fact ∈ second.filed, ∀ other ∈ first.filed,
          filingGroupKey fact ≠ filingGroupKey other :=
      fun apart fact inSecond other inFirst => (apart other inFirst fact inSecond).symm
    rw [groupByTransactionAndTick, (perm_insertionSort _ _).pairwise_iff symmetric, pairwise_map]
    -- Two entries of the grouping have different keys, and each holds facts of its own key.
    refine (pairwise_map.mp (nodup_keys_groupBy _ _)).imp_of_mem ?_
    intro first second first_mem second_mem different fact inFirst other inSecond same
    obtain ⟨item, item_mem, rfl⟩ := mem_map.mp inFirst
    obtain ⟨otherItem, other_mem, rfl⟩ := mem_map.mp inSecond
    rw [mem_facts_filingGroup, (mem_groupBy first_mem).1, mem_filter, beq_iff_eq] at item_mem
    rw [mem_facts_filingGroup, (mem_groupBy second_mem).1, mem_filter, beq_iff_eq] at other_mem
    exact different (item_mem.2.symm.trans (same.trans other_mem.2))
  same_key := by
    intro group listed fact inside other otherInside
    obtain ⟨key, -, members⟩ := exists_key_of_group listed
    obtain ⟨item, item_mem, rfl⟩ := mem_map.mp inside
    obtain ⟨otherItem, other_mem, rfl⟩ := mem_map.mp otherInside
    exact ((members item).mp item_mem).2.trans ((members otherItem).mp other_mem).2.symm
  last_mem := by
    intro group listed
    obtain ⟨key, inhabited, -⟩ := exists_key_of_group listed
    obtain ⟨first, first_mem⟩ := exists_mem_of_ne_nil _ inhabited
    obtain ⟨greatest, found, -⟩ := exists_maxHLC
      (mem_map_of_mem (f := FiledAt.position) (mem_map_of_mem (f := filedAt) first_mem))
    have reached : group.lastPosition = greatest := by
      rw [← @Option.getD_some _ greatest group.base, ← found]
      simp [lastPosition, facts, filedAt, Function.comp_def]
    rw [reached]
    exact mem_map.mp (maxHLC_mem found)

/-- The groups share the changes out among them. -/
theorem flatMap_changes_perm :
    ((groupByTransactionAndTick changes migrations).flatMap FilingGroup.changes).Perm changes := by
  have only_changes : (allFacts changes migrations).filterMap FiledFact.change? = changes := by
    simp [allFacts, FiledFact.change?, Function.comp_def]
  have shared := (flatMap_groupBy_perm (fun fact => filingGroupKey fact.filedAt)
    (allFacts changes migrations)).filterMap FiledFact.change?
  rw [only_changes, filterMap_flatMap] at shared
  refine ((perm_insertionSort _ _).flatMap_right _).trans ?_
  rw [flatMap_map]
  refine (Perm.flatMap_left _ ?_).trans shared
  intro entry _
  exact perm_insertionSort _ _

end Grouping

/-- A reply resumes at the end of its last group. -/
theorem replyWatermark_groups {front : List FilingGroup} {last : FilingGroup}
    (sorted : (front ++ [last]).Pairwise fun first second =>
      first.lastPosition ≤ second.lastPosition) :
    replyWatermark ((front ++ [last]).map toChangeSet) = some last.lastPosition := by
  have resumes : ((front ++ [last]).map toChangeSet).map (fun set => set.cursor.getD set.hlc) =
      (front ++ [last]).map lastPosition := by
    rw [map_map]
    refine map_congr_left fun group _ => ?_
    simp only [Function.comp, toChangeSet]
    split
    · next same => exact same.symm
    · rfl
  rw [replyWatermark, resumes]
  have last_mem : last.lastPosition ∈ (front ++ [last]).map lastPosition :=
    mem_map_of_mem (mem_append_right _ (mem_singleton.mpr rfl))
  obtain ⟨greatest, found, above⟩ := exists_maxHLC last_mem
  obtain ⟨group, listed, rfl⟩ := mem_map.mp (maxHLC_mem found)
  have below : group.lastPosition ≤ last.lastPosition := by
    rcases mem_append.mp listed with inFront | isLast
    · exact (pairwise_append.mp sorted).2.2 group inFront last (mem_singleton.mpr rfl)
    · exact (mem_singleton.mp isLast ▸ le_refl _)
  rw [found, le_antisymm below above]

/-- A set of the reply carries the fact. -/
def Carries (set : ChangeSet) : FiledFact → Prop
  | .change filed => filed.change ∈ set.changes
  | .migration record => withoutPosition record ∈ set.schemaMigrations

theorem carries_toChangeSet {group : FilingGroup} (member : fact ∈ group.facts) :
    Carries (toChangeSet group) fact := by
  rcases mem_append.mp member with isChange | isMigration
  · obtain ⟨filed, inside, rfl⟩ := mem_map.mp isChange
    exact mem_map_of_mem inside
  · obtain ⟨record, inside, rfl⟩ := mem_map.mp isMigration
    exact mem_map_of_mem inside

section Scan

variable {ι : Type} [DecidableEq ι] (store : SyncStore ι) (batchSize : Nat)
  (isWantedOrigin : HLC → Bool)

/-- The change a scan takes from an entry. -/
def liveChange (entry : ChangeLogEntry ι) : Option FiledChange :=
  if isWantedOrigin entry.hlc then (resolveLogEntry store entry).map (⟨·, entry.position⟩) else none

/-- The group a scan is in after some entries. -/
def groupAfter : Option GroupKey → List (ChangeLogEntry ι) → Option GroupKey
  | current, [] => current
  | current, entry :: rest =>
    groupAfter (if isWantedOrigin entry.hlc then some (filingGroupKey entry.filedAt) else current)
      rest

variable {store batchSize isWantedOrigin}

omit [DecidableEq ι] in
theorem groupAfter_concat (current : Option GroupKey) (entries : List (ChangeLogEntry ι))
    (entry : ChangeLogEntry ι) :
    groupAfter isWantedOrigin current (entries ++ [entry]) =
      if isWantedOrigin entry.hlc then some (filingGroupKey entry.filedAt)
      else groupAfter isWantedOrigin current entries := by
  induction entries generalizing current with
  | nil => rfl
  | cons first rest ih => exact ih _

variable {group : GroupKey} {state : ScanState}

omit [DecidableEq ι] in
/-- The group a scan is in is that of its last wanted entry. -/
theorem groupAfter_spec {entries : List (ChangeLogEntry ι)}
    (sorted : entries.Pairwise fun first second => first.position ≤ second.position)
    (inside : groupAfter isWantedOrigin none entries = some group) :
    ∃ last ∈ entries, isWantedOrigin last.hlc ∧ filingGroupKey last.filedAt = group ∧
      ∀ entry ∈ entries, isWantedOrigin entry.hlc → entry.position ≤ last.position := by
  induction entries using reverseRecOn with
  | nil => cases inside
  | append_singleton entries entry ih =>
    obtain ⟨before, -, upTo⟩ := pairwise_append.mp sorted
    simp only [forall_mem_singleton] at upTo
    simp only [groupAfter_concat, forall_mem_append, forall_mem_singleton] at inside ⊢
    split at inside
    · next wanted =>
      refine ⟨entry, mem_append_right _ mem_cons_self, wanted, Option.some.inj inside, ?_⟩
      exact ⟨fun other member _ => upTo other member, fun _ => le_refl _⟩
    · next unwanted =>
      obtain ⟨last, member, lastWanted, same, above⟩ := ih before inside
      exact ⟨last, mem_append_left _ member, lastWanted, same, above,
        fun wanted => absurd wanted unwanted⟩

/-- The changes a scan has counted. -/
def ScanState.total (state : ScanState) : Nat :=
  state.completedChangeCount + state.currentGroupChangeCount

theorem ScanState.enter_some {entered : ScanState}
    (moved : state.enter batchSize group = some entered) :
    entered.total = state.total ∧ entered.currentGroup = some group := by
  unfold enter at moved
  cases current : state.currentGroup with
  | none =>
    rw [current] at moved
    cases moved
    exact ⟨rfl, rfl⟩
  | some previous =>
    simp only [current] at moved
    split at moved
    · rename_i same
      cases moved
      exact ⟨rfl, current.trans (congrArg some same.symm)⟩
    · split at moved
      · cases moved
      · cases moved
        exact ⟨rfl, rfl⟩

theorem ScanState.enter_none (stopped : state.enter batchSize group = none) :
    batchSize ≤ state.total ∧ ∃ current, state.currentGroup = some current ∧ current ≠ group := by
  unfold enter at stopped
  cases current : state.currentGroup with
  | none => simp [current] at stopped
  | some previous =>
    simp only [current] at stopped
    split at stopped
    · cases stopped
    · rename_i different
      split at stopped
      · rename_i reached
        exact ⟨reached, previous, rfl, Ne.symm different⟩
      · cases stopped

/-- A scan takes the live changes of a prefix of the log. It stops short of the
end only at a wanted entry of a new group, once the batch size is reached. -/
theorem scanLog_spec (store : SyncStore ι) (batchSize : Nat) (isWantedOrigin : HLC → Bool)
    (state : ScanState) (entries : List (ChangeLogEntry ι)) :
    ∃ scanned rest, entries = scanned ++ rest ∧
      scanLog store batchSize isWantedOrigin state entries =
        scanned.filterMap (liveChange store isWantedOrigin) ∧
      ∀ next ∈ rest.head?,
        batchSize ≤ state.total + (scanned.filterMap (liveChange store isWantedOrigin)).length ∧
        ∃ group, groupAfter isWantedOrigin state.currentGroup scanned = some group ∧
          group ≠ filingGroupKey next.filedAt := by
  induction entries generalizing state with
  | nil => exact ⟨[], [], rfl, rfl, nofun⟩
  | cons entry rest ih =>
    rw [scanLog]
    by_cases wanted : isWantedOrigin entry.hlc
    · rw [if_pos wanted]
      cases moved : state.enter batchSize (filingGroupKey entry.filedAt) with
      | none =>
        obtain ⟨reached, current, inGroup, different⟩ := enter_none moved
        refine ⟨[], entry :: rest, rfl, rfl, ?_⟩
        intro next found
        cases found
        exact ⟨reached, current, inGroup, different⟩
      | some entered =>
        obtain ⟨same_total, inGroup⟩ := enter_some moved
        cases live : resolveLogEntry store entry with
        | none =>
          obtain ⟨scanned, left, split, taken, stopped⟩ := ih entered
          have skipped : liveChange store isWantedOrigin entry = none := by
            rw [liveChange, if_pos wanted, live, Option.map_none]
          refine ⟨entry :: scanned, left, by rw [split, cons_append], ?_, ?_⟩
          · rw [filterMap_cons_none skipped]
            exact taken
          · intro next found
            rw [filterMap_cons_none skipped, groupAfter, if_pos wanted, ← inGroup, ← same_total]
            exact stopped next found
        | some change =>
          obtain ⟨scanned, left, split, taken, stopped⟩ := ih entered.countChange
          have collected : liveChange store isWantedOrigin entry =
              some ⟨change, entry.position⟩ := by
            rw [liveChange, if_pos wanted, live, Option.map_some]
          refine ⟨entry :: scanned, left, by rw [split, cons_append], ?_, ?_⟩
          · rw [filterMap_cons_some collected, ← taken]
          · intro next found
            obtain ⟨reached, group, inside, different⟩ := stopped next found
            rw [filterMap_cons_some collected, groupAfter, if_pos wanted, ← inGroup, length_cons]
            refine ⟨?_, group, inside, different⟩
            have counted : entered.countChange.total = entered.total + 1 := rfl
            omega
    · rw [if_neg wanted]
      obtain ⟨scanned, left, split, taken, stopped⟩ := ih state
      have skipped : liveChange store isWantedOrigin entry = none := by
        rw [liveChange, if_neg wanted]
      refine ⟨entry :: scanned, left, by rw [split, cons_append], ?_, ?_⟩
      · rw [filterMap_cons_none skipped, taken]
      · intro next found
        rw [filterMap_cons_none skipped, groupAfter, if_neg wanted]
        exact stopped next found

end Scan

end Quereus.Sync.Delta
