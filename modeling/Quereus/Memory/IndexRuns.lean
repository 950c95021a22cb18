import Quereus.Memory.IndexConsistency

/-! # Index scans after any run

Transaction layers form a chain, and a write goes to the newest one. Along a run
whose writes name their keys in faithful codes every layer stays consistent, so
under each index key an index lists one primary key for each effective row in
scope with that key, and a scan through the index returns those rows.
-/

namespace Quereus.Memory

open List MemoryIndex

namespace Layer

variable {schema : TableSchema} {layer : Layer} {index : MemoryIndex}

variable (consistent : layer.Consistent schema) (inLayer : index ∈ layer.secondaryIndexes)

include consistent inLayer

variable {indexKey : Key}

/-- The row a listed key leads to. -/
theorem Consistent.lookup_of_listed {entry : List ScalarCode × Key}
    (listed : entry ∈ PostingTree.items (index.compareKeys schema) index.data indexKey) :
    ∃ row ∈ layer.primary, index.Place schema row indexKey ∧
      layer.lookupEffectiveRow schema entry.2 = some row ∧
      entry.1 = encodePrimaryKey (schema.primaryKeyFromRow row) := by
  have exact := consistent.exact index inLayer
  obtain ⟨row, member, place, names, code⟩ :=
    exact.sound (exact.wellFormed.lookup_eq_some.mpr listed)
  exact ⟨row, member, place, consistent.ordered.find_isSome member names.equal,
    code.trans names.code.symm⟩

theorem Consistent.mem_rowsOfEntry {row : Row} :
    row ∈ layer.rowsOfEntry schema
        (PostingTree.items (index.compareKeys schema) index.data indexKey) ↔
      row ∈ layer.primary ∧ index.Place schema row indexKey := by
  unfold rowsOfEntry
  rw [mem_filterMap]
  constructor
  · rintro ⟨primaryKey, sorted, found⟩
    obtain ⟨code, listed⟩ := mem_sortPrimaryKeys.mp sorted
    obtain ⟨other, member, place, other_found, -⟩ := consistent.lookup_of_listed inLayer listed
    cases other_found.symm.trans found
    exact ⟨member, place⟩
  · rintro ⟨member, matched, place⟩
    have exact := consistent.exact index inLayer
    obtain ⟨primaryKey, listed, names⟩ := exact.complete row member matched
    rw [← listed_congr index place] at listed
    exact ⟨primaryKey, mem_sortPrimaryKeys.mpr ⟨_, exact.wellFormed.lookup_eq_some.mp listed⟩,
      consistent.ordered.find_isSome member names.equal⟩

/-- Every listed key leads to a row, and no two lead to the same one. -/
theorem Consistent.map_lookup_sorted (indexKey : Key) :
    (index.getPrimaryKeys schema indexKey).map (layer.lookupEffectiveRow schema) =
      (layer.rowsOfEntry schema
        (PostingTree.items (index.compareKeys schema) index.data indexKey)).map some := by
  unfold rowsOfEntry getPrimaryKeys
  rw [map_filterMap, ← filterMap_eq_map]
  refine filterMap_congr fun primaryKey sorted => ?_
  obtain ⟨code, listed⟩ := mem_sortPrimaryKeys.mp sorted
  obtain ⟨row, -, -, found, -⟩ := consistent.lookup_of_listed inLayer listed
  simp [found]

theorem Consistent.nodup_rowsOfEntry (indexKey : Key) :
    (layer.rowsOfEntry schema
      (PostingTree.items (index.compareKeys schema) index.data indexKey)).Nodup := by
  have exact := consistent.exact index inLayer
  have distinct : (PostingTree.items (index.compareKeys schema) index.data indexKey).Nodup :=
    (exact.wellFormed.nodup_items indexKey).of_map
  rw [← nodup_map_iff (Option.some_injective _), ← consistent.map_lookup_sorted inLayer]
  unfold getPrimaryKeys sortPrimaryKeys
  rw [((perm_insertionSort _ _).map _).nodup_iff, map_map]
  refine distinct.map_on fun first first_mem second second_mem same => ?_
  -- Two entries that lead to one row both carry the row's code.
  obtain ⟨row, -, -, first_found, first_code⟩ := consistent.lookup_of_listed inLayer first_mem
  obtain ⟨other, -, -, second_found, second_code⟩ := consistent.lookup_of_listed inLayer second_mem
  simp only [Function.comp_apply, first_found, second_found, Option.some.injEq] at same
  subst same
  have codes : first.1 = second.1 := first_code.trans second_code.symm
  exact inj_on_of_nodup_map (exact.wellFormed.nodup_items indexKey) first_mem second_mem codes

/-- An entry leads to the rows in scope at its key, each once. -/
theorem Consistent.rowsOfEntry_perm (indexKey : Key) :
    (layer.rowsOfEntry schema
      (PostingTree.items (index.compareKeys schema) index.data indexKey)).Perm
      (layer.primary.filter fun row => index.Place schema row indexKey) := by
  refine (perm_ext_iff_of_nodup (consistent.nodup_rowsOfEntry inLayer indexKey)
    (consistent.ordered.nodup.filter _)).mpr fun row => ?_
  rw [consistent.mem_rowsOfEntry inLayer, mem_filter, decide_eq_true_eq]

/-- A walk returns the rows in scope whose key the plan applies to, each once. -/
theorem Consistent.scanIndex_perm (descending : Bool) {planAppliesToKey : Key → Bool}
    (respects : ∀ (key : Key) (row : Row), index.compareKeys schema key (index.keyFromRow row) =
      .eq →
      planAppliesToKey key = planAppliesToKey (index.keyFromRow row)) :
    (layer.scanIndex schema index descending planAppliesToKey).Perm
      (layer.primary.filter fun row =>
        index.rowMatchesPredicate row && planAppliesToKey (index.keyFromRow row)) := by
  have wellFormed := (consistent.exact index inLayer).wellFormed
  have entry_rows : ∀ entry ∈ index.data, layer.rowsOfEntry schema entry.items =
      layer.rowsOfEntry schema
        (PostingTree.items (index.compareKeys schema) index.data entry.key) := by
    intro entry member
    rw [wellFormed.items_eq member Std.ReflCmp.compare_self]
  -- The direction of the walk only permutes the result.
  have ascending : (layer.scanIndex schema index descending planAppliesToKey).Perm
      ((index.data.filter fun entry => planAppliesToKey entry.key).flatMap fun entry =>
        layer.rowsOfEntry schema entry.items) := by
    refine Perm.flatMap_right _ (Perm.filter _ ?_)
    split
    · exact reverse_perm _
    · exact Perm.refl _
  refine ascending.trans ((perm_ext_iff_of_nodup ?_ (consistent.ordered.nodup.filter _)).mpr ?_)
  · refine nodup_flatMap.mpr ⟨fun entry member => ?_, ?_⟩
    · rw [entry_rows entry (mem_filter.mp member).1]
      exact consistent.nodup_rowsOfEntry inLayer entry.key
    · refine Pairwise.imp_of_mem ?_ (wellFormed.ordered.filter _)
      intro first second first_mem second_mem less row inFirst inSecond
      beta_reduce at inFirst inSecond
      rw [entry_rows first (mem_filter.mp first_mem).1, consistent.mem_rowsOfEntry inLayer]
        at inFirst
      rw [entry_rows second (mem_filter.mp second_mem).1, consistent.mem_rowsOfEntry inLayer]
        at inSecond
      have same : index.compareKeys schema first.key second.key = .eq :=
        Std.TransCmp.eq_trans inFirst.2.2 (Std.OrientedCmp.eq_symm inSecond.2.2)
      rw [same] at less
      cases less
  · intro row
    rw [mem_flatMap, mem_filter]
    constructor
    · rintro ⟨entry, member, found⟩
      obtain ⟨inData, applies⟩ := mem_filter.mp member
      rw [entry_rows entry inData, consistent.mem_rowsOfEntry inLayer] at found
      refine ⟨found.1, ?_⟩
      rw [← respects _ _ found.2.2, applies, found.2.1]
      rfl
    · rintro ⟨member, both⟩
      obtain ⟨matched, applies⟩ := Bool.and_eq_true_iff.mp both
      obtain ⟨primaryKey, listed, -⟩ := (consistent.exact index inLayer).complete row member matched
      obtain ⟨entry, inData, same, -⟩ :=
        PostingTree.exists_of_mem_items (wellFormed.lookup_eq_some.mp listed)
      refine ⟨entry, mem_filter.mpr ⟨inData, (respects _ _ same).trans applies⟩, ?_⟩
      rw [entry_rows entry inData, consistent.mem_rowsOfEntry inLayer]
      exact ⟨member, matched, same⟩

end Layer

/-- What happens to a chain of layers, newest first. -/
inductive ChainStep where
  /-- A write to the newest layer. -/
  | write (mutation : TableManager.Mutation)
  /-- A new transaction layer over the newest one. -/
  | openLayer
  /-- The newest layer is rolled back. -/
  | discardLayer
  /-- The newest layer takes the place of its parent. -/
  | commitLayer

namespace TableManager

variable (manager : TableManager)

def stepChain : List Layer → ChainStep → List Layer
  | layer :: parents, .write mutation => (manager.performMutation layer mutation).1 :: parents
  | layer :: parents, .openLayer => layer :: layer :: parents
  | _ :: parent :: parents, .discardLayer => parent :: parents
  | layer :: _ :: parents, .commitLayer => layer :: parents
  | chain, _ => chain

def runChain (chain : List Layer) (steps : List ChainStep) : List Layer :=
  steps.foldl manager.stepChain chain

/-- A write names its keys in codes that are faithful on the layer it goes to. -/
def FaithfulStep : List Layer → ChainStep → Prop
  | layer :: _, .write mutation => manager.CodesFaithful layer mutation
  | _, _ => True

/-- Every step of a run is faithful where it is taken. -/
def FaithfulRun : List Layer → List ChainStep → Prop
  | _, [] => True
  | chain, step :: rest =>
    manager.FaithfulStep chain step ∧ FaithfulRun (manager.stepChain chain step) rest

instance (chain : List Layer) (step : ChainStep) : Decidable (manager.FaithfulStep chain step) := by
  unfold FaithfulStep
  split <;> infer_instance

instance decidableFaithfulRun : ∀ chain steps, Decidable (manager.FaithfulRun chain steps)
  | _, [] => .isTrue trivial
  | chain, step :: rest =>
    have := decidableFaithfulRun (manager.stepChain chain step) rest
    inferInstanceAs (Decidable (_ ∧ _))

variable {manager}

variable {chain : List Layer} {step : ChainStep}

/-- What a write keeps of the newest layer, every step keeps of all layers. -/
theorem stepChain_all {kept : Layer → Prop} (all : ∀ layer ∈ chain, kept layer)
    (write : ∀ newest parents mutation, chain = newest :: parents → step = .write mutation →
      kept (manager.performMutation newest mutation).1) :
    ∀ layer ∈ manager.stepChain chain step, kept layer := by
  unfold stepChain
  split
  · intro layer member
    rcases mem_cons.mp member with rfl | older
    · exact write _ _ _ rfl rfl
    · exact all layer (mem_cons_of_mem _ older)
  · intro layer member
    rcases mem_cons.mp member with rfl | older
    · exact all layer mem_cons_self
    · exact all layer older
  · exact fun layer member => all layer (mem_cons_of_mem _ member)
  · intro layer member
    rcases mem_cons.mp member with rfl | older
    · exact all layer mem_cons_self
    · exact all layer (mem_cons_of_mem _ (mem_cons_of_mem _ older))
  · exact all

variable (consistent : ∀ layer ∈ chain, layer.Consistent manager.schema)

include consistent in
theorem stepChain_consistent (faithful : manager.FaithfulStep chain step) :
    ∀ layer ∈ manager.stepChain chain step, layer.Consistent manager.schema := by
  refine stepChain_all consistent ?_
  rintro newest parents mutation rfl rfl
  exact performMutation_consistent (consistent newest mem_cons_self) faithful

include consistent in
theorem runChain_consistent {steps : List ChainStep} (faithful : manager.FaithfulRun chain steps) :
    ∀ layer ∈ manager.runChain chain steps, layer.Consistent manager.schema := by
  induction steps generalizing chain with
  | nil => exact consistent
  | cons step rest ih => exact ih (stepChain_consistent consistent faithful.1) faithful.2

/-- A table `t (k text collate nocase primary key, v text)` with an index on `v`. -/
def respellingSchema : TableSchema where
  name := "t"
  columns := [⟨"k", plainType, "NOCASE", none⟩, ⟨"v", plainType, "BINARY", none⟩]
  primaryKeyDefinition := [⟨0, false, some "NOCASE"⟩]
  primaryKeyDefaultConflict := none
  uniqueConstraints := []
  indexes := [⟨"t_v", [⟨1, false, some "BINARY"⟩], none⟩]
  collationResolver name :=
    if name = "NOCASE" then
      NOCASE_COLLATION (map fun unit => if 65 ≤ unit ∧ unit ≤ 90 then unit + 32 else unit)
    else BINARY_COLLATION

def respellingManager : TableManager :=
  .viewless respellingSchema fun _ => none

/-- A row of two texts. -/
def textRow (k v : Utf16) : Row :=
  [⟨.string k, rfl⟩, ⟨.string v, rfl⟩]

end TableManager

end Quereus.Memory
