import Quereus.Memory.Connection

/-! # Layer chains and their logs

A chain of layers has growing identities. Each layer holds what its log makes of
the layer below, so the rows at the top of a chain are the logs above a layer
replayed over it. Two chains of one table share a layer, at least the base, and
the highest one is where they forked.
-/

namespace Quereus.Memory

open List TableSchema

/-- A layer is the head or was built over it. -/
inductive LayerRef.Above (head : LayerRef) : LayerRef → Prop
  | head : Above head head
  | layered {data : TransactionData} {parentLayer : LayerRef} (above : Above head parentLayer)
      (newer : parentLayer.layerId < data.layerId) : Above head (.transaction data parentLayer)

namespace LayerRef

variable {head layer : LayerRef}

@[simp] theorem layerId_transaction (data : TransactionData) (parentLayer : LayerRef) :
    (transaction data parentLayer).layerId = data.layerId :=
  rfl

theorem layerId_freeze : layer.freeze.layerId = layer.layerId := by
  cases layer <;> rfl

theorem contents_freeze : layer.freeze.contents = layer.contents := by
  cases layer <;> rfl

theorem chainContains_self (layer : LayerRef) : layer.chainContains layer = true := by
  cases layer <;> simp [chainContains]

namespace Above

variable (above : Above head layer)

include above

theorem le_layerId : head.layerId ≤ layer.layerId := by
  induction above with
  | head => exact Nat.le_refl _
  | layered _ newer ih => exact ih.trans newer.le

/-- Only the head has the head's identity. -/
theorem eq_head (same : layer.layerId = head.layerId) : layer = head := by
  cases above with
  | head => rfl
  | layered above newer =>
    have older := above.le_layerId
    rw [layerId_transaction] at same
    omega

theorem chainContains : layer.chainContains head = true := by
  induction above with
  | head => exact chainContains_self _
  | layered _ _ ih => simp [LayerRef.chainContains, ih]

theorem getParent_isSome (other : layer.layerId ≠ head.layerId) :
    layer.getParent.isSome = true := by
  cases above with
  | head => exact absurd rfl other
  | layered _ _ => rfl

omit above

end Above

end LayerRef

namespace TransactionData

variable (schema : TableSchema) (data : TransactionData) (records : List Record)

theorem foldl_record_contents :
    (records.foldl (TransactionData.record schema) data).contents =
      data.contents.replay schema records := by
  induction records generalizing data with
  | nil => rfl
  | cons record rest ih => exact ih _

theorem foldl_record_layerId :
    (records.foldl (TransactionData.record schema) data).layerId = data.layerId := by
  induction records generalizing data with
  | nil => rfl
  | cons record rest ih => exact ih _

theorem foldl_record_isCommitted :
    (records.foldl (TransactionData.record schema) data).isCommitted = data.isCommitted := by
  induction records generalizing data with
  | nil => rfl
  | cons record rest ih => exact ih _

end TransactionData

def OwnWrite.write : OwnWrite → WriteLog.Write Key Row
  | .upsert _ newRow => .put newRow
  | .delete primaryKey => .remove primaryKey

/-- What a listener makes of a change. -/
def PendingChange.write (schema : TableSchema) : PendingChange → WriteLog.Write Key Row
  | .insert newRow => .put newRow
  | .update _ newRow => .put newRow
  | .delete oldRow => .remove (schema.primaryKeyFromRow oldRow)

/-- Replay a log of writes over the rows of a table. -/
def TableSchema.replay (schema : TableSchema) (rows : List Row)
    (log : List (WriteLog.Write Key Row)) :
    List Row :=
  WriteLog.replay schema.primaryKeyFromRow schema.comparePrimaryKeys rows log

theorem TableSchema.replay_append (schema : TableSchema) (rows : List Row)
    (first second : List (WriteLog.Write Key Row)) :
    schema.replay rows (first ++ second) = schema.replay (schema.replay rows first) second :=
  WriteLog.replay_append rows first second

/-- A layer is what its log makes of its parent, and its changes do the same. -/
structure TransactionData.Logged (context : TransactionContext) (parentLayer : LayerRef)
    (data : TransactionData) : Prop where
  newer : parentLayer.layerId < data.layerId
  contents : data.contents.primary =
    context.manager.schema.replay parentLayer.contents.primary (data.ownWrites.map OwnWrite.write)
  tracked : data.pendingChanges.isSome = context.hasDataListeners
  changes : ∀ changes ∈ data.pendingChanges, ∀ rows,
    context.manager.schema.replay rows (changes.map (PendingChange.write context.manager.schema)) =
      context.manager.schema.replay rows (data.ownWrites.map OwnWrite.write)

/-- All layers of a chain are logged, and each is the one registered under its
identity. -/
def LayerRef.Known (context : TransactionContext) (registry : Nat → Option LayerRef) :
    LayerRef → Prop
  | .base contents =>
    registry 0 = some (.base contents) ∧
      KeyTree.Ordered context.manager.schema.primaryKeyFromRow
        context.manager.schema.comparePrimaryKeys contents.primary
  | .transaction data parentLayer =>
    registry data.layerId = some (.transaction data parentLayer) ∧
      data.Logged context parentLayer ∧ parentLayer.Known context registry

namespace LayerRef

variable {context : TransactionContext} {registry : Nat → Option LayerRef}
    {head layer fork : LayerRef}

variable (known : layer.Known context registry)

include known

theorem Known.registered : registry layer.layerId = some layer := by
  cases layer with
  | base contents => exact known.1
  | transaction data parentLayer => exact known.1

theorem Known.of_above (above : Above fork layer) : fork.Known context registry := by
  induction above with
  | head => exact known
  | layered _ _ ih => exact ih known.2.2

theorem Known.mono {registry' : Nat → Option LayerRef}
    (kept : ∀ layerId stored, registry layerId = some stored → registry' layerId = some stored) :
    layer.Known context registry' := by
  induction layer with
  | base contents => exact ⟨kept _ _ known.1, known.2⟩
  | transaction data parentLayer ih => exact ⟨kept _ _ known.1, known.2.1, ih known.2.2⟩

/-- The layer of an identity in a chain. -/
theorem Known.mem_layerChainSet {layerId : Nat} (member : layerId ∈ layer.layerChainSet) :
    ∃ found, found.layerId = layerId ∧ Above found layer := by
  induction layer with
  | base contents => exact ⟨_, (mem_singleton.mp member).symm, .head⟩
  | transaction data parentLayer ih =>
    obtain rfl | inside := mem_cons.mp member
    · exact ⟨_, rfl, .head⟩
    · obtain ⟨found, same, above⟩ := ih known.2.2 inside
      exact ⟨found, same, .layered above known.2.1.newer⟩

/-- Two known chains that meet in an identity meet in a layer. -/
theorem Known.above_of_mem (fork_known : fork.Known context registry)
    (member : fork.layerId ∈ layer.layerChainSet) : Above fork layer := by
  obtain ⟨found, same, above⟩ := known.mem_layerChainSet member
  have registered := (known.of_above above).registered
  rw [same, fork_known.registered] at registered
  cases registered
  exact above

omit known

theorem chainContains_iff : layer.chainContains head = true ↔
    head.layerId ∈ layer.layerChainSet := by
  induction layer with
  | base contents => simp [LayerRef.chainContains, layerChainSet, eq_comm]
  | transaction data parentLayer ih =>
    simp only [LayerRef.chainContains, Bool.or_eq_true, decide_eq_true_eq, ih, layerChainSet,
      mem_cons]
    exact or_congr_left eq_comm

include known

theorem Known.chainContains_iff_above (head_known : head.Known context registry) :
    layer.chainContains head = true ↔ Above head layer :=
  ⟨fun contains => known.above_of_mem head_known (chainContains_iff.mp contains),
    Above.chainContains⟩

theorem Known.zero_mem : 0 ∈ layer.layerChainSet := by
  induction layer with
  | base contents => exact mem_singleton_self _
  | transaction data parentLayer ih => exact mem_cons_of_mem _ (ih known.2.2)

omit known

include known in
/-- Two chains of a table fork at a layer of both. -/
theorem Known.exists_fork (head_known : head.Known context registry) :
    ∃ fork, layer.firstIn head.layerChainSet = some fork ∧ Above fork layer ∧ Above fork head := by
  induction layer with
  | base contents =>
    have shared : (base contents).layerId ∈ head.layerChainSet := head_known.zero_mem
    exact ⟨_, if_pos shared, .head, head_known.above_of_mem known shared⟩
  | transaction data parentLayer ih =>
    by_cases shared : data.layerId ∈ head.layerChainSet
    · exact ⟨_, if_pos shared, .head, head_known.above_of_mem known shared⟩
    · obtain ⟨fork, found, above, below⟩ := ih known.2.2
      exact ⟨fork, (if_neg shared).trans found, .layered above known.2.1.newer, below⟩

/-- A chain over the head forks from it there. -/
theorem Above.firstIn_head (above : Above head layer) (known : head.Known context registry) :
    layer.firstIn head.layerChainSet = some head := by
  induction above with
  | head => cases head <;> exact if_pos (by simp [layerChainSet])
  | layered above newer ih =>
    refine (if_neg fun member => ?_).trans ih
    obtain ⟨found, same, below⟩ := known.mem_layerChainSet member
    have older := below.le_layerId.trans above.le_layerId
    omega

include known

/-- The rows of a chain are the logs above a layer, replayed over it. -/
theorem Known.primary_eq_replay (above : Above fork layer) :
    layer.contents.primary = context.manager.schema.replay fork.contents.primary
      ((layer.ownWritesAbove fork).map OwnWrite.write) := by
  induction above with
  | head =>
    cases fork <;> simp [ownWritesAbove, replay, WriteLog.replay]
  | @layered data parentLayer above newer ih =>
    have other : data.layerId ≠ fork.layerId := (above.le_layerId.trans_lt newer).ne'
    simp only [ownWritesAbove, other, ↓reduceIte, map_append, replay_append, ← ih known.2.2]
    exact known.2.1.contents

/-- Listeners that hear of the changes above a layer see its logs. -/
theorem Known.replay_changes (above : Above fork layer)
    (listening : context.hasDataListeners = true) (rows : List Row) :
    context.manager.schema.replay rows ((layer.collectPendingChanges fork).map
        (PendingChange.write context.manager.schema)) =
      context.manager.schema.replay rows ((layer.ownWritesAbove fork).map OwnWrite.write) := by
  induction above generalizing rows with
  | head => cases fork <;> simp [ownWritesAbove, collectPendingChanges]
  | @layered data parentLayer above newer ih =>
    have other : data.layerId ≠ fork.layerId := (above.le_layerId.trans_lt newer).ne'
    obtain ⟨changes, stored⟩ := Option.isSome_iff_exists.mp (known.2.1.tracked.trans listening)
    simp only [ownWritesAbove, collectPendingChanges, other, ↓reduceIte, map_append,
      replay_append, ih known.2.2, stored]
    exact known.2.1.changes changes stored _

theorem Known.ordered :
    KeyTree.Ordered context.manager.schema.primaryKeyFromRow
      context.manager.schema.comparePrimaryKeys layer.contents.primary := by
  induction layer with
  | base contents => exact known.2
  | transaction data parentLayer ih =>
    have logged : data.contents.primary = _ := known.2.1.contents
    exact logged ▸ WriteLog.ordered_replay (ih known.2.2) _

end LayerRef

namespace TransactionData.Logged

variable {context : TransactionContext} {parentLayer : LayerRef} {data : TransactionData}

theorem record (logged : data.Logged context parentLayer) {record : Record}
    (named : record.Named context.manager.schema) :
    (data.record context.manager.schema record).Logged context parentLayer where
  newer := logged.newer
  contents := by
    simp only [TransactionData.record, map_append, replay_append, ← logged.contents]
    cases record <;> rfl
  tracked := by simp [TransactionData.record, logged.tracked]
  changes := by
    simp only [TransactionData.record, Option.mem_map, forall_exists_index, and_imp]
    rintro _ changes stored rfl rows
    simp only [map_append, replay_append, logged.changes changes stored]
    cases record with
    | upsert primaryKey newRow oldRow => cases oldRow <;> rfl
    | delete primaryKey oldRow => exact KeyTree.erase_congr _ named

/-- A new layer has an empty log. -/
theorem fresh (context : TransactionContext) {layerId : Nat}
    (newer : parentLayer.layerId < layerId) :
    TransactionData.Logged context parentLayer ⟨layerId, parentLayer.contents, [],
      if context.hasDataListeners then some [] else none, false⟩ where
  newer := newer
  contents := rfl
  tracked := by cases context.hasDataListeners <;> rfl
  changes := by
    cases context.hasDataListeners with
    | false => exact nofun
    | true => exact fun changes stored rows => by cases stored; rfl

end TransactionData.Logged

end Quereus.Memory
