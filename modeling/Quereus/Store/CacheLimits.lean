import Mathlib.Algebra.Order.Ring.Nat
import Quereus.Store.CacheCoherence

/-! # The limits of the read cache

A step changes the cache one entry at a time. However the calls interleave, the cache holds at most
`maxEntries` entries, of distinct keys, and its byte count is the size of what it holds. `maxBytes`
is no such limit: replacing a value evicts nothing.
-/

namespace Quereus.Store

open List CachedKVStore

variable {cache : CachedKVStore} {initial : Bytes → Option Bytes} {system : CacheSystem}

/-- A property that every change of one entry keeps. -/
structure EntryInvariant (predicate : CachedKVStore → Prop) : Prop where
  moved : ∀ {cache hex node}, cache.find hex = some node → predicate cache →
    predicate (cache.moveToHead node)
  filled : ∀ {cache} key value, predicate cache → predicate (cache.fill key value)
  dropped : ∀ {cache} key, predicate cache → predicate (cache.invalidate key)

namespace EntryInvariant

variable {predicate : CachedKVStore → Prop} (invariant : EntryInvariant predicate)

include invariant

theorem lookupMany (keys : List Bytes) (valid : predicate cache) :
    predicate (cache.lookupMany keys).1 := by
  induction keys generalizing cache with
  | nil => exact valid
  | cons key rest ih =>
    rw [CachedKVStore.lookupMany]
    split
    · next found => exact ih (invariant.moved (Option.ite_none_right_eq_some.mp found).2 valid)
    · exact ih valid

theorem fillMany (keys : List Bytes) (out : List (Option (Option Bytes)))
    (values : List (Option Bytes)) (valid : predicate cache) :
    predicate (cache.fillMany keys out values).1 := by
  fun_induction CachedKVStore.fillMany cache keys out values with
  | case1 cache key keys found out values filled answers same ih =>
    rw [same] at ih
    exact ih valid
  | case2 cache key keys out value values next filled answers same ih =>
    rw [same] at ih
    apply ih
    unfold next
    split
    · exact invariant.filled key value valid
    · exact valid
  | case3 => exact valid

variable (valid : predicate system.cache)

include valid

theorem start (call : CacheCall) : predicate (system.start call).cache := by
  have read (query : ReadQuery) (keys : List Bytes) :
      predicate (system.startRead query keys).cache := by
    unfold CacheSystem.startRead
    simp only
    split <;> exact invariant.lookupMany keys valid
  cases call with
  | get | has | getMany => exact read _ _
  | put | delete | write => exact valid

theorem resume (position : Nat) : predicate (system.resume position).cache := by
  have stored (key : Bytes) (value : Option Bytes) : predicate
      (if system.cache.options.enabled then system.cache.store key value else system.cache) := by
    split
    · rw [store_eq_fill]
      exact invariant.filled key value valid
    · exact valid
  unfold CacheSystem.resume
  split
  · next call before served _ =>
    cases call with
    | read query keys out => exact invariant.fillMany keys out served.values valid
    | put | delete => exact stored _ _
    | write batch =>
      exact foldlRecOn batch.ops _ valid fun _ kept op _ => invariant.dropped op.key kept
  · exact valid

theorem step (step : CacheStep) : predicate (system.step initial step).cache := by
  cases step with
  | start call => exact invariant.start valid call
  | serve position =>
    unfold CacheSystem.step CacheSystem.serve
    simp only
    split <;> exact valid
  | resume position => exact invariant.resume valid position

theorem run (steps : List CacheStep) : predicate (system.run initial steps).cache := by
  induction steps generalizing system with
  | nil => exact valid
  | cons step rest ih => exact ih (invariant.step valid step)

end EntryInvariant

/-- The entries have distinct keys, and their bytes are counted. -/
structure Counted (options : CacheOptions) (cache : CachedKVStore) : Prop where
  options_eq : cache.options = options
  distinct : (cache.nodes.map LRUNode.key).Nodup
  bytes : cache.totalBytes = (cache.nodes.map LRUNode.size).sum

structure WithinLimits (options : CacheOptions) (cache : CachedKVStore) : Prop
    extends Counted options cache where
  entries : cache.nodes.length ≤ options.maxEntries

variable {options : CacheOptions} {hex : String} {node : LRUNode}

section Counted

variable (counted : Counted options cache)

include counted

/-- A found entry is the only one of its key. -/
theorem Counted.perm_cons_filter (found : cache.find hex = some node) :
    cache.nodes ~ node :: cache.nodes.filter (·.key ≠ node.key) := by
  have member := (mem_of_find found).1
  have same : cache.nodes.erase node = cache.nodes.filter (·.key ≠ node.key) := by
    rw [counted.distinct.of_map.erase_eq_filter]
    refine filter_congr fun other inside => ?_
    have injective := inj_on_of_nodup_map counted.distinct inside member
    grind
  rw [← same]
  exact perm_cons_erase member

/-- Without a found entry its bytes are gone. -/
theorem Counted.sum_eq (found : cache.find hex = some node) :
    cache.totalBytes =
      node.size + ((cache.nodes.filter (·.key ≠ node.key)).map LRUNode.size).sum := by
  rw [counted.bytes, ((counted.perm_cons_filter found).map _).sum_nat, map_cons, sum_cons]
  exact Int.natCast_add _ _

/-- The loop has a round for each entry, so it ends within the limit. -/
theorem Counted.evictLoop {rounds : Nat} (enough : cache.nodes.length ≤ rounds) :
    WithinLimits options (evictLoop rounds cache) := by
  induction rounds generalizing cache with
  | zero => exact ⟨counted, enough.trans (Nat.zero_le _)⟩
  | succ rounds ih =>
    rw [CachedKVStore.evictLoop]
    split
    · split
      · next gone =>
        rw [getLast?_eq_none_iff] at gone
        exact ⟨counted, gone ▸ Nat.zero_le _⟩
      · next evicted last =>
        have bytes := counted.bytes
        rw [← dropLast_append_getLast? evicted last, map_append, sum_append, map_singleton,
          sum_singleton] at bytes
        refine ih ⟨counted.options_eq, ?_, ?_⟩ ?_
        · exact counted.distinct.sublist ((dropLast_sublist _).map _)
        · simp only
          omega
        · rw [length_dropLast]
          omega
    · next fits =>
      simp only [overfull, Bool.or_eq_true, decide_eq_true_eq, not_or, not_lt] at fits
      exact ⟨counted, counted.options_eq ▸ fits.1⟩

theorem Counted.evict : WithinLimits options cache.evict :=
  counted.evictLoop le_rfl

end Counted

namespace WithinLimits

variable (within : WithinLimits options cache)

include within

/-- The found entry goes to the head, with another value and size. -/
theorem updateEntry (found : cache.find hex = some node) (value : Option Bytes) (size : Nat) :
    WithinLimits options (cache.updateEntry node value size) := by
  have perm := within.perm_cons_filter found
  refine ⟨⟨within.options_eq, (perm.map _).nodup_iff.mp within.distinct, ?_⟩, ?_⟩
  · have bytes := within.sum_eq found
    simp only [CachedKVStore.updateEntry, moveToHead, map_cons, sum_cons]
    omega
  · exact perm.length_eq ▸ within.entries

theorem fill (key : Bytes) (value : Option Bytes) :
    WithinLimits options (cache.fill key value) := by
  unfold CachedKVStore.fill addEntry
  split
  · next existing found => exact within.updateEntry found _ _
  · next missing =>
    refine Counted.evict ⟨within.options_eq, ?_, ?_⟩
    · rw [map_cons, nodup_cons]
      exact ⟨by simpa [find] using missing, within.distinct⟩
    · simp [within.bytes, Int.add_comm]

theorem invalidate (key : Bytes) : WithinLimits options (cache.invalidate key) := by
  unfold CachedKVStore.invalidate removeEntry
  split
  · exact within
  · next node found =>
    have bytes := within.sum_eq found
    rw [(mem_of_find found).2] at bytes
    refine ⟨⟨within.options_eq, ?_, ?_⟩, (length_filter_le _ _).trans within.entries⟩
    · exact within.distinct.sublist (filter_sublist.map _)
    · exact Int.sub_eq_iff_eq_add'.mpr bytes

end WithinLimits

theorem withinLimits_entryInvariant : EntryInvariant (WithinLimits options) where
  moved {_ _ node} found within := by
    have kept := within.updateEntry found node.value node.size
    rwa [CachedKVStore.updateEntry, Int.sub_add_cancel] at kept
  filled key value within := within.fill key value
  dropped key within := within.invalidate key

/-- However reads, writes and batches interleave, the cache stays within its entries. -/
theorem run_withinLimits (initial : Bytes → Option Bytes) (options : CacheOptions)
    (steps : List CacheStep) :
    WithinLimits options ((CacheSystem.fresh options).run initial steps).cache := by
  apply withinLimits_entryInvariant.run
  exact ⟨⟨rfl, nodup_nil, rfl⟩, Nat.zero_le _⟩

end Quereus.Store
