import Quereus.Store.CachedStore

/-!
# When the read cache is coherent

A call caches what the store below has answered to it, or what it has written there, and a write
that the store serves in between makes that value old. If no write is served between a call's
answer and its resumption on a key it is going to cache, every read returns a value at least as
new as the writes completed before it, and a cache at rest agrees with the store.
-/

namespace Quereus.Store

open List CachedKVStore

variable {initial : Bytes → Option Bytes} {log : List BatchOp} {before : CompletedWrites}

section Moments

variable {writes : List BatchOp} {key : Bytes}

theorem valueAfter_append_of_forall (untouched : ∀ op ∈ writes, op.key ≠ key) :
    valueAfter initial (log ++ writes) key = valueAfter initial log key := by
  unfold valueAfter
  rw [foldl_append]
  induction writes with
  | nil => rfl
  | cons op rest ih =>
    obtain ⟨here, later⟩ := forall_mem_cons.mp untouched
    rw [foldl_cons, if_neg here]
    exact ih later

theorem valueAfter_concat (op : BatchOp) : valueAfter initial (log ++ [op]) op.key = op.value := by
  rw [valueAfter, foldl_append]
  exact if_pos rfl

/-- A value that a key had at or after every completed write of it. -/
def FreshValue (initial : Bytes → Option Bytes) (log : List BatchOp) (before : CompletedWrites)
    (key : Bytes) (value : Option Bytes) : Prop :=
  ∃ moment ≤ log.length, (∀ completed, (key, completed) ∈ before → completed ≤ moment) ∧
    value = valueAfter initial (log.take moment) key

variable {value : Option Bytes}

/-- A fresh value stays one when more is written. -/
theorem FreshValue.append (fresh : FreshValue initial log before key value)
    (writes : List BatchOp) :
    FreshValue initial (log ++ writes) before key value := by
  obtain ⟨moment, inside, late, same⟩ := fresh
  refine ⟨moment, ?_, late, ?_⟩
  · rw [length_append]
    exact inside.trans (Nat.le_add_right _ _)
  · rwa [take_append_of_le_length inside]

/-- The value of now is new enough. -/
theorem freshValue_now (past : ∀ completed, (key, completed) ∈ before → completed ≤ log.length) :
    FreshValue initial log before key (valueAfter initial log key) :=
  ⟨log.length, Nat.le_refl _, past, by rw [take_length]⟩

end Moments

namespace CachedKVStore

variable {cache : CachedKVStore} {node : LRUNode} {hex : String} (key : Bytes)
  (value : Option Bytes)

theorem mem_of_find (found : cache.find hex = some node) : node ∈ cache.nodes ∧ node.key = hex :=
  ⟨mem_of_find?_eq_some found, by simpa using find?_some found⟩

theorem mem_moveToHead {other : LRUNode} (member : other ∈ (cache.moveToHead node).nodes) :
    other = node ∨ other ∈ cache.nodes ∧ other.key ≠ node.key := by
  obtain rfl | inside := mem_cons.mp member
  · exact .inl rfl
  · exact .inr ((mem_filter.mp inside).imp_right of_decide_eq_true)

/-- Eviction only drops entries. -/
theorem evictLoop_sublist (rounds : Nat) (cache : CachedKVStore) :
    (evictLoop rounds cache).nodes.Sublist cache.nodes ∧
      (evictLoop rounds cache).options = cache.options := by
  induction rounds generalizing cache with
  | zero => exact ⟨Sublist.refl _, rfl⟩
  | succ rounds ih =>
    rw [evictLoop]
    split
    · split
      · exact ⟨Sublist.refl _, rfl⟩
      · next evicted _ =>
        obtain ⟨part, options⟩ := ih
          { cache with nodes := cache.nodes.dropLast, totalBytes :=
            cache.totalBytes - evicted.size }
        exact ⟨part.trans (dropLast_sublist _), options⟩
    · exact ⟨Sublist.refl _, rfl⟩

@[simp] theorem options_addEntry (size : Nat) :
    (cache.addEntry hex value size).options = cache.options := by
  unfold addEntry
  split
  · rfl
  · exact (evictLoop_sublist _ _).2

/-- A cached key has the new value or is another key with its old value. -/
theorem mem_addEntry {value : Option Bytes} {size : Nat}
    (member : node ∈ (cache.addEntry hex value size).nodes) :
    node.key = hex ∧ node.value = value ∨ node ∈ cache.nodes ∧ node.key ≠ hex := by
  unfold addEntry at member
  cases found : cache.find hex with
  | some existing =>
    simp only [found] at member
    obtain ⟨-, named⟩ := mem_of_find found
    obtain rfl | ⟨old, different⟩ := mem_moveToHead member
    · exact .inl ⟨named, rfl⟩
    · exact .inr ⟨old, fun same => different (same.trans named.symm)⟩
  | none =>
    simp only [found] at member
    obtain rfl | old := mem_cons.mp ((evictLoop_sublist _ _).1.mem member)
    · exact .inl ⟨rfl, rfl⟩
    · exact .inr
        ⟨old, of_decide_eq_false (find?_eq_none.mp found node old |> Bool.eq_false_iff.mpr)⟩

/-- Storing what has been written is the same as caching an answer. -/
theorem store_eq_fill : cache.store key value = cache.fill key value := by
  unfold store fill addEntry
  cases cache.find (bytesToHex key) <;> rfl

theorem options_store : (cache.store key value).options = cache.options := by
  rw [store_eq_fill]
  exact options_addEntry _ _

theorem mem_invalidate {key : Bytes} (member : node ∈ (cache.invalidate key).nodes) :
    node ∈ cache.nodes ∧ node.key ≠ bytesToHex key := by
  unfold invalidate removeEntry at member
  cases found : cache.find (bytesToHex key) with
  | some existing =>
    simp only [found] at member
    exact (mem_filter.mp member).imp_right of_decide_eq_true
  | none =>
    simp only [found] at member
    exact ⟨member, of_decide_eq_false (find?_eq_none.mp found node member |> Bool.eq_false_iff.mpr)⟩

@[simp] theorem options_invalidate : (cache.invalidate key).options = cache.options := by
  unfold invalidate removeEntry
  split <;> rfl

theorem mem_invalidateAll {ops : List BatchOp}
    (member : node ∈ (ops.foldl (fun cache op => cache.invalidate op.key) cache).nodes) :
    node ∈ cache.nodes ∧ ∀ op ∈ ops, node.key ≠ bytesToHex op.key := by
  induction ops generalizing cache with
  | nil => exact ⟨member, nofun⟩
  | cons op rest ih =>
    obtain ⟨inside, others⟩ := ih member
    obtain ⟨old, different⟩ := mem_invalidate inside
    exact ⟨old, forall_mem_cons.mpr ⟨different, others⟩⟩

theorem options_invalidateAll (cache : CachedKVStore) (ops : List BatchOp) :
    (ops.foldl (fun cache op => cache.invalidate op.key) cache).options = cache.options := by
  induction ops generalizing cache with
  | nil => rfl
  | cons op rest ih => exact (ih _).trans (options_invalidate op.key)

/-- Looking keys up reorders the entries, and the answers are those of entries. -/
theorem lookupMany_spec (cache : CachedKVStore) (keys : List Bytes) :
    (cache.lookupMany keys).1.options = cache.options ∧
      (∀ node ∈ (cache.lookupMany keys).1.nodes, node ∈ cache.nodes) ∧
      (cache.lookupMany keys).2.length = keys.length ∧
      ∀ key value, (key, some value) ∈ keys.zip (cache.lookupMany keys).2 →
        ∃ node ∈ cache.nodes, node.key = bytesToHex key ∧ node.value = value := by
  induction keys generalizing cache with
  | nil => exact ⟨rfl, fun _ => id, rfl, nofun⟩
  | cons key rest ih =>
    cases found : (if cache.options.enabled then cache.find (bytesToHex key) else none) with
    | some node =>
      have hit : cache.find (bytesToHex key) = some node := by
        by_cases enabled : cache.options.enabled = true
        · rwa [if_pos enabled] at found
        · rw [if_neg enabled] at found
          cases found
      obtain ⟨inside, named⟩ := mem_of_find hit
      have moved : ∀ other ∈ (cache.moveToHead node).nodes, other ∈ cache.nodes := by
        intro other member
        obtain rfl | ⟨old, -⟩ := mem_moveToHead member
        · exact inside
        · exact old
      obtain ⟨options, nodes, length, hits⟩ := ih (cache.moveToHead node)
      simp only [lookupMany, found]
      refine ⟨options, fun other member => moved other (nodes other member),
        congrArg (· + 1) length, fun wanted value listed => ?_⟩
      obtain here | later := mem_cons.mp listed
      · cases here
        exact ⟨node, inside, named, rfl⟩
      · obtain ⟨other, member, rest⟩ := hits wanted value later
        exact ⟨other, moved other member, rest⟩
    | none =>
      obtain ⟨options, nodes, length, hits⟩ := ih cache
      simp only [lookupMany, found]
      refine ⟨options, nodes, congrArg (· + 1) length, fun wanted value listed => ?_⟩
      obtain here | later := mem_cons.mp listed
      · cases here
      · exact hits wanted value later

/-- A resumed read caches its answers, and returns the hits and these. -/
theorem fillMany_spec (cache : CachedKVStore) (keys : List Bytes)
    (out : List (Option (Option Bytes)))
    (values : List (Option Bytes)) :
    (cache.fillMany keys out values).1.options = cache.options ∧
      (cache.options.enabled = false → (cache.fillMany keys out values).1 = cache) ∧
      (∀ node ∈ (cache.fillMany keys out values).1.nodes, node ∈ cache.nodes ∨
        ∃ key, node.key = bytesToHex key ∧ (key, node.value) ∈ (missedKeys keys out).zip values) ∧
      ∀ key value, (key, value) ∈ (cache.fillMany keys out values).2 →
        (key, some value) ∈ keys.zip out ∨ (key, value) ∈ (missedKeys keys out).zip values := by
  fun_induction fillMany cache keys out values with
  | case1 cache key keys found out values filled answers filled_eq ih =>
    rw [filled_eq] at ih
    obtain ⟨options, unused, nodes, answered⟩ := ih
    refine ⟨options, unused, nodes, fun wanted value listed => ?_⟩
    obtain here | later := mem_cons.mp listed
    · cases here
      exact .inl mem_cons_self
    · exact (answered wanted value later).imp_left (mem_cons_of_mem _)
  | case2 cache key keys out value values next filled answers filled_eq ih =>
    rw [filled_eq] at ih
    obtain ⟨options, unused, nodes, answered⟩ := ih
    have next_options : next.options = cache.options := by
      unfold next
      split
      · exact options_addEntry _ _
      · rfl
    refine ⟨options.trans next_options, fun disabled => ?_, fun node member =>
      ?_, fun wanted found listed => ?_⟩
    · rw [unused (next_options ▸ disabled)]
      exact if_neg (by simp [disabled])
    · obtain old | ⟨later, named, listed⟩ := nodes node member
      · have either : node ∈ cache.nodes ∨ node.key = bytesToHex key ∧ node.value = value := by
          unfold next at old
          split at old
          · exact (mem_addEntry old).symm.imp_left And.left
          · exact .inl old
        refine either.imp_right fun ⟨named, same⟩ => ⟨key, named, ?_⟩
        rw [same]
        exact mem_cons_self
      · exact .inr ⟨later, named, mem_cons_of_mem _ listed⟩
    · obtain here | later := mem_cons.mp listed
      · cases here
        exact .inr mem_cons_self
      · exact (answered wanted found later).imp (mem_cons_of_mem _) (mem_cons_of_mem _)
  | case3 => exact ⟨rfl, fun _ => rfl, fun _ => .inl, nofun⟩

end CachedKVStore

/-- What a call caches when it resumes. -/
def WaitingCall.cachesWith (served : ServedCall) : WaitingCall → List (Bytes × Option Bytes)
  | .read _ keys out => (missedKeys keys out).zip served.values
  | .put key value => [(key, some value)]
  | .delete key => [(key, none)]
  | .write _ => []

variable {system : CacheSystem}

/-- The store serves no write of a key that a call between its answer and its resumption is going
to cache. -/
def CacheSystem.Undisturbed (system : CacheSystem) : CacheStep → Prop
  | .serve position =>
    ∀ flight ∈ system.inFlight[position]?, flight.served.isNone = true →
      system.cache.options.enabled = true → ∀ op ∈ flight.call.writes,
        ∀ other ∈ system.inFlight, other.served.isSome = true → op.key ∉ other.call.caches
  | _ => True

instance (step : CacheStep) : Decidable (system.Undisturbed step) :=
  match step with
  | .start _ | .resume _ => isTrue trivial
  | .serve position => inferInstanceAs (Decidable (∀ flight ∈ system.inFlight[position]?, _))

/-- A call in flight: its hits and its answers are new enough, and what it is going to cache is
what the store has. -/
structure CallInFlight.Sound (initial : Bytes → Option Bytes) (log : List BatchOp) (enabled : Bool)
    (flight : CallInFlight) : Prop where
  past : ∀ key completed, (key, completed) ∈ flight.before → completed ≤ log.length
  hits : ∀ query keys out, flight.call = .read query keys out → ∀ key value,
    (key, some value) ∈ keys.zip out → FreshValue initial log flight.before key value
  moment : ∀ served, flight.served = some served → served.moment ≤ log.length
  answers : ∀ query keys out served, flight.call = .read query keys out → flight.served =
    some served →
    ∀ key value, (key, value) ∈ (missedKeys keys out).zip served.values →
      FreshValue initial log flight.before key value
  current : enabled = true → ∀ served, flight.served = some served → ∀ key value,
    (key, value) ∈ flight.call.cachesWith served → value = valueAfter initial log key

structure CacheSystem.Coherent (initial : Bytes → Option Bytes) (system : CacheSystem) : Prop where
  past : ∀ key completed, (key, completed) ∈ system.completed → completed ≤ system.log.length
  disabled : system.cache.options.enabled = false → system.cache.nodes = []
  cached : ∀ node ∈ system.cache.nodes, ∀ key, node.key = bytesToHex key →
    FreshValue initial system.log system.completed key node.value
  /-- An old entry is of a key whose write has not resumed yet. -/
  current : ∀ node ∈ system.cache.nodes, ∀ key, node.key = bytesToHex key →
    node.value = system.stored initial key ∨ ∃ flight ∈ system.inFlight,
      flight.served.isSome = true ∧
      ∃ op ∈ flight.call.writes, op.key = key
  flights : ∀ flight ∈ system.inFlight,
    flight.Sound initial system.log system.cache.options.enabled
  answers : ∀ answer ∈ system.answers, ∃ value, answer.reply = answer.query.reply value ∧
    FreshValue initial system.log answer.before answer.key value

namespace CacheSystem

/-- An unused cache is coherent. -/
theorem coherent_fresh (options : CacheOptions) : (fresh options).Coherent initial where
  past _ _ listed := nomatch listed
  disabled _ := rfl
  cached _ member := nomatch member
  current _ member := nomatch member
  flights _ member := nomatch member
  answers _ member := nomatch member

variable (coherent : system.Coherent initial) {position : Nat}

include coherent

variable {call : WaitingCall} {α : Type} {items : List α}

theorem Coherent.await (hits : ∀ query keys out, call = .read query keys out → ∀ key value,
      (key, some value) ∈ keys.zip out → FreshValue initial system.log system.completed key value) :
    (system.await call).Coherent initial where
  past := coherent.past
  disabled := coherent.disabled
  cached := coherent.cached
  current node member key named := by
    refine (coherent.current node member key named).imp_right ?_
    rintro ⟨flight, listed, rest⟩
    exact ⟨flight, mem_append_left _ listed, rest⟩
  flights flight member := by
    obtain old | new := mem_append.mp member
    · exact coherent.flights flight old
    · rw [mem_singleton] at new
      subst new
      exact ⟨coherent.past, hits, nofun, nofun, nofun⟩
  answers := coherent.answers

theorem Coherent.answer {query : ReadQuery} {found : List (Bytes × Option Bytes)}
    (fresh : ∀ key value, (key, value) ∈ found → FreshValue initial system.log before key value) :
    (system.answer query before found).Coherent initial where
  past := coherent.past
  disabled := coherent.disabled
  cached := coherent.cached
  current := coherent.current
  flights := coherent.flights
  answers answer member := by
    obtain old | new := mem_append.mp member
    · exact coherent.answers answer old
    · obtain ⟨⟨key, value⟩, listed, rfl⟩ := mem_map.mp new
      exact ⟨value, rfl, fresh key value listed⟩

variable {cache : CachedKVStore} {enabled : Bool} {item : α} {served : ServedCall}

/-- Another cache with some of the entries. -/
theorem Coherent.withCache (options : cache.options = system.cache.options)
    (nodes : ∀ node ∈ cache.nodes, node ∈ system.cache.nodes) :
    ({ system with cache } : CacheSystem).Coherent initial where
  past := coherent.past
  disabled off := eq_nil_of_subset_nil (coherent.disabled (options ▸ off) ▸ nodes)
  cached node member := coherent.cached node (nodes node member)
  current node member := coherent.current node (nodes node member)
  flights flight member := by
    rw [options]
    exact coherent.flights flight member
  answers := coherent.answers

omit coherent

theorem eq_map_some_of_all {out : List (Option α)} (whole : out.all Option.isSome = true) :
    out = (out.filterMap id).map some := by
  induction out with
  | nil => rfl
  | cons found rest ih =>
    obtain ⟨here, later⟩ := Bool.and_eq_true_iff.mp whole
    obtain ⟨value, rfl⟩ := Option.isSome_iff_exists.mp here
    exact congrArg (some value :: ·) (ih later)

include coherent

theorem Coherent.startRead (query : ReadQuery) (keys : List Bytes) :
    (system.startRead query keys).Coherent initial := by
  obtain ⟨options, nodes, length, hits⟩ := system.cache.lookupMany_spec keys
  have looked := coherent.withCache options nodes
  have fresh : ∀ key value, (key, some value) ∈ keys.zip (system.cache.lookupMany keys).2 →
      FreshValue initial system.log system.completed key value := by
    intro key value listed
    obtain ⟨node, member, named, rfl⟩ := hits key value listed
    exact coherent.cached node member key named
  unfold CacheSystem.startRead
  simp only
  split
  · next whole =>
    have out : (system.cache.lookupMany keys).2 =
        ((system.cache.lookupMany keys).2.filterMap id).map some :=
      eq_map_some_of_all whole
    refine looked.answer fun key value listed => fresh key value ?_
    rw [out, zip_map_right, mem_map]
    exact ⟨(key, value), listed, rfl⟩
  · refine looked.await fun _ _ _ same key value listed => ?_
    cases same
    exact fresh key value listed

/-- A call that is started is answered from the cache or waits. -/
theorem Coherent.start (call : CacheCall) : (system.start call).Coherent initial := by
  cases call with
  | get key => exact coherent.startRead .value [key]
  | has key => exact coherent.startRead .presence [key]
  | getMany keys => exact coherent.startRead .value keys
  | _ => exact coherent.await nofun

omit coherent

/-- A call in flight that the writes of another do not touch. -/
theorem sound_append {flight : CallInFlight} {writes : List BatchOp}
    (sound : flight.Sound initial log enabled)
    (untouched : enabled = true → flight.served.isSome = true → ∀ op ∈ writes,
      op.key ∉ flight.call.caches) :
    flight.Sound initial (log ++ writes) enabled where
  past key completed listed := by
    rw [length_append]
    exact (sound.past key completed listed).trans (Nat.le_add_right _ _)
  hits query keys out call key value listed :=
    (sound.hits query keys out call key value listed).append writes
  moment served answered := by
    rw [length_append]
    exact (sound.moment served answered).trans (Nat.le_add_right _ _)
  answers query keys out served call answered key value listed :=
    (sound.answers query keys out served call answered key value listed).append writes
  current on served answered key value listed := by
    have going : key ∈ flight.call.caches := by
      obtain ⟨call, before, served⟩ := flight
      cases call with
      | read query keys out => exact (of_mem_zip listed).1
      | write batch => cases listed
      | _ =>
        cases mem_singleton.mp listed
        exact mem_singleton_self _
    have served_some : flight.served.isSome = true := by rw [answered]; rfl
    rw [valueAfter_append_of_forall fun op member same =>
      untouched on served_some op member (same ▸ going)]
    exact sound.current on served answered key value listed

theorem mem_set_or_eq {old new : α} (found : items[position]? = some old) (member : item ∈ items) :
    item ∈ items.set position new ∨ item = old := by
  obtain ⟨other, listed⟩ := mem_iff_getElem?.mp member
  by_cases here : position = other
  · subst here
    exact .inr (Option.some.inj (listed.symm.trans found))
  · exact .inl (mem_iff_getElem?.mpr ⟨other, by rwa [getElem?_set_ne here]⟩)

theorem mem_zip_map {β : Type} {value : α → β} {first : α} {second : β}
    (listed : (first, second) ∈ items.zip (items.map value)) : second = value first := by
  rw [← map_id items, map_map, zip_map', mem_map] at listed
  obtain ⟨item, -, same⟩ := listed
  cases same
  rfl

/-- The call that is served gets the values of the moment. -/
theorem sound_served (sound : CallInFlight.Sound initial log enabled ⟨call, before, none⟩) :
    CallInFlight.Sound initial (log ++ call.writes) enabled
      ⟨call, before, some ⟨call.reads.map (valueAfter initial log), (log ++ call.writes).length⟩⟩
        where
  past := (sound_append sound fun _ answered => by cases answered).past
  hits := (sound_append sound fun _ answered => by cases answered).hits
  moment served answered := by
    cases answered
    exact Nat.le_refl _
  answers query keys out served same answered key value listed := by
    cases answered
    cases same
    rw [mem_zip_map listed]
    exact (freshValue_now fun completed => sound.past key completed).append _
  current on served answered key value listed := by
    cases answered
    cases call with
    | read query keys out =>
      rw [mem_zip_map listed]
      exact congrArg (valueAfter initial · key) (append_nil log).symm
    | put other written =>
      cases mem_singleton.mp listed
      exact (valueAfter_concat (BatchOp.mk _ (some written))).symm
    | delete other =>
      cases mem_singleton.mp listed
      exact (valueAfter_concat (BatchOp.mk _ none)).symm
    | write batch => cases listed

include coherent in
/-- The store below serves a call. -/
theorem Coherent.serve (undisturbed : system.Undisturbed (.serve position)) :
    (system.serve initial position).Coherent initial := by
  unfold CacheSystem.serve
  split
  · next call before found =>
    have member := mem_of_getElem? found
    have undisturbed := undisturbed _ found rfl
    refine ⟨fun key completed listed => ?_, coherent.disabled, fun node inCache key named => ?_,
      fun node inCache key named => ?_, fun flight inFlight => ?_, fun answer listed => ?_⟩
    · rw [length_append]
      exact (coherent.past key completed listed).trans (Nat.le_add_right _ _)
    · exact (coherent.cached node inCache key named).append call.writes
    · by_cases written : ∃ op ∈ call.writes, op.key = key
      · exact .inr ⟨_, List.mem_set (List.getElem?_eq_some_iff.mp found).1 _, rfl, written⟩
      · obtain same | ⟨flight, listed, served, rest⟩ := coherent.current node inCache key named
        · refine .inl (same.trans ?_)
          exact (valueAfter_append_of_forall fun op listed here => written ⟨op, listed, here⟩).symm
        · refine .inr ⟨flight, ?_, served, rest⟩
          obtain kept | rfl := mem_set_or_eq found listed
          · exact kept
          · cases served
    · obtain old | rfl := mem_or_eq_of_mem_set inFlight
      · refine sound_append (coherent.flights flight old) fun on served op inWrites => ?_
        exact undisturbed on op inWrites flight old served
      · exact sound_served (coherent.flights _ member)
    · obtain ⟨value, same, fresh⟩ := coherent.answers answer listed
      exact ⟨value, same, fresh.append call.writes⟩
  · exact coherent

theorem mem_eraseIdx_or_eq {gone : α} (found : items[position]? = some gone)
    (member : item ∈ items) :
    item ∈ items.eraseIdx position ∨ item = gone := by
  obtain ⟨other, listed⟩ := mem_iff_getElem?.mp member
  by_cases here : other = position
  · subst here
    exact .inr (Option.some.inj (listed.symm.trans found))
  · exact .inl (mem_eraseIdx_iff_getElem?.mpr ⟨other, here, listed⟩)

include coherent

variable (found : system.inFlight[position]? = some ⟨call, before, some served⟩)

include found in
/-- A call leaves the flight: the cache keeps entries of keys it has not written, and takes in
what the call caches. -/
theorem Coherent.settle (options : cache.options = system.cache.options)
    (disabled : cache.options.enabled = false → cache.nodes = []) (nodes : ∀ node ∈ cache.nodes,
      node ∈ system.cache.nodes ∧ (∀ op ∈ call.writes, node.key ≠ bytesToHex op.key) ∨
      ∃ key, node.key = bytesToHex key ∧ (key, node.value) ∈ call.cachesWith served) :
    ({ system with
      cache
      inFlight := system.inFlight.eraseIdx position
      completed := system.completed ++ call.writes.map fun op => (op.key, served.moment) } :
        CacheSystem).Coherent initial := by
  have sound := coherent.flights _ (mem_of_getElem? found)
  have past : ∀ key completed, (key, completed) ∈
      system.completed ++ (call.writes.map fun op => (op.key, served.moment)) →
        completed ≤ system.log.length := by
    intro key completed listed
    obtain old | new := mem_append.mp listed
    · exact coherent.past key completed old
    · obtain ⟨op, -, same⟩ := mem_map.mp new
      cases same
      exact sound.moment served rfl
  -- An entry that the call has put into the cache is what the store has.
  have now : ∀ node ∈ cache.nodes, ∀ key, node.key = bytesToHex key →
      (key, node.value) ∈ call.cachesWith served → node.value = system.stored initial key := by
    intro node inCache key named listed
    have on : system.cache.options.enabled = true := by
      by_contra off
      rw [disabled (options ▸ Bool.eq_false_iff.mpr off)] at inCache
      cases inCache
    exact sound.current on served rfl key node.value listed
  refine ⟨past, disabled, fun node inCache key named => ?_, fun node inCache key named => ?_,
    fun flight listed => ?_, coherent.answers⟩
  · obtain ⟨old, unwritten⟩ | ⟨other, otherNamed, listed⟩ := nodes node inCache
    · obtain ⟨moment, inside, late, same⟩ := coherent.cached node old key named
      refine ⟨moment, inside, fun completed listed => ?_, same⟩
      obtain listed | listed := mem_append.mp listed
      · exact late completed listed
      · obtain ⟨op, inWrites, same⟩ := mem_map.mp listed
        cases same
        exact absurd named (unwritten op inWrites)
    · cases bytesToHex_injective (named.symm.trans otherNamed)
      rw [now node inCache key named listed]
      exact freshValue_now (past key)
  · obtain ⟨old, unwritten⟩ | ⟨other, otherNamed, listed⟩ := nodes node inCache
    · refine (coherent.current node old key named).imp_right ?_
      rintro ⟨flight, listed, answered, op, inWrites, same⟩
      obtain kept | rfl := mem_eraseIdx_or_eq found listed
      · exact ⟨flight, kept, answered, op, inWrites, same⟩
      · exact absurd (named.trans (congrArg bytesToHex same.symm)) (unwritten op inWrites)
    · cases bytesToHex_injective (named.symm.trans otherNamed)
      exact .inl (now node inCache key named listed)
  · rw [options]
    exact coherent.flights flight (mem_of_mem_eraseIdx listed)

include found in
/-- A write of one key. -/
theorem Coherent.settleStore
    {key : Bytes} {value : Option Bytes} (writes : call.writes = [⟨key, value⟩])
    (caches : call.cachesWith served = [(key, value)]) :
    ({ system with
      cache := if system.cache.options.enabled then system.cache.store key value else system.cache
      inFlight := system.inFlight.eraseIdx position
      completed := system.completed ++ call.writes.map fun op => (op.key, served.moment) } :
        CacheSystem).Coherent initial := by
  by_cases on : system.cache.options.enabled = true
  · simp only [on, if_true]
    refine coherent.settle found (options_store key value) (fun off => ?_) fun node inCache => ?_
    · rw [options_store, on] at off
      cases off
    · rw [store_eq_fill] at inCache
      obtain ⟨named, same⟩ | ⟨old, different⟩ := mem_addEntry inCache
      · exact .inr ⟨key, named, by rw [caches, same]; exact mem_singleton_self _⟩
      · refine .inl ⟨old, fun op listed => ?_⟩
        rw [writes, mem_singleton] at listed
        rwa [listed]
  · rw [if_neg on]
    have empty := coherent.disabled (Bool.eq_false_iff.mpr on)
    exact coherent.settle found rfl coherent.disabled fun node inCache => by
      rw [empty] at inCache
      cases inCache

/-- A call goes on after its `await`. -/
theorem Coherent.resume (position : Nat) : (system.resume position).Coherent initial := by
  unfold CacheSystem.resume
  split
  · next call before served found =>
    have sound := coherent.flights _ (mem_of_getElem? found)
    cases call with
    | read query keys out =>
      obtain ⟨options, unused, nodes, answered⟩ := system.cache.fillMany_spec keys out served.values
      have settled := coherent.settle found options
        (fun off => by rw [unused (options ▸ off)]; exact coherent.disabled (options ▸ off))
        (fun node inCache => (nodes node inCache).imp_left fun old => ⟨old, nofun⟩)
      simp only [WaitingCall.writes, map_nil, append_nil] at settled
      refine settled.answer fun key value listed => ?_
      exact (answered key value listed).elim (sound.hits query keys out rfl key value)
        (sound.answers query keys out served rfl rfl key value)
    | put key value => exact coherent.settleStore found rfl rfl
    | delete key => exact coherent.settleStore found rfl rfl
    | write batch =>
      have options := system.cache.options_invalidateAll batch.ops
      refine coherent.settle found options (fun off => ?_) fun node inCache => .inl ?_
      · refine eq_nil_of_subset_nil (coherent.disabled (options ▸ off) ▸ fun node inCache => ?_)
        exact (mem_invalidateAll inCache).1
      · obtain ⟨old, different⟩ := mem_invalidateAll inCache
        exact ⟨old, fun op inner => different op (batch.remembered op inner)⟩
  · exact coherent

/-- A step that disturbs no read keeps the cache coherent. -/
theorem Coherent.step {step : CacheStep} (undisturbed : system.Undisturbed step) :
    (system.step initial step).Coherent initial := by
  cases step with
  | start call => exact coherent.start call
  | serve position => exact coherent.serve undisturbed
  | resume position => exact coherent.resume position

omit coherent

/-- Every step of a run is undisturbed where it is made. -/
def UndisturbedRun (initial : Bytes → Option Bytes) : CacheSystem → List CacheStep → Prop
  | _, [] => True
  | system, step :: rest =>
    system.Undisturbed step ∧ UndisturbedRun initial (system.step initial step) rest

instance decidableUndisturbedRun (initial : Bytes → Option Bytes) (system : CacheSystem) :
    (steps : List CacheStep) → Decidable (UndisturbedRun initial system steps)
  | [] => isTrue trivial
  | step :: rest =>
    haveI := decidableUndisturbedRun initial (system.step initial step) rest
    inferInstanceAs (Decidable (_ ∧ _))

include coherent in
/-- And so does a run of such steps. -/
theorem Coherent.run {steps : List CacheStep} (undisturbed : UndisturbedRun initial system steps) :
    (system.run initial steps).Coherent initial := by
  induction steps generalizing system with
  | nil => exact coherent
  | cons step rest ih => exact ih (coherent.step undisturbed.1) undisturbed.2

/-- In a run where the store serves no write of a key that a served call is still going to cache,
every read returns a value at least as new as the writes completed before it, and a cache at rest
agrees with the store. -/
theorem run_coherent (initial : Bytes → Option Bytes) (options : CacheOptions)
    (steps : List CacheStep)
    (undisturbed : UndisturbedRun initial (fresh options) steps) :
    (∀ answer ∈ ((fresh options).run initial steps).answers, ∃ value,
      answer.reply = answer.query.reply value ∧
        FreshValue initial ((fresh options).run initial steps).log answer.before answer.key value) ∧
    (((fresh options).run initial steps).inFlight = [] → ∀ key node,
      ((fresh options).run initial steps).cache.find (bytesToHex key) = some node →
        node.value = ((fresh options).run initial steps).stored initial key) := by
  have coherent := (coherent_fresh options).run undisturbed
  refine ⟨coherent.answers, fun rest key node found => ?_⟩
  obtain ⟨inCache, named⟩ := mem_of_find found
  obtain same | ⟨flight, listed, -⟩ := coherent.current node inCache key named
  · exact same
  · rw [rest] at listed
    cases listed

/-- A read and a write of one key in flight together: the store serves the write first, then the
read, and they resume in the other order. Then the key is read again. -/
def overlappingCalls : List CacheStep :=
  [.start (.get [1]), .start (.put [1] [7]), .serve 1, .serve 0, .resume 0, .resume 0,
    .start (.get [1])]

/-- Both reads of the overlapping calls are answered with a fresh value. -/
theorem run_coherent_overlapping :
    UndisturbedRun (fun _ => none) (fresh {}) overlappingCalls ∧
      ∀ answer ∈ ((fresh {}).run (fun _ => none) overlappingCalls).answers, ∃ value,
        answer.reply = answer.query.reply value ∧
          FreshValue (fun _ => none) ((fresh {}).run (fun _ => none) overlappingCalls).log
            answer.before answer.key value :=
  ⟨by decide, (run_coherent (fun _ => none) {} overlappingCalls (by decide)).1⟩

/-- The store answers a read before it serves a write of the key, and the read resumes after the
write is complete: the old answer is cached over the new value. -/
def staleFill : List CacheStep :=
  [.start (.get [1]), .serve 0, .start (.put [1] [7]), .serve 1, .resume 1, .resume 0,
    .start (.get [1])]

/-- The last read returns that the key is absent, although its write was complete, and the cache
at rest disagrees with the store. -/
theorem staleFill_incoherent :
    ∃ system, system = (fresh {}).run (fun _ => none) staleFill ∧ system.inFlight = [] ∧
      (system.cache.find (bytesToHex [1])).map LRUNode.value = some none ∧
      system.stored (fun _ => none) [1] = some [7] ∧
      ∃ answer ∈ system.answers, ¬ ∃ value, answer.reply = answer.query.reply value ∧
        FreshValue (fun _ => none) system.log answer.before answer.key value := by
  refine ⟨_, rfl, by
    decide, by decide, by decide, ⟨.value, [1], .value none, [([1], 1)]⟩, by decide, ?_⟩
  rintro ⟨value, same, moment, inside, late, rfl⟩
  have one : moment = 1 := Nat.le_antisymm inside (late 1 (by decide))
  subst one
  exact absurd same (by decide)

end CacheSystem

end Quereus.Store
