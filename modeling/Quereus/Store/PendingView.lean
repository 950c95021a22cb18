import Quereus.Store.Transaction

/-!
# The index of pending operations

The index of a log has, for every store and key, the last operation of the log there: a put
under the hexadecimal key, a delete in the set of deletes, and nothing for a key the log does
not touch. Writing the log to the stores, grouped by store as a commit does it, leaves the same
values.
-/

namespace Quereus.Store

open List KeyedList PendingIndex

theorem digitChar_injective {first second : Nat} (firstDigit : first < 16)
    (secondDigit : second < 16)
    (same : first.digitChar = second.digitChar) : first = second := by
  have digits : ∀ first second : Fin 16, first.val.digitChar = second.val.digitChar →
      first = second := by
    decide
  exact congrArg Fin.val (digits ⟨first, firstDigit⟩ ⟨second, secondDigit⟩ same)

theorem hexByte_injective {first second : UInt8} (same : hexByte first = hexByte second) :
    first = second := by
  have firstBound := first.toNat_lt
  have secondBound := second.toNat_lt
  obtain ⟨high, low⟩ := cons.inj same
  have high := digitChar_injective (by omega) (by omega) high
  have low := digitChar_injective (Nat.mod_lt _ (by decide)) (Nat.mod_lt _ (by decide))
    (cons.inj low).1
  exact UInt8.toNat_inj.mp (by omega)

variable {first second : Bytes}

theorem flatMap_hexByte_injective (same : first.flatMap hexByte = second.flatMap hexByte) :
    first = second := by
  induction first generalizing second with
  | nil =>
    cases second with
    | nil => rfl
    | cons byte rest => cases same
  | cons byte rest ih =>
    cases second with
    | nil => cases same
    | cons other others =>
      obtain ⟨here, later⟩ := append_inj same rfl
      rw [hexByte_injective here, ih later]

theorem bytesToHex_injective (same : bytesToHex first = bytesToHex second) : first = second :=
  flatMap_hexByte_injective (String.ofList_injective same)

theorem bytesToHex_inj : bytesToHex first = bytesToHex second ↔ first = second :=
  ⟨bytesToHex_injective, congrArg bytesToHex⟩

section LastWrite

variable {ς : Type} [DecidableEq ς]

/-- The value the last operation on a key of a store leaves, `none` without an operation. -/
def lastWrite (ops : List (PendingOp ς)) (store : ς) (key : Bytes) : Option (Option Bytes) :=
  ops.foldl (fun found op => if op.store = store ∧ op.key = key then some op.value else found) none

variable (ops : List (PendingOp ς)) (stores : Stores ς)

theorem lastWrite_concat (op : PendingOp ς) (store : ς) (key : Bytes) :
    lastWrite (ops ++ [op]) store key =
      if op.store = store ∧ op.key = key then some op.value else lastWrite ops store key := by
  rw [lastWrite, foldl_append]
  rfl

/-- Operations on other stores do not matter. -/
theorem lastWrite_filter (store : ς) (key : Bytes) :
    lastWrite (ops.filter (·.store == store)) store key = lastWrite ops store key := by
  induction ops using reverseRecOn with
  | nil => rfl
  | append_singleton ops op ih =>
    rw [filter_append, lastWrite_concat, ← ih]
    by_cases here : op.store = store
    · rw [filter_singleton, beq_iff_eq.mpr here, cond_true, lastWrite_concat]
    · rw [filter_singleton, beq_eq_false_iff_ne.mpr here, cond_false, append_nil,
        if_neg fun both => here both.1]

/-- A bucket has the writes of a store. -/
structure PendingBucket.Shows (bucket : PendingBucket) (writes : Bytes → Option (Option Bytes)) :
    Prop where
  puts : ∀ key, bucket.puts.lookup (bytesToHex key) =
    ((writes key).bind id).map fun value => (key, value)
  deletes : ∀ key, bytesToHex key ∈ bucket.deletes ↔ writes key = some none
  /-- Every entry is one of a key. -/
  keyed : ∀ hex, hex ∈ bucket.puts.map Prod.fst ∨ hex ∈ bucket.deletes → ∃ key, hex = bytesToHex key
  distinct : (bucket.puts.map Prod.fst).Nodup

theorem PendingBucket.shows_empty : emptyPending.Shows fun _ => none where
  puts _ := rfl
  deletes _ := iff_of_false not_mem_nil nofun
  keyed _ listed := by
    obtain listed | listed := listed <;> cases listed
  distinct := nodup_nil

namespace PendingBucket.Shows

variable {bucket : PendingBucket} {writes : Bytes → Option (Option Bytes)}
    (shows : bucket.Shows writes)

include shows

omit [DecidableEq ς] in
theorem put (store : ς) (key value : Bytes) :
    (bucket.record (.put store key value)).Shows
      fun other => if key = other then some (some value) else writes other where
  puts other := by
    simp only [PendingBucket.record, lookup_put, beq_iff_eq, bytesToHex_inj]
    by_cases same : key = other
    · simp [same]
    · simp [same, Ne.symm same, shows.puts other]
  deletes other := by
    simp only [PendingBucket.record, mem_filter, shows.deletes, ne_eq, bytesToHex_inj]
    by_cases same : key = other
    · simp [same]
    · simp [same, Ne.symm same]
  keyed hex listed := by
    obtain listed | listed := listed
    · obtain rfl | old := (mem_keys_put _ _ _ _).mp listed
      · exact ⟨key, rfl⟩
      · exact shows.keyed hex (.inl old)
    · exact shows.keyed hex (.inr (mem_filter.mp listed).1)
  distinct := nodup_keys_put shows.distinct _ _

omit shows [DecidableEq ς] in
theorem mem_deletes_delete (store : ς) (key : Bytes) (hex : String) :
    hex ∈ (bucket.record (.delete store key)).deletes ↔ hex ∈ bucket.deletes ∨
      hex = bytesToHex key := by
  unfold PendingBucket.record
  by_cases listed : bytesToHex key ∈ bucket.deletes
  · simp only [listed]
    exact ⟨.inl, fun either => either.elim id fun same => same ▸ listed⟩
  · simp [listed]

omit [DecidableEq ς] in
theorem delete (store : ς) (key : Bytes) :
    (bucket.record (.delete store key)).Shows
      fun other => if key = other then some none else writes other where
  puts other := by
    refine (lookup_filter bucket.puts (fun hex => decide (hex ≠ bytesToHex key)) _).trans ?_
    by_cases same : key = other
    · simp [same]
    · simp [bytesToHex_inj, same, Ne.symm same, shows.puts other]
  deletes other := by
    rw [mem_deletes_delete, shows.deletes, bytesToHex_inj]
    by_cases same : key = other
    · simp [same]
    · simp [same, Ne.symm same]
  keyed hex listed := by
    rw [mem_deletes_delete] at listed
    obtain listed | listed | rfl := listed
    · obtain ⟨entry, member, rfl⟩ := mem_map.mp listed
      exact shows.keyed _ (.inl (mem_map_of_mem (mem_filter.mp member).1))
    · exact shows.keyed hex (.inr listed)
    · exact ⟨key, rfl⟩
  distinct := shows.distinct.sublist (filter_sublist.map _)

omit [DecidableEq ς] in
theorem record (op : PendingOp ς) :
    (bucket.record op).Shows fun key => if op.key = key then some op.value else writes key := by
  cases op with
  | put store key value => exact shows.put store key value
  | delete store key => exact shows.delete store key

end PendingBucket.Shows

/-- The index of a log shows the last writes of the log. -/
theorem shows_replay (store : ς) :
    ((ops.foldl PendingIndex.record ([] : PendingIndex ς)).bucketIn store).Shows
      (lastWrite ops store) := by
  induction ops using reverseRecOn with
  | nil => exact PendingBucket.shows_empty
  | append_singleton ops op ih =>
    rw [foldl_append]
    have bucket : (((ops.foldl record ([] : PendingIndex ς)).record op).bucketIn store) =
        if op.store = store then
          ((ops.foldl record ([] : PendingIndex ς)).bucketIn store).record op
        else (ops.foldl record ([] : PendingIndex ς)).bucketIn store := by
      unfold record bucketIn
      rw [lookup_put]
      by_cases here : op.store = store
      · simp [here]
      · simp [here, Ne.symm here]
    have writes := funext fun key => lastWrite_concat ops op store key
    rw [foldl_cons, foldl_nil, bucket, writes]
    by_cases here : op.store = store
    · simpa only [here, true_and, if_true] using ih.record op
    · simpa only [here, false_and, if_false] using ih

/-- The index has the stores that the log writes to. -/
theorem lookup_replay_isSome (store : ς) :
    ((ops.foldl PendingIndex.record ([] : PendingIndex ς)).lookup store).isSome =
      ops.any (·.store == store) := by
  induction ops using reverseRecOn with
  | nil => rfl
  | append_singleton ops op ih =>
    rw [foldl_append, any_append, ← ih]
    simp only [foldl_cons, foldl_nil, record, lookup_put]
    by_cases here : op.store = store
    · simp [here]
    · simp [here, Ne.symm here]

theorem writeAll_append (first second : List (PendingOp ς)) :
    stores.writeAll (first ++ second) = (stores.writeAll first).writeAll second :=
  foldl_append

/-- A store holds the last write of each key, and its old value where there is none. -/
theorem writeAll_eq (ops : List (PendingOp ς)) (store : ς) (key : Bytes) :
    stores.writeAll ops store key = (lastWrite ops store key).getD (stores store key) := by
  induction ops using reverseRecOn with
  | nil => rfl
  | append_singleton ops op ih =>
    rw [writeAll_append, lastWrite_concat]
    simp only [Stores.writeAll, foldl_cons, Stores.write] at ih ⊢
    by_cases here : op.store = store
    · subst here
      by_cases same : op.key = key
      · simp [same]
      · simp [same, Ne.symm same, ih]
    · simp [here, Ne.symm here, ih]

/-- The groups of a commit that are written before one fails. -/
theorem writeBatches_eq (provider : Provider ς) (stores : Stores ς)
    (groups : List (ς × List (PendingOp ς))) :
    TransactionCoordinator.writeBatches provider stores groups =
      (stores.writeAll ((groups.takeWhile fun group => !provider.failing group.1).flatMap Prod.snd),
        groups.any fun group => provider.failing group.1) := by
  induction groups generalizing stores with
  | nil => rfl
  | cons group rest ih =>
    obtain ⟨store, ops⟩ := group
    rw [TransactionCoordinator.writeBatches]
    cases fails : provider.failing store with
    | true => simp [fails, Stores.writeAll]
    | false =>
      rw [if_neg Bool.false_ne_true, ih, takeWhile_cons_of_pos (by simp [fails]), flatMap_cons,
        writeAll_append, any_cons, fails, Bool.false_or]

/-- Some of the groups of a log, once written: a store has its last writes or is as before. -/
theorem writeAll_groups (ops : List (PendingOp ς)) {groups : List (ς × List (PendingOp ς))}
    (part : groups.Sublist (groupBy PendingOp.store ops)) (store : ς) :
    (stores.writeAll (groups.flatMap Prod.snd) store = fun key =>
        (lastWrite ops store key).getD (stores store key)) ∨
      groups.lookup store = none ∧ stores.writeAll (groups.flatMap Prod.snd) store =
        stores store := by
  have distinct := (nodup_keys_groupBy PendingOp.store ops).sublist (part.map Prod.fst)
  have named : ∀ entry ∈ groups, ∀ op ∈ entry.2, op.store = entry.1 := by
    intro entry member op inGroup
    rw [(mem_groupBy (part.mem member)).1] at inGroup
    exact eq_of_beq (mem_filter.mp inGroup).2
  have own := filter_flatMap_groups distinct named store
  cases found : groups.lookup store with
  | none =>
    refine .inr ⟨rfl, funext fun key => ?_⟩
    rw [writeAll_eq, ← lastWrite_filter, own, found]
    rfl
  | some group =>
    refine .inl (funext fun key => ?_)
    have listed := (mem_groupBy (part.mem (mem_of_lookup found))).1
    rw [writeAll_eq, ← lastWrite_filter, own, found]
    rw [← lastWrite_filter ops]
    exact congrArg (fun ops => (lastWrite ops store key).getD (stores store key)) listed

/-- All groups of a log, once written. -/
theorem writeAll_groupBy (ops : List (PendingOp ς)) :
    stores.writeAll ((groupBy PendingOp.store ops).flatMap Prod.snd) = fun store key =>
      (lastWrite ops store key).getD (stores store key) := by
  funext store
  obtain written | ⟨absent, unchanged⟩ := writeAll_groups stores ops (Sublist.refl _) store
  · exact written
  · rw [unchanged]
    rw [lookup_groupBy] at absent
    have untouched : ops.filter (·.store == store) = [] := by
      by_contra some_op
      rw [if_neg (mt List.isEmpty_iff.mp some_op)] at absent
      cases absent
    funext key
    rw [← lastWrite_filter, untouched]
    rfl

end LastWrite

end Quereus.Store
