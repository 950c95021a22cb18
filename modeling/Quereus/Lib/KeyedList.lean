import Mathlib.Data.List.Nodup
import Mathlib.Data.List.Induction
import Mathlib.Order.Lattice

/-! # Lists of keyed entries

A finite map kept as a list of key/value entries in insertion order, the way a
hash map that iterates in insertion order keeps it. A key is looked up with
`List.lookup`, so an entry is visible when no earlier entry has its key. `put`
overwrites the entry of a key in place and appends a new key at the end, and
`groupBy` collects the items of one key in their original order.
-/

namespace KeyedList

open List

variable {κ ν α : Type} [BEq κ] [LawfulBEq κ]

/-- Overwrite the entry of `key`, or append one. -/
def put : List (κ × ν) → κ → ν → List (κ × ν)
  | [], key, value => [(key, value)]
  | (first, old) :: rest, key, value =>
    if first == key then (key, value) :: rest else (first, old) :: put rest key value

theorem lookup_cons_of_ne (rest : List (κ × ν)) {key first : κ} (value : ν)
    (different : key ≠ first) : ((first, value) :: rest).lookup key = rest.lookup key := by
  rw [lookup_cons, beq_eq_false_iff_ne.mpr different]

variable (entries : List (κ × ν)) (key : α → κ) (items : List α)

theorem lookup_put (key other : κ) (value : ν) :
    (put entries key value).lookup other =
      if other == key then some value else entries.lookup other := by
  induction entries with
  | nil =>
    rw [put, lookup_cons]
    cases other == key <;> rfl
  | cons entry rest ih =>
    obtain ⟨first, old⟩ := entry
    unfold put
    by_cases same : first = key
    · subst same
      rw [if_pos (beq_self_eq_true _), lookup_cons, lookup_cons]
      cases other == first <;> rfl
    · rw [if_neg (mt eq_of_beq same), lookup_cons, lookup_cons, ih]
      by_cases hit : other = first
      · simp [hit, same]
      · rw [beq_eq_false_iff_ne.mpr hit]

@[simp] theorem lookup_put_self (key : κ) (value : ν) :
    (put entries key value).lookup key = some value := by
  rw [lookup_put, if_pos (beq_self_eq_true _)]

theorem lookup_put_of_ne {key other : κ} (value : ν) (different : other ≠ key) :
    (put entries key value).lookup other = entries.lookup other := by
  rw [lookup_put, if_neg (mt eq_of_beq different)]

/-- Dropping the entries of some keys hides exactly those keys. -/
theorem lookup_filter (keep : κ → Bool) (key : κ) :
    (entries.filter fun entry => keep entry.1).lookup key =
      if keep key then entries.lookup key else none := by
  induction entries with
  | nil => simp
  | cons entry rest ih =>
    obtain ⟨first, value⟩ := entry
    by_cases same : key = first
    · subst same
      by_cases kept : keep key
      · simp [kept]
      · simp [kept, ih]
    · rw [lookup_cons_of_ne rest value same, ← ih, filter_cons]
      split
      · exact lookup_cons_of_ne _ value same
      · rfl

/-- Every visible entry is an entry. -/
theorem mem_of_lookup {entries : List (κ × ν)} {key : κ} {value : ν}
    (found : entries.lookup key = some value) : (key, value) ∈ entries := by
  obtain ⟨before, after, rfl, -⟩ := lookup_eq_some_iff.mp found
  exact mem_append_right _ mem_cons_self

/-- Without repeated keys every entry is visible. -/
theorem lookup_of_mem {entries : List (κ × ν)} (distinct : (entries.map Prod.fst).Nodup)
    {key : κ} {value : ν} (member : (key, value) ∈ entries) :
    entries.lookup key = some value := by
  induction entries with
  | nil => simp at member
  | cons entry rest ih =>
    obtain ⟨first, old⟩ := entry
    rw [map_cons, nodup_cons] at distinct
    rcases mem_cons.mp member with equal | inside
    · cases equal
      exact lookup_cons_self
    · have different : key ≠ first := fun same =>
        distinct.1 (mem_map.mpr ⟨(key, value), inside, same⟩)
      rw [lookup_cons_of_ne rest old different]
      exact ih distinct.2 inside

theorem lookup_eq_none_iff (key : κ) : entries.lookup key = none ↔ key ∉ entries.map Prod.fst := by
  rw [List.lookup_eq_none_iff, List.mem_map]
  constructor
  · rintro absent ⟨entry, member, rfl⟩
    simpa using absent entry member
  · intro absent entry member
    rw [bne_iff_ne]
    rintro rfl
    exact absent ⟨entry, member, rfl⟩

theorem mem_keys_put (key : κ) (value : ν) (other : κ) :
    other ∈ (put entries key value).map Prod.fst ↔
      other = key ∨ other ∈ entries.map Prod.fst := by
  induction entries with
  | nil => simp [put]
  | cons entry rest ih =>
    obtain ⟨first, old⟩ := entry
    unfold put
    by_cases same : first = key
    · simp [same]
    · rw [if_neg (mt eq_of_beq same), map_cons, mem_cons, ih, map_cons, mem_cons]
      exact or_left_comm

/-- `put` keeps the keys distinct. -/
theorem nodup_keys_put {entries : List (κ × ν)} (distinct : (entries.map Prod.fst).Nodup)
    (key : κ) (value : ν) : ((put entries key value).map Prod.fst).Nodup := by
  induction entries with
  | nil => simp [put]
  | cons entry rest ih =>
    obtain ⟨first, old⟩ := entry
    rw [map_cons, nodup_cons] at distinct
    unfold put
    by_cases same : first = key
    · rw [if_pos (beq_iff_eq.mpr same), map_cons, nodup_cons]
      exact ⟨same ▸ distinct.1, distinct.2⟩
    · rw [if_neg (mt eq_of_beq same), map_cons, nodup_cons, mem_keys_put]
      exact ⟨not_or.mpr ⟨same, distinct.1⟩, ih distinct.2⟩

/-- Collect the items of each key, keys and items in the order they are met. -/
def groupBy (key : α → κ) (items : List α) : List (κ × List α) :=
  items.foldl (fun groups item =>
    put groups (key item) ((groups.lookup (key item)).getD [] ++ [item])) []

omit [LawfulBEq κ] in
theorem groupBy_append_singleton (item : α) : groupBy key (items ++ [item]) =
      put (groupBy key items) (key item)
        (((groupBy key items).lookup (key item)).getD [] ++ [item]) := by
  simp [groupBy]

/-- The group of a key is its items in order; a key without items has no group. -/
theorem lookup_groupBy (wanted : κ) : (groupBy key items).lookup wanted =
      if (items.filter fun item => key item == wanted).isEmpty then none
      else some (items.filter fun item => key item == wanted) := by
  induction items using reverseRecOn with
  | nil => rfl
  | append_singleton items item ih =>
    rw [groupBy_append_singleton, lookup_put, filter_append, filter_singleton]
    by_cases same : wanted = key item
    · subst same
      rw [if_pos (beq_self_eq_true _), ih]
      split <;> simp_all
    · rw [if_neg (mt eq_of_beq same), ih]
      rw [beq_eq_false_iff_ne.mpr (Ne.symm same), cond_false, append_nil]

theorem nodup_keys_groupBy : ((groupBy key items).map Prod.fst).Nodup := by
  induction items using reverseRecOn with
  | nil => exact nodup_nil
  | append_singleton items item ih =>
    rw [groupBy_append_singleton]
    exact nodup_keys_put ih _ _

/-- An entry of the grouping holds the items of its key, and there is one. -/
theorem mem_groupBy {key : α → κ} {items : List α} {entry : κ × List α}
    (member : entry ∈ groupBy key items) :
    entry.2 = items.filter (fun item => key item == entry.1) ∧ entry.2 ≠ [] := by
  have found := lookup_of_mem (nodup_keys_groupBy key items) member
  rw [lookup_groupBy] at found
  split at found
  · cases found
  · rename_i inhabited
    have same := Option.some.inj found
    rw [List.isEmpty_iff, same] at inhabited
    exact ⟨same.symm, inhabited⟩

theorem flatMap_put_perm (groups : List (κ × List α)) (key : κ) (item : α) :
    ((put groups key ((groups.lookup key).getD [] ++ [item])).flatMap Prod.snd).Perm
      (groups.flatMap Prod.snd ++ [item]) := by
  induction groups with
  | nil => simp [put]
  | cons entry rest ih =>
    obtain ⟨first, old⟩ := entry
    unfold put
    by_cases same : first = key
    · subst same
      rw [if_pos (beq_self_eq_true _), lookup_cons_self]
      simp only [flatMap_cons, append_assoc]
      exact Perm.append_left old perm_append_comm
    · rw [if_neg (mt eq_of_beq same), lookup_cons_of_ne _ _ (Ne.symm same)]
      simp only [flatMap_cons, append_assoc]
      exact Perm.append_left old ih

/-- Grouping loses and repeats nothing. -/
theorem flatMap_groupBy_perm : ((groupBy key items).flatMap Prod.snd).Perm items := by
  induction items using reverseRecOn with
  | nil => exact Perm.nil
  | append_singleton items item ih =>
    rw [groupBy_append_singleton]
    exact (flatMap_put_perm _ _ _).trans (ih.append_right [item])

/-- Groups with distinct keys, each of items of its key: the items of one key are those of its
group. -/
theorem filter_flatMap_groups {key : α → κ} {groups : List (κ × List α)}
    (distinct : (groups.map Prod.fst).Nodup)
    (sorted : ∀ entry ∈ groups, ∀ item ∈ entry.2, key item = entry.1) (wanted : κ) :
    (groups.flatMap Prod.snd).filter (fun item => key item == wanted) =
      (groups.lookup wanted).getD [] := by
  induction groups with
  | nil => rfl
  | cons entry rest ih =>
    obtain ⟨first, items⟩ := entry
    obtain ⟨here, later⟩ := forall_mem_cons.mp sorted
    rw [map_cons, nodup_cons] at distinct
    rw [flatMap_cons, filter_append, ih distinct.2 later]
    by_cases same : wanted = first
    · subst same
      have absent := (lookup_eq_none_iff rest wanted).mpr distinct.1
      rw [absent, lookup_cons_self, Option.getD_none, append_nil]
      exact filter_eq_self.mpr fun item member => beq_iff_eq.mpr (here item member)
    · have none_here : items.filter (fun item => key item == wanted) = [] :=
        filter_eq_nil_iff.mpr fun item member hit =>
          same ((eq_of_beq hit).symm.trans (here item member))
      rw [none_here, nil_append, lookup_cons_of_ne rest items same]

section Latest

variable {τ : Type} [LinearOrder τ] (key : α → κ) (stamp : α → τ) (items : List α)

/-- Keep `item` when its key has no item yet, or an older one. -/
def keepLatest (winners : List (κ × α)) (item : α) : List (κ × α) :=
  match winners.lookup (key item) with
  | none => put winners (key item) item
  | some previous => if stamp previous < stamp item then put winners (key item) item else winners

/-- The latest item of each key; of two equally late ones, the first. -/
def latestByKey (items : List α) : List (κ × α) :=
  items.foldl (keepLatest key stamp) []

omit [LawfulBEq κ] in
theorem latestByKey_append_singleton (item : α) : latestByKey key stamp (items ++ [item]) =
      keepLatest key stamp (latestByKey key stamp items) item := by
  simp [latestByKey]

theorem lookup_keepLatest (winners : List (κ × α)) (item : α) (wanted : κ) :
    (keepLatest key stamp winners item).lookup wanted =
      if wanted == key item then
        match winners.lookup wanted with
        | none => some item
        | some previous => if stamp previous < stamp item then some item else some previous
      else winners.lookup wanted := by
  unfold keepLatest
  by_cases same : wanted = key item
  · subst same
    rw [if_pos (beq_self_eq_true _)]
    cases found : winners.lookup (key item) with
    | none => exact lookup_put_self _ _ _
    | some previous =>
      dsimp only
      split
      · exact lookup_put_self _ _ _
      · exact found
  · rw [if_neg (mt eq_of_beq same)]
    split
    · exact lookup_put_of_ne _ _ same
    · split
      · exact lookup_put_of_ne _ _ same
      · rfl

/-- What is known of the winner of a key, if it has one. -/
theorem lookup_latestByKey_spec (wanted : κ) :
    match (latestByKey key stamp items).lookup wanted with
    | none => ∀ item ∈ items, key item ≠ wanted
    | some winner => winner ∈ items ∧ key winner = wanted ∧
        ∀ item ∈ items, key item = wanted → stamp item ≤ stamp winner := by
  induction items using reverseRecOn with
  | nil => simp [latestByKey]
  | append_singleton items item ih =>
    rw [latestByKey_append_singleton, lookup_keepLatest]
    simp only [mem_append, mem_singleton, or_imp, forall_and, forall_eq]
    by_cases same : wanted = key item
    · rw [if_pos (beq_iff_eq.mpr same)]
      cases before : (latestByKey key stamp items).lookup wanted with
      | none =>
        rw [before] at ih
        exact ⟨.inr rfl, same.symm, fun other inside keyed => absurd keyed (ih other inside),
          fun _ => le_rfl⟩
      | some previous =>
        rw [before] at ih
        obtain ⟨member, keyed, latest⟩ := ih
        by_cases later : stamp previous < stamp item
        · simp only [if_pos later]
          exact ⟨.inr trivial, same.symm, fun other inside otherKeyed =>
            le_trans (latest other inside otherKeyed) (le_of_lt later), fun _ => le_rfl⟩
        · simp only [if_neg later]
          exact ⟨.inl member, keyed, latest, fun _ => not_lt.mp later⟩
    · rw [if_neg (mt eq_of_beq same)]
      split
      · next none =>
        rw [none] at ih
        exact ⟨ih, Ne.symm same⟩
      · next winner found =>
        rw [found] at ih
        exact ⟨.inl ih.1, ih.2.1, ih.2.2, fun keyed => absurd keyed.symm same⟩

/-- A winner is an item of its key, and no item of the key is later. -/
theorem lookup_latestByKey_eq_some {items : List α} {wanted : κ} {winner : α}
    (found : (latestByKey key stamp items).lookup wanted = some winner) :
    winner ∈ items ∧ key winner = wanted ∧
      ∀ item ∈ items, key item = wanted → stamp item ≤ stamp winner := by
  have spec := lookup_latestByKey_spec key stamp items wanted
  rwa [found] at spec

/-- A key has no winner exactly when no item has it. -/
theorem lookup_latestByKey_eq_none (wanted : κ) :
    (latestByKey key stamp items).lookup wanted = none ↔ ∀ item ∈ items, key item ≠ wanted := by
  have spec := lookup_latestByKey_spec key stamp items wanted
  cases found : (latestByKey key stamp items).lookup wanted with
  | none => exact iff_of_true rfl (by rwa [found] at spec)
  | some winner =>
    rw [found] at spec
    exact iff_of_false nofun fun absent => absent winner spec.1 spec.2.1

theorem nodup_keys_latestByKey : ((latestByKey key stamp items).map Prod.fst).Nodup := by
  induction items using reverseRecOn with
  | nil => exact nodup_nil
  | append_singleton items item ih =>
    rw [latestByKey_append_singleton]
    unfold keepLatest
    split
    · exact nodup_keys_put ih _ _
    · split
      · exact nodup_keys_put ih _ _
      · exact ih

/-- Each winner is kept under its own key. -/
theorem map_key_latestByKey : ((latestByKey key stamp items).map Prod.snd).map key =
      (latestByKey key stamp items).map Prod.fst := by
  rw [map_map]
  apply map_congr_left
  rintro ⟨own, winner⟩ member
  have found := lookup_of_mem (nodup_keys_latestByKey key stamp items) member
  exact (lookup_latestByKey_eq_some key stamp found).2.1

theorem mem_winners_iff (winner : α) : winner ∈ (latestByKey key stamp items).map Prod.snd ↔
      (latestByKey key stamp items).lookup (key winner) = some winner := by
  constructor
  · intro member
    obtain ⟨⟨own, _⟩, inside, rfl⟩ := mem_map.mp member
    have found := lookup_of_mem (nodup_keys_latestByKey key stamp items) inside
    rw [(lookup_latestByKey_eq_some key stamp found).2.1]
    exact found
  · exact fun found => mem_map.mpr ⟨_, mem_of_lookup found, rfl⟩

/-- Every item is represented by a winner of its key that is not older. -/
theorem exists_winner {items : List α} {item : α} (member : item ∈ items) :
    ∃ winner ∈ (latestByKey key stamp items).map Prod.snd,
      key winner = key item ∧ stamp item ≤ stamp winner := by
  cases found : (latestByKey key stamp items).lookup (key item) with
  | none => exact absurd rfl ((lookup_latestByKey_eq_none key stamp items _).mp found item member)
  | some winner =>
    obtain ⟨_, keyed, latest⟩ := lookup_latestByKey_eq_some key stamp found
    refine ⟨winner, (mem_winners_iff key stamp items winner).mpr ?_, keyed, latest item member rfl⟩
    rw [keyed]
    exact found

end Latest

section Run

variable {σ β : Type} (step : σ → α → σ) (view : σ → β)

/-- Steps that leave `view` alone leave it alone together. -/
theorem foldl_view_eq {items : List α} (start : σ)
    (keeps : ∀ state, ∀ item ∈ items, view (step state item) = view state) :
    view (items.foldl step start) = view start := by
  induction items using reverseRecOn with
  | nil => rfl
  | append_singleton items item ih =>
    rw [foldl_append, foldl_cons, foldl_nil, keeps _ item (by simp)]
    exact ih fun state other inside => keeps state other (mem_append_left _ inside)

/-- When one item alone decides `view`, the run ends with what it writes there. -/
theorem foldl_view_eq_of_mem {items : List α} {item : α} {written : β} (start : σ)
    (member : item ∈ items) (sets : ∀ state, view (step state item) = written)
    (keeps : ∀ state, ∀ other ∈ items, other ≠ item → view (step state other) = view state) :
    view (items.foldl step start) = written := by
  induction items using reverseRecOn with
  | nil => simp at member
  | append_singleton items last ih =>
    rw [foldl_append, foldl_cons, foldl_nil]
    by_cases same : last = item
    · rw [same, sets]
    · rw [keeps _ last (by simp) same]
      have inside : item ∈ items :=
        (mem_append.mp member).resolve_right fun tail =>
          same (mem_singleton.mp tail).symm
      exact ih inside fun state other before => keeps state other (mem_append_left _ before)

end Run

end KeyedList
