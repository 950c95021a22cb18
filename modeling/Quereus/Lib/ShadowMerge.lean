import Mathlib.Data.List.Perm.Basic
import Mathlib.Data.List.TakeWhile
import Quereus.Lib.Comparator

/-! # Merging an ordered stream with entries that shadow it

Two ways of laying changes over a stream of items. `merge` walks both in key order:
an entry takes the place of the item with its key, and shows an item of its own or
nothing. `interleave` puts further items between the items of a stream. Each is
described by the items of the result and by their order.
-/

namespace ShadowMerge

open List

variable {ε ν κ : Type}

section Merge

variable (entryKey : ε → κ) (itemKey : ν → κ) (shown : ε → Option ν) (cmp : κ → κ → Ordering)

/-- Walk the entries and the items side by side. -/
def merge : List ε → List ν → List ν
  | [], items => items
  | entry :: entries, [] => (shown entry).toList ++ merge entries []
  | entry :: entries, item :: items =>
    match cmp (entryKey entry) (itemKey item) with
    | .lt => (shown entry).toList ++ merge entries (item :: items)
    | .gt => item :: merge (entry :: entries) items
    | .eq => (shown entry).toList ++ merge entries items
termination_by entries items => entries.length + items.length

/-- Whether no entry has the key of an item. -/
def unshadowed (entries : List ε) (item : ν) : Bool :=
  entries.all fun entry => cmp (entryKey entry) (itemKey item) != .eq

variable {entryKey itemKey shown cmp}

theorem filterMap_cons_toList (entry : ε) (entries : List ε) :
    (entry :: entries).filterMap shown = (shown entry).toList ++ entries.filterMap shown := by
  rw [filterMap_cons]
  cases shown entry <;> rfl

variable {entries : List ε} {items : List ν}

/-- An entry that comes before an item is no item's after it. -/
theorem filter_unshadowed_cons {entry : ε}
    (apart : ∀ item ∈ items, cmp (entryKey entry) (itemKey item) ≠ .eq) :
    items.filter (unshadowed entryKey itemKey cmp (entry :: entries)) =
      items.filter (unshadowed entryKey itemKey cmp entries) := by
  apply filter_congr
  intro item member
  rw [unshadowed, all_cons, bne_iff_ne.mpr (apart item member)]
  rfl

variable [Std.TransCmp cmp]

variable
  (entriesOrdered : entries.Pairwise fun first second =>
    (cmp (entryKey first) (entryKey second)).isLE)
  (itemsOrdered : items.Pairwise fun first second => cmp (itemKey first) (itemKey second) = .lt)

include entriesOrdered itemsOrdered

/-- Every entry shows its item, and the items that no entry has the key of stay. -/
theorem merge_perm :
    (merge entryKey itemKey shown cmp entries items).Perm
      (entries.filterMap shown ++ items.filter (unshadowed entryKey itemKey cmp entries)) := by
  induction entries, items using merge.induct entryKey itemKey cmp with
  | case1 items =>
    rw [merge, filterMap_nil, nil_append, filter_eq_self.mpr]
    exact fun _ _ => rfl
  | case2 entry entries ih =>
    rw [merge, filterMap_cons_toList, append_assoc]
    exact (ih entriesOrdered.of_cons itemsOrdered).append_left _
  | case3 entry entries item items order ih =>
    have apart : ∀ other ∈ item :: items, cmp (entryKey entry) (itemKey other) ≠ .eq :=
      forall_mem_cons.mpr ⟨by simp [order], fun other later => by
        simp [Std.TransCmp.lt_trans order (rel_of_pairwise_cons itemsOrdered later)]⟩
    rw [merge, order, filterMap_cons_toList, append_assoc, filter_unshadowed_cons apart]
    exact (ih entriesOrdered.of_cons itemsOrdered).append_left _
  | case4 entry entries item items order ih =>
    -- The item comes before every entry.
    have kept : unshadowed entryKey itemKey cmp (entry :: entries) item = true := by
      apply all_eq_true.mpr
      intro other member
      apply bne_iff_ne.mpr
      intro same
      have below : cmp (itemKey item) (entryKey entry) = .lt := Std.OrientedCmp.lt_of_gt order
      obtain rfl | later := mem_cons.mp member
      · rw [order] at same
        cases same
      · have less := Std.TransCmp.lt_of_lt_of_isLE below (rel_of_pairwise_cons entriesOrdered later)
        rw [Std.OrientedCmp.eq_symm same] at less
        cases less
    rw [merge, order, filter_cons_of_pos kept]
    exact ((ih entriesOrdered itemsOrdered.of_cons).cons item).trans perm_middle.symm
  | case5 entry entries item items order ih =>
    have apart : ∀ other ∈ items, cmp (entryKey entry) (itemKey other) ≠ .eq := by
      intro other later
      simp [Std.TransCmp.lt_of_eq_of_lt order (rel_of_pairwise_cons itemsOrdered later)]
    have dropped : ¬ unshadowed entryKey itemKey cmp (entry :: entries) item = true := by
      rw [unshadowed, all_cons, order]
      simp
    rw [merge, order, filterMap_cons_toList, append_assoc, filter_cons_of_neg dropped,
      filter_unshadowed_cons apart]
    exact (ih entriesOrdered.of_cons itemsOrdered.of_cons).append_left _

/-- What is merged comes from an entry or is one of the items. -/
theorem mem_merge {result : ν} (member : result ∈ merge entryKey itemKey shown cmp entries items) :
    (∃ entry ∈ entries, shown entry = some result) ∨ result ∈ items := by
  rw [(merge_perm entriesOrdered itemsOrdered).mem_iff, mem_append, mem_filterMap] at member
  exact member.imp_right mem_of_mem_filter

omit entriesOrdered

/-- What an entry shows comes before what is merged behind it. -/
theorem shown_append_ordered {entry : ε}
    (own : ∀ earlier ∈ entry :: entries, ∀ item, shown earlier = some item →
      cmp (itemKey item) (entryKey earlier) = .eq)
    (entriesOrdered : (entry :: entries).Pairwise
      fun first second => (cmp (entryKey first) (entryKey second)).isLE)
    (above : ∀ item ∈ items, (cmp (entryKey entry) (itemKey item)).isLE)
    (ordered : (merge entryKey itemKey shown cmp entries items).Pairwise
      fun first second => (cmp (itemKey first) (itemKey second)).isLE) :
    ((shown entry).toList ++ merge entryKey itemKey shown cmp entries items).Pairwise
      fun first second => (cmp (itemKey first) (itemKey second)).isLE := by
  obtain ⟨ownFirst, ownRest⟩ := forall_mem_cons.mp own
  cases shows : shown entry with
  | none => exact ordered
  | some item =>
    refine pairwise_cons.mpr ⟨fun other member => ?_, ordered⟩
    rw [Std.TransCmp.congr_left (ownFirst item shows)]
    obtain ⟨later, inEntries, shows⟩ | inItems :=
      mem_merge entriesOrdered.of_cons itemsOrdered member
    · rw [Std.TransCmp.congr_right (ownRest later inEntries other shows)]
      exact rel_of_pairwise_cons entriesOrdered inEntries
    · exact above other inItems

include entriesOrdered

/-- The merged items are in key order. -/
theorem merge_ordered (own : ∀ entry ∈ entries, ∀ item, shown entry = some item →
      cmp (itemKey item) (entryKey entry) = .eq) :
    (merge entryKey itemKey shown cmp entries items).Pairwise
      fun first second => (cmp (itemKey first) (itemKey second)).isLE := by
  induction entries, items using merge.induct entryKey itemKey cmp with
  | case1 items =>
    rw [merge]
    exact itemsOrdered.imp fun less => by rw [less]; rfl
  | case2 entry entries ih =>
    rw [merge]
    exact shown_append_ordered itemsOrdered own entriesOrdered nofun
      (ih entriesOrdered.of_cons itemsOrdered (forall_mem_cons.mp own).2)
  | case3 entry entries item items order ih =>
    have above : ∀ other ∈ item :: items, (cmp (entryKey entry) (itemKey other)).isLE :=
      forall_mem_cons.mpr ⟨by simp [order], fun other later => by
        simp [Std.TransCmp.lt_trans order (rel_of_pairwise_cons itemsOrdered later)]⟩
    rw [merge, order]
    exact shown_append_ordered itemsOrdered own entriesOrdered above
      (ih entriesOrdered.of_cons itemsOrdered (forall_mem_cons.mp own).2)
  | case4 entry entries item items order ih =>
    have below : cmp (itemKey item) (entryKey entry) = .lt := Std.OrientedCmp.lt_of_gt order
    rw [merge, order]
    refine pairwise_cons.mpr ⟨fun other member => ?_, ih entriesOrdered itemsOrdered.of_cons own⟩
    obtain ⟨later, inEntries, shows⟩ | inItems :=
      mem_merge entriesOrdered itemsOrdered.of_cons member
    · rw [Std.TransCmp.congr_right (own later inEntries other shows)]
      obtain rfl | behind := mem_cons.mp inEntries
      · rw [below]
        rfl
      · rw [Std.TransCmp.lt_of_lt_of_isLE below (rel_of_pairwise_cons entriesOrdered behind)]
        rfl
    · rw [rel_of_pairwise_cons itemsOrdered inItems]
      rfl
  | case5 entry entries item items order ih =>
    have above : ∀ other ∈ items, (cmp (entryKey entry) (itemKey other)).isLE := by
      intro other member
      rw [Std.TransCmp.lt_of_eq_of_lt order (rel_of_pairwise_cons itemsOrdered member)]
      rfl
    rw [merge, order]
    exact shown_append_ordered itemsOrdered.of_cons own entriesOrdered above
      (ih entriesOrdered.of_cons itemsOrdered.of_cons (forall_mem_cons.mp own).2)

end Merge

section Interleave

variable (cmp : ν → ν → Ordering)

/-- Before each item of the stream come the further items that sort at or before it. -/
def interleave : List ν → List ν → List ν
  | further, [] => further
  | further, item :: items =>
    (further.takeWhile fun other => (cmp other item).isLE) ++
      item :: interleave (further.dropWhile fun other => (cmp other item).isLE) items

variable {cmp}

theorem interleave_perm (further items : List ν) :
    (interleave cmp further items).Perm (further ++ items) := by
  induction items generalizing further with
  | nil =>
    rw [interleave, append_nil]
  | cons item items ih =>
    let before := fun other => (cmp other item).isLE
    have split : further.takeWhile before ++ further.dropWhile before = further :=
      takeWhile_append_dropWhile
    have rest : (item :: interleave cmp (further.dropWhile before) items).Perm
        (further.dropWhile before ++ item :: items) :=
      ((ih _).cons item).trans perm_middle.symm
    have whole := rest.append_left (further.takeWhile before)
    rw [← append_assoc, split] at whole
    exact whole

theorem interleave_ordered [Std.TransCmp cmp] {further items : List ν}
    (furtherOrdered : further.Pairwise fun first second => (cmp first second).isLE)
    (itemsOrdered : items.Pairwise fun first second => (cmp first second).isLE) :
    (interleave cmp further items).Pairwise fun first second => (cmp first second).isLE := by
  induction items generalizing further with
  | nil => exact furtherOrdered
  | cons item items ih =>
    let before := fun other => (cmp other item).isLE
    have dropped : ∀ other ∈ further.dropWhile before, (cmp item other).isLE := by
      intro other member
      cases rest : further.dropWhile before with
      | nil =>
        rw [rest] at member
        cases member
      | cons head tail =>
        have past := head_dropWhile_not before (rest ▸ cons_ne_nil head tail)
        simp only [rest] at past
        change (cmp head item).isLE = false at past
        have above : (cmp item head).isLE := by
          rw [Comparator.swap_eq cmp]
          revert past
          cases cmp head item <;> simp
        have ordered := furtherOrdered.sublist (dropWhile_sublist before)
        rw [rest] at ordered member
        obtain rfl | later := mem_cons.mp member
        · exact above
        · exact Std.TransCmp.isLE_trans above (rel_of_pairwise_cons ordered later)
    refine pairwise_append.mpr ⟨furtherOrdered.sublist (takeWhile_sublist _), ?_, ?_⟩
    · refine pairwise_cons.mpr ⟨fun other member => ?_, ?_⟩
      · rw [(interleave_perm _ _).mem_iff, mem_append] at member
        exact member.elim (dropped other) (rel_of_pairwise_cons itemsOrdered)
      · exact ih (furtherOrdered.sublist (dropWhile_sublist _)) itemsOrdered.of_cons
    · intro first early second late
      have below : (cmp first item).isLE := mem_takeWhile_imp (p := before) early
      obtain rfl | behind := mem_cons.mp late
      · exact below
      · rw [(interleave_perm _ _).mem_iff, mem_append] at behind
        exact Std.TransCmp.isLE_trans below
          (behind.elim (dropped second) (rel_of_pairwise_cons itemsOrdered))

end Interleave

end ShadowMerge
