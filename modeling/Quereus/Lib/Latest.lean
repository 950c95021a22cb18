import Mathlib.Data.Set.Finite.Lemmas

/-! # Registers that hold the latest item

A last-writer-wins register meets items in batches and keeps the one with the
greatest stamp. `Holds` says that a register holds the latest of a set, and that
it is empty when the set is. A register that compares each batch only with what
it already holds still holds the latest of everything it has met, so neither the
order of the batches nor repeated items matter.
-/

namespace Latest

variable {α τ : Type} [LinearOrder τ] (stamp : α → τ)

/-- `item` is one of `items` and none of them is later. -/
def IsLatest (items : Set α) (item : α) : Prop :=
  item ∈ items ∧ ∀ other ∈ items, stamp other ≤ stamp item

/-- The register holds the latest of `items`. -/
def Holds (items : Set α) (stored : Option α) : Prop :=
  (∀ item, stored = some item → IsLatest stamp items item) ∧ (stored = none → items = ∅)

/-- The items of a batch that are later than what the register holds. -/
def newer (stored : Option α) (batch : Set α) : Set α :=
  {item | item ∈ batch ∧ ∀ old, stored = some old → stamp old < stamp item}

variable {stamp}

variable {items : Set α} {stored : Option α}

theorem exists_isLatest (stamp : α → τ) (finite : items.Finite) (nonempty : items.Nonempty) :
    ∃ item, IsLatest stamp items item := by
  obtain ⟨item, member, latest⟩ := Set.exists_max_image items stamp finite nonempty
  exact ⟨item, member, latest⟩

/-- Two latest items have one stamp. -/
theorem IsLatest.stamp_eq {first second : α} (firstLatest : IsLatest stamp items first)
    (secondLatest : IsLatest stamp items second) : stamp first = stamp second :=
  le_antisymm (secondLatest.2 _ firstLatest.1) (firstLatest.2 _ secondLatest.1)

theorem holds_none : Holds stamp (∅ : Set α) none :=
  ⟨nofun, fun _ => rfl⟩

variable {item : α} {batch : Set α}

theorem holds_some : Holds stamp items (some item) ↔ IsLatest stamp items item :=
  ⟨fun holds => holds.1 item rfl, fun latest =>
    ⟨fun _ found => Option.some.inj found ▸ latest, nofun⟩⟩

theorem Holds.eq_none_iff (holds : Holds stamp items stored) : stored = none ↔ items = ∅ := by
  refine ⟨holds.2, fun empty => ?_⟩
  cases stored with
  | none => rfl
  | some item => exact absurd (holds.1 item rfl).1 (empty ▸ Set.notMem_empty _)

/-- When stamps identify items, a set determines what its register holds. -/
theorem Holds.unique {first second : Option α}
    (injective : ∀ item ∈ items, ∀ other ∈ items, stamp item = stamp other → item = other)
    (firstHolds : Holds stamp items first) (secondHolds : Holds stamp items second) :
    first = second := by
  cases first with
  | none => exact (secondHolds.eq_none_iff.mpr (firstHolds.2 rfl)).symm
  | some item =>
    cases second with
    | none => exact firstHolds.eq_none_iff.mpr (secondHolds.2 rfl)
    | some other =>
      have itemLatest := firstHolds.1 item rfl
      have otherLatest := secondHolds.1 other rfl
      rw [injective item itemLatest.1 other otherLatest.1 (itemLatest.stamp_eq otherLatest)]

/-- A batch item the register does not take is not later than what it holds. -/
theorem exists_not_newer (member : item ∈ batch) (refused : item ∉ newer stamp stored batch) :
    ∃ old, stored = some old ∧ stamp item ≤ stamp old := by
  by_contra none
  refine refused ⟨member, fun old found => ?_⟩
  by_contra older
  exact none ⟨old, found, not_lt.mp older⟩

/-- A batch with nothing newer leaves the register holding the latest of all. -/
theorem Holds.union_of_none_newer (holds : Holds stamp items stored)
    (refused : newer stamp stored batch = ∅) : Holds stamp (items ∪ batch) stored := by
  have bounded {item : α} (member : item ∈ batch) :
      ∃ old, stored = some old ∧ stamp item ≤ stamp old :=
    exists_not_newer member (refused ▸ Set.notMem_empty item)
  constructor
  · intro old found
    refine ⟨Or.inl (holds.1 old found).1, ?_⟩
    rintro item (inside | member)
    · exact (holds.1 old found).2 item inside
    · obtain ⟨_, same, bound⟩ := bounded member
      cases found.symm.trans same
      exact bound
  · intro missing
    rw [Set.union_empty_iff]
    refine ⟨holds.2 missing, Set.eq_empty_iff_forall_notMem.mpr fun item member => ?_⟩
    obtain ⟨_, found, -⟩ := bounded member
    cases missing.symm.trans found

/-- The latest newer item of a batch is the latest of all. -/
theorem Holds.union_of_newer {winner : α} (holds : Holds stamp items stored)
    (wins : IsLatest stamp (newer stamp stored batch) winner) :
    Holds stamp (items ∪ batch) (some winner) := by
  rw [holds_some]
  refine ⟨Or.inr wins.1.1, ?_⟩
  have above (old : α) (found : stored = some old) : stamp old ≤ stamp winner :=
    le_of_lt (wins.1.2 old found)
  rintro item (inside | member)
  · cases stored with
    | none => exact absurd inside (holds.2 rfl ▸ Set.notMem_empty _)
    | some old => exact le_trans ((holds.1 old rfl).2 item inside) (above old rfl)
  · by_cases taken : item ∈ newer stamp stored batch
    · exact wins.2 item taken
    · obtain ⟨old, found, bound⟩ := exists_not_newer member taken
      exact le_trans bound (above old found)

end Latest
