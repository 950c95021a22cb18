import Mathlib.Data.List.Perm.Basic
import Mathlib.Data.List.Pairwise
import Mathlib.Order.Basic
import Quereus.Lib.Comparator

/-! # Ordered trees of keyed items

A search tree seen through its contents: the items in key order, no two of them
with keys the comparator calls equal. Keys are compared and not tested for
equality, so two spellings of one key name the same item. The operations are
lookup, insertion that replaces the item of an equal key, and removal; each is
described by the members of the result.

How a tree is stored and balanced is left out. A development that uses these lists
for an implementation assumes of it, for a lawful comparator, that its lookup, its
insertion, its removal and its walk in key order are these functions of its contents.
-/

namespace KeyTree

open List

variable {κ ν : Type} (key : ν → κ) (cmp : κ → κ → Ordering)

/-- The item stored under a key. -/
def find (tree : List ν) (wanted : κ) : Option ν :=
  tree.find? fun item => cmp (key item) wanted == .eq

/-- Store an item, in the place of one with an equal key. -/
def upsert : List ν → ν → List ν
  | [], item => [item]
  | first :: rest, item =>
    match cmp (key item) (key first) with
    | .lt => item :: first :: rest
    | .eq => item :: rest
    | .gt => first :: upsert rest item

/-- Remove the item stored under a key. -/
def erase (tree : List ν) (unwanted : κ) : List ν :=
  tree.filter fun item => cmp (key item) unwanted != .eq

/-- The items are in strict key order. -/
def Ordered (tree : List ν) : Prop :=
  tree.Pairwise fun first second => cmp (key first) (key second) = .lt

variable {key cmp}

variable {tree : List ν} {item : ν} {wanted : κ}

variable {unwanted first second : κ} {other : ν}

theorem mem_erase :
    item ∈ erase key cmp tree unwanted ↔ item ∈ tree ∧ cmp (key item) unwanted ≠ .eq := by
  rw [erase, mem_filter, bne_iff_ne]

variable (ordered : Ordered key cmp tree)

include ordered in
theorem Ordered.erase (unwanted : κ) : Ordered key cmp (erase key cmp tree unwanted) :=
  ordered.filter _

theorem mem_of_find (found : find key cmp tree wanted = some item) :
    item ∈ tree ∧ cmp (key item) wanted = .eq := by
  have same : (cmp (key item) wanted == .eq) = true := by
    simpa only using find?_some found
  exact ⟨mem_of_find?_eq_some found, beq_iff_eq.mp same⟩

theorem find_eq_none :
    find key cmp tree wanted = none ↔ ∀ item ∈ tree, cmp (key item) wanted ≠ .eq := by
  rw [find, find?_eq_none]
  simp

variable [Std.TransCmp cmp]

include ordered

/-- Two items with equal keys are one. -/
theorem Ordered.eq_of_key_eq {first second : ν} (first_mem : first ∈ tree)
    (second_mem : second ∈ tree) (same : cmp (key first) (key second) = .eq) : first = second := by
  have symmetric : Std.Symm fun first second => cmp (key first) (key second) = .eq →
      first = second :=
    ⟨fun _ _ one equal => (one (Std.OrientedCmp.eq_symm equal)).symm⟩
  have apart := ordered.imp fun {first second} less (equal : cmp (key first) (key second) = .eq) =>
    show first = second by cases less.symm.trans equal
  exact apart.forall_of_forall (fun _ _ _ => rfl) first_mem second_mem same

theorem Ordered.nodup : tree.Nodup := by
  refine ordered.imp fun {first second} less same => ?_
  have equal : cmp (key first) (key second) = .eq := same ▸ Std.ReflCmp.compare_self
  rw [equal] at less
  cases less

/-- A key that names an item names no other. -/
theorem Ordered.key_eq_iff (item_mem : item ∈ tree) (same : cmp (key item) wanted = .eq)
    (other_mem : other ∈ tree) : cmp (key other) wanted = .eq ↔ other = item := by
  refine ⟨fun equal => ?_, fun equal => equal ▸ same⟩
  exact ordered.eq_of_key_eq other_mem item_mem
    (Std.TransCmp.eq_trans equal (Std.OrientedCmp.eq_symm same))

/-- What a key finds is the item with an equal key. -/
theorem Ordered.find_eq_some :
    find key cmp tree wanted = some item ↔
      item ∈ tree ∧ cmp (key item) wanted = .eq := by
  constructor
  · exact mem_of_find
  · rintro ⟨member, same⟩
    cases found : find key cmp tree wanted with
    | none => exact absurd same (find_eq_none.mp found item member)
    | some other =>
      obtain ⟨other_mem, other_same⟩ := mem_of_find found
      have equal : cmp (key other) (key item) = .eq :=
        Std.TransCmp.eq_trans other_same (Std.OrientedCmp.eq_symm same)
      rw [ordered.eq_of_key_eq other_mem member equal]

theorem Ordered.find_isSome (member : item ∈ tree) (same : cmp (key item) wanted = .eq) :
    find key cmp tree wanted = some item :=
  ordered.find_eq_some.mpr ⟨member, same⟩

omit ordered

/-- Equal keys find the same item. -/
theorem find_congr (tree : List ν) (same : cmp first second = .eq) :
    find key cmp tree first = find key cmp tree second := by
  unfold find
  congr 1
  funext item
  rw [Std.TransCmp.congr_right same]

theorem find_erase (tree : List ν) (unwanted wanted : κ) :
    find key cmp (erase key cmp tree unwanted) wanted =
      if cmp wanted unwanted = .eq then none else find key cmp tree wanted := by
  unfold find erase
  rw [find?_filter]
  split
  next same =>
    refine find?_eq_none.mpr fun item _ => ?_
    rw [Std.TransCmp.congr_right same]
    simp
  next different =>
    congr 1
    funext item
    by_cases equal : cmp (key item) wanted = .eq
    · have kept : cmp (key item) unwanted ≠ .eq := fun clash =>
        different (Std.TransCmp.eq_trans (Std.OrientedCmp.eq_symm equal) clash)
      simp [equal, kept]
    · simp [equal]

theorem erase_congr (tree : List ν) (same : cmp first second = .eq) :
    erase key cmp tree first = erase key cmp tree second := by
  unfold erase
  congr 1
  funext item
  rw [Std.TransCmp.congr_right same]

include ordered

/-- At most one item has a key. -/
theorem Ordered.toList_find (wanted : κ) :
    (find key cmp tree wanted).toList = tree.filter fun item => cmp (key item) wanted == .eq := by
  cases found : find key cmp tree wanted with
  | none =>
    refine (filter_eq_nil_iff.mpr fun item member => ?_).symm
    rw [beq_iff_eq]
    exact find_eq_none.mp found item member
  | some item =>
    obtain ⟨member, same⟩ := mem_of_find found
    refine (perm_singleton.mp ?_).symm
    rw [perm_ext_iff_of_nodup (ordered.nodup.filter _) (by simp)]
    intro other
    rw [mem_filter, beq_iff_eq, mem_singleton]
    constructor
    · rintro ⟨other_mem, other_same⟩
      exact (ordered.key_eq_iff member same other_mem).mp other_same
    · rintro rfl
      exact ⟨member, same⟩

/-- Removing the item of a key takes exactly that item out. -/
theorem Ordered.perm_cons_erase (member : item ∈ tree) (same : cmp (key item) wanted = .eq) :
    tree.Perm (item :: KeyTree.erase key cmp tree wanted) := by
  have parts := filter_append_perm (fun item => cmp (key item) wanted == .eq) tree
  rw [← ordered.toList_find, ordered.find_isSome member same] at parts
  exact parts.symm

/-- Storing an item adds it to what is left without its key. -/
theorem Ordered.upsert_perm (item : ν) :
    (upsert key cmp tree item).Perm (item :: KeyTree.erase key cmp tree (key item)) := by
  induction tree with
  | nil => exact Perm.refl _
  | cons head tail ih =>
    obtain ⟨above, ordered_tail⟩ := pairwise_cons.mp ordered
    -- an item that is not above the head is below the rest
    have rest_kept : (∀ other ∈ tail, cmp (key item) (key other) = .lt) →
        KeyTree.erase key cmp tail (key item) = tail := by
      intro below
      refine filter_eq_self.mpr fun other member => ?_
      rw [Comparator.swap_eq cmp, below other member]
      decide
    have erased : KeyTree.erase key cmp (head :: tail) (key item) =
        if (cmp (key item) (key head)).swap != .eq then head ::
          KeyTree.erase key cmp tail (key item)
        else KeyTree.erase key cmp tail (key item) := by
      rw [KeyTree.erase, filter_cons, Comparator.swap_eq cmp]
      rfl
    rw [upsert, erased]
    cases order : cmp (key item) (key head) with
    | lt =>
      rw [rest_kept fun other member => Std.TransCmp.lt_trans order (above other member)]
      rfl
    | eq =>
      rw [rest_kept fun other member => Std.TransCmp.lt_of_eq_of_lt order (above other member)]
      rfl
    | gt => exact ((ih ordered_tail).cons head).trans (Perm.swap item head _)

theorem Ordered.mem_upsert :
    other ∈ upsert key cmp tree item ↔
      other = item ∨ (other ∈ tree ∧ cmp (key other) (key item) ≠ .eq) := by
  rw [(ordered.upsert_perm item).mem_iff, mem_cons, mem_erase]

theorem Ordered.upsert (item : ν) : Ordered key cmp (upsert key cmp tree item) := by
  induction tree with
  | nil => exact pairwise_singleton _ _
  | cons head tail ih =>
    obtain ⟨above, ordered_tail⟩ := pairwise_cons.mp ordered
    rw [KeyTree.upsert]
    cases order : cmp (key item) (key head) with
    | lt =>
      refine pairwise_cons.mpr ⟨?_, ordered⟩
      intro other member
      rcases mem_cons.mp member with rfl | inTail
      · exact order
      · exact Std.TransCmp.lt_trans order (above other inTail)
    | eq =>
      refine pairwise_cons.mpr ⟨?_, ordered_tail⟩
      intro other inTail
      exact Std.TransCmp.lt_of_eq_of_lt order (above other inTail)
    | gt =>
      refine pairwise_cons.mpr ⟨?_, ih ordered_tail⟩
      intro other member
      rcases (Ordered.mem_upsert ordered_tail).mp member with rfl | ⟨inTail, -⟩
      · exact Std.OrientedCmp.lt_of_gt order
      · exact above other inTail

theorem Ordered.find_upsert (item : ν) (wanted : κ) :
    find key cmp (KeyTree.upsert key cmp tree item) wanted =
      if cmp (key item) wanted = .eq then some item else find key cmp tree wanted := by
  split
  next same => exact (ordered.upsert item).find_isSome (ordered.mem_upsert.mpr (.inl rfl)) same
  next different =>
    apply Option.ext
    intro other
    rw [(ordered.upsert item).find_eq_some, ordered.find_eq_some, ordered.mem_upsert]
    constructor
    · rintro ⟨rfl | ⟨member, -⟩, same⟩
      · exact absurd same different
      · exact ⟨member, same⟩
    · rintro ⟨member, same⟩
      refine ⟨.inr ⟨member, fun clash => different ?_⟩, same⟩
      exact Std.TransCmp.eq_trans (Std.OrientedCmp.eq_symm clash) same

end KeyTree
