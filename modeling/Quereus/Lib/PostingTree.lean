import Quereus.Lib.KeyTree
import Quereus.Lib.KeyedList

/-! # Search trees of postings

An inverted index: a search tree whose entries hold, under one key, a map from
codes to items. Keys are compared and codes are tested for equality. Adding an
item overwrites the item of its code, and removing the last item of a key takes
the key out of the tree. The contents are described by `items`, the postings of
a key, and `lookup`, the item of a key and a code.
-/

/-- The postings of one key. -/
structure Posting (κ χ π : Type) where
  key : κ
  items : List (χ × π)

namespace PostingTree

open KeyTree KeyedList List Option

variable {κ χ π : Type} [DecidableEq χ] (cmp : κ → κ → Ordering)

/-- The postings of a key, in the order they were first added. -/
def items (tree : List (Posting κ χ π)) (key : κ) : List (χ × π) :=
  match find Posting.key cmp tree key with
  | some posting => posting.items
  | none => []

def lookup (tree : List (Posting κ χ π)) (key : κ) (code : χ) : Option π :=
  (items cmp tree key).lookup code

/-- Add an item; the key already in the tree is kept as it is spelled there. -/
def add (tree : List (Posting κ χ π)) (key : κ) (code : χ) (item : π) : List (Posting κ χ π) :=
  match find Posting.key cmp tree key with
  | some posting =>
    upsert Posting.key cmp tree
      { posting with items := KeyedList.put posting.items code item }
  | none => upsert Posting.key cmp tree ⟨key, [(code, item)]⟩

def remove (tree : List (Posting κ χ π)) (key : κ) (code : χ) : List (Posting κ χ π) :=
  match find Posting.key cmp tree key with
  | some posting =>
    let remaining := posting.items.filter fun entry => entry.1 != code
    if remaining.isEmpty then erase Posting.key cmp tree key
    else upsert Posting.key cmp tree { posting with items := remaining }
  | none => tree

structure WellFormed (tree : List (Posting κ χ π)) : Prop where
  ordered : Ordered Posting.key cmp tree
  nonempty : ∀ posting ∈ tree, posting.items ≠ []
  distinct : ∀ posting ∈ tree, (posting.items.map Prod.fst).Nodup

variable {cmp}

omit [DecidableEq χ] in
theorem WellFormed.nil : WellFormed cmp ([] : List (Posting κ χ π)) where
  ordered := List.Pairwise.nil
  nonempty _ member := nomatch member
  distinct _ member := nomatch member

variable {tree : List (Posting κ χ π)}

omit [DecidableEq χ] in
theorem exists_of_mem_items {key : κ} {entry : χ × π} (listed : entry ∈ items cmp tree key) :
    ∃ posting ∈ tree, cmp posting.key key = .eq ∧ entry ∈ posting.items := by
  unfold items at listed
  cases found : find Posting.key cmp tree key with
  | none => simp [found] at listed
  | some posting =>
    rw [found] at listed
    obtain ⟨member, same⟩ := mem_of_find found
    exact ⟨posting, member, same, listed⟩

variable (wellFormed : WellFormed cmp tree)

include wellFormed

variable (key : κ) (code : χ)

omit [DecidableEq χ] in
theorem WellFormed.nodup_items : ((items cmp tree key).map Prod.fst).Nodup := by
  unfold items
  cases found : find Posting.key cmp tree key with
  | none => exact nodup_nil
  | some posting => exact wellFormed.distinct posting (mem_of_find found).1

theorem WellFormed.lookup_eq_some {key : κ} {code : χ} {item : π} :
    lookup cmp tree key code = some item ↔ (code, item) ∈ items cmp tree key :=
  ⟨mem_of_lookup, lookup_of_mem (wellFormed.nodup_items key)⟩

variable [Std.TransCmp cmp]

omit wellFormed

omit [DecidableEq χ] in
theorem items_congr (tree : List (Posting κ χ π)) {first second : κ}
    (same : cmp first second = .eq) : items cmp tree first = items cmp tree second := by
  unfold items
  rw [find_congr tree same]

omit [DecidableEq χ] in
theorem items_of_find {found : Option (Posting κ χ π)} {key other : κ}
    (isFound : find Posting.key cmp tree key = found) (same : cmp other key = .eq) :
    items cmp tree other = found.elim [] Posting.items := by
  rw [items_congr tree same, items, isFound]
  cases found <;> rfl

include wellFormed in
omit [DecidableEq χ] in
theorem WellFormed.items_eq {posting : Posting κ χ π} (member : posting ∈ tree) {key : κ}
    (same : cmp posting.key key = .eq) : items cmp tree key = posting.items := by
  unfold items
  rw [wellFormed.ordered.find_isSome member same]

omit [DecidableEq χ] in
/-- Storing postings changes what their key finds and nothing else. -/
theorem items_upsert (ordered : Ordered Posting.key cmp tree) (posting : Posting κ χ π)
    (key : κ) : items cmp (upsert Posting.key cmp tree posting) key =
      if cmp key posting.key = .eq then posting.items else items cmp tree key := by
  unfold items
  rw [ordered.find_upsert]
  by_cases same : cmp key posting.key = .eq
  · rw [if_pos (Std.OrientedCmp.eq_symm same), if_pos same]
  · rw [if_neg (mt Std.OrientedCmp.eq_symm same), if_neg same]

omit [DecidableEq χ] in
theorem items_erase (tree : List (Posting κ χ π)) (unwanted key : κ) :
    items cmp (erase Posting.key cmp tree unwanted) key =
      if cmp key unwanted = .eq then [] else items cmp tree key := by
  unfold items
  rw [find_erase]
  by_cases same : cmp key unwanted = .eq
  · rw [if_pos same, if_pos same]
  · rw [if_neg same, if_neg same]

include wellFormed

theorem WellFormed.items_add (item : π) (other : κ) :
    items cmp (add cmp tree key code item) other =
      if cmp other key = .eq then KeyedList.put (items cmp tree other) code item
      else items cmp tree other := by
  unfold add
  cases found : find Posting.key cmp tree key with
  | none =>
    rw [items_upsert wellFormed.ordered]
    split
    next same => rw [items_of_find found same, elim_none, put]
    next => rfl
  | some posting =>
    rw [items_upsert wellFormed.ordered, Std.TransCmp.congr_right (mem_of_find found).2]
    split
    next same => rw [items_of_find found same, elim_some]
    next => rfl

theorem WellFormed.items_remove (other : κ) :
    items cmp (remove cmp tree key code) other =
      if cmp other key = .eq then (items cmp tree other).filter fun entry => entry.1 != code
      else items cmp tree other := by
  unfold remove
  cases found : find Posting.key cmp tree key with
  | none =>
    simp only
    split
    next same => rw [items_of_find found same, elim_none, filter_nil]
    next => rfl
  | some posting =>
    simp only
    split
    next none_left =>
      rw [items_erase]
      split
      next same => rw [items_of_find found same, elim_some, isEmpty_iff.mp none_left]
      next => rfl
    next =>
      rw [items_upsert wellFormed.ordered, Std.TransCmp.congr_right (mem_of_find found).2]
      split
      next same => rw [items_of_find found same, elim_some]
      next => rfl

theorem WellFormed.lookup_add (item : π) (other : κ) (wanted : χ) :
    lookup cmp (add cmp tree key code item) other wanted =
      if cmp other key = .eq ∧ wanted = code then some item else lookup cmp tree other wanted := by
  unfold lookup
  rw [wellFormed.items_add]
  by_cases same : cmp other key = .eq
  · rw [if_pos same, lookup_put]
    simp [same]
  · rw [if_neg same, if_neg (fun both => same both.1)]

theorem WellFormed.lookup_remove (other : κ) (wanted : χ) :
    lookup cmp (remove cmp tree key code) other wanted =
      if cmp other key = .eq ∧ wanted = code then none else lookup cmp tree other wanted := by
  unfold lookup
  rw [wellFormed.items_remove]
  by_cases same : cmp other key = .eq
  · rw [if_pos same, lookup_filter _ (fun stored => stored != code)]
    by_cases hit : wanted = code <;> simp [same]
  · rw [if_neg same, if_neg (fun both => same both.1)]

omit [DecidableEq χ] in
theorem WellFormed.upsert {posting : Posting κ χ π} (nonempty : posting.items ≠ [])
    (distinct : (posting.items.map Prod.fst).Nodup) :
    WellFormed cmp (upsert Posting.key cmp tree posting) where
  ordered := wellFormed.ordered.upsert posting
  nonempty other member := by
    rcases wellFormed.ordered.mem_upsert.mp member with rfl | ⟨old, -⟩
    · exact nonempty
    · exact wellFormed.nonempty other old
  distinct other member := by
    rcases wellFormed.ordered.mem_upsert.mp member with rfl | ⟨old, -⟩
    · exact distinct
    · exact wellFormed.distinct other old

theorem WellFormed.add (item : π) : WellFormed cmp (add cmp tree key code item) := by
  unfold PostingTree.add
  cases found : find Posting.key cmp tree key with
  | none => exact wellFormed.upsert (cons_ne_nil _ _) (nodup_singleton _)
  | some posting =>
    refine wellFormed.upsert ?_ ?_
    · intro empty
      have present := lookup_put_self posting.items code item
      rw [show put posting.items code item = [] from empty] at present
      cases present
    · exact nodup_keys_put (wellFormed.distinct posting (mem_of_find found).1) code item

theorem WellFormed.remove : WellFormed cmp (remove cmp tree key code) := by
  unfold PostingTree.remove
  cases found : find Posting.key cmp tree key with
  | none => exact wellFormed
  | some posting =>
    simp only
    split
    next =>
      exact {
        ordered := wellFormed.ordered.erase key
        nonempty := fun other member => wellFormed.nonempty other (mem_erase.mp member).1
        distinct := fun other member => wellFormed.distinct other (mem_erase.mp member).1 }
    next some_left =>
      refine wellFormed.upsert (fun empty => some_left (isEmpty_iff.mpr empty)) ?_
      have sub : ((posting.items.filter fun entry => entry.1 != code).map Prod.fst).Sublist
          (posting.items.map Prod.fst) := List.Sublist.map _ filter_sublist
      exact sub.nodup (wellFormed.distinct posting (mem_of_find found).1)

end PostingTree
