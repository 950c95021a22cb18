import Mathlib.Algebra.Order.Ring.Nat
import Mathlib.Data.List.Basic

/-! # Reading a positioned log page by page

A reader pulls facts that a server keeps at positions of a linear order. Each
reply carries a cursor, and the next request asks for what lies after it. Two
general facts are proved here. A server whose reply holds everything up to its
cursor, and whose cursor always moves, delivers every fact to a reader that
keeps asking until a reply is empty (`drain_complete`). And when the facts come
in groups that are contiguous in position order, a reply that takes whole groups
off the front holds everything up to its last position
(`Runs.last_lt_of_dropped`).
-/

namespace PagedRead

open List

variable {α β γ ρ P : Type*} [LinearOrder P]

/-- The position lies after the cursor; every position does when there is none. -/
def After (since : Option P) (position : P) : Prop :=
  ∀ cursor ∈ since, cursor < position

theorem after_none (position : P) : After none position := by
  intro cursor found
  cases found

theorem after_some {cursor position : P} : After (some cursor) position ↔ cursor < position := by
  constructor
  · intro later
    exact later cursor rfl
  · intro later other found
    rw [Option.mem_some.mp found] at later
    exact later

instance (since : Option P) (position : P) : Decidable (After since position) :=
  match since with
  | none => isTrue (after_none position)
  | some _ => decidable_of_iff _ after_some.symm

/-- Read until a reply carries no cursor, each time from the cursor of the reply
before. The replies are returned only when the reading ends within the fuel. -/
def drain (read : Option P → ρ) (cursor : ρ → Option P) : Nat → Option P → Option (List ρ)
  | 0, _ => none
  | fuel + 1, since =>
    match cursor (read since) with
    | none => some []
    | some reached => (drain read cursor fuel (some reached)).map (read since :: ·)

/-- The replies of a server hold the facts in position order, without gaps. -/
structure ServesInOrder (position : α → P) (facts : List α) (read : Option P → ρ)
    (cursor : ρ → Option P) (delivers : ρ → α → Prop) : Prop where
  /-- A reply without a cursor leaves nothing to read. -/
  exhausted : ∀ since, cursor (read since) = none → ∀ fact ∈ facts, ¬ After since (position fact)
  /-- A cursor is the position of a fact that was still to be read. -/
  advances : ∀ since reached, cursor (read since) = some reached →
    ∃ fact ∈ facts, position fact = reached ∧ After since reached
  /-- Every fact still to be read up to the cursor is in the reply. -/
  closed : ∀ since reached, cursor (read since) = some reached →
    ∀ fact ∈ facts, After since (position fact) → position fact ≤ reached →
      delivers (read since) fact

/-- The facts still to be read. -/
def remaining (position : α → P) (facts : List α) (since : Option P) : List α :=
  facts.filter fun fact => decide (After since (position fact))

variable {position : α → P} {facts : List α} {since : Option P}

theorem After.trans {reached position : P} (first : After since reached)
    (second : After (some reached) position) : After since position := by
  intro cursor found
  exact lt_trans (first cursor found) (after_some.mp second)

/-- What is left after a later cursor is left after the earlier one. -/
theorem remaining_some {reached : P} (later : After since reached) :
    remaining position facts (some reached) =
      (remaining position facts since).filter
        fun fact => decide (After (some reached) (position fact)) := by
  rw [remaining, remaining, filter_filter]
  apply filter_congr
  intro fact _
  rw [← Bool.decide_and, decide_eq_decide]
  exact ⟨fun after => ⟨after, later.trans after⟩, fun both => both.1⟩

theorem length_remaining_lt {fact : α} (member : fact ∈ facts)
    (later : After since (position fact)) :
    (remaining position facts (some (position fact))).length <
      (remaining position facts since).length := by
  rw [remaining_some later, length_filter_lt_length_iff_exists]
  refine ⟨fact, mem_filter.mpr ⟨member, decide_eq_true later⟩, ?_⟩
  rw [decide_eq_true_eq, after_some]
  exact lt_irrefl _

/-- A reader of an ordered, gapless server reads everything: with more fuel than
facts the reading ends, and every fact after the starting cursor was in a reply. -/
theorem drain_complete {read : Option P → ρ} {cursor : ρ → Option P} {delivers : ρ → α → Prop}
    (serves : ServesInOrder position facts read cursor delivers) (fuel : Nat) (since : Option P)
    (enough : (remaining position facts since).length < fuel) :
    ∃ replies, drain read cursor fuel since = some replies ∧
      ∀ fact ∈ facts, After since (position fact) → ∃ reply ∈ replies, delivers reply fact := by
  induction fuel generalizing since with
  | zero => exact absurd enough (Nat.not_lt_zero _)
  | succ fuel ih =>
    rw [drain]
    cases moved : cursor (read since) with
    | none =>
      refine ⟨[], rfl, ?_⟩
      intro fact member later
      exact absurd later (serves.exhausted since moved fact member)
    | some reached =>
      obtain ⟨last, last_mem, rfl, last_later⟩ := serves.advances since reached moved
      have shrinks := length_remaining_lt last_mem last_later
      obtain ⟨replies, ended, rest⟩ := ih (some (position last)) (by omega)
      refine ⟨read since :: replies, by simp only [ended, Option.map_some], ?_⟩
      intro fact member later
      -- What lies up to the cursor is in this reply, the rest comes with the next ones.
      rcases le_or_gt (position fact) (position last) with below | above
      · exact ⟨read since, mem_cons_self, serves.closed since _ moved fact member later below⟩
      · obtain ⟨reply, replied, holds⟩ := rest fact member (after_some.mpr above)
        exact ⟨reply, mem_cons_of_mem _ replied, holds⟩

/-- Facts of one group have no fact of another group between them. -/
def Contiguous (position : α → P) (key : α → γ) (facts : Set α) : Prop :=
  ∀ first ∈ facts, ∀ middle ∈ facts, ∀ last ∈ facts,
    position first ≤ position middle → position middle ≤ position last →
      key first = key last → key middle = key last

/-- Groups of facts with one key each, listed by their last positions. -/
structure Runs (position : α → P) (key : α → γ) (members : β → List α) (last : β → P)
    (groups : List β) : Prop where
  sorted : groups.Pairwise fun first second => last first ≤ last second
  apart : groups.Pairwise fun first second =>
    ∀ fact ∈ members first, ∀ other ∈ members second, key fact ≠ key other
  same_key : ∀ group ∈ groups, ∀ fact ∈ members group, ∀ other ∈ members group,
    key fact = key other
  last_mem : ∀ group ∈ groups, ∃ fact ∈ members group, position fact = last group

namespace Runs

variable {position : α → P} {key : α → γ} {members : β → List α} {last : β → P}
  {taken dropped : List β} {facts : Set α}

/-- A fact of a group that comes later lies after every earlier group. -/
theorem last_lt_of_dropped (runs : Runs position key members last (taken ++ dropped))
    (contiguous : Contiguous position key facts)
    (stored : ∀ group ∈ taken ++ dropped, ∀ fact ∈ members group, fact ∈ facts)
    {early late : β} (early_mem : early ∈ taken) (late_mem : late ∈ dropped) {fact : α}
    (member : fact ∈ members late) : last early < position fact := by
  have early_listed : early ∈ taken ++ dropped := mem_append_left _ early_mem
  have late_listed : late ∈ taken ++ dropped := mem_append_right _ late_mem
  obtain ⟨first, first_mem, first_last⟩ := runs.last_mem early early_listed
  obtain ⟨final, final_mem, final_last⟩ := runs.last_mem late late_listed
  have ordered : last early ≤ last late :=
    (pairwise_append.mp runs.sorted).2.2 early early_mem late late_mem
  by_contra above
  rw [not_lt] at above
  -- Otherwise the end of the earlier group lies between two facts of the later one.
  have joined : key first = key final :=
    contiguous fact (stored late late_listed fact member)
      first (stored early early_listed first first_mem)
      final (stored late late_listed final final_mem)
      (first_last ▸ above) (by rw [first_last, final_last]; exact ordered)
      (runs.same_key late late_listed fact member final final_mem)
  exact (pairwise_append.mp runs.apart).2.2 early early_mem late late_mem
    first first_mem final final_mem joined

end Runs

/-- Take groups off the front until their weights reach the bound. -/
def takeUntil (weight : β → Nat) (bound : Nat) : Nat → List β → List β
  | _, [] => []
  | total, group :: rest =>
    group :: if bound ≤ total + weight group then []
      else takeUntil weight bound (total + weight group) rest

/-- The groups taken are a prefix. All but the last stay below the bound, and
what is dropped was dropped because the bound was reached. -/
theorem takeUntil_spec (weight : β → Nat) (bound total : Nat) (groups : List β)
    (nonempty : groups ≠ []) :
    ∃ front last dropped, takeUntil weight bound total groups = front ++ [last] ∧
      groups = (front ++ [last]) ++ dropped ∧
      (front ≠ [] → total + (front.map weight).sum < bound) := by
  induction groups generalizing total with
  | nil => exact absurd rfl nonempty
  | cons group rest ih =>
    rw [takeUntil]
    by_cases reached : bound ≤ total + weight group
    · rw [if_pos reached]
      exact ⟨[], group, rest, rfl, rfl, fun absurdity => absurd rfl absurdity⟩
    · rw [if_neg reached]
      by_cases ended : rest = []
      · subst ended
        exact ⟨[], group, [], rfl, rfl, fun absurdity => absurd rfl absurdity⟩
      · obtain ⟨front, last, dropped, taken, split, below⟩ := ih (total + weight group) ended
        refine ⟨group :: front, last, dropped, ?_, ?_, ?_⟩
        · rw [taken, cons_append]
        · rw [split]
          rfl
        · intro _
          rw [map_cons, sum_cons]
          by_cases alone : front = []
          · subst alone
            simp only [map_nil, sum_nil]
            omega
          · have := below alone
            omega

end PagedRead
