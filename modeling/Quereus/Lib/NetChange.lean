import Mathlib.Logic.Function.Iterate
import Quereus.Lib.KeyedList

/-! # Net changes in layers

A layer records for each key how its value has changed since the layer was opened.
Records of one key are combined, so a layer holds at most one of them, and none for
a key whose changes cancel out. Layers are stacked: a new one is opened on top, the
top one is dropped, or it is absorbed by the one below.

What a record means is a relation between the value before and the value after. If
combining records follows this relation, so do the layers of every stack.
-/

namespace NetChange

open List KeyedList

variable {κ ρ π : Type} [DecidableEq κ]

abbrev Layer (κ ρ : Type) := List (κ × ρ)

/-- Give a key its record, or none. -/
def settle (layer : Layer κ ρ) (key : κ) : Option ρ → Layer κ ρ
  | some record => KeyedList.put layer key record
  | none => layer.filter fun entry => entry.1 != key

section Records

variable (combine : ρ → ρ → Option ρ)

/-- Note a change of a key; changes that cancel out leave no record. -/
def note (layer : Layer κ ρ) (key : κ) (incoming : ρ) : Layer κ ρ :=
  settle layer key ((layer.lookup key).elim (some incoming) (combine · incoming))

/-- Note every change of the layer above. -/
def absorb (layer above : Layer κ ρ) : Layer κ ρ :=
  above.foldl (fun layer entry => note combine layer entry.1 entry.2) layer

/-- A stack of layers, the top one first; the bottom one is kept apart. -/
structure Stack (κ ρ : Type) where
  bottom : Layer κ ρ
  layers : List (Layer κ ρ)

namespace Stack

variable (stack : Stack κ ρ)

def noteOnTop (key : κ) (incoming : ρ) : Stack κ ρ :=
  match stack.layers with
  | [] => { stack with bottom := note combine stack.bottom key incoming }
  | top :: layers => { stack with layers := note combine top key incoming :: layers }

def push : Stack κ ρ :=
  { stack with layers := [] :: stack.layers }

def pop : Stack κ ρ :=
  { stack with layers := stack.layers.tail }

def release : Stack κ ρ :=
  match stack.layers with
  | [] => stack
  | [top] => ⟨absorb combine stack.bottom top, []⟩
  | top :: next :: layers => { stack with layers := absorb combine next top :: layers }

/-- The layers from the top down. -/
def fromTop : List (Layer κ ρ) :=
  stack.layers ++ [stack.bottom]

/-- The layers from the bottom up. -/
def all : List (Layer κ ρ) :=
  stack.fromTop.reverse

end Stack

end Records

@[simp] theorem lookup_settle (layer : Layer κ ρ) (key wanted : κ) (record : Option ρ) :
    (settle layer key record).lookup wanted = if wanted = key then record
      else layer.lookup wanted := by
  cases record with
  | some record =>
    rw [settle, lookup_put]
    simp
  | none =>
    rw [settle, lookup_filter layer (· != key)]
    by_cases same : wanted = key <;> simp

variable {layer : Layer κ ρ}

theorem nodup_keys_settle (distinct : (layer.map Prod.fst).Nodup) (key : κ) (record : Option ρ) :
    ((settle layer key record).map Prod.fst).Nodup := by
  cases record with
  | some record => exact nodup_keys_put distinct key record
  | none => exact distinct.sublist (filter_sublist.map _)

theorem mem_put {key : κ} {record : ρ} {entry : κ × ρ}
    (member : entry ∈ KeyedList.put layer key record) : entry ∈ layer ∨ entry = (key, record) := by
  induction layer with
  | nil => exact .inr (mem_singleton.mp member)
  | cons first rest ih =>
    unfold put at member
    split at member
    · exact (mem_cons.mp member).elim .inr fun inRest => .inl (mem_cons_of_mem _ inRest)
    · rcases mem_cons.mp member with rfl | inRest
      · exact .inl mem_cons_self
      · exact (ih inRest).imp_left (mem_cons_of_mem _)

theorem mem_settle {key : κ} {record : Option ρ} {entry : κ × ρ}
    (member : entry ∈ settle layer key record) :
    entry ∈ layer ∨ key = entry.1 ∧ record = some entry.2 := by
  cases record with
  | some record => exact (mem_put member).imp_right fun same => by rw [same]; exact ⟨rfl, rfl⟩
  | none => exact .inl (mem_of_mem_filter member)

section Kept

variable {combine : ρ → ρ → Option ρ} {keeps : κ → ρ → Prop}
  (combines : ∀ key first second combined, combine first second = some combined → keeps key first →
    keeps key second → keeps key combined)

include combines in
/-- What every record of a layer keeps to, records that are noted keep to as well. -/
theorem forall_note (kept : ∀ entry ∈ layer, keeps entry.1 entry.2) {key : κ}
    {incoming : ρ} (new : keeps key incoming) :
    ∀ entry ∈ note combine layer key incoming, keeps entry.1 entry.2 := by
  intro entry member
  rcases mem_settle member with old | ⟨rfl, noted⟩
  · exact kept entry old
  · cases existing : layer.lookup entry.1 with
    | none =>
      rw [existing] at noted
      obtain rfl := Option.some.inj noted
      exact new
    | some record =>
      rw [existing] at noted
      exact combines _ record incoming entry.2 noted (kept _ (mem_of_lookup existing)) new

include combines in
theorem forall_absorb {above : Layer κ ρ} (kept : ∀ entry ∈ layer, keeps entry.1 entry.2)
    (new : ∀ entry ∈ above, keeps entry.1 entry.2) :
    ∀ entry ∈ absorb combine layer above, keeps entry.1 entry.2 := by
  induction above generalizing layer with
  | nil => exact kept
  | cons entry above ih =>
    obtain ⟨first, rest⟩ := forall_mem_cons.mp new
    exact ih (forall_note combines kept first) rest

end Kept

namespace Stack

variable {stack : Stack κ ρ}

omit [DecidableEq κ] in
theorem mem_all : layer ∈ stack.all ↔ layer ∈ stack.fromTop := by
  simp [all]

theorem length_release (combine : ρ → ρ → Option ρ) (stack : Stack κ ρ) :
    (stack.release combine).layers.length = stack.layers.length - 1 := by
  obtain ⟨bottom, layers⟩ := stack
  cases layers with
  | nil => rfl
  | cons first layers => cases layers <;> rfl

end Stack

/-- The value of every key. -/
abbrev Values (κ π : Type) := κ → Option π

section Meaning

variable (spans : ρ → Option π → Option π → Prop)

/-- A key without a record has kept its value. -/
def Spans (record : Option ρ) (before after : Option π) : Prop :=
  match record with
  | none => before = after
  | some record => spans record before after

/-- Combined records span what the two of them span. -/
def Composes (combine : ρ → ρ → Option ρ) : Prop :=
  ∀ first second before between after, spans first before between → spans second between after →
    Spans spans (combine first second) before after

/-- The layer has one record for each key that changed, and it says how. -/
structure LayerSpans (layer : Layer κ ρ) (before after : Values κ π) : Prop where
  distinct : (layer.map Prod.fst).Nodup
  records : ∀ key, Spans spans (layer.lookup key) (before key) (after key)

/-- Each layer says how the values have changed until the next one was opened, the top
layer until now. `opened` has the values at which the layers were opened, the top
one first. -/
def StackSpans (bottom : Layer κ ρ) (start : Values κ π) :
    List (Layer κ ρ) → List (Values κ π) → Values κ π → Prop
  | [], [], current => LayerSpans spans bottom start current
  | top :: layers, opening :: opened, current =>
    LayerSpans spans top opening current ∧ StackSpans bottom start layers opened opening
  | _, _, _ => False

variable {spans} {combine : ρ → ρ → Option ρ} {layer above : Layer κ ρ}
  {before between after : Values κ π}

theorem layerSpans_nil (values : Values κ π) : LayerSpans spans ([] : Layer κ ρ) values values :=
  ⟨nodup_nil, fun _ => rfl⟩

variable (composes : Composes spans combine)

include composes in
theorem LayerSpans.note (layerSpans : LayerSpans spans layer before between)
    {key : κ} {incoming : ρ} (here : spans incoming (between key) (after key))
    (elsewhere : ∀ other, other ≠ key → between other = after other) :
    LayerSpans spans (note combine layer key incoming) before after where
  distinct := nodup_keys_settle layerSpans.distinct key _
  records wanted := by
    rw [NetChange.note, lookup_settle]
    have noted := layerSpans.records wanted
    by_cases same : wanted = key
    · subst same
      rw [if_pos rfl]
      cases existing : layer.lookup wanted with
      | none =>
        rw [existing] at noted
        rw [show before wanted = between wanted from noted]
        exact here
      | some record =>
        rw [existing] at noted
        exact composes record incoming _ _ _ noted here
    · rw [if_neg same, ← elsewhere wanted same]
      exact noted

include composes in
/-- A layer that absorbs the one above spans what the two span. -/
theorem LayerSpans.absorb
    (layerSpans : LayerSpans spans layer before between)
    (aboveSpans : LayerSpans spans above between after) :
    LayerSpans spans (absorb combine layer above) before after := by
  obtain ⟨distinct, records⟩ := aboveSpans
  induction above generalizing layer between with
  | nil =>
    have same : between = after := funext records
    exact same ▸ layerSpans
  | cons entry above ih =>
    obtain ⟨key, record⟩ := entry
    obtain ⟨fresh, distinct⟩ := nodup_cons.mp distinct
    -- the first record takes its key to the values after, the others are still to come
    let next : Values κ π := fun other => if other = key then after key else between other
    have here : spans record (between key) (next key) := by
      have first := records key
      rw [lookup_cons_self] at first
      rw [show next key = after key from if_pos rfl]
      exact first
    refine ih (layerSpans.note composes here fun other different => (if_neg different).symm)
      distinct ?_
    intro other
    by_cases same : other = key
    · subst same
      rw [(lookup_eq_none_iff above other).mpr fresh]
      exact if_pos rfl
    · have later := records other
      rw [lookup_cons_of_ne above record same] at later
      simpa [next, same] using later

theorem LayerSpans.exists_record (layerSpans : LayerSpans spans layer before after) {key : κ}
    (changed : before key ≠ after key) :
    ∃ record, (key, record) ∈ layer ∧ spans record (before key) (after key) := by
  have meaning := layerSpans.records key
  cases found : layer.lookup key with
  | none =>
    rw [found] at meaning
    exact absurd meaning changed
  | some record =>
    rw [found] at meaning
    exact ⟨record, mem_of_lookup found, meaning⟩

section Stacks

variable {stack : Stack κ ρ} {start current next : Values κ π} {opened : List (Values κ π)}

variable {key : κ}

include composes in
theorem StackSpans.noteOnTop
    (stackSpans : StackSpans spans stack.bottom start stack.layers opened current) {incoming : ρ}
    (here : spans incoming (current key) (next key))
    (elsewhere : ∀ other, other ≠ key → current other = next other) :
    StackSpans spans (stack.noteOnTop combine key incoming).bottom start
      (stack.noteOnTop combine key incoming).layers opened next := by
  obtain ⟨bottom, layers⟩ := stack
  cases layers with
  | nil =>
    cases opened with
    | nil => exact LayerSpans.note composes stackSpans here elsewhere
    | cons opening opened => exact stackSpans.elim
  | cons top layers =>
    cases opened with
    | nil => exact stackSpans.elim
    | cons opening opened => exact ⟨stackSpans.1.note composes here elsewhere, stackSpans.2⟩

variable (stackSpans : StackSpans spans stack.bottom start stack.layers opened current)

include stackSpans in
theorem StackSpans.push :
    StackSpans spans stack.push.bottom start stack.push.layers (current :: opened) current :=
  ⟨layerSpans_nil current, stackSpans⟩

theorem StackSpans.pop {opening : Values κ π}
    (stackSpans : StackSpans spans stack.bottom start stack.layers (opening :: opened) current) :
    StackSpans spans stack.pop.bottom start stack.pop.layers opened opening := by
  obtain ⟨bottom, layers⟩ := stack
  cases layers with
  | nil => exact stackSpans.elim
  | cons top layers => exact stackSpans.2

include composes in
theorem StackSpans.release {opening : Values κ π}
    (stackSpans : StackSpans spans stack.bottom start stack.layers (opening :: opened) current) :
    StackSpans spans (stack.release combine).bottom start (stack.release combine).layers opened
      current := by
  obtain ⟨bottom, layers⟩ := stack
  cases layers with
  | nil => exact stackSpans.elim
  | cons top layers =>
    obtain ⟨topSpans, below⟩ := stackSpans
    cases layers with
    | nil =>
      cases opened with
      | nil => exact LayerSpans.absorb composes below topSpans
      | cons => exact below.elim
    | cons nextLayer layers =>
      cases opened with
      | nil => exact below.elim
      | cons => exact ⟨below.1.absorb composes topSpans, below.2⟩

include stackSpans in
theorem StackSpans.length : stack.layers.length = opened.length := by
  obtain ⟨bottom, layers⟩ := stack
  induction layers generalizing opened current with
  | nil => cases opened with
    | nil => rfl
    | cons => exact stackSpans.elim
  | cons top layers ih => cases opened with
    | nil => exact stackSpans.elim
    | cons opening opened => exact congrArg Nat.succ (ih stackSpans.2)

/-- Dropping layers goes back to the values at which the last of them was opened. -/
theorem StackSpans.pops (count : Nat)
    (stackSpans : StackSpans spans stack.bottom start stack.layers opened current)
    (deep : count ≤ opened.length) : ∃ saved others, (current :: opened).drop count =
      saved :: others ∧
      StackSpans spans (Stack.pop^[count] stack).bottom start
        (Stack.pop^[count] stack).layers others
        saved := by
  induction count generalizing stack opened current with
  | zero => exact ⟨current, opened, rfl, stackSpans⟩
  | succ count ih =>
    cases opened with
    | nil => exact absurd deep (Nat.not_succ_le_zero count)
    | cons opening opened => exact ih stackSpans.pop (Nat.le_of_succ_le_succ deep)

include composes in
theorem StackSpans.releases (count : Nat)
    (stackSpans : StackSpans spans stack.bottom start stack.layers opened current)
    (deep : count ≤ opened.length) :
    StackSpans spans ((Stack.release combine)^[count] stack).bottom start
      ((Stack.release combine)^[count] stack).layers (opened.drop count) current := by
  induction count generalizing stack opened with
  | zero => exact stackSpans
  | succ count ih =>
    cases opened with
    | nil => exact absurd deep (Nat.not_succ_le_zero count)
    | cons opening opened => exact ih (stackSpans.release composes) (Nat.le_of_succ_le_succ deep)

include stackSpans

/-- If a key has another value than at the start, a record of one of the layers leaves the
value at the start, and a record of one of them reaches the value now. -/
theorem StackSpans.exists_ends (changed : start key ≠ current key) :
    (∃ layer ∈ stack.all, ∃ record after, (key, record) ∈ layer ∧ spans record (start key) after) ∧
      ∃ layer ∈ stack.all, ∃ record before, (key, record) ∈ layer ∧
        spans record before (current key) := by
  obtain ⟨bottom, layers⟩ := stack
  simp only [Stack.mem_all]
  induction layers generalizing opened current with
  | nil =>
    cases opened with
    | nil =>
      obtain ⟨record, found, meaning⟩ := LayerSpans.exists_record stackSpans changed
      exact ⟨⟨bottom, by simp [Stack.fromTop], record, _, found, meaning⟩,
        bottom, by simp [Stack.fromTop], record, _, found, meaning⟩
    | cons => exact stackSpans.elim
  | cons top layers ih =>
    cases opened with
    | nil => exact stackSpans.elim
    | cons opening opened =>
      obtain ⟨topSpans, below⟩ := stackSpans
      constructor
      · by_cases same : start key = opening key
        · rw [same] at changed ⊢
          obtain ⟨record, found, meaning⟩ := topSpans.exists_record changed
          exact ⟨top, mem_cons_self, record, _, found, meaning⟩
        · obtain ⟨layer, member, leaves⟩ := (ih same below).1
          exact ⟨layer, mem_cons_of_mem top member, leaves⟩
      · by_cases same : opening key = current key
        · rw [← same] at changed ⊢
          obtain ⟨layer, member, reaches⟩ := (ih changed below).2
          exact ⟨layer, mem_cons_of_mem top member, reaches⟩
        · obtain ⟨record, found, meaning⟩ := topSpans.exists_record same
          exact ⟨top, mem_cons_self, record, _, found, meaning⟩

end Stacks

end Meaning

end NetChange
