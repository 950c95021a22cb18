import Quereus.Lib.Unicode
import Quereus.Sync.Clock

/-!
# The order of migrations

`orderMigrations` of `protocol.ts` sorts migrations by their timestamps and then moves every
baseline ahead of the first alteration or drop of its own object. On its way it passes whatever
stands behind that alteration or drop, a later create of its object included.
-/

namespace Quereus.Sync

open List

inductive SchemaMigrationType where
  | createTable | dropTable | renameTable | addColumn | dropColumn | addIndex | dropIndex
  | alterColumn
  deriving DecidableEq

/-- The kind of object a migration names. -/
def migrationObjectKind : SchemaMigrationType → String
  | .addIndex | .dropIndex => "index"
  | _ => "table"

structure MigrationOrderKey where
  hlc : HLC
  type : SchemaMigrationType
  schema : Utf16
  table : Utf16
  schemaVersion : Nat

def BASELINE_SCHEMA_VERSION : Nat := 0

def isBaselineVersion (schemaVersion : Nat) : Bool :=
  schemaVersion == BASELINE_SCHEMA_VERSION

def displacesBaseline : SchemaMigrationType → Bool
  | .alterColumn | .addColumn | .dropColumn | .dropTable | .dropIndex => true
  | _ => false

def asciiUnits (text : String) : Utf16 :=
  text.toList.map fun char => char.val.toUInt16

/-- Every part stands behind its length and a separator. -/
def joinKeyParts (parts : List Utf16) : Utf16 :=
  parts.flatMap fun part => asciiUnits (toString part.length ++ ":") ++ part

def migrationStreamKey (key : MigrationOrderKey) : Utf16 :=
  joinKeyParts [key.schema, asciiUnits (migrationObjectKind key.type), key.table]

variable {T : Type} (keyOf : T → MigrationOrderKey)

def isBaseline (item : T) : Bool :=
  isBaselineVersion (keyOf item).schemaVersion

/-- A candidate alters or removes the object of an item. -/
def displaces (item candidate : T) : Bool :=
  displacesBaseline (keyOf candidate).type &&
    migrationStreamKey (keyOf candidate) == migrationStreamKey (keyOf item)

/-- A candidate is the create or rename that brings the object of an item into existence. -/
def defines (item candidate : T) : Bool :=
  !isBaseline keyOf candidate && !displacesBaseline (keyOf candidate).type &&
    migrationStreamKey (keyOf candidate) == migrationStreamKey (keyOf item)

/-- The order of the sort. -/
def notAfter (a b : T) : Prop :=
  compareHLC (keyOf a).hlc (keyOf b).hlc ≠ .gt

instance : DecidableRel (notAfter keyOf) :=
  fun _ _ => inferInstanceAs (Decidable (_ ≠ _))

/-- The item at an index taken out and put in at a target. -/
def spliceTo (ordered : List T) (index target : Nat) (item : T) : List T :=
  (ordered.eraseIdx index).take target ++ item :: (ordered.eraseIdx index).drop target

/-- One iteration of the loop. -/
def moveBaseline (ordered : List T) (index : Nat) : List T :=
  match ordered[index]? with
  | none => ordered
  | some item =>
    if isBaseline keyOf item then
      match ordered.findIdx? (displaces keyOf item) with
      | some target => if target < index then spliceTo ordered index target item else ordered
      | none => ordered
    else ordered

def orderMigrations (items : List T) : List T :=
  (range items.length).foldl (moveBaseline keyOf) (items.insertionSort (notAfter keyOf))

variable {keyOf} {done ahead skipped placed items : List T} {item : T}

/-! ## What the loop does

The items in front of the index are placed already; the one at the index goes among them. -/

/-- An item goes in at the first one that displaces it. -/
def Joins (keyOf : T → MigrationOrderKey) (item : T) (ahead skipped : List T) : Prop :=
  (isBaseline keyOf item → ∀ candidate ∈ ahead, displaces keyOf item candidate = false) ∧
    (skipped = [] ∨ isBaseline keyOf item ∧
      ∃ first rest, skipped = first :: rest ∧ displaces keyOf item first)

theorem moveBaseline_append (keyOf : T → MigrationOrderKey) (placed : List T) (item : T)
    (later : List T) :
    ∃ ahead skipped, placed = ahead ++ skipped ∧ Joins keyOf item ahead skipped ∧
      moveBaseline keyOf (placed ++ item :: later) placed.length =
        ahead ++ item :: skipped ++ later := by
  have atIndex : (placed ++ item :: later)[placed.length]? = some item := by simp
  simp only [moveBaseline, atIndex, findIdx?_append]
  by_cases baseline : isBaseline keyOf item
  · rw [if_pos baseline]
    cases found : placed.find? (displaces keyOf item) with
    | none =>
      -- a displacer behind the item does not move it
      have noneAhead := find?_eq_none.mp found
      refine ⟨placed, [], by simp, ⟨fun _ => by simpa using noneAhead, .inl rfl⟩, ?_⟩
      rw [findIdx?_eq_none_iff.mpr (by simpa using noneAhead)]
      cases (item :: later).findIdx? (displaces keyOf item) <;> simp
    | some first =>
      obtain ⟨isDisplacer, ahead, rest, rfl, noneAhead⟩ := find?_eq_some_iff_append.mp found
      refine ⟨ahead, first :: rest, rfl,
        ⟨fun _ => by simpa using noneAhead,
          .inr ⟨baseline, first, rest, rfl, isDisplacer⟩⟩, ?_⟩
      have isTarget : (ahead ++ first :: rest).findIdx? (displaces keyOf item) =
          some ahead.length := by
        rw [findIdx?_append, findIdx?_eq_none_iff.mpr (by simpa using noneAhead), findIdx?_cons]
        simp [isDisplacer]
      rw [isTarget]
      simp [spliceTo, eraseIdx_append_of_length_le]
  · refine ⟨placed, [], by simp, ⟨fun isBaseline => absurd isBaseline baseline, .inl rfl⟩, ?_⟩
    simp [baseline]

/-- An item comes before another, or follows it and something before that which displaces it. -/
def Passes (keyOf : T → MigrationOrderKey) (done : List T) (item other : T) : Prop :=
  [item, other] <+ done ∨ ∃ displacer, displaces keyOf item displacer ∧
    [displacer, other, item] <+ done

/-- What the placed items are to the sorted ones they come from. -/
structure Arranged (keyOf : T → MigrationOrderKey) (done placed : List T) : Prop where
  perm : placed.Perm done
  others : placed.filter (!isBaseline keyOf ·) = done.filter (!isBaseline keyOf ·)
  displaced : placed.Pairwise fun candidate item => isBaseline keyOf item →
    isBaseline keyOf candidate = false → displaces keyOf item candidate = false
  passed : ∀ item other, isBaseline keyOf item → isBaseline keyOf other = false →
    displaces keyOf item other = false → ([item, other] <+ placed ↔ Passes keyOf done item other)

theorem concat_sublist_concat_iff (kept front : List T) (last item : T) :
    kept ++ [last] <+ front ++ [item] ↔ kept ++ [last] <+ front ∨ kept <+ front ∧ last = item := by
  rw [← reverse_sublist, ← @reverse_sublist _ (kept ++ [last]), ← @reverse_sublist _ kept]
  simp only [reverse_append, reverse_singleton, singleton_append, sublist_cons_iff, cons.injEq]
  exact or_congr_right
    ⟨fun ⟨_, ⟨same, isRest⟩, inFront⟩ => ⟨isRest ▸ inFront, same⟩,
      fun ⟨inFront, same⟩ => ⟨_, ⟨same, rfl⟩, inFront⟩⟩

theorem pair_sublist_append_cons_iff (first second : T) :
    [first, second] <+ ahead ++ item :: skipped ↔ [first, second] <+ ahead ++ skipped ∨
      first ∈ ahead ∧ second = item ∨ first = item ∧ second ∈ skipped := by
  induction ahead with
  | nil => simp [sublist_cons_iff, singleton_sublist, eq_comm]
  | cons next ahead ih =>
    simp only [cons_append, sublist_cons_iff, ih, cons.injEq, mem_cons]
    grind

variable {baseline other displacer : T}

/-- What a new item at the end adds to what a baseline passes. -/
theorem passes_concat_iff :
    Passes keyOf (done ++ [item]) baseline other ↔ Passes keyOf done baseline other ∨
      baseline ∈ done ∧ other = item ∨
      baseline = item ∧ ∃ displacer, displaces keyOf baseline displacer ∧
        [displacer, other] <+ done := by
  have pair : [baseline, other] <+ done ++ [item] ↔
      [baseline, other] <+ done ∨ baseline ∈ done ∧ other = item := by
    simpa using concat_sublist_concat_iff [baseline] done other item
  have triple (displacer : T) : [displacer, other, baseline] <+ done ++ [item] ↔
      [displacer, other, baseline] <+ done ∨ [displacer, other] <+ done ∧ baseline = item := by
    simpa using concat_sublist_concat_iff [displacer, other] done baseline item
  simp only [Passes, pair, triple, and_or_left, exists_or, ← and_assoc, exists_and_right]
  rw [or_or_or_comm, and_comm (a := baseline = item)]

/-- What displaces a displacer of an item displaces the item. -/
theorem displaces_trans (isDisplacer : displaces keyOf baseline displacer)
    (displaced : displaces keyOf displacer other) : displaces keyOf baseline other := by
  simp only [displaces, Bool.and_eq_true, beq_iff_eq] at *
  exact ⟨displaced.1, displaced.2.trans isDisplacer.2⟩

theorem stays_of_displacer (isDisplacer : displaces keyOf baseline displacer)
    (stays : displaces keyOf baseline other = false) : displaces keyOf displacer other = false :=
  Bool.eq_false_iff.mpr fun displaced =>
    absurd (displaces_trans isDisplacer displaced) (Bool.eq_false_iff.mp stays)

theorem Arranged.others_iff (arranged : Arranged keyOf done placed) {first second : T}
    (isFirst : isBaseline keyOf first = false) (isSecond : isBaseline keyOf second = false) :
    [first, second] <+ placed ↔ [first, second] <+ done := by
  have inFilter (list : List T) : [first, second] <+ list.filter (!isBaseline keyOf ·) ↔
      [first, second] <+ list :=
    ⟨fun inside => inside.trans filter_sublist, fun inside => by
      simpa [isFirst, isSecond] using inside.filter (!isBaseline keyOf ·)⟩
  rw [← inFilter placed, arranged.others, inFilter]

/-- Something that displaces a baseline stands before another migration among the placed ones
just if something does so among the sorted ones. -/
theorem Arranged.displacer_before_iff (arranged : Arranged keyOf done placed)
    (isOther : isBaseline keyOf other = false) (stays : displaces keyOf baseline other = false) :
    (∃ first, displaces keyOf baseline first ∧ [first, other] <+ placed) ↔
      ∃ first, displaces keyOf baseline first ∧ [first, other] <+ done := by
  constructor <;> rintro ⟨first, isDisplacer, before⟩ <;>
    cases isBase : isBaseline keyOf first
  · exact ⟨first, isDisplacer, (arranged.others_iff isBase isOther).mp before⟩
  · -- a baseline that passed the other one has its own displacer before it
    rcases (arranged.passed first other isBase isOther (stays_of_displacer isDisplacer stays)).mp
      before with inDone | ⟨second, displacesFirst, inDone⟩
    · exact ⟨first, isDisplacer, inDone⟩
    · refine ⟨second, displaces_trans isDisplacer displacesFirst, ?_⟩
      exact (Sublist.cons_cons second (.cons_cons other (nil_sublist _))).trans inDone
  · exact ⟨first, isDisplacer, (arranged.others_iff isBase isOther).mpr before⟩
  · exact ⟨first, isDisplacer, (arranged.passed first other isBase isOther
      (stays_of_displacer isDisplacer stays)).mpr (.inl before)⟩

/-- What a new baseline passes. -/
theorem mem_skipped_iff (arranged : Arranged keyOf done (ahead ++ skipped))
    (joins : Joins keyOf item ahead skipped) (isBase : isBaseline keyOf item)
    (isOther : isBaseline keyOf other = false) (stays : displaces keyOf item other = false) :
    other ∈ skipped ↔ ∃ first, displaces keyOf item first ∧ [first, other] <+ done := by
  rw [← arranged.displacer_before_iff isOther stays]
  constructor
  · intro inSkipped
    obtain ⟨-, rfl | ⟨-, first, rest, rfl, isDisplacer⟩⟩ := joins
    · cases inSkipped
    · have inRest : other ∈ rest := (mem_cons.mp inSkipped).resolve_left fun same =>
        absurd isDisplacer (Bool.eq_false_iff.mp (same ▸ stays))
      have behind := (singleton_sublist.mpr inRest).cons_cons first
      exact ⟨first, isDisplacer, behind.trans (sublist_append_right ..)⟩
  · rintro ⟨first, isDisplacer, before⟩
    obtain ⟨front, back, split, inAhead, inBack⟩ := sublist_append_iff.mp before
    cases front with
    | nil =>
      obtain rfl : [first, other] = back := split
      exact inBack.subset (mem_cons_of_mem _ mem_cons_self)
    | cons next front =>
      -- nothing in front of the new place displaces the baseline
      obtain rfl : first = next := (cons.inj split).1
      have stays := joins.1 isBase first (inAhead.subset mem_cons_self)
      rw [isDisplacer] at stays
      cases stays

theorem Arranged.place (arranged : Arranged keyOf done (ahead ++ skipped))
    (joins : Joins keyOf item ahead skipped) :
    Arranged keyOf (done ++ [item]) (ahead ++ item :: skipped) where
  perm := perm_middle.trans ((arranged.perm.cons item).trans (perm_append_singleton item done).symm)
  others := by
    rw [filter_append done [item], ← arranged.others]
    obtain ⟨-, rfl | ⟨baseline, -⟩⟩ := joins
    · simp
    · simp [baseline]
  displaced := by
    obtain ⟨inAhead, inSkipped, across⟩ := pairwise_append.mp arranged.displaced
    refine pairwise_append.mpr
      ⟨inAhead, pairwise_cons.mpr ⟨?_, inSkipped⟩, fun candidate member => ?_⟩
    · obtain ⟨-, rfl | ⟨baseline, -⟩⟩ := joins
      · exact nofun
      · exact fun _ _ _ notBaseline => absurd baseline (ne_true_of_eq_false notBaseline)
    · exact forall_mem_cons.mpr
        ⟨fun baseline _ => joins.1 baseline candidate member, across candidate member⟩
  passed := by
    intro baseline other isBase isOther stays
    rw [pair_sublist_append_cons_iff, passes_concat_iff,
      arranged.passed baseline other isBase isOther stays]
    refine or_congr_right (or_congr (and_congr_left ?_) (and_congr_right ?_))
    · rintro rfl
      -- one that is no baseline goes to the end
      obtain ⟨-, rfl | ⟨isBaseline, -⟩⟩ := joins
      · rw [← arranged.perm.mem_iff, append_nil]
      · exact absurd isBaseline (Bool.eq_false_iff.mp isOther)
    · rintro rfl
      exact mem_skipped_iff arranged joins isBase isOther stays

/-- Up to any index the items are arranged, and behind it they are as the sort left them. -/
theorem arranged_foldl (keyOf : T → MigrationOrderKey) (sorted : List T) (count : Nat)
    (inside : count ≤ sorted.length) :
    ∃ placed, Arranged keyOf (sorted.take count) placed ∧
      (range count).foldl (moveBaseline keyOf) sorted = placed ++ sorted.drop count := by
  induction count with
  | zero => exact ⟨[], ⟨.refl _, rfl, .nil, by simp [Passes]⟩, rfl⟩
  | succ count ih =>
    obtain ⟨placed, arranged, isPlaced⟩ := ih (Nat.le_of_succ_le inside)
    have isCount : placed.length = count := by
      simpa [Nat.le_of_succ_le inside] using arranged.perm.length_eq
    obtain ⟨ahead, skipped, rfl, joins, moved⟩ := moveBaseline_append keyOf placed
      sorted[count] (sorted.drop (count + 1))
    refine ⟨_, take_succ_eq_append_getElem inside ▸ arranged.place joins, ?_⟩
    rw [range_succ, foldl_append, isPlaced, drop_eq_getElem_cons inside, ← moved, isCount]
    rfl

/-- The loop arranges the sorted migrations. -/
theorem orderMigrations_arranged (keyOf : T → MigrationOrderKey) (items : List T) :
    Arranged keyOf (items.insertionSort (notAfter keyOf)) (orderMigrations keyOf items) := by
  have isLength := length_insertionSort (notAfter keyOf) items
  obtain ⟨placed, arranged, isPlaced⟩ := arranged_foldl keyOf _ items.length isLength.ge
  rw [← isLength, drop_length, append_nil, isLength] at isPlaced
  rw [← isLength, take_length] at arranged
  change orderMigrations keyOf items = placed at isPlaced
  rw [isPlaced]
  exact arranged

instance : Std.Total (notAfter keyOf) where
  total a b := by
    unfold notAfter
    rw [compareHLC_swap (keyOf a).hlc]
    cases compareHLC (keyOf a).hlc (keyOf b).hlc <;> simp

instance : IsTrans T (notAfter keyOf) where
  trans a b c := by
    simpa [notAfter, Ordering.isLE_iff_ne_gt] using
      @Std.TransCmp.isLE_trans _ compareHLC _ (keyOf a).hlc (keyOf b).hlc (keyOf c).hlc

/-- **The order of migrations.** The migrations are the given ones. Those that are no baselines are
in the order of their timestamps, and the ones that were in this order stay so. No other
migration displaces a baseline behind it. Every baseline comes after the creates and renames of
its object if and only if it does so in the order of the timestamps and none of them stands
there between a migration that displaces the baseline and the baseline. -/
theorem orderMigrations_ordered (keyOf : T → MigrationOrderKey) (items : List T) :
    (orderMigrations keyOf items).Perm items ∧
      ((orderMigrations keyOf items).filter (!isBaseline keyOf ·)).Pairwise (notAfter keyOf) ∧
      (∀ kept, kept <+ items.filter (!isBaseline keyOf ·) → kept.Pairwise (notAfter keyOf) →
        kept <+ (orderMigrations keyOf items).filter (!isBaseline keyOf ·)) ∧
      (orderMigrations keyOf items).Pairwise (fun candidate item => isBaseline keyOf item →
        isBaseline keyOf candidate = false → displaces keyOf item candidate = false) ∧
      ((∀ baseline create, isBaseline keyOf baseline → defines keyOf baseline create →
          ¬ [baseline, create] <+ orderMigrations keyOf items) ↔
        ∀ baseline create, isBaseline keyOf baseline → defines keyOf baseline create →
          ¬ [baseline, create] <+ items.insertionSort (notAfter keyOf) ∧
            ∀ displacer, displaces keyOf baseline displacer →
              ¬ [displacer, create, baseline] <+ items.insertionSort (notAfter keyOf)) := by
  have ascending := pairwise_insertionSort (notAfter keyOf) items
  have arranged := orderMigrations_arranged keyOf items
  refine ⟨arranged.perm.trans (perm_insertionSort _ items), ?_, fun kept inItems isAscending => ?_,
    arranged.displaced, ?_⟩
  · rw [arranged.others]
    exact ascending.sublist filter_sublist
  · have inSorted := (sublist_insertionSort isAscending (inItems.trans filter_sublist)).filter
      (!isBaseline keyOf ·)
    rw [arranged.others]
    rwa [filter_eq_self.mpr fun item member => of_mem_filter (inItems.subset member)] at inSorted
  · refine forall₄_congr fun baseline create isBase isCreate => ?_
    obtain ⟨⟨isOther, keeps⟩, -⟩ := by simpa [defines] using isCreate
    rw [arranged.passed baseline create isBase isOther (by simp [displaces, keeps])]
    simp [Passes]

/-- A drop and a new create of a table, and then its baseline: the baseline passes both. -/
theorem orderMigrations_baseline_first :
    let drop : MigrationOrderKey := ⟨⟨1, 0, [1], 0⟩, .dropTable, [109], [116], 1⟩
    let create : MigrationOrderKey := ⟨⟨2, 0, [1], 0⟩, .createTable, [109], [116], 2⟩
    let baseline : MigrationOrderKey := ⟨⟨3, 0, [1], 0⟩, .createTable, [109], [116], 0⟩
    defines id baseline create ∧
      orderMigrations id [drop, create, baseline] = [baseline, drop, create] :=
  ⟨rfl, rfl⟩

end Quereus.Sync
