import Quereus.Store.PrefixBounds
import Quereus.Sync.Clock

/-! # Change-log keys

`keys.ts` files an entry of the change log under its position, written as thirty big-endian
bytes, so that a range scan reads the log in filing order. The scan after a position starts at
the increment of its bytes, which wraps around to zeros after the largest position.
-/

namespace Quereus.Sync

open KeyOrder Store List

/-- A timestamp whose parts fit their fields. -/
structure KeyHLC extends HLC where
  wallTime_lt : wallTime < 256 ^ 8
  counter_lt : counter < 256 ^ 2
  length_siteId : siteId.length = 16
  opSeq_lt : opSeq < 256 ^ 4

def serializeHLCForKey (hlc : HLC) : List UInt8 :=
  bigEndian 8 hlc.wallTime ++ (bigEndian 2 hlc.counter ++ (hlc.siteId ++ bigEndian 4 hlc.opSeq))

/-- The source repeats the layout of `serializeHLCForKey`. -/
def serializeHLC (hlc : HLC) : List UInt8 :=
  serializeHLCForKey hlc

/-- The number a field spells. -/
def getUint (field : List UInt8) : Nat :=
  field.foldl (fun high byte => high * 256 + byte.toNat) 0

def deserializeHLCFromKey (buffer : List UInt8) : HLC where
  wallTime := getUint (buffer.take 8)
  counter := getUint ((buffer.drop 8).take 2)
  siteId := (buffer.drop 10).take 16
  opSeq := getUint ((buffer.drop 26).take 4)

def deserializeHLC (buffer : List UInt8) : Except String HLC :=
  if buffer.length ≠ 30 then
    .error ("Invalid HLC buffer length: " ++ toString buffer.length ++ ", expected 30")
  else .ok (deserializeHLCFromKey buffer)

/-- Where the store's increment has no answer, the one of the sync layer wraps around.
`keys.ts` repeats the text as its own `incrementLastByte`. -/
def incrementHLCBytes (bytes : List UInt8) : List UInt8 :=
  (incrementLastByte bytes).getD (bytes.map fun _ => 0)

/-- Every byte of the position is the largest. -/
def KeyHLC.IsLast (stamp : KeyHLC) : Prop :=
  ∀ byte ∈ serializeHLCForKey stamp.toHLC, byte = 0xff

inductive ChangeLogEntryType
  | column
  | delete

/-- What the key of an entry is made of. The names of the fact come last, encoded as `suffix`. -/
structure ChangeLogKey where
  position : KeyHLC
  entryType : ChangeLogEntryType
  suffix : List UInt8

/-- The text `cl:`. -/
def CHANGE_LOG : List UInt8 := [0x63, 0x6c, 0x3a]

def buildChangeLogKey (entry : ChangeLogKey) : List UInt8 :=
  CHANGE_LOG ++ (serializeHLCForKey entry.position.toHLC ++
    (match entry.entryType with | .column => 0x01 | .delete => 0x02) :: entry.suffix)

def buildChangeLogScanBoundsAfter (sincePosition : HLC) : ScanBounds where
  gte := CHANGE_LOG ++ incrementHLCBytes (serializeHLCForKey sincePosition)
  lt := some (incrementHLCBytes CHANGE_LOG)

/-- The entries of a log with keys within the bounds. -/
def entriesIn (log : List ChangeLogKey) (bounds : ScanBounds) : List ChangeLogKey :=
  log.filter fun entry => bounds.gte ≤ buildChangeLogKey entry ∧
    bounds.lt.all (buildChangeLogKey entry < ·)

theorem getUint_bigEndian {width value : Nat} (bound : value < 256 ^ width) :
    getUint (bigEndian width value) = value := by
  suffices general : ∀ high, (bigEndian width value).foldl
      (fun high byte => high * 256 + byte.toNat) high =
        high * 256 ^ width + value % 256 ^ width by
    rw [getUint, general, Nat.zero_mul, Nat.zero_add, Nat.mod_eq_of_lt bound]
  clear bound
  induction width with
  | zero => simp [bigEndian, Nat.mod_one]
  | succ width ih =>
    intro high
    have digits : value % (256 ^ width * 256) = _ := Nat.mod_mul
    rw [bigEndian, foldl_cons, ih, UInt8.toNat_ofNat', pow_succ 256, digits]
    ring

namespace KeyHLC

theorem deserialize (stamp : KeyHLC) :
    deserializeHLCFromKey (serializeHLCForKey stamp.toHLC) = stamp.toHLC := by
  simp [deserializeHLCFromKey, serializeHLCForKey, drop_append, drop_of_length_le,
    take_of_length_le, stamp.length_siteId, getUint_bigEndian stamp.wallTime_lt,
    getUint_bigEndian stamp.counter_lt, getUint_bigEndian stamp.opSeq_lt]

theorem decides (first second : KeyHLC) : Decides (compareHLC first.toHLC second.toHLC)
    (serializeHLCForKey first.toHLC) (serializeHLCForKey second.toHLC) := by
  refine (decides_bigEndian first.wallTime_lt second.wallTime_lt).append ?_
  refine (decides_bigEndian first.counter_lt second.counter_lt).append ?_
  refine .append (decides_of_length_eq ?_) (decides_bigEndian first.opSeq_lt second.opSeq_lt)
  rw [first.length_siteId, second.length_siteId]

@[simp]
theorem length_serializeHLCForKey (stamp : KeyHLC) :
    (serializeHLCForKey stamp.toHLC).length = 30 := by
  simp [serializeHLCForKey, stamp.length_siteId]

end KeyHLC

section Scan

variable {bytes next field : List UInt8}

theorem compare_bytes_eq_lt : compare bytes field = .lt ↔ bytes < field := by
  induction bytes generalizing field with
  | nil => cases field <;> simp
  | cons byte bytes ih =>
    cases field with
    | nil => simp
    | cons byte' field =>
      rw [List.compare_cons_cons, Ordering.then_eq_lt, Std.compare_eq_lt,
        Std.LawfulEqOrd.compare_eq_iff_eq, ih, cons_lt_cons_iff]

theorem not_stub (fits : bytes.length ≤ field.length) : ¬ Stub bytes field := by
  fun_induction Stub bytes field <;> grind

variable (fits : bytes.length = field.length)

include fits

theorem prefix_field_iff (rest : List UInt8) :
    bytes <+: field ++ rest ↔ compare bytes field = .eq := by
  rw [Std.LawfulEqOrd.compare_eq_iff_eq]
  constructor
  · intro begins
    exact (prefix_of_prefix_length_le begins (prefix_append ..) fits.le).eq_of_length fits
  · rintro rfl
    exact prefix_append ..

/-- The increment of a field is the first string after the extensions of the field. -/
theorem increment_le_iff (incremented : incrementLastByte bytes = some next) (rest : List UInt8) :
    next ≤ field ++ rest ↔ compare bytes field = .lt := by
  have interval := @contains_incremented _ (field ++ rest) _ incremented
  have above := (contains_incremented incremented).mpr (.inl (prefix_refl bytes))
  have order := decides_of_length_eq fits [] rest
  rw [or_iff_left (not_stub (by simp [fits])), prefix_field_iff fits] at interval
  rw [append_nil] at order
  cases verdict : compare bytes field with
  | lt =>
    rw [verdict] at interval order
    exact iff_of_true (fun below => nomatch interval.mp
      ⟨List.le_of_lt (compare_bytes_eq_lt.mp order), below⟩) rfl
  | eq => exact iff_of_false (not_not.mpr (interval.mpr verdict).2) nofun
  | gt =>
    rw [verdict, Std.OrientedOrd.eq_swap, Ordering.gt_then, Ordering.swap_eq_gt] at order
    exact iff_of_false (not_not.mpr (List.lt_trans (compare_bytes_eq_lt.mp order) above.2)) nofun

omit fits

variable (since : KeyHLC)

theorem KeyHLC.IsLast.not_lt {since : KeyHLC} (last : since.IsLast) (stamp : KeyHLC) :
    ¬ since.toHLC < stamp.toHLC := by
  intro after
  have order := (since.decides stamp).compare_eq.trans after
  have below := (le_iff_prefix_of_top last).1.mp (List.le_of_lt (compare_bytes_eq_lt.mp order))
  rw [below.eq_of_length (by simp), Std.ReflOrd.compare_self] at order
  cases order

theorem mem_entriesIn_iff {log : List ChangeLogKey} {entry : ChangeLogKey} :
    entry ∈ entriesIn log (buildChangeLogScanBoundsAfter since.toHLC) ↔
      entry ∈ log ∧ (since.IsLast ∨ since.toHLC < entry.position.toHLC) := by
  have ending : buildChangeLogKey entry < incrementHLCBytes CHANGE_LOG := by
    simp [buildChangeLogKey, incrementHLCBytes, incrementLastByte, CHANGE_LOG, cons_lt_cons_iff]
  rw [entriesIn, mem_filter]
  refine and_congr_right fun _ => ?_
  simp only [buildChangeLogScanBoundsAfter, Option.all_some, ending, and_true, decide_eq_true_eq]
  simp only [buildChangeLogKey, CHANGE_LOG, cons_append, nil_append, cons_le_cons_iff,
    UInt8.lt_irrefl, false_or, true_and, incrementHLCBytes]
  cases incremented : incrementLastByte (serializeHLCForKey since.toHLC) with
  | none =>
    refine iff_of_true (List.not_lt.mp fun below => ?_)
      (.inl (incrementLastByte_eq_none_iff.mp incremented))
    have short := (lt_zeros_iff.mp below).1
    simp at short
  | some next =>
    have notLast : ¬ since.IsLast := by
      rw [KeyHLC.IsLast, ← incrementLastByte_eq_none_iff, incremented]
      exact Option.some_ne_none next
    rw [or_iff_right notLast, Option.getD_some, increment_le_iff (by simp) incremented,
      (since.decides entry.position).compare_eq]
    rfl

/-- **The keys of the change log.** Positions sort as `compareHLC` orders them and read back as
they were, and a scan after a position selects the entries filed after it, unless the bytes of
the position are all `0xff`: the increment then wraps around and every entry is selected. -/
theorem changeLogScan_exact_iff (log : List ChangeLogKey) :
    (∀ first second : KeyHLC,
      compare (serializeHLCForKey first.toHLC) (serializeHLCForKey second.toHLC) =
        compareHLC first.toHLC second.toHLC ∧
      deserializeHLCFromKey (serializeHLCForKey first.toHLC) = first.toHLC ∧
      deserializeHLC (serializeHLC first.toHLC) = .ok first.toHLC) ∧
    ((∀ entry, entry ∈ entriesIn log (buildChangeLogScanBoundsAfter since.toHLC) ↔
        entry ∈ log ∧ since.toHLC < entry.position.toHLC) ↔
      ¬ since.IsLast ∨ log = []) := by
  refine ⟨fun first second => ⟨(first.decides second).compare_eq, first.deserialize, ?_⟩, ?_⟩
  · rw [deserializeHLC, if_neg (by simp [serializeHLC])]
    exact congrArg _ first.deserialize
  simp only [mem_entriesIn_iff]
  by_cases last : since.IsLast
  · simp [last, last.not_lt, eq_nil_iff_forall_not_mem]
  · simp [last]

/-- After the position of largest bytes the scan starts over. -/
theorem changeLogScan_wraps :
    let last : KeyHLC := ⟨⟨2 ^ 64 - 1, 2 ^ 16 - 1, replicate 16 0xff, 2 ^ 32 - 1⟩,
      by decide, by decide, by decide, by decide⟩
    entriesIn [⟨last, .delete, []⟩] (buildChangeLogScanBoundsAfter last.toHLC) ≠ [] ∧
      ¬ last.toHLC < last.toHLC := by
  decide

end Scan

end Quereus.Sync
