import Quereus.Lib.Double
import Mathlib.Data.Int.ConditionallyCompleteOrder

/-! # Window frames

`getFrameBounds` returns the first and the last position of a frame in a sorted
partition. The two are found by separate scans, which know of neither the sort
direction nor the rows without a key. Keys and offsets are read as numbers, so that
large ones are rounded. Beside this stands the frame as SQL has it: by positions for
ROWS, and for RANGE by keys in the sort direction.
-/

namespace Quereus.Runtime

open Option Double

inductive WindowFrameUnits where
  | rows
  | range
  deriving DecidableEq, Repr

inductive WindowFrameBound where
  | currentRow
  | unboundedPreceding
  | unboundedFollowing
  | preceding (value : Nat)
  | following (value : Nat)
  deriving DecidableEq, Repr

/-- A frame; `stop` is the source's `end`. -/
structure WindowFrame where
  type : WindowFrameUnits
  start : WindowFrameBound
  stop : Option WindowFrameBound
  deriving DecidableEq, Repr

/-- A frame with a single bound ends at the current row. -/
def WindowFrame.last (frame : WindowFrame) : WindowFrameBound :=
  frame.stop.getD .currentRow

/-- The rows of a partition with the current one. A row has one key, which is an
integer or NULL. -/
structure WindowRows where
  totalRows : Nat
  orderByValues : Nat → Option Int
  currentIndex : Nat
  inside : currentIndex < totalRows
  /-- The length of an array is a 32-bit number. -/
  isArray : totalRows < 2 ^ 32

/-- The integer that `Number(value)` is, if it is finite. -/
def rangeOrdinal (value : Option Int) : Option Int :=
  value.bind fun value => (Double.ofInt value).toInt?

/-- An offset is an integer literal that is not negative. It is rejected if it is no finite
number. -/
def getFrameOffset (value : Nat) : Except String Int :=
  match (Double.ofInt value).toInt? with
  | some offset => .ok offset
  | none => .error "Invalid window frame offset: Infinity. Must be a non-negative integer."

/-- The number nearest to an integer, which is finite here: it is the sum of a position and
a finite number. -/
def rounded (value : Int) : Int :=
  ((Double.ofInt value).toInt?).getD value

/-- The comparison of numbers other than NaN. -/
def numberLE (first second : Double) : Bool :=
  first.signedMagnitude ≤ second.signedMagnitude

namespace WindowRows

variable (rows : WindowRows)

def currentVals : Option Int :=
  rows.orderByValues rows.currentIndex

def arePeerRows (first second : Nat) : Bool :=
  rows.orderByValues first == rows.orderByValues second

def findFirstPeer : (first : Nat) → Nat
  | 0 => 0
  | first + 1 => if rows.arePeerRows first rows.currentIndex then findFirstPeer first else first + 1

/-- The rows after `last` are counted by `left`. -/
def findLastPeer : (left last : Nat) → Nat
  | 0, last => last
  | left + 1, last =>
    if rows.arePeerRows (last + 1) rows.currentIndex then findLastPeer left (last + 1) else last

def firstPeer : Nat :=
  rows.findFirstPeer rows.currentIndex

def lastPeer : Nat :=
  rows.findLastPeer (rows.totalRows - 1 - rows.currentIndex) rows.currentIndex

def accepted (accepts : Int → Bool) (index : Nat) : Bool :=
  (rangeOrdinal (rows.orderByValues index)).any accepts

def firstIndex (accepts : Int → Bool) : (left index : Nat) → Nat
  | 0, index => index
  | left + 1, index =>
    if rows.accepted accepts index then index else firstIndex accepts left (index + 1)

def lastIndex (accepts : Int → Bool) : (count : Nat) → Int
  | 0 => -1
  | index + 1 => if rows.accepted accepts index then index else lastIndex accepts index

/-- Whether a row is at or after an offset from the current one. -/
def atOrAfter (currentVal offset rowVal : Int) : Bool :=
  let targetVal := Double.ofInt (currentVal + offset)
  numberLE targetVal (Double.ofInt rowVal)

/-- Whether a row is at or before an offset from the current one. -/
def atOrBefore (currentVal offset rowVal : Int) : Bool :=
  let targetVal := Double.ofInt (currentVal + offset)
  numberLE (Double.ofInt rowVal) targetVal

def rangeOffsetStart (offset : Int) : Nat :=
  match rangeOrdinal (rows.currentVals) with
  | none => rows.firstPeer
  | some currentVal => rows.firstIndex (atOrAfter currentVal offset) rows.totalRows 0

def rangeOffsetEnd (offset : Int) : Int :=
  match rangeOrdinal (rows.currentVals) with
  | none => rows.lastPeer
  | some currentVal => rows.lastIndex (atOrBefore currentVal offset) rows.totalRows

def startAt (type : WindowFrameUnits) (offset : Int) : Int :=
  match type with
  | .range => rows.rangeOffsetStart offset
  | .rows => rounded (rows.currentIndex + offset)

def endAt (type : WindowFrameUnits) (offset : Int) : Int :=
  match type with
  | .range => rows.rangeOffsetEnd offset
  | .rows => rounded (rows.currentIndex + offset)

def startIndex (type : WindowFrameUnits) : WindowFrameBound → Except String Int
  | .unboundedPreceding => .ok 0
  | .currentRow =>
    match type with
    | .range => .ok rows.firstPeer
    | .rows => .ok rows.currentIndex
  | .preceding value => (getFrameOffset value).map fun offset => rows.startAt type (-offset)
  | .following value => (getFrameOffset value).map (rows.startAt type)
  | .unboundedFollowing => .ok 0

def endIndex (type : WindowFrameUnits) : WindowFrameBound → Except String Int
  | .unboundedFollowing => .ok (rows.totalRows - 1)
  | .currentRow =>
    match type with
    | .range => .ok rows.lastPeer
    | .rows => .ok rows.currentIndex
  | .preceding value => (getFrameOffset value).map fun offset => rows.endAt type (-offset)
  | .following value => (getFrameOffset value).map (rows.endAt type)
  | .unboundedPreceding => .ok rows.currentIndex

/-- The bounds if they are in order, and an empty interval otherwise. ROWS bounds are
clamped to the partition. -/
def interval (type : WindowFrameUnits) (start stop : Int) : Int × Int :=
  let (start, stop) := match type with
    | .rows => (max 0 start, min (rows.totalRows - 1 : Int) stop)
    | .range => (start, stop)
  if start > stop then (rows.currentIndex + 1, rows.currentIndex) else (start, stop)

def getFrameBounds (frame : Option WindowFrame) (hasOrderBy : Bool) : Except String (Int × Int) :=
  match frame with
  | none => .ok (if hasOrderBy then (0, rows.lastPeer) else (0, rows.totalRows - 1))
  | some frame => do
    let start ← rows.startIndex frame.type frame.start
    let stop ← rows.endIndex frame.type frame.last
    return rows.interval frame.type start stop

end WindowRows

/-- A place in the sort order, with places before and after all numbers. -/
abbrev Place := WithBot (WithTop Int)

def Place.at (number : Int) : Place :=
  ((number : WithTop Int) : Place)

variable {first second number : Int}

@[simp] theorem Place.at_le_at : Place.at first ≤ Place.at second ↔ first ≤ second :=
  WithBot.coe_le_coe.trans WithTop.coe_le_coe

@[simp] theorem Place.at_ne_bot : Place.at number ≠ ⊥ :=
  WithBot.coe_ne_bot

@[simp] theorem Place.at_ne_top : Place.at number ≠ ⊤ :=
  fun same => WithTop.coe_ne_top (WithBot.coe_injective same)

structure SortOrder where
  descending : Bool
  nullsFirst : Bool

/-- Where a key that lies an offset behind another one stands, in the sort
direction. NULL stands at its end whatever the offset. -/
def SortOrder.shift (order : SortOrder) (key : Option Int) (offset : Int) : Place :=
  match key with
  | none => if order.nullsFirst then ⊥ else ⊤
  | some value => Place.at ((if order.descending then -value else value) + offset)

def WindowFrameBound.limit (shift : Int → Place) : WindowFrameBound → Place
  | .unboundedPreceding => ⊥
  | .preceding offset => shift (-offset)
  | .currentRow => shift 0
  | .following offset => shift offset
  | .unboundedFollowing => ⊤

/-- A partition in its sort order. -/
structure Partition (order : SortOrder) extends WindowRows where
  sorted : ∀ first second, first ≤ second → second < totalRows →
    order.shift (orderByValues first) 0 ≤ order.shift (orderByValues second) 0

variable {order : SortOrder}

/-- Where a row that lies an offset behind a row stands. -/
def Partition.place (rows : Partition order) (index : Nat) (offset : Int) : Place :=
  order.shift (rows.orderByValues index) offset

/-- Whether a row is in the frame of the current one: ROWS goes by positions and
RANGE by keys. -/
def WindowFrame.Covers (frame : WindowFrame) (rows : Partition order) (index : Nat) : Prop :=
  let shift (row : Nat) := match frame.type with
    | .rows => fun offset => Place.at (row + offset)
    | .range => rows.place row
  frame.start.limit (shift rows.currentIndex) ≤ shift index 0 ∧
    shift index 0 ≤ frame.last.limit (shift rows.currentIndex)

end Quereus.Runtime
