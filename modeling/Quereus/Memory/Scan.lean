import Quereus.Lib.OrderedWalk
import Quereus.Memory.Layer

/-! # Scanning a layer

A scan plan names a tree and the keys it wants. The tree is walked from a start key
that may be shorter than the keys of the tree, and the walk stops at the first key
that lies past the plan's last bound.

Trees are not changed while they are scanned here, so the part of `safeIterate` that
finds its place again after a change is left out.
-/

namespace Quereus.Memory

inductive IndexConstraintOp where
  | eq
  | gt
  | ge
  | lt
  | le
  deriving DecidableEq, Repr

structure ScanPlanRangeBound where
  op : IndexConstraintOp
  value : Cell

structure ScanPlanRange where
  lowerBound : Option ScanPlanRangeBound
  upperBound : Option ScanPlanRangeBound

structure ScanPlan where
  /-- The name of a secondary index; none for the primary tree. -/
  indexName : Option String
  descending : Bool
  equalityKey : Option Key
  equalityKeys : Option (List Key)
  equalityPrefix : Option (List Cell)
  /-- One collation for each value of the prefix. -/
  equalityPrefixCollations : List String
  boundCollation : Option String
  lowerBound : Option ScanPlanRangeBound
  upperBound : Option ScanPlanRangeBound
  ranges : Option (List ScanPlanRange)

structure ResolvedScanComparators where
  equalityPrefix : List (Cell → Cell → Ordering)
  bound : Cell → Cell → Ordering

namespace TableSchema

variable (schema : TableSchema)

def resolveIndexColumns (indexName : Option String) : List KeyColumn :=
  match indexName with
  | none => schema.primaryKeyDefinition
  | some name => ((schema.indexes.find? (·.name = name)).map IndexSchema.columns).getD []

def comparatorAt (columns : List KeyColumn) (position : Nat) (collation : Option String) :
    Cell → Cell → Ordering :=
  createTypedComparator
    ((columns[position]?.map fun column => schema.typeAt column.index).getD plainType)
    (some ((collation.map schema.collationResolver).getD BINARY_COLLATION))

def resolveScanComparators (plan : ScanPlan) : ResolvedScanComparators :=
  let columns := schema.resolveIndexColumns plan.indexName
  { equalityPrefix := (plan.equalityPrefix.getD []).zipIdx.map fun (_, position) =>
      schema.comparatorAt columns position plan.equalityPrefixCollations[position]?
    bound := schema.comparatorAt columns (plan.equalityPrefix.getD []).length plan.boundCollation }

end TableSchema

namespace ScanPlan

variable (plan : ScanPlan) (comparators : ResolvedScanComparators)

/-- Whether the leading parts of a key equal the values of a prefix. -/
def prefixAgrees : List (Cell → Cell → Ordering) → Key → List Cell → Bool
  | _, _, [] => true
  | cmp :: rest, part :: parts, value :: values =>
    cmp part value == .eq && prefixAgrees rest parts values
  | _, _, _ :: _ => false

def lowerAdmits (part : Cell) (lowerBound : ScanPlanRangeBound) : Bool :=
  match comparators.bound part lowerBound.value with
  | .lt => false
  | .eq => lowerBound.op ≠ .gt
  | .gt => true

def upperAdmits (part : Cell) (upperBound : ScanPlanRangeBound) : Bool :=
  match comparators.bound part upperBound.value with
  | .lt => true
  | .eq => upperBound.op ≠ .lt
  | .gt => false

/-- Whether the bounds of the plan admit the bounded part of a key. -/
def boundsAdmit (part : Option Cell) : Bool :=
  match part with
  | none => true
  | some part =>
    if part.isNull then !(plan.lowerBound.isSome || plan.upperBound.isSome)
    else plan.lowerBound.all (lowerAdmits comparators part) &&
      plan.upperBound.all (upperAdmits comparators part)

/-- The source has one branch for plans with a prefix and one for plans without; a
missing prefix is an empty one here. -/
def planAppliesToKey (key : Key) (compareKeys : Key → Key → Ordering) : Bool :=
  match plan.equalityKey with
  | some equalityKey => compareKeys key equalityKey == .eq
  | none =>
    let equalityPrefix := plan.equalityPrefix.getD []
    if plan.lowerBound.any (·.value.isNull) || plan.upperBound.any (·.value.isNull) then false
    else if equalityPrefix.any (·.isNull) then false
    else prefixAgrees comparators.equalityPrefix key equalityPrefix &&
      plan.boundsAdmit comparators key[equalityPrefix.length]?

def seekStartKey (seekBound : Option ScanPlanRangeBound) : Option Key :=
  let parts := plan.equalityPrefix.getD [] ++ (seekBound.map ScanPlanRangeBound.value).toList
  if parts.isEmpty then none else some parts

def pastTerminatingBound (part : Option Cell) (seekFromUpper : Bool) : Bool :=
  match part with
  | none => false
  | some part =>
    if seekFromUpper then plan.lowerBound.any fun bound => !lowerAdmits comparators part bound
    else plan.upperBound.any fun bound => !upperAdmits comparators part bound

def walkIsExhausted (key : Key) (seekFromUpper : Bool) : Bool :=
  let equalityPrefix := plan.equalityPrefix.getD []
  !prefixAgrees comparators.equalityPrefix key equalityPrefix ||
    plan.pastTerminatingBound comparators key[equalityPrefix.length]? seekFromUpper

end ScanPlan

/-- The entries of a tree from a start key on. A search for a key that is not in the
tree ends between two entries, and the walk goes on in its direction from there; at
the end of the tree it is put back on the last entry. -/
def safeIterate {ε : Type} (compareKeys : Key → Key → Ordering) (keyFromEntry : ε → Key)
    (tree : List ε) (isAscending : Bool) (startKey : Option Key) : List ε :=
  let entries := if isAscending then tree else tree.reverse
  match startKey with
  | none => entries
  | some start =>
    OrderedWalk.startingAt
      (fun entry => compareKeys (keyFromEntry entry) start == if isAscending then .lt
        else .gt) entries

namespace Layer

variable (schema : TableSchema) (layer : Layer)

/-- The entries of a tree that a plan without an equality key finds. -/
def walkTree {ε : Type} (compareKeys : Key → Key → Ordering) (keyFromEntry : ε → Key)
    (tree : List ε)
    (columns : List KeyColumn) (plan : ScanPlan) (comparators : ResolvedScanComparators) : List ε :=
  let isAscending := !plan.descending
  let isDescBoundColumn :=
    (columns[(plan.equalityPrefix.getD []).length]?.map KeyColumn.desc).getD false
  let seekFromUpper := isAscending == isDescBoundColumn
  let seekBound := if seekFromUpper then plan.upperBound else plan.lowerBound
  OrderedWalk.walk
    (fun entry => plan.planAppliesToKey comparators (keyFromEntry entry) compareKeys)
    (fun entry => plan.walkIsExhausted comparators (keyFromEntry entry) seekFromUpper)
    (safeIterate compareKeys keyFromEntry tree isAscending (plan.seekStartKey seekBound))

/-- A scan of one equality key or one range. -/
def scanSingle (plan : ScanPlan) (comparators : ResolvedScanComparators) :
    Except String (List Row) :=
  if (plan.equalityPrefix.getD []).any (·.isNull) then .ok []
  else match plan.indexName with
    | none =>
      match plan.equalityKey with
      | some key =>
        if seekKeyHasNull key then .ok []
        else .ok (layer.lookupEffectiveRow schema key).toList
      | none =>
        .ok (walkTree schema.comparePrimaryKeys schema.primaryKeyFromRow layer.primary
          schema.primaryKeyDefinition plan comparators)
    | some name =>
      match layer.getSecondaryIndex name with
      | none => .error ("Secondary index '" ++ name ++ "' not found.")
      | some index =>
        match plan.equalityKey with
        | some key => .ok (layer.scanEqualityKey schema index key)
        | none =>
          .ok ((walkTree (index.compareKeys schema) Posting.key index.data
            (schema.resolveIndexColumns (some name)) plan comparators).flatMap fun entry =>
              layer.rowsOfEntry schema entry.items)

/-- The ranges of a plan are scanned one after the other. -/
def scanRanges (plan : ScanPlan) (comparators : ResolvedScanComparators) :
    Except String (List Row) :=
  match plan.ranges with
  | some (range :: rest) =>
    ((range :: rest).mapM fun range =>
      layer.scanSingle schema
        { plan with ranges := none, lowerBound := range.lowerBound, upperBound := range.upperBound }
        comparators).map List.flatten
  | _ => layer.scanSingle schema plan comparators

/-- The seek keys in the order of the tree. -/
def orderSeekKeys (keys : List Key) (plan : ScanPlan) : List Key :=
  let compare? := match plan.indexName with
    | none => some schema.comparePrimaryKeys
    | some name =>
      (layer.getSecondaryIndex name).map fun index => MemoryIndex.compareKeys schema index
  match compare? with
  | none => keys
  | some compareKeys =>
    keys.insertionSort fun first second =>
      if plan.descending then (compareKeys second first).isLE else (compareKeys first second).isLE

/-- The seek keys of a plan are scanned one after the other, and a row that an earlier
key has found is left out. -/
def scanLayerResolved (plan : ScanPlan) (comparators : ResolvedScanComparators) :
    Except String (List Row) :=
  match plan.equalityKeys with
  | some (key :: rest) =>
    let keys := (layer.orderSeekKeys schema (key :: rest) plan).filter
      fun key => !seekKeyHasNull key
    (keys.mapM fun key =>
      layer.scanRanges schema { plan with equalityKey := some key, equalityKeys := none }
        comparators).map fun found =>
          OrderedWalk.distinctBy (fun row => encodePrimaryKey (schema.primaryKeyFromRow row)) []
            found.flatten
  | _ => layer.scanRanges schema plan comparators

def scanLayer (plan : ScanPlan) : Except String (List Row) :=
  layer.scanLayerResolved schema plan (schema.resolveScanComparators plan)

end Layer

end Quereus.Memory
