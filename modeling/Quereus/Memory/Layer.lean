import Quereus.Lib.PostingTree
import Quereus.Memory.Schema

/-! # Layers and secondary indexes

A layer holds the effective rows of a table in primary-key order and one tree per
secondary index. An index entry maps the code of each primary key to the key as
the writer spelled it. Codes are tested for equality while the primary tree
compares keys, so the index is right only as long as the two agree.

The trees are `BTree`s of the package `inheritree`, which is not part of this
repository. Assumed of it: `get`, `find`, `upsert`, `deleteAt` and the walks act on
the contents in key order as `KeyTree` does, when the comparator is lawful; and a
tree derived from a base starts with the contents of the base, which no write to the
derived tree changes. So a layer is a value here, and a new layer starts as its
parent's value.
-/

namespace Quereus.Memory

/-- The text `encodeScalar` writes for a value, as the tagged datum it stands for.
Booleans, bigints and integral numbers share one tag. -/
inductive ScalarCode where
  | null
  | integer (value : Int)
  | real (value : Double)
  | text (value : Utf16)
  | blob (bytes : List UInt8)
  | json (canonical : Utf16)
  deriving DecidableEq

def encodeScalar (cell : Cell) : ScalarCode :=
  match cell.1 with
  | .null => .null
  | .boolean value => .integer (if value then 1 else 0)
  | .bigint value => .integer value
  | .number value =>
    match value.toInt? with
    | some integer => .integer integer
    | none => .real value
  | .string value => .text value
  | .blob bytes => .blob bytes
  | .object canonical => .json canonical

/-- The components are length-prefixed in the source, so the code of a key is the
list of the codes of its components. -/
def encodePrimaryKey (primaryKey : Key) : List ScalarCode :=
  primaryKey.map encodeScalar

abbrev MemoryIndexEntry := Posting Key (List ScalarCode) Key

structure MemoryIndex where
  spec : IndexSchema
  data : List MemoryIndexEntry

namespace MemoryIndex

variable (schema : TableSchema) (index : MemoryIndex)

def keyFromRow (row : Row) : Key :=
  keyOf index.spec.columns row

def compareKeys : Key → Key → Ordering :=
  schema.compareKeyTuples index.spec.columns

instance : Std.TransCmp (index.compareKeys schema) :=
  inferInstanceAs (Std.TransCmp (schema.compareKeyTuples _))

def rowMatchesPredicate (row : Row) : Bool :=
  inScope index.spec.predicate row

def addEntry (indexKey primaryKey : Key) : MemoryIndex :=
  { index with
    data := PostingTree.add (index.compareKeys schema) index.data indexKey
      (encodePrimaryKey primaryKey) primaryKey }

def removeEntry (indexKey primaryKey : Key) : MemoryIndex :=
  { index with
    data := PostingTree.remove (index.compareKeys schema) index.data indexKey
      (encodePrimaryKey primaryKey) }

/-- The keys of an entry in primary-key order. -/
def sortPrimaryKeys (primaryKeys : List (List ScalarCode × Key)) : List Key :=
  (primaryKeys.map Prod.snd).insertionSort fun first second =>
    (schema.comparePrimaryKeys first second).isLE

def getPrimaryKeys (indexKey : Key) : List Key :=
  sortPrimaryKeys schema (PostingTree.items (index.compareKeys schema) index.data indexKey)

/-- The part of `recordUpsert` that keeps one index. -/
def recordUpsert (primaryKey : Key) (newRow : Row) (oldRow : Option Row) : MemoryIndex :=
  match oldRow with
  | some old =>
    match index.rowMatchesPredicate old, index.rowMatchesPredicate newRow with
    | false, false => index
    | true, false => index.removeEntry schema (index.keyFromRow old) primaryKey
    | false, true => index.addEntry schema (index.keyFromRow newRow) primaryKey
    | true, true =>
      if index.compareKeys schema (index.keyFromRow old) (index.keyFromRow newRow) ≠ .eq then
        (index.removeEntry schema (index.keyFromRow old) primaryKey).addEntry schema
          (index.keyFromRow newRow) primaryKey
      else index.addEntry schema (index.keyFromRow newRow) primaryKey
  | none =>
    if index.rowMatchesPredicate newRow then
      index.addEntry schema (index.keyFromRow newRow) primaryKey
    else index

/-- The part of `recordDelete` that keeps one index. -/
def recordDelete (primaryKey : Key) (oldRow : Row) : MemoryIndex :=
  if index.rowMatchesPredicate oldRow then
    index.removeEntry schema (index.keyFromRow oldRow) primaryKey
  else index

end MemoryIndex

structure Layer where
  primary : List Row
  secondaryIndexes : List MemoryIndex

namespace Layer

/-- The layer of a table without rows. -/
def empty (schema : TableSchema) : Layer where
  primary := []
  secondaryIndexes := schema.indexes.map fun spec => ⟨spec, []⟩

variable (schema : TableSchema) (layer : Layer)

def getSecondaryIndex (name : String) : Option MemoryIndex :=
  layer.secondaryIndexes.find? (·.spec.name = name)

def lookupEffectiveRow (primaryKey : Key) : Option Row :=
  KeyTree.find schema.primaryKeyFromRow schema.comparePrimaryKeys layer.primary primaryKey

def recordUpsert (primaryKey : Key) (newRow : Row) (oldRow : Option Row) : Layer where
  primary := KeyTree.upsert schema.primaryKeyFromRow schema.comparePrimaryKeys layer.primary newRow
  secondaryIndexes := layer.secondaryIndexes.map (·.recordUpsert schema primaryKey newRow oldRow)

def recordDelete (primaryKey : Key) (oldRow : Row) : Layer where
  primary := KeyTree.erase schema.primaryKeyFromRow schema.comparePrimaryKeys
    layer.primary primaryKey
  secondaryIndexes := layer.secondaryIndexes.map (·.recordDelete schema primaryKey oldRow)

/-- Delete the row at a key, if there is one. -/
def clearKey (primaryKey : Key) (existingRow : Option Row) : Layer :=
  match existingRow with
  | some existing => layer.recordDelete schema primaryKey existing
  | none => layer

/-- Whether a seek key has a NULL component and so matches nothing. -/
def seekKeyHasNull (key : Key) : Bool :=
  key.any Cell.isNull

/-- The rows an index entry leads to. -/
def rowsOfEntry (primaryKeys : List (List ScalarCode × Key)) : List Row :=
  (MemoryIndex.sortPrimaryKeys schema primaryKeys).filterMap (layer.lookupEffectiveRow schema)

/-- A scan of a secondary index for one key. -/
def scanEqualityKey (index : MemoryIndex) (equalityKey : Key) : List Row :=
  if seekKeyHasNull equalityKey then []
  else layer.rowsOfEntry schema
    (PostingTree.items (index.compareKeys schema) index.data equalityKey)

/-- A walk over a secondary index, ascending or descending, that keeps the entries
whose key the plan applies to. -/
def scanIndex (index : MemoryIndex) (descending : Bool)
    (planAppliesToKey : Key → Bool) : List Row :=
  ((if descending then index.data.reverse else index.data).filter
    fun entry => planAppliesToKey entry.key).flatMap fun entry =>
      layer.rowsOfEntry schema entry.items

end Layer

end Quereus.Memory
