import Quereus.Store.PendingView

/-!
# The read cache of a key-value store

`quereus-store/src/common/cached-kv-store.ts`: reads are answered from a bounded cache or passed
to the store below, whose answer is then cached; writes go to the store first and then to the
cache; a batch drops the keys it has written. Everything that follows an `await` is a step of its
own, so a call is started, served by the store below at some later moment, and resumed later
still, and the calls of several callers interleave between these moments.

The linked list of the cache and the map over it are one list, the most recent entry first.
-/

namespace Quereus.Store

/-- An entry of the cache. -/
structure LRUNode where
  /-- The hexadecimal key. -/
  key : String
  /-- `none` is a known-absent key. -/
  value : Option Bytes
  size : Nat
deriving DecidableEq

structure CacheOptions where
  maxEntries : Nat := 1000
  maxBytes : Option Nat := none
  enabled : Bool := true
deriving DecidableEq

structure CachedKVStore where
  options : CacheOptions
  nodes : List LRUNode
  totalBytes : Int
deriving DecidableEq

namespace CachedKVStore

def empty (options : CacheOptions) : CachedKVStore :=
  ⟨options, [], 0⟩

variable (cache : CachedKVStore)

def find (hex : String) : Option LRUNode :=
  cache.nodes.find? (·.key = hex)

def moveToHead (node : LRUNode) : CachedKVStore :=
  { cache with nodes := node :: cache.nodes.filter (·.key ≠ node.key) }

/-- The condition of the eviction loop. -/
def overfull : Bool :=
  cache.nodes.length > cache.options.maxEntries ||
    cache.options.maxBytes.any fun maxBytes => cache.totalBytes > maxBytes

/-- The least recent entries are dropped while the cache is too large. A run of the loop for each
entry is enough, since it stops when there is none. -/
def evictLoop : Nat → CachedKVStore → CachedKVStore
  | 0, cache => cache
  | rounds + 1, cache =>
    if cache.overfull then
      match cache.nodes.getLast? with
      | none => cache
      | some evicted =>
        evictLoop rounds
          { cache with
            nodes := cache.nodes.dropLast
            totalBytes := cache.totalBytes - evicted.size }
    else cache

def evict : CachedKVStore :=
  evictLoop cache.nodes.length cache

def updateEntry (existing : LRUNode) (value : Option Bytes) (size : Nat) : CachedKVStore :=
  { cache with totalBytes := cache.totalBytes - existing.size + size }.moveToHead
    { existing with value, size }

def addEntry (hex : String) (value : Option Bytes) (size : Nat) : CachedKVStore :=
  match cache.find hex with
  | some existing => cache.updateEntry existing value size
  | none =>
    { cache with
      nodes := ⟨hex, value, size⟩ :: cache.nodes
      totalBytes := cache.totalBytes + size }.evict

def removeEntry (hex : String) : CachedKVStore :=
  match cache.find hex with
  | none => cache
  | some node =>
    { cache with
      nodes := cache.nodes.filter (·.key ≠ hex)
      totalBytes := cache.totalBytes - node.size }

def invalidate (key : Bytes) : CachedKVStore :=
  cache.removeEntry (bytesToHex key)

/-- Cache the answer of the store below. -/
def fill (key : Bytes) (value : Option Bytes) : CachedKVStore :=
  cache.addEntry (bytesToHex key) value (key.length + (value.map List.length).getD 0)

/-- Cache what has been written, `none` for a delete. -/
def store (key : Bytes) (value : Option Bytes) : CachedKVStore :=
  let size := key.length + (value.map List.length).getD 0
  match cache.find (bytesToHex key) with
  | some existing => cache.updateEntry existing value size
  | none => cache.addEntry (bytesToHex key) value size

end CachedKVStore

/-- A write to the store below, a delete when there is no value. -/
structure BatchOp where
  key : Bytes
  value : Option Bytes
deriving DecidableEq

/-- A batch remembers its operations to drop their keys; the inner batch forgets them when it is
written. -/
structure CachedWriteBatch where
  inner : List BatchOp
  ops : List BatchOp
  remembered : ∀ op ∈ inner, op ∈ ops

namespace CachedWriteBatch

def fresh : CachedWriteBatch :=
  ⟨[], [], nofun⟩

/-- Queue a put or a delete. -/
def queue (batch : CachedWriteBatch) (op : BatchOp) : CachedWriteBatch where
  inner := batch.inner ++ [op]
  ops := batch.ops ++ [op]
  remembered other member := by
    rw [List.mem_append] at member ⊢
    exact member.imp_left (batch.remembered other)

/-- The batch after it has been written. -/
def written (batch : CachedWriteBatch) : CachedWriteBatch :=
  ⟨[], batch.ops, nofun⟩

def clear (_ : CachedWriteBatch) : CachedWriteBatch :=
  fresh

end CachedWriteBatch

/-- What a read asks for. -/
inductive ReadQuery where
  | value
  | presence
deriving DecidableEq

/-- The reply for one key. -/
inductive ReadReply where
  | value (value : Option Bytes)
  | presence (present : Bool)
deriving DecidableEq

def ReadQuery.reply : ReadQuery → Option Bytes → ReadReply
  | .value, found => .value found
  | .presence, found => .presence found.isSome

inductive CacheCall where
  | get (key : Bytes)
  | has (key : Bytes)
  | getMany (keys : List Bytes)
  | put (key value : Bytes)
  | delete (key : Bytes)
  | write (batch : CachedWriteBatch)

/-- A call that waits for the store below. For a read, `out` has the answers of the cache, and
`none` at the missed keys. -/
inductive WaitingCall where
  | read (query : ReadQuery) (keys : List Bytes) (out : List (Option (Option Bytes)))
  | put (key value : Bytes)
  | delete (key : Bytes)
  | write (batch : CachedWriteBatch)

namespace CachedKVStore

/-- The part of a read before its `await`. -/
def lookupMany (cache : CachedKVStore) : List Bytes → CachedKVStore × List (Option (Option Bytes))
  | [] => (cache, [])
  | key :: rest =>
    match if cache.options.enabled then cache.find (bytesToHex key) else none with
    | some node =>
      let (looked, out) := (cache.moveToHead node).lookupMany rest
      (looked, some node.value :: out)
    | none =>
      let (looked, out) := cache.lookupMany rest
      (looked, none :: out)

/-- The part of a read after its `await`: the values are those of the missed keys. -/
def fillMany (cache : CachedKVStore) :
    List Bytes → List (Option (Option Bytes)) → List (Option Bytes) →
      CachedKVStore × List (Bytes × Option Bytes)
  | key :: keys, some value :: out, values =>
    let (filled, answers) := cache.fillMany keys out values
    (filled, (key, value) :: answers)
  | key :: keys, none :: out, value :: values =>
    let next := if cache.options.enabled then cache.fill key value else cache
    let (filled, answers) := next.fillMany keys out values
    (filled, (key, value) :: answers)
  | _, _, _ => (cache, [])

end CachedKVStore

/-- The keys a read has not found in the cache. -/
def missedKeys : List Bytes → List (Option (Option Bytes)) → List Bytes
  | _ :: keys, some _ :: out => missedKeys keys out
  | key :: keys, none :: out => key :: missedKeys keys out
  | _, _ => []

namespace WaitingCall

/-- The keys a call asks the store below for. -/
def reads : WaitingCall → List Bytes
  | .read _ keys out => missedKeys keys out
  | _ => []

/-- What a call writes to the store below. -/
def writes : WaitingCall → List BatchOp
  | .read _ _ _ => []
  | .put key value => [⟨key, some value⟩]
  | .delete key => [⟨key, none⟩]
  | .write batch => batch.inner

/-- The keys a call caches when it resumes. -/
def caches : WaitingCall → List Bytes
  | .put key _ | .delete key => [key]
  | .write _ => []
  | call => call.reads

end WaitingCall

/-- A key of the store after some writes. -/
def valueAfter (initial : Bytes → Option Bytes) (log : List BatchOp) (key : Bytes) : Option Bytes :=
  log.foldl (fun value op => if op.key = key then op.value else value) (initial key)

/-- A moment of the store below: the number of writes it has served. A completed write of a key
is noted with the moment right after it. -/
abbrev CompletedWrites := List (Bytes × Nat)

/-- What the store below has answered to a call, and when. -/
structure ServedCall where
  values : List (Option Bytes)
  moment : Nat

structure CallInFlight where
  call : WaitingCall
  /-- The writes that were completed when the call was made. -/
  before : CompletedWrites
  served : Option ServedCall

/-- What a read has returned for a key. -/
structure ReadAnswer where
  query : ReadQuery
  key : Bytes
  reply : ReadReply
  /-- The writes that were completed when the read was made. -/
  before : CompletedWrites
deriving DecidableEq

/-- A cache over a linearizable store, with the calls in flight and the history. -/
structure CacheSystem where
  cache : CachedKVStore
  /-- The writes the store below has served. -/
  log : List BatchOp
  inFlight : List CallInFlight
  completed : CompletedWrites
  answers : List ReadAnswer

/-- A step of the system: a call is made, served or resumed. -/
inductive CacheStep where
  | start (call : CacheCall)
  /-- The store below serves the call at this position. -/
  | serve (position : Nat)
  /-- The call at this position goes on after its `await`. -/
  | resume (position : Nat)

namespace CacheSystem

variable (initial : Bytes → Option Bytes) (system : CacheSystem)

def stored : Bytes → Option Bytes :=
  valueAfter initial system.log

def await (call : WaitingCall) : CacheSystem :=
  { system with inFlight := system.inFlight ++ [⟨call, system.completed, none⟩] }

def answer (query : ReadQuery) (before : CompletedWrites) (found : List (Bytes × Option Bytes)) :
    CacheSystem :=
  { system with
    answers := system.answers ++ found.map fun (key, value) =>
      ⟨query, key, query.reply value, before⟩ }

/-- A read that misses no key returns without asking the store below. -/
def startRead (query : ReadQuery) (keys : List Bytes) : CacheSystem :=
  let (cache, out) := system.cache.lookupMany keys
  let looked := { system with cache }
  if out.all Option.isSome then
    looked.answer query system.completed (keys.zip (out.filterMap id))
  else looked.await (.read query keys out)

def start : CacheCall → CacheSystem
  | .get key => system.startRead .value [key]
  | .has key => system.startRead .presence [key]
  | .getMany keys => system.startRead .value keys
  | .put key value => system.await (.put key value)
  | .delete key => system.await (.delete key)
  | .write batch => system.await (.write batch)

def serve (position : Nat) : CacheSystem :=
  match system.inFlight[position]? with
  | some ⟨call, before, none⟩ =>
    let log := system.log ++ call.writes
    { system with
      log
      inFlight := system.inFlight.set position
        ⟨call, before, some ⟨call.reads.map (system.stored initial), log.length⟩⟩ }
  | _ => system

def complete (call : WaitingCall) (served : ServedCall) : CacheSystem :=
  { system with
    completed := system.completed ++ call.writes.map fun op => (op.key, served.moment) }

/-- What a call does when it goes on. -/
def finish (call : WaitingCall) (before : CompletedWrites) (served : ServedCall) : CacheSystem :=
  match call with
  | .read query keys out =>
    let (cache, found) := system.cache.fillMany keys out served.values
    { system with cache }.answer query before found
  | .put key value =>
    let cache := if system.cache.options.enabled then system.cache.store key (some value)
      else system.cache
    { system with cache }.complete call served
  | .delete key =>
    let cache := if system.cache.options.enabled then system.cache.store key none else system.cache
    { system with cache }.complete call served
  | .write batch =>
    let cache := batch.ops.foldl (fun cache op => cache.invalidate op.key) system.cache
    { system with cache }.complete call served

def resume (position : Nat) : CacheSystem :=
  match system.inFlight[position]? with
  | some ⟨call, before, some served⟩ =>
    { system with inFlight := system.inFlight.eraseIdx position }.finish call before served
  | _ => system

def step : CacheStep → CacheSystem
  | .start call => system.start call
  | .serve position => system.serve initial position
  | .resume position => system.resume position

def run (system : CacheSystem) (steps : List CacheStep) : CacheSystem :=
  steps.foldl (fun system step => system.step initial step) system

/-- A cache that has not been used. -/
def fresh (options : CacheOptions) : CacheSystem :=
  ⟨.empty options, [], [], [], []⟩

end CacheSystem

end Quereus.Store
