import BonsaiGrid.Lib.Dict
import BonsaiGrid.Lib.Probing
import BonsaiGrid.Lib.Utf8
import BonsaiGrid.Store.Slab

/-!
# A shard of the store

The entries of a shard are records of fixed size in an open-addressing table; their bytes are in
the slab. Maps are told apart by an id that is given to a name when the first entry of the map is
put.
-/

namespace BonsaiGrid.Store

open Probing

/-- What a call reads from the process: the milliseconds since the start, and the
state of the random generator. -/
structure Env where
  now : ℕ
  seed : ℕ

def randIdx (seed k max : ℕ) : ℕ := (seed + k * 1103515245) % 2 ^ 64 % max

inductive EvictionPolicy where
  | none
  | lru
  | lfu
  | random
deriving DecidableEq, Repr

structure MapConfig where
  maxSize : ℕ := 0
  evictionPolicy : EvictionPolicy := .none
  maxIdleMs : ℕ := 0
deriving DecidableEq, Repr

/-- A record of the table. -/
structure Entry where
  hash : UInt64
  mapId : ℕ
  handle : Handle
  keyLen : ℕ
  valLen : ℕ
  expireAt : ℕ
  stamp : ℕ
  lastAccessMs : ℕ
  hits : ℕ
deriving DecidableEq, Repr

def Entry.total (e : Entry) : ℕ := (e.keyLen + e.valLen) % 2 ^ 32

def fnv (h : UInt64) (bytes : Bytes) : UInt64 :=
  bytes.foldl (fun h b => (h ^^^ b.toUInt64) * 0x100000001b3) h

def hash (mapId : ℕ) (key : Bytes) : UInt64 :=
  fnv (fnv 0xcbf29ce484222325 (LittleEndian.encode 4 mapId)) key ||| (1 : UInt64) <<< 63

structure Inner where
  slab : Slab
  table : List (Slot Entry)
  mask : ℕ
  len : ℕ
  tombstones : ℕ
  mapIds : Dict Str ℕ
  mapNames : List Str
  counts : List ℕ
  configs : Dict Str MapConfig

namespace Inner

def new : Inner where
  slab := .new
  table := List.replicate 1024 .empty
  mask := 1023
  len := 0
  tombstones := 0
  mapIds := ∅
  mapNames := []
  counts := []
  configs := ∅

variable (s : Inner)

def intern (map : Str) : Inner × ℕ :=
  match s.mapIds.lookup map with
  | some id => (s, id)
  | none =>
    let id := s.mapNames.length
    ({ s with
      mapNames := s.mapNames ++ [map]
      mapIds := s.mapIds.insert map id
      counts := s.counts ++ [0] }, id)

def isExpired (mapId : ℕ) (e : Entry) (now : ℕ) : Bool :=
  if e.expireAt ≠ 0 ∧ e.expireAt ≤ now then true
  else
    match s.mapNames[mapId]?.bind s.configs.lookup with
    | some cfg => 0 < cfg.maxIdleMs && cfg.maxIdleMs < now - e.lastAccessMs
    | none => false

def blob (e : Entry) : Bytes := s.slab.get e.handle e.total

def keyBytes (e : Entry) : Bytes := (s.blob e).take e.keyLen

def valBytes (e : Entry) : Bytes := (s.blob e).drop e.keyLen

def next (i : ℕ) : ℕ := (i + 1) &&& s.mask

def probeFor (mapId : ℕ) (key : Bytes) : Probe Entry :=
  let h := hash mapId key
  probe s.table (fun e => e.hash == h && e.mapId == mapId && s.keyBytes e == key) s.next
    (s.mask + 1) (h.toNat &&& s.mask) none

def bury (i : ℕ) (e : Entry) : Inner :=
  { s with
    slab := s.slab.free e.handle
    table := s.table.set i .tombstone
    len := s.len - 1
    tombstones := s.tombstones + 1
    counts := s.counts.modify e.mapId (· - 1) }

def scan (mapId start : ℕ) : Option (ℕ × Entry) :=
  ((List.range s.table.length).map fun i => (start + i) &&& s.mask).findSome? fun idx =>
    match slotAt s.table idx with
    | .full e => if e.mapId = mapId then some (idx, e) else none
    | _ => none

/-- The lightest of the entries that five scans from drawn slots meet first; the
weight has to be below `bound`. -/
def sampleMin (seed mapId : ℕ) (weight : Entry → ℕ) (bound : ℕ) :
    Option (ℕ × Entry) :=
  ((List.range 5).foldl (fun best k =>
    match s.scan mapId (randIdx seed k s.table.length) with
    | some (idx, e) => if weight e < best.1 then (weight e, some (idx, e)) else best
    | none => best) (bound, none)).2

def evictOne (env : Env) (mapId : ℕ) (policy : EvictionPolicy) : Inner :=
  let candidate :=
    match policy with
    | .none => none
    | .random => s.scan mapId (randIdx env.seed 0 s.table.length)
    | .lru => s.sampleMin env.seed mapId Entry.lastAccessMs (2 ^ 64 - 1)
    | .lfu => s.sampleMin env.seed mapId Entry.hits (2 ^ 32 - 1)
  match candidate with
  | some (i, e) => s.bury i e
  | none => s

def maybeGrow : Inner :=
  if (s.len + s.tombstones + 1) * 8 < (s.mask + 1) * 7 then s
  else
    let newCap := (s.mask + 1) * 2
    let newMask := newCap - 1
    { s with
      table := (items s.table).foldl
        (reinsert (fun e => e.hash.toNat &&& newMask) fun i => (i + 1) &&& newMask)
        (List.replicate newCap .empty)
      mask := newMask
      tombstones := 0 }

def deadline (now ttlMs : ℕ) : ℕ := if 0 < ttlMs then (now + ttlMs) % 2 ^ 64 else 0

def put (env : Env) (map : Str) (key val : Bytes) (ttlMs stamp : ℕ) :
    Inner × Option Bytes :=
  let (s, mapId) := s.intern map
  let s := s.maybeGrow
  let entry (handle : Handle) (hits : ℕ) : Entry :=
    { hash := hash mapId key, mapId, handle, keyLen := key.length % 2 ^ 32,
      valLen := val.length % 2 ^ 32, expireAt := deadline env.now ttlMs, stamp,
      lastAccessMs := env.now, hits }
  match s.probeFor mapId key with
  | .vacant slot =>
    let (slab, handle) := s.slab.store key val
    let s :=
      { s with
        slab
        table := s.table.set slot (.full (entry handle 1))
        len := s.len + 1
        tombstones := if slotAt s.table slot = Slot.tombstone then s.tombstones - 1 else s.tombstones
        counts := s.counts.modify mapId (· + 1) }
    match s.configs.lookup map with
    | some cfg =>
      if 0 < cfg.maxSize ∧ cfg.maxSize < s.counts.getD mapId 0 then
        (s.evictOne env mapId cfg.evictionPolicy, none)
      else (s, none)
    | none => (s, none)
  | .found i e =>
    let old := if s.isExpired mapId e env.now then none else some (s.valBytes e)
    let (slab, handle) := (s.slab.free e.handle).store key val
    ({ s with
      slab
      table := s.table.set i (.full (entry handle (min (e.hits + 1) (2 ^ 32 - 1)))) }, old)
  | .spins => (s, none)

/-- The slot of the entry of a key and the entry, whose last access is now. -/
def find (env : Env) (map : Str) (key : Bytes) : Inner × Option (ℕ × Entry) :=
  match s.mapIds.lookup map with
  | none => (s, none)
  | some mapId =>
    match s.probeFor mapId key with
    | .vacant _ => (s, none)
    | .found i e =>
      if s.isExpired mapId e env.now then (s.bury i e, none)
      else
        let e := { e with lastAccessMs := env.now, hits := min (e.hits + 1) (2 ^ 32 - 1) }
        ({ s with table := s.table.set i (.full e) }, some (i, e))
    | .spins => (s, none)

def get (env : Env) (map : Str) (key : Bytes) : Inner × Option Bytes :=
  let (s, found) := s.find env map key
  (s, found.map fun ie => s.valBytes ie.2)

def containsKey (env : Env) (map : Str) (key : Bytes) : Inner × Bool :=
  let (s, found) := s.find env map key
  (s, found.isSome)

def remove (env : Env) (map : Str) (key : Bytes) : Inner × Option Bytes :=
  match s.find env map key with
  | (s, none) => (s, none)
  | (s, some (i, e)) => (s.bury i e, some (s.valBytes e))

def putIfAbsent (env : Env) (map : Str) (key val : Bytes) (ttlMs stamp : ℕ) :
    Inner × Option Bytes :=
  match s.find env map key with
  | (s, some (_, e)) => (s, some (s.valBytes e))
  | (s, none) => ((s.put env map key val ttlMs stamp).1, none)

/-- Merge an inbound entry: of two entries the one with the higher stamp is kept
if `latestUpdate`, and the one that is there otherwise. -/
def putMerge (env : Env) (map : Str) (key val : Bytes) (ttlMs stamp : ℕ)
    (latestUpdate : Bool) : Inner :=
  match s.find env map key with
  | (s, none) => (s.put env map key val ttlMs stamp).1
  | (s, some (_, e)) =>
    if latestUpdate ∧ e.stamp < stamp then (s.put env map key val ttlMs stamp).1 else s

def replace (env : Env) (map : Str) (key val : Bytes) : Inner × Option Bytes :=
  match s.find env map key with
  | (s, none) => (s, none)
  | (s, some (i, e)) =>
    let (slab, handle) := (s.slab.free e.handle).store key val
    ({ s with
      slab
      table := s.table.set i
        (.full { e with
          handle, keyLen := key.length % 2 ^ 32, valLen := val.length % 2 ^ 32 }) },
      some (s.valBytes e))

def size (map : Str) : ℕ :=
  match s.mapIds.lookup map with
  | some id => s.counts.getD id 0
  | none => 0

def clear (map : Str) : Inner :=
  match s.mapIds.lookup map with
  | none => s
  | some mapId =>
    let dropped := (items s.table).filter fun e => e.mapId == mapId
    { s with
      slab := dropped.foldl (fun slab e => slab.free e.handle) s.slab
      table := wipe (fun e => e.mapId == mapId) s.table
      len := s.len - dropped.length
      tombstones := s.tombstones + dropped.length
      counts := s.counts.set mapId 0 }

def collectEntries (now : ℕ) (map : Str) : List (Bytes × Bytes) :=
  match s.mapIds.lookup map with
  | none => []
  | some mapId =>
    ((items s.table).filter fun e => e.mapId == mapId && !s.isExpired mapId e now).map fun e =>
      (s.keyBytes e, s.valBytes e)

def collectAllStamped (now : ℕ) : List (Str × Bytes × Bytes × ℕ) :=
  (items s.table).filterMap fun e =>
    if s.isExpired e.mapId e now then none
    else s.mapNames[e.mapId]?.map fun map => (map, s.keyBytes e, s.valBytes e, e.stamp)

def containsValue (now : ℕ) (map : Str) (val : Bytes) : Bool :=
  (s.collectEntries now map).any fun kv => kv.2 == val

end Inner

end BonsaiGrid.Store
