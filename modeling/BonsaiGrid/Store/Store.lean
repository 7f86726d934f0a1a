import BonsaiGrid.Store.Inner
import BonsaiGrid.Store.Stamp
import BonsaiGrid.Store.Structures

/-!
# The store

A store is a row of shards, among which the keys are distributed by a hash, the structures beside
the maps, and the clock from which its writes take their stamps.
-/

namespace BonsaiGrid

namespace Store

/-- What a call of the store reads from the process: also the wall clock. -/
structure StoreEnv extends Env where
  wallMs : ℕ

inductive WalRecord where
  | mapPut (stamp ttlMs : ℕ) (map : Str) (key value : Bytes)
  | mapRemove (stamp : ℕ) (map : Str) (key : Bytes)
  | auxState (kind : AuxKind) (name : Str) (state : Bytes)
deriving DecidableEq

def shardOf (map : Str) (key : Bytes) (n : ℕ) : ℕ :=
  (fnv (fnv 0xcbf29ce484222325 map.bytes) key).toNat % n

inductive McAction where
  | store (val : Bytes) (ttlMs : ℕ)
  | remove
  | keep

end Store

open Store

structure Store where
  stampSeq : ℕ
  memberId : ℕ
  shards : List Inner
  aux : Structures
  walSink : Option (List WalRecord)
  wanSink : Option (List WalRecord)

namespace Store

def withShardsSeed (n memberId : ℕ) : Store where
  stampSeq := 0
  memberId := memberId
  shards := List.replicate n .new
  aux := {}
  walSink := none
  wanSink := none

variable (s : Store)

def setWalSink : Store := { s with walSink := s.walSink.or (some []) }

def setWanSink : Store := { s with wanSink := s.wanSink.or (some []) }

def shard (map : Str) (key : Bytes) : Inner :=
  s.shards.getD (shardOf map key s.shards.length) .new

def setShard (map : Str) (key : Bytes) (inner : Inner) : Store :=
  { s with shards := s.shards.set (shardOf map key s.shards.length) inner }

def nextStamp (env : StoreEnv) : Store × ℕ :=
  let stamp := nextStampAt s.memberId s.stampSeq env.wallMs
  ({ s with stampSeq := stamp }, stamp)

def observe (stamp : ℕ) : Store :=
  { s with stampSeq := observeStamp s.memberId s.stampSeq stamp }

def emitWal (r : WalRecord) : Store := { s with walSink := s.walSink.map (· ++ [r]) }

def emitWan (r : WalRecord) : Store := { s with wanSink := s.wanSink.map (· ++ [r]) }

def emit (r : WalRecord) : Store := (s.emitWal r).emitWan r

/-! ## Map mutators -/

def putTtl (env : StoreEnv) (map : Str) (key val : Bytes) (ttlMs : ℕ) :
    Store × Option Bytes :=
  let (s, stamp) := s.nextStamp env
  let r := (s.shard map key).put env.toEnv map key val ttlMs stamp
  ((s.setShard map key r.1).emit (.mapPut stamp ttlMs map key val), r.2)

def put (env : StoreEnv) (map : Str) (key val : Bytes) : Store × Option Bytes :=
  s.putTtl env map key val 0

def putAll (map : Str) (entries : List (StoreEnv × Bytes × Bytes)) : Store :=
  entries.foldl (fun s e => (s.put e.1 map e.2.1 e.2.2).1) s

def putStamped (env : StoreEnv) (map : Str) (key val : Bytes) (ttlMs stamp : ℕ) :
    Store × Option Bytes :=
  let r := (s.shard map key).put env.toEnv map key val ttlMs stamp
  (s.setShard map key r.1, r.2)

def putMerge (env : StoreEnv) (map : Str) (key val : Bytes) (ttlMs stamp : ℕ)
    (latestUpdate : Bool) : Store :=
  let s := s.observe stamp
  let inner := (s.shard map key).putMerge env.toEnv map key val ttlMs stamp latestUpdate
  (s.setShard map key inner).emit (.mapPut stamp ttlMs map key val)

def get (env : StoreEnv) (map : Str) (key : Bytes) : Store × Option Bytes :=
  let r := (s.shard map key).get env.toEnv map key
  (s.setShard map key r.1, r.2)

def remove (env : StoreEnv) (map : Str) (key : Bytes) : Store × Option Bytes :=
  let r := (s.shard map key).remove env.toEnv map key
  let (s, stamp) := (s.setShard map key r.1).nextStamp env
  (s.emit (.mapRemove stamp map key), r.2)

def putIfAbsent (env : StoreEnv) (map : Str) (key val : Bytes) (ttlMs : ℕ) :
    Store × Option Bytes :=
  let (s, stamp) := s.nextStamp env
  let r := (s.shard map key).putIfAbsent env.toEnv map key val ttlMs stamp
  (s.setShard map key r.1, r.2)

def replace (env : StoreEnv) (map : Str) (key val : Bytes) : Store × Option Bytes :=
  let r := (s.shard map key).replace env.toEnv map key val
  (s.setShard map key r.1, r.2)

def containsKey (env : StoreEnv) (map : Str) (key : Bytes) : Store × Bool :=
  let r := (s.shard map key).containsKey env.toEnv map key
  (s.setShard map key r.1, r.2)

def size (map : Str) : ℕ := (s.shards.map fun inner => inner.size map).sum

def clear (map : Str) : Store :=
  { s with shards := s.shards.map fun inner => inner.clear map }

def mcUpdate {R : Type} (s : Store) (env : StoreEnv) (map : Str) (key : Bytes)
    (f : Option Bytes → McAction × R) : Store × R :=
  let (s, stamp) := s.nextStamp env
  let cur := (s.shard map key).get env.toEnv map key
  let r := f cur.2
  let inner :=
    match r.1 with
    | .store val ttlMs => (cur.1.put env.toEnv map key val ttlMs stamp).1
    | .remove => (cur.1.remove env.toEnv map key).1
    | .keep => cur.1
  (s.setShard map key inner, r.2)

/-- Apply a record of another cluster. -/
def applyWan (env : StoreEnv) (opIsPut : Bool) (map : Str) (key value : Bytes)
    (ttlMs stamp : ℕ) : Store :=
  let s := s.observe stamp
  if opIsPut then
    let inner := (s.shard map key).putMerge env.toEnv map key value ttlMs stamp true
    (s.setShard map key inner).emitWal (.mapPut stamp ttlMs map key value)
  else
    let inner := ((s.shard map key).remove env.toEnv map key).1
    (s.setShard map key inner).emitWal (.mapRemove stamp map key)

def entries (now : ℕ) (map : Str) : List (Bytes × Bytes) :=
  s.shards.flatMap fun inner => inner.collectEntries now map

def allEntriesStamped (now : ℕ) : List (Str × Bytes × Bytes × ℕ) :=
  s.shards.flatMap fun inner => inner.collectAllStamped now

/-! ## Structure mutators -/

def emitAux (kind : AuxKind) (name : Str) : Store :=
  s.emit (.auxState kind name (s.aux.serializeAux kind name))

def installAux (kind : AuxKind) (name : Str) (data : Bytes) : Store :=
  { s with aux := s.aux.installAux kind name data }

def allAux : List (AuxKind × Str × Bytes) := s.aux.allAux

def queueOffer (q : Str) (v : Bytes) : Store × Bool :=
  let r := s.aux.queueOffer q v
  (emitAux { s with aux := r.1 } .queue q, r.2)

def queuePoll (q : Str) : Store × Option Bytes :=
  let r := s.aux.queuePoll q
  let s := { s with aux := r.1 }
  (if r.2.isSome then s.emitAux .queue q else s, r.2)

def queueRemove (q : Str) (v : Bytes) : Store × Bool :=
  let r := s.aux.queueRemove q v
  let s := { s with aux := r.1 }
  (if r.2 then s.emitAux .queue q else s, r.2)

def queueClear (q : Str) : Store :=
  emitAux { s with aux := s.aux.queueClear q } .queue q

def listAdd (name : Str) (v : Bytes) : Store × Bool :=
  let r := s.aux.listAdd name v
  (emitAux { s with aux := r.1 } .list name, r.2)

def listRemove (name : Str) (v : Bytes) : Store × Bool :=
  let r := s.aux.listRemove name v
  let s := { s with aux := r.1 }
  (if r.2 then s.emitAux .list name else s, r.2)

def listClear (name : Str) : Store :=
  emitAux { s with aux := s.aux.listClear name } .list name

def setAdd (name : Str) (v : Bytes) : Store × Bool :=
  let r := s.aux.setAdd name v
  (emitAux { s with aux := r.1 } .set name, r.2)

def setRemove (name : Str) (v : Bytes) : Store × Bool :=
  let r := s.aux.setRemove name v
  let s := { s with aux := r.1 }
  (if r.2 then s.emitAux .set name else s, r.2)

def setClear (name : Str) : Store :=
  emitAux { s with aux := s.aux.setClear name } .set name

def mmPut (name : Str) (key value : Bytes) : Store × Bool :=
  let r := s.aux.mmPut name key value
  (emitAux { s with aux := r.1 } .multimap name, r.2)

def mmRemove (name : Str) (key : Bytes) : Store × List Bytes :=
  let r := s.aux.mmRemove name key
  (emitAux { s with aux := r.1 } .multimap name, r.2)

def rbAdd (name : Str) (v : Bytes) : Store × Int64 :=
  let r := s.aux.rbAdd name v
  (emitAux { s with aux := r.1 } .ringbuffer name, r.2)

def pnAdd (name : Str) (delta : Int64) (getBefore : Bool) : Store × Int64 :=
  let r := s.aux.pnAdd name delta getBefore
  (emitAux { s with aux := r.1 } .pncounter name, r.2)

def hllAdd (name : Str) (hash : UInt64) : Store :=
  emitAux { s with aux := s.aux.hllAdd name hash } .hll name

def flakeBatch (name : Str) (batch : Int32) : Store × Int64 × Int64 × Int32 :=
  let r := s.aux.flakeBatch name batch
  ({ s with aux := r.1 }, r.2)

end Store

end BonsaiGrid
