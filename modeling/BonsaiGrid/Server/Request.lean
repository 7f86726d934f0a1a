import BonsaiGrid.Protocol.Message
import BonsaiGrid.Store.Calls

/-!
# Requests of the binary protocol

A request is told by the number of its message type. Its fields are taken from the frames by their
positions, and a frame that is missing or too short is a fault.
-/

namespace BonsaiGrid.Server

open Fault Protocol Store

/-! ## What is asked -/

inductive Listing
  | keys
  | values
  | entries
deriving DecidableEq

/-- What becomes of the value that a call replaces or removes: it is returned, null is returned
instead, or nothing is. -/
inductive Old
  | returned
  | nulled
  | dropped
deriving DecidableEq

/-- A call on a map. -/
inductive MapCall
  | put (key value : Bytes) (ttlMs : ℕ) (old : Old)
  | putIfAbsent (key value : Bytes) (ttlMs : ℕ)
  | replace (key value : Bytes)
  | putAll (entries : List (Bytes × Bytes))
  | remove (key : Bytes) (old : Old)
  /-- removes the entry, if a value is given only an entry with this value -/
  | removeIf (key : Bytes) (expected : Option Bytes)
  | clear
  | get (key : Bytes)
  | getAll (keys : List Bytes)
  | containsKey (key : Bytes)
  | containsValue (value : Bytes)
  | size
  | isEmpty
  | list (part : Listing) (predicate : Option Bytes)
  | project (projection : Bytes) (predicate : Option Bytes)
  | aggregate (aggregator : Bytes) (predicate : Option Bytes)
  /-- no entry processor is supported, and null is returned -/
  | executeOnKey

/-- A call of a service beside the store: locks, indexes, listeners, topics, tasks, jobs and the
CP subsystem. -/
inductive ServiceCall
  | lockOrWait (map : Str) (key : Bytes) (thread : ℤ)
  | tryLock (map : Str) (key : Bytes) (thread : ℤ)
  | unlock (map : Str) (key : Bytes) (thread : ℤ)
  | isLocked (map : Str) (key : Bytes)
  | forceUnlock (map : Str) (key : Bytes)
  | addIndex (map : Str) (type : ℤ) (attributes : List Str)
  | register (map : Str) (flags : ℤ) (includeValue : Bool) (predicate : Option Bytes)
  | registerNearCache (map : Str)
  | registerPartitionLost (map : Str)
  | nearCacheMetadata
  | publishTopic (topic : Str) (message : Bytes)
  | registerTopic (topic : Str)
  | submitTask (executor : Str) (uuid : ℤ × ℤ) (callable : Bytes)
  | submitJob
  | jobStatus (job : ℤ)
  | joinJob
  | memberState
  | cp (msgType : ℤ) (frames : List Frame)

structure AuthRequest where
  clusterName : Str
  username : Option Str
  password : Option Str

inductive Request
  /-- on the map of the store with this name -/
  | map (name : Str) (call : MapCall)
  | call (c : StructureCall)
  | ask (q : Structures.Query)
  | replicaCount
  | createTransaction
  | commit (txn : ℤ × ℤ)
  | rollback (txn : ℤ × ℤ)
  | transactionalPut (txn : ℤ × ℤ) (map : Str) (key value : Bytes)
  | sql (text : Str)
  | sqlClose
  | sqlFetch
  | sendSchema (frames : List Frame)
  | fetchSchema (id : ℤ)
  | authentication (req : AuthRequest)
  | clusterView
  | registration
  | ack
  | service (c : ServiceCall)

/-! ## Message types -/

inductive MapOp
  | put
  | set
  | get
  | remove
  | delete
  | containsKey
  | containsValue
  | size
  | isEmpty
  | putIfAbsent
  | replace
  | clear
  | getAll
  | putAll
  | keySet
  | values
  | entrySet
  | keySetWithPredicate
  | valuesWithPredicate
  | entriesWithPredicate
  | project
  | projectWithPredicate
  | aggregate
  | aggregateWithPredicate
  | executeOnKey
deriving DecidableEq

inductive CacheOp
  | get
  | put
  | remove
deriving DecidableEq

inductive ReplicatedOp
  | put
  | get
  | remove
  | containsKey
  | containsValue
  | size
  | isEmpty
  | clear
  | keySet
  | values
  | entrySet
deriving DecidableEq

inductive StructureOp
  | setAdd
  | setRemove
  | setContains
  | setSize
  | setGetAll
  | setClear
  | mmPut
  | mmGet
  | mmRemove
  | mmSize
  | mmValueCount
  | listAdd
  | listGet
  | listSize
  | listContains
  | listRemove
  | listGetAll
  | listIsEmpty
  | listClear
  | queueOffer
  | queuePoll
  | queuePeek
  | queueSize
  | queueRemove
  | queueContains
  | queueIsEmpty
  | queueClear
  | rbAdd
  | rbReadOne
  | rbSize
  | rbCapacity
  | rbTail
  | rbHead
  | pnReplicaCount
  | pnGet
  | pnAdd
  | hllAdd
  | hllEstimate
  | flakeBatch
deriving DecidableEq

inductive TxnOp
  | create
  | xaCreate
  | commit
  | rollback
  | mapPut
deriving DecidableEq

inductive SqlOp
  | execute
  | close
  | fetch
deriving DecidableEq

inductive ClientOp
  | authentication
  | clusterView
  | createProxy
  | statistics
  | localBackupListener
  | sendSchema
  | fetchSchema
  | sendAllSchemas
  | tpcAuthentication
deriving DecidableEq

inductive ServiceOp
  | lock
  | tryLock
  | unlock
  | isLocked
  | forceUnlock
  | addIndex
  | addEntryListener
  | addEntryListenerWithPredicate
  | addPartitionLostListener
  | addNearCacheInvalidationListener
  | fetchNearCacheInvalidationMetadata
  | topicPublish
  | topicAddListener
  | submitToPartition
  | submitToMember
  | jetSubmitJob
  | jetGetJobStatus
  | jetJoinSubmittedJob
  | mcGetTimedMemberState
deriving DecidableEq

/-- A message type that the dispatch has an arm for, those of the CP subsystem apart. -/
inductive Op
  | map (op : MapOp)
  | cache (op : CacheOp)
  | replicated (op : ReplicatedOp)
  | aux (op : StructureOp)
  | txn (op : TxnOp)
  | sql (op : SqlOp)
  | client (op : ClientOp)
  | service (op : ServiceOp)
deriving DecidableEq

def MapOp.code : MapOp → ℤ
  | put => 65792
  | set => 69376
  | get => 66048
  | remove => 66304
  | delete => 67840
  | containsKey => 67072
  | containsValue => 67328
  | size => 76288
  | isEmpty => 76544
  | putIfAbsent => 69120
  | replace => 66560
  | clear => 77056
  | getAll => 74496
  | putAll => 76800
  | keySet => 74240
  | values => 74752
  | entrySet => 75008
  | keySetWithPredicate => 75264
  | valuesWithPredicate => 75520
  | entriesWithPredicate => 75776
  | project => 80640
  | projectWithPredicate => 80896
  | aggregate => 87552
  | aggregateWithPredicate => 87808
  | executeOnKey => 77312

def CacheOp.code : CacheOp → ℤ
  | get => 1248512
  | put => 1250048
  | remove => 1250816

def ReplicatedOp.code : ReplicatedOp → ℤ
  | put => 852224
  | get => 853504
  | remove => 853760
  | containsKey => 852992
  | containsValue => 853248
  | size => 852480
  | isEmpty => 852736
  | clear => 854272
  | keySet => 855808
  | values => 856064
  | entrySet => 856320

def StructureOp.code : StructureOp → ℤ
  | setAdd => 394240
  | setRemove => 394496
  | setContains => 393728
  | setSize => 393472
  | setGetAll => 395776
  | setClear => 395520
  | mmPut => 131328
  | mmGet => 131584
  | mmRemove => 131840
  | mmSize => 133632
  | mmValueCount => 134144
  | listAdd => 328704
  | listGet => 331520
  | listSize => 327936
  | listContains => 328192
  | listRemove => 328960
  | listGetAll => 330240
  | listIsEmpty => 331008
  | listClear => 329984
  | queueOffer => 196864
  | queuePoll => 197888
  | queuePeek => 198400
  | queueSize => 197376
  | queueRemove => 197632
  | queueContains => 199424
  | queueIsEmpty => 201728
  | queueClear => 200448
  | rbAdd => 1508864
  | rbReadOne => 1509120
  | rbSize => 1507584
  | rbCapacity => 1508352
  | rbTail => 1507840
  | rbHead => 1508096
  | pnReplicaCount => 1901312
  | pnGet => 1900800
  | pnAdd => 1901056
  | hllAdd => 1638656
  | hllEstimate => 1638912
  | flakeBatch => 1835264

def TxnOp.code : TxnOp → ℤ
  | create => 1376768
  | xaCreate => 1312000
  | commit => 1376512
  | rollback => 1377024
  | mapPut => 919040

def SqlOp.code : SqlOp → ℤ
  | execute => 2163712
  | close => 2163456
  | fetch => 2163968

def ClientOp.code : ClientOp → ℤ
  | authentication => 256
  | clusterView => 768
  | createProxy => 1024
  | statistics => 3072
  | localBackupListener => 3840
  | sendSchema => 4864
  | fetchSchema => 5120
  | sendAllSchemas => 5376
  | tpcAuthentication => 5632

def ServiceOp.code : ServiceOp → ℤ
  | lock => 69632
  | tryLock => 69888
  | unlock => 70400
  | isLocked => 70144
  | forceUnlock => 78592
  | addIndex => 76032
  | addEntryListener => 71936
  | addEntryListenerWithPredicate => 71424
  | addPartitionLostListener => 72448
  | addNearCacheInvalidationListener => 81664
  | fetchNearCacheInvalidationMetadata => 81152
  | topicPublish => 262400
  | topicAddListener => 262656
  | submitToPartition => 525568
  | submitToMember => 525824
  | jetSubmitJob => 16646400
  | jetGetJobStatus => 16646912
  | jetJoinSubmittedJob => 16647424
  | mcGetTimedMemberState => 2099968

namespace Op

def code : Op → ℤ
  | map op => op.code
  | cache op => op.code
  | replicated op => op.code
  | aux op => op.code
  | txn op => op.code
  | sql op => op.code
  | client op => op.code
  | service op => op.code

def all : List Op :=
  [.put, .set, .get, .remove, .delete, .containsKey, .containsValue, .size, .isEmpty,
    .putIfAbsent, .replace, .clear, .getAll, .putAll, .keySet, .values, .entrySet,
    .keySetWithPredicate, .valuesWithPredicate, .entriesWithPredicate, .project,
    .projectWithPredicate, .aggregate, .aggregateWithPredicate, .executeOnKey].map map ++
  [.get, .put, .remove].map cache ++
  [.put, .get, .remove, .containsKey, .containsValue, .size, .isEmpty, .clear, .keySet, .values,
    .entrySet].map replicated ++
  [.setAdd, .setRemove, .setContains, .setSize, .setGetAll, .setClear, .mmPut, .mmGet, .mmRemove,
    .mmSize, .mmValueCount, .listAdd, .listGet, .listSize, .listContains, .listRemove,
    .listGetAll, .listIsEmpty, .listClear, .queueOffer, .queuePoll, .queuePeek, .queueSize,
    .queueRemove, .queueContains, .queueIsEmpty, .queueClear, .rbAdd, .rbReadOne, .rbSize,
    .rbCapacity, .rbTail, .rbHead, .pnReplicaCount, .pnGet, .pnAdd, .hllAdd, .hllEstimate,
    .flakeBatch].map aux ++
  [.create, .xaCreate, .commit, .rollback, .mapPut].map txn ++
  [.execute, .close, .fetch].map sql ++
  [.authentication, .clusterView, .createProxy, .statistics, .localBackupListener, .sendSchema,
    .fetchSchema, .sendAllSchemas, .tpcAuthentication].map client ++
  [.lock, .tryLock, .unlock, .isLocked, .forceUnlock, .addIndex, .addEntryListener,
    .addEntryListenerWithPredicate, .addPartitionLostListener,
    .addNearCacheInvalidationListener, .fetchNearCacheInvalidationMetadata, .topicPublish,
    .topicAddListener, .submitToPartition, .submitToMember, .jetSubmitJob, .jetGetJobStatus,
    .jetJoinSubmittedJob, .mcGetTimedMemberState].map service

def ofCode (msgType : ℤ) : Option Op := all.find? (·.code = msgType)

theorem code_of_ofCode {msgType : ℤ} {op : Op} (h : ofCode msgType = some op) :
    op.code = msgType := by
  have hcode := List.find?_some h
  exact of_decide_eq_true hcode

end Op

/-- `is_atomiclong`, `is_atomicref`, `is_cpmap`, `is_cp_count`, `is_cp_session` and
`is_fencedlock`. -/
def isCp (msgType : ℤ) : Bool :=
  msgType ∈ ([591104, 590592, 591360, 590848, 591616, 591872, 656384, 656640, 655872, 656128,
    2294016, 2294272, 2294528, 2294784, 2295040, 2295296, 2295552, 721920, 721664, 721152, 786688,
    786944, 787200, 787456, 787968, 2031872, 2032128, 2032384, 2032640, 459008, 459264,
    459520] : List ℤ)

def isQuorumGatedWrite (msgType : ℤ) : Bool :=
  msgType ∈ ([65792, 69376, 66304, 67840, 76800, 77312, 328704, 328960, 329984, 394240, 394496,
    395520, 196864, 197888, 197632, 200448, 131328, 131840, 1508864, 1901056, 1638656] : List ℤ)

/-! ## Decoders -/

section Decode

variable (req : List Frame)

def decodeName : Except Fault Str := do
  let bytes ← content req 1
  decodeString bytes

variable (pos : ℕ)

def initialI64 : Except Fault ℤ := do
  let initial ← content req 0
  readI64Le initial pos

def initialI32 : Except Fault ℤ := do
  let initial ← content req 0
  readI32Le initial pos

def initialFlag : Except Fault Bool := do
  let initial ← content req 0
  let b ← index initial pos
  return b = 1

def initialUuid : Except Fault (ℤ × ℤ) := do
  let high ← initialI64 req pos
  let low ← initialI64 req (pos + 8)
  return (high, low)

def decodeDataList (start : ℕ) : List Bytes :=
  ((req.drop (start + 1)).takeWhile fun f => ! f.isEnd).map Frame.content

def framePairs : List Frame → List (Bytes × Bytes)
  | f :: g :: frames => if f.isEnd then [] else (f.content, g.content) :: framePairs frames
  | _ => []

def decodeEntryList (start : ℕ) : List (Bytes × Bytes) := framePairs (req.drop (start + 1))

def ttlOf (ttl : ℤ) : ℕ := ttl.toNat

def replTag : Bytes := [1, 114, 101, 112, 108, 58]

theorem valid_replTag : Utf8.valid replTag = true := by decide

def repl (name : Str) : Str := ⟨replTag ++ name.bytes, Utf8.valid_append valid_replTag name.valid⟩

def MapOp.call : MapOp → Except Fault MapCall
  | put => do
      let _thread ← initialI64 req 16
      let ttl ← initialI64 req 24
      let key ← content req 2
      let value ← content req 3
      return .put key value (ttlOf ttl) .returned
  | set => do
      let _thread ← initialI64 req 16
      let ttl ← initialI64 req 24
      let key ← content req 2
      let value ← content req 3
      return .put key value (ttlOf ttl) .dropped
  | get => do
      let _thread ← initialI64 req 16
      let key ← content req 2
      return .get key
  | remove => do
      let _thread ← initialI64 req 16
      let key ← content req 2
      return .remove key .returned
  | delete => do
      let _thread ← initialI64 req 16
      let key ← content req 2
      return .remove key .dropped
  | containsKey => do
      let _thread ← initialI64 req 16
      let key ← content req 2
      return .containsKey key
  | containsValue => do
      let value ← content req 2
      return .containsValue value
  | size => return .size
  | isEmpty => return .isEmpty
  | putIfAbsent => do
      let _thread ← initialI64 req 16
      let ttl ← initialI64 req 24
      let key ← content req 2
      let value ← content req 3
      return .putIfAbsent key value (ttlOf ttl)
  | replace => do
      let _thread ← initialI64 req 16
      let key ← content req 2
      let value ← content req 3
      return .replace key value
  | clear => return .clear
  | getAll => return .getAll (decodeDataList req 2)
  | putAll => return .putAll (decodeEntryList req 2)
  | keySet => return .list .keys none
  | values => return .list .values none
  | entrySet => return .list .entries none
  | keySetWithPredicate => do
      let predicate ← content req 2
      return .list .keys (some predicate)
  | valuesWithPredicate => do
      let predicate ← content req 2
      return .list .values (some predicate)
  | entriesWithPredicate => do
      let predicate ← content req 2
      return .list .entries (some predicate)
  | project => do
      let projection ← content req 2
      return .project projection none
  | projectWithPredicate => do
      let projection ← content req 2
      let predicate ← content req 3
      return .project projection (some predicate)
  | aggregate => do
      let aggregator ← content req 2
      return .aggregate aggregator none
  | aggregateWithPredicate => do
      let aggregator ← content req 2
      let predicate ← content req 3
      return .aggregate aggregator (some predicate)
  | executeOnKey => do
      let _thread ← initialI64 req 16
      let _processor ← content req 2
      let _key ← content req 3
      return .executeOnKey

def CacheOp.call : CacheOp → Except Fault MapCall
  | get => do
      let key ← content req 2
      return .get key
  | put => do
      let old ← initialFlag req 16
      let _completion ← initialI32 req 17
      let key ← content req 2
      let value ← content req 3
      return .put key value 0 (if old then .returned else .nulled)
  | remove => do
      let key ← content req 2
      -- an empty value stands for none
      return .removeIf key ((req[3]?.map Frame.content).filter (· ≠ []))

def ReplicatedOp.call : ReplicatedOp → Except Fault MapCall
  | put => do
      let key ← content req 2
      let value ← content req 3
      return .put key value 0 .returned
  | get => do
      let key ← content req 2
      return .get key
  | remove => do
      let key ← content req 2
      return .remove key .returned
  | containsKey => do
      let key ← content req 2
      return .containsKey key
  | containsValue => do
      let value ← content req 2
      return .containsValue value
  | size => return .size
  | isEmpty => return .isEmpty
  | clear => return .clear
  | keySet => return .list .keys none
  | values => return .list .values none
  | entrySet => return .list .entries none

def StructureOp.decode : StructureOp → Except Fault Request
  | setAdd => return .call (.setAdd (← decodeName req) (← content req 2))
  | setRemove => return .call (.setRemove (← decodeName req) (← content req 2))
  | setContains => return .ask (.setContains (← decodeName req) (← content req 2))
  | setSize => return .ask (.setSize (← decodeName req))
  | setGetAll => return .ask (.setGetAll (← decodeName req))
  | setClear => return .call (.setClear (← decodeName req))
  | mmPut => return .call (.mmPut (← decodeName req) (← content req 2) (← content req 3))
  | mmGet => return .ask (.mmGet (← decodeName req) (← content req 2))
  | mmRemove => return .call (.mmRemove (← decodeName req) (← content req 2))
  | mmSize => return .ask (.mmSize (← decodeName req))
  | mmValueCount => return .ask (.mmValueCount (← decodeName req) (← content req 2))
  | listAdd => return .call (.listAdd (← decodeName req) (← content req 2))
  | listGet => return .ask (.listGet (← decodeName req) (Int32.ofInt (← initialI32 req 16)))
  | listSize => return .ask (.listSize (← decodeName req))
  | listContains => return .ask (.listContains (← decodeName req) (← content req 2))
  | listRemove => return .call (.listRemove (← decodeName req) (← content req 2))
  | listGetAll => return .ask (.listGetAll (← decodeName req))
  | listIsEmpty => return .ask (.listIsEmpty (← decodeName req))
  | listClear => return .call (.listClear (← decodeName req))
  | queueOffer => return .call (.queueOffer (← decodeName req) (← content req 2))
  | queuePoll => return .call (.queuePoll (← decodeName req))
  | queuePeek => return .ask (.queuePeek (← decodeName req))
  | queueSize => return .ask (.queueSize (← decodeName req))
  | queueRemove => return .call (.queueRemove (← decodeName req) (← content req 2))
  | queueContains => return .ask (.queueContains (← decodeName req) (← content req 2))
  | queueIsEmpty => return .ask (.queueIsEmpty (← decodeName req))
  | queueClear => return .call (.queueClear (← decodeName req))
  | rbAdd => return .call (.rbAdd (← decodeName req) (← content req 2))
  | rbReadOne => return .ask (.rbReadOne (← decodeName req) (Int64.ofInt (← initialI64 req 16)))
  | rbSize => return .ask (.rbSize (← decodeName req))
  | rbCapacity => return .ask (.rbCapacity (← decodeName req))
  | rbTail => return .ask (.rbTail (← decodeName req))
  | rbHead => return .ask (.rbHead (← decodeName req))
  | pnReplicaCount => return .replicaCount
  | pnGet => return .ask (.pnGet (← decodeName req))
  | pnAdd => return .call (.pnAdd (← decodeName req) (Int64.ofInt (← initialI64 req 16))
      (← initialFlag req 24))
  | hllAdd => return .call (.hllAdd (← decodeName req) (Int64.ofInt (← initialI64 req 16)).toUInt64)
  | hllEstimate => return .ask (.hllEstimate (← decodeName req))
  | flakeBatch => return .call (.flakeBatch (← decodeName req)
      (Int32.ofInt (← initialI32 req 16)))

def TxnOp.decode : TxnOp → Except Fault Request
  | create => return .createTransaction
  | xaCreate => return .createTransaction
  | commit => return .commit (← initialUuid req 16)
  | rollback => return .rollback (← initialUuid req 16)
  | mapPut => do
      let txn ← initialUuid req 16
      let name ← decodeName req
      let key ← content req 2
      let value ← content req 3
      return .transactionalPut txn name key value

def SqlOp.decode : SqlOp → Except Fault Request
  | execute => return .sql (← decodeName req)
  | close => return .sqlClose
  | fetch => return .sqlFetch

def nullable (i : ℕ) : Except Fault (Option Str) := do
  let frame ← index req i
  if frame.isNull then
    return none
  else
    let s ← decodeString frame.content
    return some s

def decodeAuthRequest : Except Fault AuthRequest := do
  let initial ← content req 0
  let _serializationVersion ← index initial 33
  let clusterName ← decodeName req
  let username ← nullable req 2
  let password ← nullable req 3
  let bytes ← content req 4
  let _clientType ← decodeString bytes
  return ⟨clusterName, username, password⟩

def ClientOp.decode : ClientOp → Except Fault Request
  | authentication => return .authentication (← decodeAuthRequest req)
  | clusterView => return .clusterView
  | createProxy => return .ack
  | statistics => return .ack
  | localBackupListener => return .registration
  | sendSchema => return .sendSchema req
  | fetchSchema => return .fetchSchema (← initialI64 req 16)
  | sendAllSchemas => return .ack
  | tpcAuthentication => return .ack

def decodeAttributes : List Frame → Except Fault (List Str)
  | [] => return []
  | f :: frames =>
    if f.isEnd then return []
    else if f.isNull then decodeAttributes frames
    else do
      let first ← decodeString f.content
      let others ← decodeAttributes frames
      return first :: others

def decodeAddIndex : Except Fault ServiceCall := do
  let name ← decodeName req
  let type ← match req[3]? with
    | some f => if 4 ≤ f.content.length then readI32Le f.content 0 else pure 0
    | none => pure 0
  let attributes ← decodeAttributes (req.drop 6)
  return .addIndex name type attributes

def ServiceOp.decode : ServiceOp → Except Fault ServiceCall
  | lock => return .lockOrWait (← decodeName req) (← content req 2) (← initialI64 req 16)
  | tryLock => return .tryLock (← decodeName req) (← content req 2) (← initialI64 req 16)
  | unlock => return .unlock (← decodeName req) (← content req 2) (← initialI64 req 16)
  | isLocked => return .isLocked (← decodeName req) (← content req 2)
  | forceUnlock => return .forceUnlock (← decodeName req) (← content req 2)
  | addIndex => decodeAddIndex req
  | addEntryListener => do
      let includeValue ← initialFlag req 16
      let flags ← initialI32 req 17
      let name ← decodeName req
      return .register name flags includeValue none
  | addEntryListenerWithPredicate => do
      let includeValue ← initialFlag req 16
      let flags ← initialI32 req 17
      let name ← decodeName req
      let predicate ← content req 2
      return .register name flags includeValue (some predicate)
  | addPartitionLostListener => do
      let _localOnly ← initialFlag req 16
      let name ← decodeName req
      return .registerPartitionLost name
  | addNearCacheInvalidationListener => return .registerNearCache (← decodeName req)
  | fetchNearCacheInvalidationMetadata => return .nearCacheMetadata
  | topicPublish => return .publishTopic (← decodeName req) (← content req 2)
  | topicAddListener => return .registerTopic (← decodeName req)
  | submitToPartition =>
    return .submitTask (← decodeName req) (← initialUuid req 16) (← content req 2)
  | submitToMember => do
      let uuid ← initialUuid req 16
      let _member ← initialUuid req 32
      return .submitTask (← decodeName req) uuid (← content req 2)
  | jetSubmitJob => do
      let _job ← initialI64 req 16
      return .submitJob
  | jetGetJobStatus => return .jobStatus (← initialI64 req 16)
  | jetJoinSubmittedJob => do
      let _job ← initialI64 req 16
      return .joinJob
  | mcGetTimedMemberState => return .memberState

def named (call : Except Fault MapCall) (map : Str → Str) : Except Fault Request := do
  let name ← decodeName req
  let call ← call
  return .map (map name) call

def Op.decode : Op → Except Fault Request
  | map op => named req (op.call req) id
  | cache op => named req (op.call req) id
  | replicated op => named req (op.call req) repl
  | aux op => op.decode req
  | txn op => op.decode req
  | sql op => op.decode req
  | client op => op.decode req
  | service op => return .service (← op.decode req)

def decode (msgType : ℤ) : Except Fault Request :=
  match Op.ofCode msgType with
  | some op => op.decode req
  | none =>
    if isCp msgType then .ok (.service (.cp msgType req))
    else if msgType + 1 < 2 ^ 31 then .ok .ack
    else .error .overflow

end Decode

section Inversion

variable {req : List Frame} {type : ℤ} {r : Request}

theorem decode_mapPut (htype : type = 65792 ∨ type = 69376) (h : decode req type = .ok r) :
    ∃ name key value ttlMs old, r = .map name (.put key value ttlMs old) ∧
      content req 2 = .ok key ∧ content req 3 = .ok value := by
  rw [decode] at h
  rcases htype with rfl | rfl
  all_goals
    obtain ⟨name, -, h⟩ := bind_eq_ok.mp h
    obtain ⟨call, hcall, h⟩ := bind_eq_ok.mp h
    obtain ⟨thread, -, hcall⟩ := bind_eq_ok.mp hcall
    obtain ⟨ttl, -, hcall⟩ := bind_eq_ok.mp hcall
    obtain ⟨key, hkey, hcall⟩ := bind_eq_ok.mp hcall
    obtain ⟨value, hvalue, hcall⟩ := bind_eq_ok.mp hcall
    cases hcall
    cases h
    exact ⟨_, key, value, _, _, rfl, hkey, hvalue⟩

theorem decode_mapRemove (htype : type = 66304 ∨ type = 67840) (h : decode req type = .ok r) :
    ∃ name key old, r = .map name (.remove key old) := by
  rw [decode] at h
  rcases htype with rfl | rfl
  all_goals
    obtain ⟨name, -, h⟩ := bind_eq_ok.mp h
    obtain ⟨call, hcall, h⟩ := bind_eq_ok.mp h
    obtain ⟨thread, -, hcall⟩ := bind_eq_ok.mp hcall
    obtain ⟨key, -, hcall⟩ := bind_eq_ok.mp hcall
    cases hcall
    cases h
    exact ⟨_, key, _, rfl⟩

end Inversion

end BonsaiGrid.Server
