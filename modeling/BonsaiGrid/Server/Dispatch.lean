import BonsaiGrid.Security.Certificate
import BonsaiGrid.Security.Optable
import BonsaiGrid.Server.Membership
import BonsaiGrid.Server.Request
import BonsaiGrid.Store.Interface

/-!
# The dispatch of binary requests

A request is first looked at by the parts that do not need it decoded: an authentication changes
the principal of the connection, a read of a map by a principal that may read it is answered at
once, and any other request is compared with the authorization table, by its message type and by
the text of its second frame.
-/

namespace BonsaiGrid.Server

open Fault Protocol Security Store Membership

abbrev Table := List Str × List (List (Option Str))

abbrev Entries := List (Bytes × Bytes)

/-- `Statement`: the maps that a statement is about, and what else it says. -/
inductive Statement (Select Mapping Row Job : Type)
  | select (map : Str) (join : Option Str) (star : Bool) (select : Select)
  | createMapping (name : Str) (mapping : Mapping)
  | insert (mapping : Str) (rows : List Row)
  | createJob (job : Job)

/-- What the dispatch calls: predicates, SQL and the services beside the store. -/
structure Engine where
  Schema : Type
  Projection : Type
  Aggregator : Type
  Mapping : Type
  Select : Type
  Row : Type
  Job : Type
  /-- the state of the other services -/
  Rest : Type
  /-- what the other services answer -/
  Output : Type
  decodeSchema : List Frame → Except Fault (ℤ × Schema)
  query : Dict ℤ Schema → Bytes → Entries → Except Fault Entries
  projection : Bytes → Except Fault (Option Projection)
  project : Dict ℤ Schema → Projection → Entries → Except Fault (List Bytes)
  aggregator : Bytes → Except Fault (Option Aggregator)
  aggregate : Dict ℤ Schema → Aggregator → Entries → Except Fault Bytes
  /-- the aggregate where there is no aggregator -/
  noAggregate : Bytes
  parse : Str → Except Fault (Option (Statement Select Mapping Row Job))
  select : Dict ℤ Schema → Option Mapping → Select → Entries → Except Fault Table
  /-- the rows of all members, of which these are the ones of this member -/
  gather : Rest → Select → Entries → Except Fault Table
  join : Option Mapping → Option Mapping → Select → Entries → Entries → Except Fault Table
  insertEntry : Mapping → Row → Option (Bytes × Bytes)
  spawn : Job → Rest → Rest
  registerClusterView : Rest → Rest
  serve : ServiceCall → Rest → Except Fault (Rest × Output)

/-! ## Transactions -/

inductive Mutation
  | put (map : Str) (key value : Bytes)
  | remove (map : Str) (key : Bytes)
deriving DecidableEq

/-- The numbers of the transactions wrap around. -/
structure TransactionService where
  contexts : Dict (ℤ × ℤ) (List Mutation)
  nextId : Int64

namespace TransactionService

def new : TransactionService := ⟨∅, 1⟩

variable (t : TransactionService)

def begin : TransactionService × (ℤ × ℤ) :=
  let uuid := (t.nextId.toInt, t.nextId.toInt)
  (⟨t.contexts.insert uuid [], t.nextId + 1⟩, uuid)

def bufferPut (id : ℤ × ℤ) (map : Str) (key value : Bytes) :
    TransactionService :=
  match t.contexts.lookup id with
  | some mutations => { t with contexts := t.contexts.insert id (mutations ++ [.put map key value]) }
  | none => t

def drop (id : ℤ × ℤ) : TransactionService :=
  { t with contexts := t.contexts.erase id }

def mutations (id : ℤ × ℤ) : List Mutation :=
  (t.contexts.lookup id).getD []

end TransactionService

/-! ## Configuration and state -/

structure Cfg where
  self : ℤ × ℤ
  clusterName : Str
  username : Option Str
  password : Option Str
  security : StaticIdentityProvider

def Cfg.authStatus [Pbkdf2] (cfg : Cfg) (req : AuthRequest) : ℕ :=
  if req.clusterName ≠ cfg.clusterName then 3
  else if cfg.security.requireAuth then
    if (cfg.security.authenticate req.username req.password).isSome then 0 else 1
  else
    match cfg.username with
    | some user => if req.username ≠ some user ∨ req.password ≠ cfg.password then 1 else 0
    | none => 0

structure State (e : Engine) (σ : Type) where
  store : σ
  schemas : Dict ℤ e.Schema
  txns : TransactionService
  catalog : Dict Str e.Mapping
  cluster : Membership.Cluster
  rest : e.Rest

inductive Reply (e : Engine)
  | ack
  | data (v : Option Bytes)
  | dataList (items : List Bytes)
  | entryList (entries : Entries)
  | flag (b : Bool)
  | int (v : ℕ)
  | answer (a : Structures.Answer)
  | uuid (id : ℤ × ℤ)
  | uuidList (ids : List (ℤ × ℤ))
  | table (t : Table)
  | schema (s : Option e.Schema)
  | authentication (status : ℕ) (self : MemberInfo)
  | clusterView
  | service (o : e.Output)
  | error (code : ℤ) (className message : String)

/-! ## Running a request -/

section Run

variable {σ : Type} (e : Engine) (ops : StoreOps σ)

def matching (schemas : Dict ℤ e.Schema) (s : σ) (map : Str) :
    Option Bytes → Except Fault Entries
  | none => .ok (ops.entries s map)
  | some predicate => e.query schemas predicate (ops.entries s map)

def Listing.reply (selected : Entries) : Listing → Reply e
  | .keys => .dataList (selected.map Prod.fst)
  | .values => .dataList (selected.map Prod.snd)
  | .entries => .entryList selected

def Old.reply (v : Option Bytes) : Old → Reply e
  | returned => .data v
  | nulled => .data none
  | dropped => .ack

def MapCall.run (schemas : Dict ℤ e.Schema) (s : σ) (map : Str) :
    MapCall → Except Fault (σ × Reply e)
  | put key value ttlMs old =>
    let r := ops.putTtl s map key value ttlMs
    .ok (r.1, old.reply e r.2)
  | putIfAbsent key value ttlMs =>
    let r := ops.putIfAbsent s map key value ttlMs
    .ok (r.1, .data r.2)
  | replace key value =>
    let r := ops.replace s map key value
    .ok (r.1, .data r.2)
  | putAll entries => .ok (ops.putAll s map entries, .ack)
  | remove key old =>
    let r := ops.remove s map key
    .ok (r.1, old.reply e r.2)
  | removeIf key none =>
    let r := ops.remove s map key
    .ok (r.1, .flag r.2.isSome)
  | removeIf key (some expected) =>
    let r := ops.get s map key
    if r.2 = some expected then .ok ((ops.remove r.1 map key).1, .flag true)
    else .ok (r.1, .flag false)
  | clear => .ok (ops.clear s map, .ack)
  | get key =>
    let r := ops.get s map key
    .ok (r.1, .data r.2)
  | getAll keys =>
    let r := ops.getAll s map keys
    .ok (r.1, .entryList r.2)
  | containsKey key =>
    let r := ops.containsKey s map key
    .ok (r.1, .flag r.2)
  | containsValue value => .ok (s, .flag (ops.containsValue s map value))
  | size => .ok (s, .int (ops.size s map))
  | isEmpty => .ok (s, .flag (ops.isEmpty s map))
  | list part predicate => do
      let entries ← matching e ops schemas s map predicate
      return (s, part.reply e entries)
  | project projection predicate => do
      match ← e.projection projection with
      | none => return (s, .dataList [])
      | some projection =>
        let entries ← matching e ops schemas s map predicate
        let items ← e.project schemas projection entries
        return (s, .dataList items)
  | aggregate aggregator predicate => do
      match ← e.aggregator aggregator with
      | none => return (s, .data (some e.noAggregate))
      | some aggregator =>
        let entries ← matching e ops schemas s map predicate
        let value ← e.aggregate schemas aggregator entries
        return (s, .data (some value))
  | executeOnKey => .ok (s, .data none)

def Mutation.apply (s : σ) : Mutation → σ
  | put map key value => (ops.put s map key value).1
  | remove map key => (ops.remove s map key).1

def insertRows (m : e.Mapping) (map : Str) (rows : List e.Row) (s : σ) : σ :=
  ops.putAll s map (rows.filterMap (e.insertEntry m))

variable (s : State e σ)

/-- The rows of a `SELECT` from one map. -/
def selectRows (map : Str) (star : Bool) (sel : e.Select) : Except Fault Table :=
  if star = false ∧ 1 < s.cluster.members.length then
    e.gather s.rest sel (ops.entries s.store map)
  else e.select s.schemas (s.catalog.lookup map) sel (ops.entries s.store map)

/-- The rows of a `SELECT` from two maps. -/
def joinedRows (map right : Str) (sel : e.Select) : Except Fault Table :=
  e.join (s.catalog.lookup map) (s.catalog.lookup right) sel (ops.entries s.store map)
    (ops.entries s.store right)

def Statement.run : Statement e.Select e.Mapping e.Row e.Job →
    Except Fault (State e σ × List (Reply e))
  | select map (some right) _ sel => do
      let table ← joinedRows e ops s map right sel
      return (s, [.table table])
  | select map none star sel => do
      let table ← selectRows e ops s map star sel
      return (s, [.table table])
  | createMapping name mapping =>
    .ok ({ s with catalog := s.catalog.insert name mapping }, [.ack])
  | insert mapping rows =>
    match s.catalog.lookup mapping with
    | some m => .ok ({ s with store := insertRows e ops m mapping rows s.store }, [.ack])
    | none => .ok (s, [.ack])
  | createJob job => .ok ({ s with rest := e.spawn job s.rest }, [.ack])

variable [Pbkdf2] (cfg : Cfg)

def authResponse (status : ℕ) : Except Fault (Reply e) :=
  match (s.cluster.members.find? (·.uuid = cfg.self)).or s.cluster.members.head? with
  | some me => .ok (.authentication status me)
  | none => .error .outOfRange

def Request.run : Request → Except Fault (State e σ × List (Reply e))
  | .map name c => do
      let r ← c.run e ops s.schemas s.store name
      return ({ s with store := r.1 }, [r.2])
  | .call c =>
    let r := ops.call s.store c
    .ok ({ s with store := r.1 }, [.answer r.2])
  | .ask q => .ok (s, [.answer (ops.ask s.store q)])
  | .replicaCount => .ok (s, [.int 1])
  | .createTransaction =>
    let r := s.txns.begin
    .ok ({ s with txns := r.1 }, [.uuid r.2])
  | .commit txn =>
    .ok ({ s with
      store := (s.txns.mutations txn).foldl (Mutation.apply ops) s.store
      txns := s.txns.drop txn }, [.ack])
  | .rollback txn => .ok ({ s with txns := s.txns.drop txn }, [.ack])
  | .transactionalPut txn name key value =>
    let r := ops.get s.store name key
    .ok ({ s with store := r.1, txns := s.txns.bufferPut txn name key value }, [.data r.2])
  | .sql text => do
      match ← e.parse text with
      | some statement => statement.run e ops s
      | none => return (s, [.ack])
  | .sqlClose => .ok (s, [.ack])
  | .sqlFetch => .ok (s, [.ack])
  | .sendSchema frames => do
      let schema ← e.decodeSchema frames
      return ({ s with schemas := s.schemas.insert schema.1 schema.2 }, [.uuidList [cfg.self]])
  | .fetchSchema id => .ok (s, [.schema (s.schemas.lookup id)])
  | .authentication req => do
      let reply ← authResponse e s cfg (cfg.authStatus req)
      return (s, [reply])
  | .clusterView =>
    .ok ({ s with rest := e.registerClusterView s.rest }, [.clusterView])
  | .registration => .ok (s, [.uuid (3, 3)])
  | .ack => .ok (s, [.ack])
  | .service c => do
      let r ← e.serve c s.rest
      return ({ s with rest := r.1 }, [.service r.2])

end Run

/-! ## The dispatch -/

/-- What the dispatch does before and around the arms of the message types: a write that needs a
quorum is refused where there is none, and any other request is decoded and handed to its arm. -/
def dispatchTo {α : Type} (c : Membership.Cluster) (req : List Frame) (refused : α)
    (arm : ℤ → ℤ → Request → Except Fault α) : Except Fault α := do
  let corr ← correlationId req
  let type ← msgType req
  if isQuorumGatedWrite type ∧ ! c.hasQuorum then return refused
  else
    let request ← decode req type
    arm corr type request

def noQuorum (e : Engine) : Reply e :=
  .error 42 "com.hazelcast.splitbrainprotection.SplitBrainProtectionException"
    "Cluster does not have the minimum quorum to accept writes"

def dispatch [Pbkdf2] {σ : Type} (e : Engine) (ops : StoreOps σ) (s : State e σ) (cfg : Cfg)
    (req : List Frame) : Except Fault (State e σ × List (Reply e)) :=
  dispatchTo s.cluster req (s, [noQuorum e]) fun _ _ request => request.run e ops s cfg

/-- The frames hold the request, and the dispatch hands it to its arm. -/
structure Admits (c : Membership.Cluster) (req : List Frame) (corr type : ℤ) (r : Request) :
    Prop where
  correlated : correlationId req = .ok corr
  typed : msgType req = .ok type
  quorum : isQuorumGatedWrite type → c.hasQuorum
  decoded : decode req type = .ok r

section Admission

variable {α : Type} {c : Membership.Cluster} {req : List Frame} {refused x : α}
  {arm : ℤ → ℤ → Request → Except Fault α} {corr type : ℤ} {r : Request}

theorem Admits.dispatchTo (h : Admits c req corr type r) :
    dispatchTo c req refused arm = arm corr type r := by
  have hgate : ¬ (isQuorumGatedWrite type = true ∧ (! c.hasQuorum) = true) := by
    rintro ⟨hgated, hnone⟩
    rw [h.quorum hgated] at hnone
    cases hnone
  rw [Server.dispatchTo, h.correlated, ok_bind, h.typed, ok_bind, if_neg hgate, h.decoded, ok_bind]

theorem dispatchTo_eq_ok (h : dispatchTo c req refused arm = .ok x) :
    (x = refused ∧ ∃ type, msgType req = .ok type ∧ isQuorumGatedWrite type) ∨
      ∃ corr type r, Admits c req corr type r ∧ arm corr type r = .ok x := by
  obtain ⟨corr, hcorr, h⟩ := bind_eq_ok.mp h
  obtain ⟨type, htype, h⟩ := bind_eq_ok.mp h
  split at h
  next hgate =>
    cases h
    exact .inl ⟨rfl, type, htype, hgate.1⟩
  next hgate =>
    obtain ⟨r, hr, h⟩ := bind_eq_ok.mp h
    refine .inr ⟨corr, type, r, ⟨hcorr, htype, fun hgated => ?_, hr⟩, h⟩
    by_contra hnone
    exact hgate ⟨hgated, by simpa using hnone⟩

end Admission

/-! ## Before the dispatch -/

def fastGet (p : Principal) (msg : Bytes) : Except Fault (Option (Str × Bytes)) := do
  match ← frameAt msg 0 with
  | none => return none
  | some (c₀, off₁) =>
    if c₀.length < 12 then return none
    else if (← readI32Le c₀ 0) ≠ 66048 then return none
    else
      match ← frameAt msg off₁ with
      | none => return none
      | some (nameBytes, off₂) =>
        match ← frameAt msg off₂ with
        | none => return none
        | some (key, _) =>
          match Str.fromUtf8 nameBytes with
          | none => return none
          | some name =>
            if p.authorize .map name .read then return some (name, key) else return none

def tryFastGet {σ : Type} (e : Engine) (ops : StoreOps σ) (s : σ) (p : Principal) (msg : Bytes) :
    Except Fault (Option (σ × Reply e)) := do
  match ← fastGet p msg with
  | none => return none
  | some (name, key) =>
    let r := ops.get s name key
    return some (r.1, .data r.2)

/-- The principal that the credentials of an authentication, or else the certificate of the
peer, stand for. -/
def Cfg.resolve [Pbkdf2] (cfg : Cfg) (peerCert : Option Bytes) (req : AuthRequest) :
    Option Principal :=
  if req.clusterName = cfg.clusterName then
    (cfg.security.authenticate req.username req.password).or
      (peerCert.bind (authenticateCert cfg.security))
  else none

def authRequest (msg : Bytes) : Except Fault (Option AuthRequest) := do
  match ← frameAt msg 0 with
  | none => return none
  | some (c₀, _) =>
    if c₀.length < 4 then return none
    else if (← readI32Le c₀ 0) ≠ 256 then return none
    else
      match ← readMessage msg with
      | none => return none
      | some (frames, _) =>
        let req ← decodeAuthRequest frames
        return some req

def maybeRebindPrincipal [Pbkdf2] (cfg : Cfg) (peerCert : Option Bytes) (p : Principal)
    (msg : Bytes) : Except Fault Principal := do
  match ← authRequest msg with
  | none => return p
  | some req => return (cfg.resolve peerCert req).getD p

def resourceName (frames : List Frame) : Str :=
  (frames[1]?.bind fun f => Str.fromUtf8 f.content).getD ⟨[], Utf8.valid_nil⟩

def allowed (type : ℤ) (name : Str) (p : Principal) : Bool :=
  match classify type with
  | .data rt action => p.authorize rt name action
  | .infra => true
  | .adminOnly => p.isAdmin
  | .unknown => p.isAdmin

def authzDenial (e : Engine) (frames : List Frame) (p : Principal) :
    Except Fault (Option (Reply e)) := do
  let type ← msgType frames
  if allowed type (resourceName frames) p then return none
  else
    let _corr ← correlationId frames
    return some (.error 64 "java.security.AccessControlException" "Permission denied")

/-- `dispatch_bytes`: what is left of the state, the principal of the connection and the
replies. -/
def dispatchBytes [Pbkdf2] {σ : Type} (e : Engine) (ops : StoreOps σ) (cfg : Cfg)
    (peerCert : Option Bytes) (s : State e σ) (p : Principal) (msg : Bytes) :
    Except Fault (State e σ × Principal × List (Reply e)) := do
  let p ← maybeRebindPrincipal cfg peerCert p msg
  match ← tryFastGet e ops s.store p msg with
  | some (store, reply) => return ({ s with store }, p, [reply])
  | none =>
    match ← readMessage msg with
    | none => return (s, p, [])
    | some (frames, _) =>
      match ← authzDenial e frames p with
      | some denied => return (s, p, [denied])
      | none =>
        let r ← dispatch e ops s cfg frames
        return (r.1, p, r.2)

end BonsaiGrid.Server
