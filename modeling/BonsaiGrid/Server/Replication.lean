import BonsaiGrid.Serialization.Partition
import BonsaiGrid.Server.Dispatch
import BonsaiGrid.Server.Ownership

/-!
# The replication of writes

A put or a removal of the map service is carried out, and then handed over a ring to the member
thread with the reply, which waits.
-/

namespace BonsaiGrid.Server

open Fault Protocol Security Store Membership

/-- What is sent to a backup: `BackupPut`, `BackupRemove`, and `BackupState` and `BackupMm` with
the structures as they are encoded. -/
inductive Backup
  | put (name : Str) (key value : Bytes) (ttlMs : ℕ)
  | remove (name : Str) (key : Bytes)
  | structures (payload : Bytes)
deriving DecidableEq

def partitionOf (key : Bytes) : ℤ := (Serialization.partitionId key 271).toInt

/-- A request as it was carried out: what the maps showed before and after, and the view of the
reactor. -/
structure Origin where
  before : Shown
  after : Shown
  view : Membership.Cluster

structure Write (e : Engine) where
  partition : ℤ
  opId : ℕ
  msg : Backup
  connId : ℕ
  response : List (Reply e)
  origin : Origin

/-- `MemberJob`; what has nothing to do with replication is not told apart. -/
inductive MemberJob (e : Engine)
  | replicate (w : Write e)
  | membership (c : Membership.Cluster)
  | other

structure Replicator (e : Engine) where
  nextOp : ℕ
  backups : ℕ
  capacity : ℕ
  ring : List (MemberJob e)

namespace Replicator

variable {e : Engine}

def push (r : Replicator e) (job : MemberJob e) : Replicator e × Bool :=
  if r.ring.length < r.capacity then ({ r with ring := r.ring ++ [job] }, true) else (r, false)

def replicate (r : Replicator e) (partition : ℤ) (connId : ℕ) (response : List (Reply e))
    (msg : Backup) (origin : Origin) : Replicator e × Bool :=
  if r.backups = 0 then (r, false)
  else { r with nextOp := r.nextOp + 1 }.push
    (.replicate ⟨partition, r.nextOp, msg, connId, response, origin⟩)

end Replicator

/-! ## The reactor -/

section Reactor

variable (e : Engine) (aux : StructureCall → Structures → Option (ℤ × Bytes))

/-- The write that a request hands over, with its partition. -/
def shipment (type : ℤ) (after : Shown) : Request → Option (ℤ × Backup)
  | .map name (.put key value ttlMs _) =>
    if type = 65792 ∨ type = 69376 then some (partitionOf key, .put name key value ttlMs)
    else none
  | .map name (.remove key _) =>
    if type = 66304 ∨ type = 67840 then some (partitionOf key, .remove name key) else none
  | .call c => (aux c after.structures).map fun x => (x.1, .structures x.2)
  | _ => none

variable [Pbkdf2] (cfg : Cfg)

def serve (s : State e Shown) (rep : Replicator e) (connId : ℕ) (req : List Frame) :
    Except Fault (State e Shown × Replicator e × List (Reply e)) :=
  dispatchTo s.cluster req (s, rep, [noQuorum e]) fun _ type request => do
    let r ← request.run e Shown.ops s cfg
    match shipment aux type r.1.store request with
    | none => return (r.1, rep, r.2)
    | some (partition, msg) =>
      if s.cluster.backupsOf partition = [] then return (r.1, rep, r.2)
      else
        let handed := rep.replicate partition connId r.2 msg ⟨s.store, r.1.store, s.cluster⟩
        return (r.1, handed.1, if handed.2 then [] else r.2)

end Reactor

/-! ## The member thread and the links -/

/-- `PendingOp`, with the write, the view in which it was sent, and the backups whose
acknowledgement has not come. -/
structure PendingOp (e : Engine) where
  remaining : ℕ
  age : ℕ
  write : Write e
  view : Membership.Cluster
  left : List ℕ

/-- How a reply was released: by the reactor at once, by the member thread because there was no
backup, by the last acknowledgement of the write, or by the sweep. -/
inductive Release (e : Engine)
  | atOnce
  | noBackup
  | acked (write : Write e)
  | swept

/-- A reply that was delivered, for which request, and the view of the member thread when the
write was sent or the reply given. -/
structure Delivery (e : Engine) where
  connId : ℕ
  response : List (Reply e)
  origin : Origin
  thread : Membership.Cluster
  release : Release e

structure Applied where
  opId : ℕ
  msg : Backup
  env : StoreEnv

structure World (e : Engine) where
  state : State e Shown
  rep : Replicator e
  thread : Membership.Cluster
  pending : Dict ℕ (PendingOp e)
  links : ℕ → List (ℕ × Backup)
  acks : List (ℕ × ℕ)
  sent : List (Write e)
  applied : ℕ → List Applied
  delivered : List (Delivery e)

def ackTimeoutTicks : ℕ := 5000

/-- What happens. -/
inductive WorldEvent
  | request (connId : ℕ) (req : List Frame)
  /-- others change the store: the member thread with what it is sent, or the clock -/
  | outside (store : Shown)
  /-- the reactor is told of another view -/
  | view (generation : ℕ) (members : List MemberInfo) (alive : List Bool)
  /-- a member is declared dead by hand, and the member thread is told -/
  | promote (joinId : ℕ)
  /-- a job that has nothing to do with replication -/
  | otherJob
  /-- the coordinator of the member thread has another view -/
  | threadView (c : Membership.Cluster)
  /-- the member thread takes a job from the ring -/
  | pop
  | sweep
  /-- the first message of the link to a member arrives -/
  | deliver (i : ℕ) (env : StoreEnv)
  | lose (i k : ℕ)
  | ack (k : ℕ)
  | loseAck (k : ℕ)

namespace World

variable {e : Engine} (w : World e)

def takeJob : MemberJob e → World e
  | .replicate x =>
    let backups := w.thread.backupsOf x.partition
    if backups = [] then
      { w with delivered :=
          w.delivered ++ [⟨x.connId, x.response, x.origin, w.thread, .noBackup⟩] }
    else
      { w with
        sent := w.sent ++ [x]
        links := fun i => w.links i ++ (backups.filter (· = i)).map fun _ => (x.opId, x.msg)
        pending := w.pending.insert x.opId ⟨backups.length, 0, x, w.thread, backups⟩ }
  | .membership c => { w with thread := c }
  | .other => w

def ack (opId src : ℕ) : World e :=
  match w.pending.lookup opId with
  | none => w
  | some x =>
    if x.remaining - 1 = 0 then
      { w with
        pending := w.pending.erase opId
        delivered := w.delivered ++
          [⟨x.write.connId, x.write.response, x.write.origin, x.view, .acked x.write⟩] }
    else
      { w with
        pending := w.pending.insert opId
          { x with remaining := x.remaining - 1, left := x.left.erase src } }

def sweep : World e :=
  let aged := w.pending.mapVal fun x => { x with age := x.age + 1 }
  { w with
    pending := aged.retain fun _ x => x.age < ackTimeoutTicks
    delivered := w.delivered ++ (aged.pairs.filter fun x => ackTimeoutTicks ≤ x.2.age).map
      fun x => ⟨x.2.write.connId, x.2.write.response, x.2.write.origin, x.2.view, .swept⟩ }

variable (aux : StructureCall → Structures → Option (ℤ × Bytes)) [Pbkdf2] (cfg : Cfg)

/-- A request is served; what is replied at once is delivered. -/
def request (w : World e) (connId : ℕ) (req : List Frame) : World e :=
  match serve e aux cfg w.state w.rep connId req with
  | .error _ => w
  | .ok (state, rep, replies) =>
    { w with
      state
      rep
      delivered := w.delivered ++ if replies = [] then []
        else [⟨connId, replies, ⟨w.state.store, state.store, w.state.cluster⟩, w.thread,
          .atOnce⟩] }

def exec (w : World e) : WorldEvent → World e
  | .request connId req => w.request aux cfg connId req
  | .outside store => { w with state := { w.state with store } }
  | .view generation members alive =>
    { w with state :=
        { w.state with cluster := (w.state.cluster.setView generation members alive).1 } }
  | .promote joinId =>
    let cluster := w.state.cluster.promote joinId
    { w with state := { w.state with cluster }, rep := (w.rep.push (.membership cluster)).1 }
  | .otherJob => { w with rep := (w.rep.push .other).1 }
  | .threadView c => { w with thread := c }
  | .pop =>
    match w.rep.ring with
    | [] => w
    | job :: ring => { w with rep := { w.rep with ring } }.takeJob job
  | .sweep => w.sweep
  | .deliver i env =>
    match w.links i with
    | [] => w
    | (opId, msg) :: link =>
      { w with
        links := Function.update w.links i link
        applied := Function.update w.applied i (w.applied i ++ [⟨opId, msg, env⟩])
        acks := w.acks ++ [(opId, i)] }
  | .lose i k => { w with links := Function.update w.links i ((w.links i).eraseIdx k) }
  | .ack k =>
    match w.acks[k]? with
    | none => w
    | some (opId, src) => { w with acks := w.acks.eraseIdx k }.ack opId src
  | .loseAck k => { w with acks := w.acks.eraseIdx k }

def init (state : State e Shown) (capacity : ℕ) : World e where
  state
  rep := { nextOp := 1, backups := state.cluster.backups, capacity, ring := [] }
  thread := state.cluster
  pending := ∅
  links _ := []
  acks := []
  sent := []
  applied _ := []
  delivered := []

end World

end BonsaiGrid.Server
