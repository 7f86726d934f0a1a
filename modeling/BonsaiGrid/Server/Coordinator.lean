import BonsaiGrid.Lib.Dict
import BonsaiGrid.Lib.Trace
import BonsaiGrid.Server.Plan

/-!
# The coordinators of a cluster

The member threads send one another heartbeats, requests to join and views. The master admits who
asks to join. The member that is master without the ones that have been silent for too long removes
them. Either tells the others the new view.
-/

namespace BonsaiGrid.Membership

structure MemberRec where
  uuid : ℤ × ℤ
  host : Str
  clientPort : ℤ
  memberPort : ℤ
  joinId : ℕ
  alive : Bool
deriving DecidableEq

inductive Msg
  | heartbeat (fromJoinId generation : ℕ)
  | joinRequest (uuid : ℤ × ℤ) (host : Str) (clientPort memberPort : ℤ)
  | memberView (generation : ℕ) (members : List MemberRec)
deriving DecidableEq

structure Coordinator where
  cluster : Cluster
  selfUuid : ℤ × ℤ
  lastSeen : Dict ℕ ℕ
  tick : ℕ
  hbInterval : ℕ
  hbTimeout : ℕ
  lastHbSent : ℕ
  pendingJoin : Option MemberInfo
  joined : Bool

def MemberRec.info (m : MemberRec) : MemberInfo where
  uuid := m.uuid
  host := m.host
  clientPort := m.clientPort
  memberPort := m.memberPort
  joinId := m.joinId

variable (c : Coordinator)

namespace Coordinator

def new (cluster : Cluster) (selfUuid : ℤ × ℤ) (hbInterval hbTimeout : ℕ) : Coordinator where
  cluster
  selfUuid
  lastSeen := ∅
  tick := 0
  hbInterval
  hbTimeout
  lastHbSent := 0
  pendingJoin := none
  joined := true

def setPendingJoin (info : MemberInfo) : Coordinator :=
  { c with pendingJoin := some info, joined := false }

def selfJoinId : ℕ :=
  ((c.cluster.indexOfUuid c.selfUuid).bind fun i =>
    c.cluster.members[i]?.map MemberInfo.joinId).getD 0

def alivePeerIndices : List ℕ :=
  (List.range c.cluster.members.length).filter fun i =>
    c.cluster.alive[i]? = some true ∧ c.cluster.uuidAt i ≠ some c.selfUuid

def recs : List MemberRec :=
  (c.cluster.members.zip c.cluster.alive).map fun (m, alive) =>
    ⟨m.uuid, m.host, m.clientPort, m.memberPort, m.joinId, alive⟩

def isMaster : Bool := c.cluster.master.bind c.cluster.uuidAt = some c.selfUuid

def broadcastView : List (ℕ × Msg) :=
  c.alivePeerIndices.map fun i => (i, .memberView c.cluster.generation c.recs)

def onHeartbeat (fromJoinId : ℕ) : Coordinator :=
  { c with lastSeen := c.lastSeen.insert fromJoinId c.tick }

def onJoin (info : MemberInfo) : Coordinator × List (ℕ × Msg) :=
  if !c.isMaster then (c, [])
  else
    -- a joiner that is known gets the view again
    let c' := { c with cluster := (c.cluster.addMember info).1 }
    (c', c'.broadcastView)

/-- Everyone in a new view counts as heard. -/
def hearAll : Coordinator :=
  { c with
    lastSeen := c.cluster.members.foldl (fun seen m =>
      if m.uuid ≠ c.selfUuid then seen.insert m.joinId c.tick else seen) c.lastSeen }

def onView (generation : ℕ) (members : List MemberRec) : Coordinator :=
  match c.cluster.setView generation (members.map MemberRec.info) (members.map MemberRec.alive) with
  | (_, false) => c
  | (cluster, true) =>
    let c' := hearAll { c with cluster }
    if (cluster.indexOfUuid c.selfUuid).isSome then
      { c' with joined := true, pendingJoin := none } else c'

/-- The first part of `on_tick`: heartbeats, and the request of a member that is not in yet. -/
def beat : Coordinator × List (ℕ × Msg) :=
  if c.hbInterval ≤ c.tick - c.lastHbSent then
    let beats := c.alivePeerIndices.map fun i =>
      (i, Msg.heartbeat c.selfJoinId c.cluster.generation)
    let asks :=
      match c.joined, c.pendingJoin, c.cluster.master with
      | false, some info, some master =>
        [(master, Msg.joinRequest info.uuid info.host info.clientPort info.memberPort)]
      | _, _, _ => []
    ({ c with lastHbSent := c.tick }, beats ++ asks)
  else (c, [])

def suspects : List (ℤ × ℤ) :=
  ((c.cluster.members.zip c.cluster.alive).filter fun m =>
    m.2 ∧ m.1.uuid ≠ c.selfUuid ∧
      (c.lastSeen.lookup m.1.joinId).any fun seen => c.hbTimeout < c.tick - seen).map
    fun m => m.1.uuid

def masterAfterRemoving (dead : List (ℤ × ℤ)) : Option (ℤ × ℤ) :=
  (((c.cluster.members.zip c.cluster.alive).filter fun m => m.2 ∧ m.1.uuid ∉ dead).argmin
    fun m => m.1.joinId).map fun m => m.1.uuid

def removeAll (cluster : Cluster) (uuids : List (ℤ × ℤ)) : Cluster × Bool :=
  uuids.foldl (fun acc uuid =>
    let (cluster, removed) := acc.1.removeMemberByUuid uuid
    (cluster, acc.2 || removed)) (cluster, false)

/-- The second part of `on_tick`: who was silent for too long is removed. -/
def detect : Coordinator × List (ℕ × Msg) :=
  if c.tick ≤ c.hbTimeout then (c, [])
  else if c.suspects = [] then (c, [])
  else if c.masterAfterRemoving c.suspects ≠ some c.selfUuid then (c, [])
  else
    let (cluster, changed) := removeAll c.cluster c.suspects
    if !changed then (c, [])
    else
      let c' := { c with cluster }
      (c', c'.broadcastView)

def onTick : Coordinator × List (ℕ × Msg) :=
  let (c, beats) := { c with tick := c.tick + 1 }.beat
  let (c, views) := c.detect
  (c, beats ++ views)

end Coordinator

/-- The coordinators and the messages they have sent, each with the member it is for. -/
structure Network where
  nodes : ℕ → Coordinator
  sent : List (ℕ × Msg)

/-- A member's clock ticks, or a message that was sent arrives. -/
inductive NetworkEvent
  | tick (i : ℕ)
  | deliver (k : ℕ)

namespace Network

def put (w : Network) (i : ℕ) (c : Coordinator) (out : List (ℕ × Msg)) : Network where
  nodes := Function.update w.nodes i c
  sent := w.sent ++ out

def receive : Msg → Coordinator × List (ℕ × Msg)
  | .heartbeat fromJoinId _ => (c.onHeartbeat fromJoinId, [])
  | .joinRequest uuid host clientPort memberPort =>
    c.onJoin ⟨uuid, host, clientPort, memberPort, 0⟩
  | .memberView generation members => (c.onView generation members, [])

def exec (w : Network) : NetworkEvent → Network
  | .tick i =>
    let (c, out) := (w.nodes i).onTick
    w.put i c out
  | .deliver k =>
    match w.sent[k]? with
    | some (i, msg) =>
      let (c, out) := receive (w.nodes i) msg
      w.put i c out
    | none => w

def init (bootstrap : Cluster) (start : ℕ → (ℤ × ℤ) × ℕ × ℕ × Option MemberInfo) : Network where
  nodes i :=
    let (self, hbInterval, hbTimeout, joinAs) := start i
    let c := Coordinator.new bootstrap self hbInterval hbTimeout
    match joinAs with
    | some info => c.setPendingJoin info
    | none => c
  sent := []

end Network

end BonsaiGrid.Membership
