import BonsaiGrid.Raft.Node
import Mathlib.Data.Finset.Basic

/-!
# A group of Raft nodes

The nodes of one group and the messages they have emitted. A message that was emitted may be
delivered at any later time, several times or never, and a node may start again from its log.
-/

namespace BonsaiGrid.Raft

open Function RaftNode

/-- A message on its way, with the node that emitted it and the addressee. -/
structure Packet where
  src : NodeId
  dst : NodeId
  msg : RaftMsg
deriving DecidableEq, Repr

/-- The members of a group, each with its own copy of the member list, a seed and, if it is set
after construction, a heartbeat period. -/
structure Group where
  members : Finset NodeId
  peers : NodeId → List NodeId
  seed : NodeId → UInt64
  heartbeat : NodeId → Option ℕ
  durable : NodeId → Bool
  nodup : ∀ i ∈ members, (peers i).Nodup
  mem_peers : ∀ i ∈ members, ∀ j, j ∈ peers i ↔ j ∈ members

variable (g : Group)

namespace Group

def boot (i : NodeId) (log : RaftLog) (seed : UInt64) (heartbeat : Option ℕ) :
    RaftNode :=
  match heartbeat with
  | none => new i (g.peers i) log seed
  | some ticks => (new i (g.peers i) log seed).setHeartbeatPeriod ticks

def freshLog (i : NodeId) : RaftLog :=
  { durable := if g.durable i then some ⟨[], none⟩ else none }

section Fields

variable (g : Group) (i : NodeId) (log : RaftLog) (seed : UInt64) (heartbeat : Option ℕ)

@[simp] theorem boot_fields :
    (g.boot i log seed heartbeat).id = i ∧ (g.boot i log seed heartbeat).peers = g.peers i ∧
      (g.boot i log seed heartbeat).role = .follower ∧
      (g.boot i log seed heartbeat).currentTerm = log.term ∧
      (g.boot i log seed heartbeat).votedFor = log.vote ∧
      (g.boot i log seed heartbeat).log = log ∧
      (g.boot i log seed heartbeat).commitIndex = 0 ∧
      (g.boot i log seed heartbeat).lastApplied = 0 := by
  cases heartbeat <;> simp [boot, new, setHeartbeatPeriod]

theorem lt_of_mem_boot_slots {p size : ℕ} (hp : p ∈ g.peers i)
    (hsize : size ∈ (g.boot i log seed heartbeat).slots) : p < size := by
  have hle : p ≤ (g.peers i).max?.getD 0 := List.le_max?_getD_of_mem hp
  cases heartbeat <;>
    simp [boot, new, setHeartbeatPeriod, slots] at hsize <;> omega

end Fields

end Group

/-- The nodes, everything they have emitted, and what each has handed to its
state machine since it was built. -/
structure Cluster where
  nodes : NodeId → RaftNode
  sent : List Packet
  applied : NodeId → List (ℕ × Bytes)

inductive Call where
  | tick (i : NodeId)
  | propose (i : NodeId) (command : Bytes)
  | deliver (k : ℕ)
  | takeCommitted (i : NodeId)
  | maybeCompact (i : NodeId) (keep : ℕ)
  | restart (i : NodeId) (log : RaftLog) (seed : UInt64) (heartbeat : Option ℕ)

def Call.isRestart : Call → Bool
  | .restart _ _ _ _ => true
  | _ => false

namespace Cluster

variable (w : Cluster)

def packet? : Call → Option Packet
  | .deliver k => w.sent[k]?
  | _ => none

def put (i : NodeId) (r : RaftNode × Out) : Cluster :=
  { w with
    nodes := update w.nodes i r.1
    sent := w.sent ++ r.2.map fun o => ⟨i, o.1, o.2⟩ }

variable (i : NodeId)

@[simp] theorem put_nodes_self (r : RaftNode × Out) :
    (w.put i r).nodes i = r.1 := by
  simp [put]

theorem put_nodes_of_ne {i j : NodeId} (r : RaftNode × Out) (h : j ≠ i) :
    (w.put i r).nodes j = w.nodes j := by
  simp [put, h]

@[simp] theorem put_sent (r : RaftNode × Out) :
    (w.put i r).sent = w.sent ++ r.2.map fun o => ⟨i, o.1, o.2⟩ := rfl

theorem put_put (r r' : RaftNode × Out) :
    (w.put i r).put i r' = w.put i (r'.1, r.2 ++ r'.2) := by
  simp [put, List.append_assoc]

@[simp] theorem put_self : w.put i (w.nodes i, []) = w := by
  simp [put]

def init : Cluster where
  nodes := fun i => g.boot i (g.freshLog i) (g.seed i) (g.heartbeat i)
  sent := []
  applied := fun _ => []

def exec [Crc32fast] (g : Group) (w : Cluster) : Call → Cluster
  | .tick i => w.put i (w.nodes i).tick
  | .propose i command => w.put i (((w.nodes i).propose command).1, [])
  | .deliver k =>
    match w.sent[k]? with
    | none => w
    | some p => w.put p.dst ((w.nodes p.dst).step p.src p.msg)
  | .takeCommitted i =>
    { w.put i ((w.nodes i).takeCommitted.1, []) with
      applied := update w.applied i (w.applied i ++ (w.nodes i).takeCommitted.2) }
  | .maybeCompact i keep => w.put i ((w.nodes i).maybeCompact keep, [])
  | .restart i log seed heartbeat =>
    { w.put i (g.boot i log seed heartbeat, []) with applied := update w.applied i [] }

/-- The calls a run may contain: calls on members, and restarts from the term
and vote that were last persisted. -/
def Valid (w : Cluster) : Call → Prop
  | .tick i => i ∈ g.members
  | .propose i _ => i ∈ g.members
  | .deliver _ => True
  | .takeCommitted i => i ∈ g.members
  | .maybeCompact i _ => i ∈ g.members
  | .restart i log _ _ =>
    i ∈ g.members ∧ log.term = (w.nodes i).log.term ∧ log.vote = (w.nodes i).log.vote

def Step [Crc32fast] (g : Group) (ok : Cluster → Call → Prop) (w w' : Cluster) : Prop :=
  ∃ c, w.Valid g c ∧ ok w c ∧ w' = w.exec g c

/-- A sequence of calls that each meet the condition `ok`. -/
def Run [Crc32fast] (g : Group) (ok : Cluster → Call → Prop) : Cluster → Cluster → Prop :=
  Relation.ReflTransGen (Step g ok)

def Reachable [Crc32fast] (g : Group) (ok : Cluster → Call → Prop) (w : Cluster) : Prop :=
  Run g ok (init g) w

instance decidableValid (w : Cluster) : ∀ c, Decidable (w.Valid g c)
  | .tick i | .propose i _ | .takeCommitted i | .maybeCompact i _ =>
    inferInstanceAs (Decidable (i ∈ g.members))
  | .deliver _ => isTrue trivial
  | .restart .. => inferInstanceAs (Decidable (_ ∧ _ = _ ∧ _ = _))

section Calls

variable [Crc32fast]

def execAll (g : Group) (w : Cluster) (calls : List Call) : Cluster := calls.foldl (exec g) w

/-- Every call of the list may be made and meets the condition. -/
def Allowed (g : Group) (ok : Cluster → Call → Prop) : Cluster → List Call → Prop
  | _, [] => True
  | w, c :: cs => w.Valid g c ∧ ok w c ∧ Allowed g ok (w.exec g c) cs

instance decidableAllowed (g : Group) (ok : Cluster → Call → Prop)
    [∀ w c, Decidable (ok w c)] : ∀ w calls, Decidable (Allowed g ok w calls)
  | _, [] => isTrue trivial
  | w, c :: cs =>
    have := decidableAllowed g ok (w.exec g c) cs
    inferInstanceAs (Decidable (_ ∧ _ ∧ _))

theorem run_execAll {g : Group} {ok : Cluster → Call → Prop} {w : Cluster} (calls : List Call)
    (h : Allowed g ok w calls) : Run g ok w (w.execAll g calls) := by
  induction calls generalizing w with
  | nil => exact .refl
  | cons c cs ih =>
    obtain ⟨hvalid, hok, hrest⟩ := h
    exact .head ⟨c, hvalid, hok, rfl⟩ (ih hrest)

end Calls

end Cluster

def threeNodes : Group where
  members := {0, 1, 2}
  peers := fun _ => [0, 1, 2]
  seed := fun i => UInt64.ofNat (i + 1)
  heartbeat := fun _ => none
  durable := fun _ => false
  nodup := by simp
  mem_peers := by simp

def firstElection : List Call := List.replicate 10 (.tick 0) ++ [.deliver 0, .deliver 2]

end BonsaiGrid.Raft
