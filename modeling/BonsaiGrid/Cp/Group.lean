import BonsaiGrid.Cp.Machine
import BonsaiGrid.Raft.Refinement

/-!
# CP groups

A member of a CP group is a Raft node with the CP state machine behind it and the clients'
operations in front: an operation is proposed by the leader, or forwarded to it, or kept until
there is one, and the member that proposed it remembers the log index it got.
-/

namespace BonsaiGrid.Cp

open Function Raft

abbrev ClientId := ℕ

/-- A message between members: a Raft message, a command for the leader, or a
reply for the member the client is on. -/
inductive CpMsg where
  | raft (msg : RaftMsg)
  | forward (client : ClientId) (origin : NodeId) (command : Bytes)
  | reply (client : ClientId) (reply : CpReply)
deriving DecidableEq, Repr

abbrev CpOut := List (NodeId × CpMsg)

structure Completion where
  client : ClientId
  reply : CpReply
deriving DecidableEq, Repr

def compactKeep : ℕ := 256

def sessionTickInterval : ℕ := 1000

/-- One member. -/
structure CpGroup where
  id : NodeId
  raft : RaftNode
  sm : CpSm
  pending : Dict ℕ (ClientId × NodeId)
  waiting : List (ClientId × Bytes)
  completions : List Completion
  ticksSinceSession : ℕ

def raftOut (out : Out) : CpOut := out.map fun o => (o.1, .raft o.2)

namespace CpGroup

def new (raft : RaftNode) : CpGroup where
  id := raft.id
  raft := raft
  sm := {}
  pending := ∅
  waiting := []
  completions := []
  ticksSinceSession := 0

section Operations

variable [Crc32fast] (m : CpGroup) (client : ClientId)

def proposeFor (origin : NodeId) (command : Bytes) : CpGroup :=
  match m.raft.propose command with
  | (raft, some index) =>
    { m with raft := raft, pending := m.pending.insert index (client, origin) }
  | (raft, none) => { m with raft := raft }

def route (origin : NodeId) (command : Bytes) :
    CpGroup × CpOut :=
  if m.raft.isLeader then (m.proposeFor client origin command, [])
  else
    match m.raft.leader with
    | some leader => (m, [(leader, .forward client origin command)])
    | none =>
      if origin = m.id then ({ m with waiting := m.waiting ++ [(client, command)] }, [])
      else (m, [])

def submit (command : Bytes) : CpGroup × CpOut :=
  m.route client m.id command

def applyOne (index : ℕ) (command : Bytes) : CpGroup × CpOut :=
  let r := m.sm.apply command
  match m.pending.lookup index with
  | some (client, origin) =>
    let m := { m with sm := r.1, pending := m.pending.erase index }
    if origin = m.id then ({ m with completions := m.completions ++ [⟨client, r.2⟩] }, [])
    else (m, [(origin, .reply client r.2)])
  | none => ({ m with sm := r.1 }, [])

def applyAll (m : CpGroup) : List (ℕ × Bytes) → CpGroup × CpOut
  | [] => (m, [])
  | (index, command) :: rest =>
    let r := m.applyOne index command
    let r' := applyAll r.1 rest
    (r'.1, r.2 ++ r'.2)

def applyCommitted : CpGroup × CpOut :=
  { m with raft := m.raft.takeCommitted.1 }.applyAll m.raft.takeCommitted.2

def handle (src : NodeId) : CpMsg → CpGroup × CpOut
  | .raft msg =>
    let r := m.raft.step src msg
    ({ m with raft := r.1 }, raftOut r.2)
  | .forward client origin command => m.route client origin command
  | .reply client reply => ({ m with completions := m.completions ++ [⟨client, reply⟩] }, [])

def step (src : NodeId) (msg : CpMsg) : CpGroup × CpOut :=
  let r := m.handle src msg
  let r' := r.1.applyCommitted
  (r'.1, r.2 ++ r'.2)

def routeAll (m : CpGroup) : List (ClientId × Bytes) → CpGroup × CpOut
  | [] => (m, [])
  | (client, command) :: rest =>
    let r := m.route client m.id command
    let r' := routeAll r.1 rest
    (r'.1, r.2 ++ r'.2)

def flush : CpGroup × CpOut :=
  if m.raft.isLeader || m.raft.leader.isSome then { m with waiting := [] }.routeAll m.waiting
  else (m, [])

def tickSessions : CpGroup :=
  if m.raft.isLeader then
    if sessionTickInterval ≤ m.ticksSinceSession + 1 then
      { m with
        ticksSinceSession := 0
        raft := (m.raft.propose (sessCommand .tick)).1 }
    else { m with ticksSinceSession := m.ticksSinceSession + 1 }
  else m

def tick : CpGroup × CpOut :=
  let r := m.raft.tick
  let f := { m with raft := r.1 }.flush
  let a := f.1.tickSessions.applyCommitted
  ({ a.1 with raft := a.1.raft.maybeCompact compactKeep }, raftOut r.2 ++ f.2 ++ a.2)

end Operations

end CpGroup

structure CpPacket where
  src : NodeId
  dst : NodeId
  msg : CpMsg
deriving DecidableEq, Repr

structure Proposal where
  client : ClientId
  entry : Entry
deriving DecidableEq, Repr

namespace CpGroup

section Record

variable [Crc32fast] (m : CpGroup)

def proposalsFor (client : ClientId) (command : Bytes) : List Proposal :=
  if m.raft.isLeader then
    [⟨client, { term := m.raft.currentTerm, index := m.raft.log.lastIndex + 1, command := command }⟩]
  else []

def handleProposals : CpMsg → List Proposal
  | .forward client _ command => m.proposalsFor client command
  | _ => []

def routeAllProposals (m : CpGroup) : List (ClientId × Bytes) → List Proposal
  | [] => []
  | (client, command) :: rest =>
    m.proposalsFor client command ++ routeAllProposals (m.route client m.id command).1 rest

def flushProposals : List Proposal :=
  if m.raft.isLeader || m.raft.leader.isSome then
    { m with waiting := [] }.routeAllProposals m.waiting
  else []

def tickProposals : List Proposal :=
  { m with raft := m.raft.tick.1 }.flushProposals

def appliedNow : List Entry :=
  m.raft.takeCommitted.2.map fun a =>
    { term := m.raft.log.termAt a.1, index := a.1, command := a.2 }

def tickApplied : List Entry :=
  { m with raft := m.raft.tick.1 }.flush.1.tickSessions.appliedNow

end Record

end CpGroup

/-- A whole group: the members, the messages that were emitted and not delivered
yet, the replies that were surfaced to clients; and the record of what was
submitted, proposed and applied. -/
structure Members where
  groups : NodeId → CpGroup
  flight : List CpPacket
  surfaced : List Completion
  submitted : List (ClientId × Bytes)
  proposals : List Proposal
  applied : NodeId → List Entry

inductive CpCall where
  | submit (i : NodeId) (client : ClientId) (command : Bytes)
  | deliver (k : ℕ)
  | tick (i : NodeId)
  | takeCompletions (i : NodeId)

namespace Members

/-- Member `i` becomes `r.1` and emits `r.2`, with the proposals `ps` and the
entries `es` put on record. -/
def move (s : Members) (i : NodeId) (r : CpGroup × CpOut) (ps : List Proposal)
    (es : List Entry) : Members :=
  { s with
    groups := update s.groups i r.1
    flight := s.flight ++ r.2.map fun o => ⟨i, o.1, o.2⟩
    proposals := s.proposals ++ ps
    applied := update s.applied i (s.applied i ++ es) }

def init (g : Group) : Members where
  groups := fun i => CpGroup.new (g.boot i (g.freshLog i) (g.seed i) (g.heartbeat i))
  flight := []
  surfaced := []
  submitted := []
  proposals := []
  applied := fun _ => []

section Calls

variable [Crc32fast]

def exec (s : Members) : CpCall → Members
  | .submit i client command =>
    { s with submitted := s.submitted ++ [(client, command)] }.move i
      ((s.groups i).submit client command) ((s.groups i).proposalsFor client command) []
  | .deliver k =>
    match s.flight[k]? with
    | none => s
    | some p =>
      { s with flight := s.flight.eraseIdx k }.move p.dst
        ((s.groups p.dst).step p.src p.msg) ((s.groups p.dst).handleProposals p.msg)
        ((s.groups p.dst).handle p.src p.msg).1.appliedNow
  | .tick i =>
    s.move i (s.groups i).tick (s.groups i).tickProposals (s.groups i).tickApplied
  | .takeCompletions i =>
    { s with
      groups := update s.groups i { s.groups i with completions := [] }
      surfaced := s.surfaced ++ (s.groups i).completions }

variable (g : Group)

/-- The calls a run may contain: calls on members and messages to members, each
client submitting once. -/
def Valid (s : Members) : CpCall → Prop
  | .submit i client _ => i ∈ g.members ∧ client ∉ s.submitted.map Prod.fst
  | .deliver k => ∀ p ∈ s.flight[k]?, p.dst ∈ g.members
  | .tick i => i ∈ g.members
  | .takeCompletions i => i ∈ g.members

instance decidableValid (s : Members) : ∀ c, Decidable (s.Valid g c)
  | .submit .. => inferInstanceAs (Decidable (_ ∧ _ ∉ _))
  | .deliver k => inferInstanceAs (Decidable (∀ p ∈ s.flight[k]?, p.dst ∈ g.members))
  | .tick i | .takeCompletions i => inferInstanceAs (Decidable (i ∈ g.members))

def Step (ok : Members → CpCall → Prop) (s s' : Members) : Prop :=
  ∃ c, s.Valid g c ∧ ok s c ∧ s' = s.exec c

/-- The states of the runs from the start whose calls all meet the condition. -/
def Reachable (ok : Members → CpCall → Prop) : Members → Prop :=
  Relation.ReflTransGen (Step g ok) (init g)

def execAll (s : Members) (calls : List CpCall) : Members := calls.foldl exec s

/-- Every call of the list may be made and meets the condition. -/
def Allowed (g : Group) (ok : Members → CpCall → Prop) : Members → List CpCall → Prop
  | _, [] => True
  | s, c :: cs => s.Valid g c ∧ ok s c ∧ Allowed g ok (s.exec c) cs

instance decidableAllowed (g : Group) (ok : Members → CpCall → Prop)
    [∀ s c, Decidable (ok s c)] : ∀ s calls, Decidable (Allowed g ok s calls)
  | _, [] => isTrue trivial
  | s, c :: cs =>
    have := decidableAllowed g ok (s.exec c) cs
    inferInstanceAs (Decidable (_ ∧ _ ∧ _))

theorem run_execAll {g : Group} {ok : Members → CpCall → Prop} {s : Members}
    (calls : List CpCall) (h : Allowed g ok s calls) :
    Relation.ReflTransGen (Step g ok) s (s.execAll calls) := by
  induction calls generalizing s with
  | nil => exact .refl
  | cons c cs ih =>
    obtain ⟨hvalid, hok, hrest⟩ := h
    exact .head ⟨c, hvalid, hok, rfl⟩ (ih hrest)

end Calls

def cluster (s : Members) : Cluster where
  nodes := fun i => (s.groups i).raft
  sent := s.flight.filterMap fun p =>
    match p.msg with
    | .raft msg => some ⟨p.src, p.dst, msg⟩
    | _ => none
  applied := fun i => (s.applied i).map fun e => (e.index, e.command)

end Members

/-- The reply to `c` is that of its own command: the entry that the client's
proposal became is the `k`-th that a member applied, and the reply is the one the
state machine gave there. -/
def Answered (g : Group) (s : Members) (c : Completion) : Prop :=
  ∃ q ∈ s.proposals, q.client = c.client ∧ (q.client, q.entry.command) ∈ s.submitted ∧
    (∀ q' ∈ s.proposals, q'.entry.term = q.entry.term → q'.entry.index = q.entry.index → q' = q) ∧
    ∃ i ∈ g.members, ∃ k, (s.applied i)[k]? = some q.entry ∧ q.entry.index = k + 1 ∧
      c.reply = ((CpSm.run {} (((s.applied i).take k).map Entry.command)).apply
        q.entry.command).2

/-- Every reply that was surfaced, or is about to be, is that of the client's own
command. -/
def RepliesCorrect (g : Group) (s : Members) : Prop :=
  (∀ c ∈ s.surfaced, Answered g s c) ∧
    ∀ i ∈ g.members, ∀ c ∈ (s.groups i).completions, Answered g s c

/-- Entries of a leader that the member takes over replace none of the entries
up to the ones it has proposed and not yet applied. -/
def KeepsPending (m : CpGroup) : RaftMsg → Prop
  | .appendEntries term _ prevLogIndex prevLogTerm entries _ =>
    m.raft.currentTerm ≤ term → m.raft.prevMatches prevLogIndex prevLogTerm →
      ∀ e ∈ entries, ∀ idx ∈ m.pending.keys, m.raft.log.snapshotIndex < e.index →
        e.index ≤ idx → m.raft.log.termAt e.index = e.term
  | _ => True

instance (m : CpGroup) : ∀ msg, Decidable (KeepsPending m msg)
  | .appendEntries _ _ _ _ entries _ => inferInstanceAs (Decidable (_ → _ → ∀ e ∈ entries, _))
  | .requestVote .. | .requestVoteResp .. | .appendEntriesResp .. => isTrue trivial

def CpPacket.raft? (p : CpPacket) : Option RaftMsg :=
  match p.msg with
  | .raft msg => some msg
  | _ => none

/-- The calls in which leaders can serve the members they send to, and pending
entries are kept. -/
def Undisturbed (s : Members) : CpCall → Prop
  | .tick i => Served s.cluster (.tick i)
  | .deliver k => ∀ p ∈ s.flight[k]?, ∀ msg ∈ p.raft?,
      ServedPacket s.cluster ⟨p.src, p.dst, msg⟩ ∧ KeepsPending (s.groups p.dst) msg
  | _ => True

instance decidableUndisturbed (s : Members) : ∀ c, Decidable (Undisturbed s c)
  | .tick i => inferInstanceAs (Decidable (Served s.cluster (.tick i)))
  | .deliver k => inferInstanceAs (Decidable (∀ p ∈ s.flight[k]?, ∀ msg ∈ p.raft?, _ ∧ _))
  | .submit .. | .takeCompletions _ => isTrue trivial

end BonsaiGrid.Cp
