import BonsaiGrid.Raft.Log

/-!
# The Raft node

One node of a group, driven by calls: `tick`, `propose`, `step`, `takeCommitted` and
`maybeCompact`.
-/

namespace BonsaiGrid.Raft

open List

inductive RaftMsg where
  | requestVote (term : ℕ) (candidate : NodeId) (lastLogIndex lastLogTerm : ℕ)
  | requestVoteResp (term : ℕ) (granted : Bool)
  | appendEntries (term : ℕ) (leader : NodeId) (prevLogIndex prevLogTerm : ℕ)
      (entries : List Entry) (leaderCommit : ℕ)
  | appendEntriesResp (term : ℕ) (success : Bool) (matchIndex : ℕ)
deriving DecidableEq, Repr

def msgTerm : RaftMsg → ℕ
  | .requestVote term _ _ _ => term
  | .requestVoteResp term _ => term
  | .appendEntries term _ _ _ _ _ => term
  | .appendEntriesResp term _ _ => term

inductive Role where
  | follower
  | candidate
  | leader
deriving DecidableEq, Repr

abbrev Out := List (NodeId × RaftMsg)

structure RaftNode where
  id : NodeId
  peers : List NodeId
  role : Role
  currentTerm : ℕ
  votedFor : Option NodeId
  log : RaftLog
  commitIndex : ℕ
  lastApplied : ℕ
  leader : Option NodeId
  votes : List Bool
  nextIndex : List ℕ
  matchIndex : List ℕ
  elapsed : ℕ
  electionTimeout : ℕ
  heartbeatPeriod : ℕ
  contacted : List Bool
  sinceMajority : ℕ
  rng : UInt64
deriving DecidableEq, Repr

namespace RaftNode

variable (n : RaftNode)

def majority : ℕ := n.peers.length / 2 + 1

def isLeader : Bool := n.role = .leader

def hasReadLease : Bool :=
  n.role = .leader && n.sinceMajority < n.electionTimeout

def nextRand (rng : UInt64) : UInt64 × UInt64 :=
  let rng := rng + 0x9E3779B97F4A7C15
  let z := (rng ^^^ (rng >>> 30)) * 0xBF58476D1CE4E5B9
  let z := (z ^^^ (z >>> 27)) * 0x94D049BB133111EB
  (z ^^^ (z >>> 31), rng)

def withTimer (rng : UInt64) (timeout : ℕ) : RaftNode :=
  { n with rng := rng, electionTimeout := timeout, elapsed := 0 }

@[simps! id peers role currentTerm votedFor log commitIndex lastApplied leader votes nextIndex
  matchIndex contacted sinceMajority]
def resetElectionTimeout : RaftNode :=
  let base := 10 * max n.heartbeatPeriod 1
  n.withTimer (nextRand n.rng).2 (base + (nextRand n.rng).1.toNat % base)

def setHeartbeatPeriod (ticks : ℕ) : RaftNode :=
  { n with heartbeatPeriod := max ticks 1 }.resetElectionTimeout

def seedRng (seed : UInt64) : UInt64 := seed * 0x9E3779B97F4A7C15 ||| 1

def new (id : NodeId) (peers : List NodeId) (log : RaftLog) (seed : UInt64) : RaftNode :=
  let n := peers.max?.getD 0 + 1
  resetElectionTimeout
    { id := id
      peers := peers
      role := .follower
      currentTerm := log.term
      votedFor := log.vote
      log := log
      commitIndex := 0
      lastApplied := 0
      leader := none
      votes := replicate n false
      nextIndex := replicate n 1
      matchIndex := replicate n 0
      elapsed := 0
      electionTimeout := 0
      heartbeatPeriod := 1
      contacted := replicate n false
      sinceMajority := 0
      rng := seedRng seed }

def becomeFollower (term : ℕ) : RaftNode :=
  resetElectionTimeout
    { n with
      currentTerm := term
      votedFor := none
      role := .follower
      leader := none
      log := n.log.persistTermVote term none }

def replicas (idx : ℕ) : ℕ :=
  n.peers.countP fun p => idx ≤ n.matchIndex.getD p 0

def advanceCommit : RaftNode :=
  let last := n.log.lastIndex
  let idx := (range' (n.commitIndex + 1) (last - n.commitIndex)).reverse.find? fun idx =>
    n.log.termAt idx = n.currentTerm ∧ n.majority ≤ n.replicas idx
  match idx with
  | some idx => { n with commitIndex := idx }
  | none => n

def withCommand [Crc32fast] (n : RaftNode) (command : Bytes) : RaftNode :=
  let index := n.log.lastIndex + 1
  { n with
    log := n.log.append { term := n.currentTerm, index := index, command := command }
    matchIndex := n.matchIndex.set n.id index }

def propose [Crc32fast] (n : RaftNode) (command : Bytes) : RaftNode × Option ℕ :=
  if n.role ≠ .leader then (n, none)
  else ((n.withCommand command).advanceCommit, some (n.log.lastIndex + 1))

def appendTo (peer : NodeId) : NodeId × RaftMsg :=
  let next := n.nextIndex.getD peer 0
  let prevLogIndex := next - 1
  (peer, .appendEntries n.currentTerm n.id prevLogIndex (n.log.termAt prevLogIndex)
    (n.log.entriesFrom next) n.commitIndex)

def sendAppend (peer : NodeId) : Out := [n.appendTo peer]

def broadcastAppend : Out :=
  (n.peers.filter fun p => p ≠ n.id).flatMap n.sendAppend

/-- The node as the leader of its term: every member is expected to be level
with it, none has confirmed it yet. -/
def asLeader : RaftNode :=
  let last := n.log.lastIndex
  let contacted := (n.contacted.map fun _ => false).set n.id true
  { n with
    role := .leader
    leader := some n.id
    nextIndex := n.peers.foldl (fun v p => v.set p (last + 1)) n.nextIndex
    matchIndex := (n.peers.foldl (fun v p => v.set p 0) n.matchIndex).set n.id last
    contacted := contacted
    sinceMajority := if n.majority ≤ contacted.count true then 0 else n.electionTimeout
    elapsed := n.heartbeatPeriod }

def maybeBecomeLeader : RaftNode × Out :=
  if n.role ≠ .candidate then (n, [])
  else if n.majority ≤ n.votes.count true then (n.asLeader, n.asLeader.broadcastAppend)
  else (n, [])

def asCandidate : RaftNode :=
  resetElectionTimeout
    { n with
      currentTerm := n.currentTerm + 1
      role := .candidate
      votedFor := some n.id
      leader := none
      log := n.log.persistTermVote (n.currentTerm + 1) (some n.id)
      votes := (n.votes.map fun _ => false).set n.id true }

def voteRequests : Out :=
  (n.peers.filter fun p => p ≠ n.id).map fun p =>
    (p, .requestVote n.currentTerm n.id n.log.lastIndex n.log.lastTerm)

def startElection : RaftNode × Out :=
  let r := n.asCandidate.maybeBecomeLeader
  (r.1, n.asCandidate.voteRequests ++ r.2)

/-- One tick of a leader's clock. -/
def leaderTick : RaftNode :=
  { n with elapsed := n.elapsed + 1, sinceMajority := n.sinceMajority + 1 }

def freshRound : RaftNode :=
  { n with
    elapsed := 0
    contacted := (n.contacted.map fun _ => false).set n.id true }

def tick : RaftNode × Out :=
  match n.role with
  | .leader =>
    if n.heartbeatPeriod ≤ n.elapsed + 1 then
      (n.leaderTick.freshRound, n.leaderTick.freshRound.broadcastAppend)
    else (n.leaderTick, [])
  | _ =>
    let n := { n with elapsed := n.elapsed + 1 }
    if n.electionTimeout ≤ n.elapsed then n.startElection else (n, [])

/-- The election restriction: the candidate's log is not behind. -/
def upToDate (lastLogIndex lastLogTerm : ℕ) : Prop :=
  n.log.lastTerm < lastLogTerm ∨ lastLogTerm = n.log.lastTerm ∧ n.log.lastIndex ≤ lastLogIndex

instance  (lastLogIndex lastLogTerm : ℕ) :
    Decidable (n.upToDate lastLogIndex lastLogTerm) :=
  inferInstanceAs (Decidable (_ ∨ _))

def withVote (candidate : NodeId) : RaftNode :=
  resetElectionTimeout
    { n with
      votedFor := some candidate
      log := n.log.persistTermVote n.currentTerm (some candidate) }

/-- Vote for a candidate of this term whose log is not behind, unless the vote
has gone to another. -/
def onRequestVote (term : ℕ) (candidate : NodeId)
    (lastLogIndex lastLogTerm : ℕ) : RaftNode × Out :=
  if n.currentTerm ≤ term ∧ (n.votedFor = none ∨ n.votedFor = some candidate) ∧
      n.upToDate lastLogIndex lastLogTerm then
    (n.withVote candidate, [(candidate, .requestVoteResp n.currentTerm true)])
  else (n, [(candidate, .requestVoteResp n.currentTerm false)])

def onVoteResp (src : NodeId) (term : ℕ) (granted : Bool) : RaftNode × Out :=
  if n.role ≠ .candidate ∨ term ≠ n.currentTerm then (n, [])
  else if granted then { n with votes := n.votes.set src true }.maybeBecomeLeader
  else (n, [])

/-- Take over the entries of a leader: those inside the compacted prefix are skipped, those
already there are kept, the first conflict cuts the log. -/
def appendAll [Crc32fast] : RaftLog → ℕ → List Entry → RaftLog × ℕ
  | log, idx, [] => (log, idx)
  | log, _, e :: es =>
    if e.index ≤ log.snapshotIndex then appendAll log e.index es
    else if log.termAt e.index = e.term ∧ e.index ≤ log.lastIndex then
      appendAll log e.index es
    else appendAll ((log.truncateFrom e.index).append e) e.index es

/-- Whether the entry before the ones sent agrees with the log, or lies in its
compacted prefix. -/
def prevMatches (prevLogIndex prevLogTerm : ℕ) : Prop :=
  prevLogIndex = 0 ∨ prevLogIndex ≤ n.log.snapshotIndex ∨
    n.log.termAt prevLogIndex = prevLogTerm

instance  (prevLogIndex prevLogTerm : ℕ) :
    Decidable (n.prevMatches prevLogIndex prevLogTerm) :=
  inferInstanceAs (Decidable (_ ∨ _))

def follow (leader : NodeId) : RaftNode :=
  { n with role := .follower, leader := some leader }.resetElectionTimeout

/-- The node after it has taken over the log `log`, with the commit index the
leader announced as far as the log reaches. -/
def withEntries (log : RaftLog) (leaderCommit : ℕ) : RaftNode :=
  { n with
    log := log
    commitIndex :=
      if n.commitIndex < leaderCommit then min leaderCommit log.lastIndex else n.commitIndex }

def onAppend [Crc32fast] (n : RaftNode) (term : ℕ) (leader : NodeId)
    (prevLogIndex prevLogTerm : ℕ) (entries : List Entry) (leaderCommit : ℕ) : RaftNode × Out :=
  if n.currentTerm ≤ term then
    if (n.follow leader).prevMatches prevLogIndex prevLogTerm then
      let r := appendAll n.log prevLogIndex entries
      ((n.follow leader).withEntries r.1 leaderCommit,
        [(leader, .appendEntriesResp n.currentTerm true (max r.2 prevLogIndex))])
    else (n.follow leader, [(leader, .appendEntriesResp n.currentTerm false 0)])
  else (n, [(leader, .appendEntriesResp n.currentTerm false 0)])

/-- The leader after `src` has acknowledged `matchIndex`. -/
def withAck (src : NodeId) (matchIndex : ℕ) : RaftNode :=
  let m := max (n.matchIndex.getD src 0) matchIndex
  let contacted := n.contacted.set src true
  { n with
    matchIndex := n.matchIndex.set src m
    nextIndex := n.nextIndex.set src (m + 1)
    contacted := contacted
    sinceMajority := if n.majority ≤ contacted.count true then 0 else n.sinceMajority }

def backOff (src : NodeId) : RaftNode :=
  { n with nextIndex := n.nextIndex.set src (max (n.nextIndex.getD src 0 - 1) 1) }

def onAppendResp (src : NodeId) (term : ℕ) (success : Bool)
    (matchIndex : ℕ) : RaftNode × Out :=
  if n.role ≠ .leader ∨ term ≠ n.currentTerm then (n, [])
  else if success then ((n.withAck src matchIndex).advanceCommit, [])
  else (n.backOff src, (n.backOff src).sendAppend src)

def handle [Crc32fast] (n : RaftNode) (src : NodeId) : RaftMsg → RaftNode × Out
  | .requestVote term candidate lastLogIndex lastLogTerm =>
    n.onRequestVote term candidate lastLogIndex lastLogTerm
  | .requestVoteResp term granted => n.onVoteResp src term granted
  | .appendEntries term leader prevLogIndex prevLogTerm entries leaderCommit =>
    n.onAppend term leader prevLogIndex prevLogTerm entries leaderCommit
  | .appendEntriesResp term success matchIndex => n.onAppendResp src term success matchIndex

def observeTerm (term : ℕ) : RaftNode :=
  if n.currentTerm < term then n.becomeFollower term else n

def step [Crc32fast] (n : RaftNode) (src : NodeId) (msg : RaftMsg) : RaftNode × Out :=
  (n.observeTerm (msgTerm msg)).handle src msg

def committedFrom (log : RaftLog) : ℕ → ℕ → List (ℕ × Bytes)
  | 0, _ => []
  | todo + 1, applied =>
    match log.commandAt (applied + 1) with
    | some cmd => (applied + 1, cmd) :: committedFrom log todo (applied + 1)
    | none => committedFrom log todo (applied + 1)

def takeCommitted : RaftNode × List (ℕ × Bytes) :=
  ({ n with lastApplied := max n.lastApplied n.commitIndex },
    committedFrom n.log (n.commitIndex - n.lastApplied) n.lastApplied)

/-- The highest index that may be folded away: on the leader the slowest
member's match index, elsewhere what has been applied. -/
def safeCompactIndex : ℕ :=
  if n.role = .leader then
    min (((n.peers.map fun p => n.matchIndex.getD p 0).min?).getD 0) n.lastApplied
  else n.lastApplied

def maybeCompact (keep : ℕ) : RaftNode :=
  if n.log.len ≤ keep then n else { n with log := n.log.compact n.safeCompactIndex }

theorem getElem?_foldl_set {α : Type} (l : List ℕ) (x : α) (v : List α) (q : ℕ) :
    (l.foldl (fun v p => v.set p x) v)[q]? = if q ∈ l then v[q]?.map fun _ => x else v[q]? := by
  induction l generalizing v with
  | nil => simp
  | cons p l ih =>
    rw [foldl_cons, ih]
    by_cases hpq : p = q
    · subst hpq
      by_cases hlt : p < v.length
      · simp [hlt]
      · simp [hlt]
    · have hqp : q ≠ p := fun h => hpq h.symm
      simp [hpq, hqp]

theorem length_foldl_set {α : Type} (l : List ℕ) (x : α) (v : List α) :
    (l.foldl (fun v p => v.set p x) v).length = v.length := by
  induction l generalizing v with
  | nil => rfl
  | cons p l ih => rw [foldl_cons, ih, length_set]

theorem mem_broadcastAppend {n : RaftNode} {o : NodeId × RaftMsg} :
    o ∈ n.broadcastAppend ↔ ∃ p, (p ∈ n.peers ∧ p ≠ n.id) ∧ o = n.appendTo p := by
  simp only [broadcastAppend, sendAppend, mem_flatMap, mem_filter, decide_eq_true_eq,
    mem_singleton]

theorem mem_voteRequests {n : RaftNode} {o : NodeId × RaftMsg} :
    o ∈ n.voteRequests ↔ ∃ p, (p ∈ n.peers ∧ p ≠ n.id) ∧
      o = (p, .requestVote n.currentTerm n.id n.log.lastIndex n.log.lastTerm) := by
  simp only [voteRequests, mem_map, mem_filter, decide_eq_true_eq]
  exact exists_congr fun p => and_congr_right fun _ => eq_comm

def slots : List ℕ :=
  [n.votes.length, n.nextIndex.length, n.matchIndex.length, n.contacted.length]

section Fields

variable (n : RaftNode)

theorem advanceCommit_eq : ∃ idx, n.advanceCommit = { n with commitIndex := idx } := by
  unfold advanceCommit
  dsimp only
  split
  · exact ⟨_, rfl⟩
  · exact ⟨n.commitIndex, rfl⟩

@[simp] theorem advanceCommit_fields :
    n.advanceCommit.id = n.id ∧ n.advanceCommit.peers = n.peers ∧ n.advanceCommit.role = n.role ∧
      n.advanceCommit.currentTerm = n.currentTerm ∧ n.advanceCommit.votedFor = n.votedFor ∧
      n.advanceCommit.log = n.log ∧ n.advanceCommit.lastApplied = n.lastApplied ∧
      n.advanceCommit.votes = n.votes ∧ n.advanceCommit.nextIndex = n.nextIndex ∧
      n.advanceCommit.matchIndex = n.matchIndex ∧ n.advanceCommit.contacted = n.contacted ∧
      n.advanceCommit.sinceMajority = n.sinceMajority ∧
      n.advanceCommit.electionTimeout = n.electionTimeout := by
  obtain ⟨idx, h⟩ := n.advanceCommit_eq
  simp [h]

end Fields

theorem asCandidate_slots : n.asCandidate.slots = n.slots := by
  simp [asCandidate, slots]

theorem asLeader_slots : n.asLeader.slots = n.slots := by
  simp [asLeader, slots, length_foldl_set]

theorem safeCompactIndex_le : n.safeCompactIndex ≤ n.lastApplied := by
  unfold safeCompactIndex
  split
  · exact Nat.min_le_right _ _
  · exact Nat.le_refl _

theorem appendAll_fields [Crc32fast] (log : RaftLog) (idx : ℕ) (es : List Entry) :
    (appendAll log idx es).1.term = log.term ∧ (appendAll log idx es).1.vote = log.vote ∧
      (appendAll log idx es).1.snapshotIndex = log.snapshotIndex := by
  induction es generalizing log idx with
  | nil => exact ⟨rfl, rfl, rfl⟩
  | cons e es ih =>
    simp only [appendAll]
    split_ifs <;> simp [ih]

theorem appendAll_snd [Crc32fast] (log : RaftLog) (idx : ℕ) (es : List Entry) :
    (appendAll log idx es).2 = (es.getLast?.map Entry.index).getD idx := by
  induction es generalizing log idx with
  | nil => rfl
  | cons e es ih =>
    rw [getLast?_cons]
    simp only [appendAll]
    split_ifs <;> rw [ih] <;> cases es.getLast? <;> rfl

theorem advanceCommit_cases : n.advanceCommit = n ∨
    ∃ idx, n.commitIndex < idx ∧ idx ≤ n.log.lastIndex ∧ n.log.termAt idx = n.currentTerm ∧
      n.majority ≤ n.replicas idx ∧ n.advanceCommit = { n with commitIndex := idx } := by
  unfold advanceCommit
  dsimp only
  split
  · rename_i idx hfind
    have hmem := mem_of_find?_eq_some hfind
    have hcond := find?_some hfind
    rw [mem_reverse, mem_range'_1] at hmem
    rw [decide_eq_true_eq] at hcond
    exact .inr ⟨idx, by omega, by omega, hcond.1, hcond.2, rfl⟩
  · exact .inl rfl

theorem le_observeTerm_currentTerm (term : ℕ) :
    term ≤ (n.observeTerm term).currentTerm := by
  unfold observeTerm
  split
  · simp [becomeFollower]
  · rename_i h
    exact Nat.not_lt.1 h

theorem observeTerm_eq_or (term : ℕ) :
    (n.observeTerm term).role = .follower ∨ n.observeTerm term = n := by
  unfold observeTerm
  split
  · exact .inl (by simp [becomeFollower])
  · exact .inr rfl

theorem observeTerm_eq_of_role_ne {n : RaftNode} {term : ℕ}
    (h : (n.observeTerm term).role ≠ .follower) : n.observeTerm term = n :=
  (n.observeTerm_eq_or term).resolve_left h

end RaftNode

end BonsaiGrid.Raft
