import BonsaiGrid.Consensus.Ballot
import BonsaiGrid.Lib.Simulation
import BonsaiGrid.Raft.Calls

/-!
# Elections

The group refines the ballots: the term and the vote of a node are those of the member, adopting a
term, voting, starting an election and winning one are the four steps of a ballot, and every other
call leaves the ballots alone.
-/

namespace BonsaiGrid.Raft

open Consensus Ballot List Cluster

/-- The node `n` of member `i` agrees with the ballots. -/
structure NodeElection (g : Group) (b : Ballot NodeId) (i : NodeId) (n : RaftNode) : Prop where
  id : n.id = i
  peers : n.peers = g.peers i
  slots : ∀ p ∈ g.members, ∀ size ∈ n.slots, p < size
  term : b.term i = n.currentTerm
  vote : b.vote i n.currentTerm = n.votedFor
  log_term : n.log.term = n.currentTerm
  log_vote : n.log.vote = n.votedFor
  self_vote : n.role ≠ .follower → n.votedFor = some i
  running : n.role = .candidate → b.leader n.currentTerm ≠ some i
  votes_mem : n.role = .candidate → ∀ p, n.votes[p]? = some true → p ∈ g.members
  votes : n.role = .candidate → ∀ p, n.votes[p]? = some true → b.vote p n.currentTerm = some i
  leader : n.role = .leader → b.leader n.currentTerm = some i

/-- What a message from `src` to `dst` says about the ballots. -/
def MsgElection (b : Ballot NodeId) (src dst : NodeId) : RaftMsg → Prop
  | .requestVote _ candidate _ _ => candidate = src ∧ src ≠ dst
  | .requestVoteResp term granted => granted = true → b.vote src term = some dst
  | .appendEntries _ leader _ _ _ _ => leader = src
  | .appendEntriesResp _ _ _ => True

/-- The members, the messages between them, and the ballots agree. -/
structure ElectionRel (g : Group) (w : Cluster) (b : Ballot NodeId) : Prop where
  inv : b.Inv (majorities g.members)
  node : ∀ i ∈ g.members, NodeElection g b i (w.nodes i)
  src_mem : ∀ p ∈ w.sent, p.src ∈ g.members
  dst_mem : ∀ p ∈ w.sent, p.dst ∈ g.members
  msg : ∀ p ∈ w.sent, MsgElection b p.src p.dst p.msg

variable {b b' : Ballot NodeId}

theorem MsgElection.mono (hext : b.Extends b') {src dst : NodeId}
    {msg : RaftMsg} (h : MsgElection b src dst msg) : MsgElection b' src dst msg := by
  cases msg with
  | requestVoteResp term granted => exact fun hg => hext.vote _ _ _ (h hg)
  | _ => exact h

variable {g : Group}

theorem NodeElection.of_step {i j : NodeId} {n : RaftNode}
    (h : NodeElection g b j n) (hb : b.Inv (majorities g.members))
    (hstep : Ballot.Step (majorities g.members) i b b') (hij : j ≠ i) : NodeElection g b' j n :=
  { h with
    term := (hstep.frame hij).1.trans h.term
    vote := by
      rw [(hstep.frame hij).2.1]
      exact h.vote
    running := fun hr hl => h.running hr ((hstep.frame hij).2.2 _ hl)
    votes := fun hr p hp => (hstep.extends hb).vote _ _ _ (h.votes hr p hp)
    leader := fun hr => (hstep.extends hb).leader _ _ (h.leader hr) }

/-- `n'` is `n` after a call that takes no part in elections: the term and the
vote are kept, and so is the role, with the votes counted in it, unless the node
has become a follower. -/
structure Quiet (n n' : RaftNode) : Prop where
  id : n'.id = n.id
  peers : n'.peers = n.peers
  slots : n'.slots = n.slots
  term : n'.currentTerm = n.currentTerm
  vote : n'.votedFor = n.votedFor
  log_term : n'.log.term = n.log.term
  log_vote : n'.log.vote = n.log.vote
  role : n'.role = .follower ∨ n'.role = n.role ∧ n'.votes = n.votes

namespace Quiet

variable (n : RaftNode)

theorem refl : Quiet n n :=
  ⟨rfl, rfl, rfl, rfl, rfl, rfl, rfl, .inr ⟨rfl, rfl⟩⟩

variable {n} in
theorem trans {n' n'' : RaftNode} (h : Quiet n n') (h' : Quiet n' n'') : Quiet n n'' := by
  refine ⟨h'.id.trans h.id, h'.peers.trans h.peers, h'.slots.trans h.slots, h'.term.trans h.term,
    h'.vote.trans h.vote, h'.log_term.trans h.log_term, h'.log_vote.trans h.log_vote, ?_⟩
  rcases h'.role with hf | ⟨hr', hv'⟩
  · exact .inl hf
  · rw [hr', hv']
    exact h.role

theorem wait : Quiet n { n with elapsed := n.elapsed + 1 } :=
  ⟨rfl, rfl, rfl, rfl, rfl, rfl, rfl, .inr ⟨rfl, rfl⟩⟩

theorem leaderTick : Quiet n n.leaderTick :=
  ⟨rfl, rfl, rfl, rfl, rfl, rfl, rfl, .inr ⟨rfl, rfl⟩⟩

theorem heartbeat : Quiet n n.leaderTick.freshRound := by
  constructor <;> simp [RaftNode.leaderTick, RaftNode.freshRound, RaftNode.slots]

theorem follow (leader : NodeId) : Quiet n (n.follow leader) := by
  constructor <;> simp [RaftNode.follow, RaftNode.slots]

theorem append [Crc32fast] (leader : NodeId) (idx : ℕ) (es : List Entry) (leaderCommit : ℕ) :
    Quiet n ((n.follow leader).withEntries (RaftNode.appendAll n.log idx es).1 leaderCommit) := by
  constructor <;>
    simp [RaftNode.follow, RaftNode.withEntries, RaftNode.slots,
      RaftNode.appendAll_fields]

theorem advanceCommit : Quiet n n.advanceCommit := by
  constructor <;> simp [RaftNode.slots]

theorem withAck (src : NodeId) (matchIndex : ℕ) : Quiet n (n.withAck src matchIndex) := by
  constructor <;> simp [RaftNode.withAck, RaftNode.slots]

theorem backOff (src : NodeId) : Quiet n (n.backOff src) := by
  constructor <;> simp [RaftNode.backOff, RaftNode.slots]

theorem withCommand [Crc32fast] (command : Bytes) : Quiet n (n.withCommand command) := by
  constructor <;> simp [RaftNode.withCommand, RaftNode.slots]

theorem propose [Crc32fast] (command : Bytes) : Quiet n (n.propose command).1 := by
  unfold RaftNode.propose
  split
  · exact refl n
  · exact (withCommand n command).trans (advanceCommit _)

theorem takeCommitted : Quiet n n.takeCommitted.1 :=
  ⟨rfl, rfl, rfl, rfl, rfl, rfl, rfl, .inr ⟨rfl, rfl⟩⟩

theorem maybeCompact (keep : ℕ) : Quiet n (n.maybeCompact keep) := by
  unfold RaftNode.maybeCompact
  split <;> constructor <;> simp [RaftNode.slots]

end Quiet

theorem NodeElection.of_quiet {b : Ballot NodeId} {i : NodeId} {n n' : RaftNode}
    (h : NodeElection g b i n) (hq : Quiet n n') : NodeElection g b i n' := by
  have hvotes : n'.role = .candidate → n.role = .candidate ∧ n'.votes = n.votes := by
    intro hr
    rcases hq.role with hf | ⟨hr', hv⟩
    · rw [hf] at hr
      cases hr
    · exact ⟨hr' ▸ hr, hv⟩
  refine ⟨hq.id.trans h.id, hq.peers.trans h.peers, hq.slots ▸ h.slots, by rw [hq.term, h.term],
    by rw [hq.term, hq.vote, h.vote], by rw [hq.log_term, hq.term, h.log_term],
    by rw [hq.log_vote, hq.vote, h.log_vote], ?_, ?_, ?_, ?_, ?_⟩
  · intro hr
    rw [hq.vote]
    rcases hq.role with hf | ⟨hr', -⟩
    · exact absurd hf hr
    · exact h.self_vote (hr' ▸ hr)
  · intro hr
    rw [hq.term]
    exact h.running (hvotes hr).1
  · intro hr
    rw [(hvotes hr).2]
    exact h.votes_mem (hvotes hr).1
  · intro hr
    rw [(hvotes hr).2, hq.term]
    exact h.votes (hvotes hr).1
  · intro hr
    rw [hq.term]
    rcases hq.role with hf | ⟨hr', -⟩
    · rw [hf] at hr
      cases hr
    · exact h.leader (hr' ▸ hr)

theorem NodeElection.boot {b : Ballot NodeId} {i : NodeId} (hi : i ∈ g.members)
    {log : RaftLog} (hterm : b.term i = log.term) (hvote : b.vote i log.term = log.vote)
    (seed : UInt64) (heartbeat : Option ℕ) :
    NodeElection g b i (g.boot i log seed heartbeat) := by
  constructor
  case slots =>
    intro p hp size hsize
    exact Group.lt_of_mem_boot_slots g i log seed heartbeat ((g.mem_peers i hi p).2 hp) hsize
  all_goals simp [hterm, hvote]

namespace ElectionRel

variable {g : Group} {w : Cluster} {b b' : Ballot NodeId} {i : NodeId} {n : RaftNode} {out : Out}

section

variable (h : ElectionRel g w b)

include h

section

variable (hi : i ∈ g.members)

include hi

theorem put (hinv : b'.Inv (majorities g.members))
    (hother : ∀ j ∈ g.members, j ≠ i → NodeElection g b' j (w.nodes j))
    (hold : ∀ p ∈ w.sent, MsgElection b' p.src p.dst p.msg) (hn : NodeElection g b' i n)
    (hout : ∀ o ∈ out, o.1 ∈ g.members ∧ MsgElection b' i o.1 o.2) :
    ElectionRel g (w.put i (n, out)) b' := by
  refine ⟨hinv, fun j hj => ?_, fun p hp => ?_, fun p hp => ?_, fun p hp => ?_⟩
  · by_cases hij : j = i
    · subst hij
      rw [put_nodes_self]
      exact hn
    · rw [put_nodes_of_ne _ _ hij]
      exact hother j hj hij
  all_goals
    rw [put_sent, mem_append, mem_map] at hp
    rcases hp with hp | ⟨o, ho, rfl⟩
  · exact h.src_mem p hp
  · exact hi
  · exact h.dst_mem p hp
  · exact (hout o ho).1
  · exact hold p hp
  · exact (hout o ho).2

theorem put_same (hn : NodeElection g b i n)
    (hout : ∀ o ∈ out, o.1 ∈ g.members ∧ MsgElection b i o.1 o.2) :
    ElectionRel g (w.put i (n, out)) b :=
  h.put hi h.inv (fun j hj _ => h.node j hj) h.msg hn hout

theorem put_step
    (hstep : Ballot.Step (majorities g.members) i b b') (hn : NodeElection g b' i n)
    (hout : ∀ o ∈ out, o.1 ∈ g.members ∧ MsgElection b' i o.1 o.2) :
    ElectionRel g (w.put i (n, out)) b' :=
  h.put hi (hstep.inv h.inv) (fun j hj hij => (h.node j hj).of_step h.inv hstep hij)
    (fun p hp => (h.msg p hp).mono (hstep.extends h.inv)) hn hout

theorem mem_peers {j : NodeId} :
    j ∈ (w.nodes i).peers ↔ j ∈ g.members := by
  rw [(h.node i hi).peers]
  exact g.mem_peers i hi j

theorem becomeFollower {t : ℕ}
    (ht : (w.nodes i).currentTerm < t) :
    ElectionRel g (w.put i ((w.nodes i).becomeFollower t, [])) (b.adopt i t) := by
  have hn := h.node i hi
  have hlt : b.term i < t := hn.term.trans_lt ht
  refine h.put_step hi (Ballot.Step.adopt t hlt) ?_ (by simp)
  constructor
  case slots => simpa [RaftNode.becomeFollower, RaftNode.slots] using hn.slots
  case vote =>
    have hnone : b.vote i t = none := by
      by_contra hne
      obtain ⟨c, hc⟩ := Option.ne_none_iff_exists'.1 hne
      exact absurd (h.inv.vote_le i t c hc) (Nat.not_le.2 hlt)
    simpa [RaftNode.becomeFollower, adopt] using hnone
  all_goals simp [RaftNode.becomeFollower, adopt, hn.id, hn.peers]

theorem withVote {c : NodeId} (hc : c ∈ g.members)
    (hvote : (w.nodes i).votedFor = none ∨ (w.nodes i).votedFor = some c) :
    ElectionRel g (w.put i ((w.nodes i).withVote c,
      [(c, .requestVoteResp (w.nodes i).currentTerm true)])) (b.grant i c) := by
  have hn := h.node i hi
  have hguard : b.vote i (b.term i) = none ∨ b.vote i (b.term i) = some c := by
    rw [hn.term, hn.vote]
    exact hvote
  have hext : b.Extends (b.grant i c) := extends_grant hguard
  have hcast : (b.grant i c).vote i (w.nodes i).currentTerm = some c := by
    simp [grant, hn.term]
  refine h.put_step hi (Ballot.Step.grant c hguard) ?_ ?_
  · constructor
    case votes =>
      intro hr p hp
      exact hext.vote _ _ _ (hn.votes hr p hp)
    case vote => simpa [RaftNode.withVote] using hcast
    case slots => simpa [RaftNode.withVote, RaftNode.slots] using hn.slots
    case self_vote =>
      simp only [RaftNode.withVote, RaftNode.resetElectionTimeout_role,
        RaftNode.resetElectionTimeout_votedFor]
      intro hr
      rw [hn.self_vote hr] at hvote
      simpa [eq_comm] using hvote
    case running => simpa [RaftNode.withVote, grant] using hn.running
    case votes_mem => simpa [RaftNode.withVote] using hn.votes_mem
    case leader => simpa [RaftNode.withVote, grant] using hn.leader
    all_goals simp [RaftNode.withVote, grant, hn.id, hn.peers, hn.term]
  · simpa [MsgElection, hc] using hcast

theorem asCandidate :
    ElectionRel g (w.put i ((w.nodes i).asCandidate, (w.nodes i).asCandidate.voteRequests))
      (b.campaign i) := by
  have hn := h.node i hi
  have hcast : (b.campaign i).vote i ((w.nodes i).currentTerm + 1) = some i := by
    simp [campaign, grant, adopt, hn.term]
  have hself : ∀ p, (((w.nodes i).votes.map fun _ => false).set (w.nodes i).id true)[p]? =
      some true → p = i := by
    intro p hp
    by_contra hne
    rw [hn.id, getElem?_set_ne (fun h => hne h.symm), getElem?_map] at hp
    cases hv : (w.nodes i).votes[p]? <;> simp [hv] at hp
  refine h.put_step hi Ballot.Step.campaign ?_ ?_
  · constructor
    case slots =>
      rw [RaftNode.asCandidate_slots]
      exact hn.slots
    case vote => simpa [RaftNode.asCandidate, hn.id] using hcast
    case running =>
      intro _ hl
      have hle := h.inv.leader_le _ _ hl
      rw [hn.term] at hle
      exact Nat.not_succ_le_self _ hle
    case votes_mem =>
      intro _ p hp
      rw [hself p hp]
      exact hi
    case votes =>
      intro _ p hp
      rw [hself p hp]
      exact hcast
    all_goals simp [RaftNode.asCandidate, campaign, grant, adopt, hn.id, hn.peers, hn.term]
  · intro o ho
    obtain ⟨p, ⟨hp, hne⟩, rfl⟩ := RaftNode.mem_voteRequests.1 ho
    simp only [RaftNode.asCandidate, RaftNode.resetElectionTimeout_peers,
      RaftNode.resetElectionTimeout_id] at hp hne ⊢
    rw [hn.id] at hne
    exact ⟨(h.mem_peers hi).1 hp, hn.id, hne.symm⟩

theorem card_members :
    g.members.card = (w.nodes i).peers.length := by
  rw [(h.node i hi).peers, ← toFinset_card_of_nodup (g.nodup i hi)]
  congr 1
  ext p
  rw [mem_toFinset, g.mem_peers i hi]

theorem isQuorum_votes
    (hrole : (w.nodes i).role = .candidate)
    (hcount : (w.nodes i).majority ≤ (w.nodes i).votes.count true) :
    (majorities g.members).IsQuorum {p | b.vote p (w.nodes i).currentTerm = some i} := by
  have hn := h.node i hi
  refine majorities_isQuorum_of_count (hn.votes_mem hrole) (hn.votes hrole) ?_
  rw [h.card_members hi]
  exact hcount

theorem asLeader
    (hrole : (w.nodes i).role = .candidate)
    (hcount : (w.nodes i).majority ≤ (w.nodes i).votes.count true) :
    ElectionRel g (w.put i ((w.nodes i).asLeader, (w.nodes i).asLeader.broadcastAppend))
      (b.elect i) := by
  have hn := h.node i hi
  have hq := h.isQuorum_votes hi hrole hcount
  have hne := hn.running hrole
  rw [← hn.term] at hq hne
  refine h.put_step hi (Ballot.Step.elect hne hq) ?_ ?_
  · exact { hn with
      slots := by
        rw [RaftNode.asLeader_slots]
        exact hn.slots
      self_vote := fun _ => hn.self_vote (by rw [hrole]; decide)
      running := by simp [RaftNode.asLeader]
      votes_mem := by simp [RaftNode.asLeader]
      votes := by simp [RaftNode.asLeader]
      leader := by simp [RaftNode.asLeader, elect, hn.term] }
  · intro o ho
    obtain ⟨p, ⟨hp, -⟩, rfl⟩ := RaftNode.mem_broadcastAppend.1 ho
    exact ⟨(h.mem_peers hi).1 hp, hn.id⟩

end

variable {p : Packet}

theorem count (hp : p ∈ w.sent)
    (hm : p.msg = .requestVoteResp (w.nodes p.dst).currentTerm true) :
    ElectionRel g (w.put p.dst
      ({ w.nodes p.dst with votes := (w.nodes p.dst).votes.set p.src true }, [])) b := by
  have hn := h.node p.dst (h.dst_mem p hp)
  have hcast : b.vote p.src (w.nodes p.dst).currentTerm = some p.dst := by
    have := h.msg p hp
    rw [hm] at this
    exact this rfl
  have hvotes : ∀ q, ((w.nodes p.dst).votes.set p.src true)[q]? = some true →
      q = p.src ∨ (w.nodes p.dst).votes[q]? = some true := by
    intro q hq
    by_cases hne : q = p.src
    · exact .inl hne
    · rw [getElem?_set_ne (fun h => hne h.symm)] at hq
      exact .inr hq
  refine h.put_same (h.dst_mem p hp) ⟨hn.id, hn.peers, ?_, hn.term, hn.vote, hn.log_term,
    hn.log_vote, hn.self_vote, hn.running, fun hr q hq => ?_, fun hr q hq => ?_, hn.leader⟩ (by simp)
  · simpa [RaftNode.slots] using hn.slots
  · rcases hvotes q hq with rfl | hq
    · exact h.src_mem p hp
    · exact hn.votes_mem hr q hq
  · rcases hvotes q hq with rfl | hq
    · exact hcast
    · exact hn.votes hr q hq

theorem quiet (hi : i ∈ g.members) (hq : Quiet (w.nodes i) n)
    (hout : ∀ o ∈ out, o.1 ∈ g.members ∧ MsgElection b i o.1 o.2) :
    ElectionRel g (w.put i (n, out)) b :=
  h.put_same hi ((h.node i hi).of_quiet hq) hout

theorem broadcastAppend (hi : i ∈ g.members) (hq : Quiet (w.nodes i) n) :
    ∀ o ∈ n.broadcastAppend, o.1 ∈ g.members ∧ MsgElection b i o.1 o.2 := by
  intro o ho
  obtain ⟨p, ⟨hp, -⟩, rfl⟩ := RaftNode.mem_broadcastAppend.1 ho
  rw [hq.peers] at hp
  exact ⟨(h.mem_peers hi).1 hp, hq.id.trans (h.node i hi).id⟩

theorem heartbeat (hi : i ∈ g.members) :
    ElectionRel g (w.put i ((w.nodes i).leaderTick.freshRound,
      (w.nodes i).leaderTick.freshRound.broadcastAppend)) b :=
  h.quiet hi (.heartbeat _) (h.broadcastAppend hi (.heartbeat _))

theorem candidate_mem (hp : p ∈ w.sent)
    {term candidate lastLogIndex lastLogTerm : ℕ}
    (hm : p.msg = .requestVote term candidate lastLogIndex lastLogTerm) :
    candidate = p.src ∧ candidate ∈ g.members := by
  have hmsg := h.msg p hp
  rw [hm] at hmsg
  obtain ⟨hsrc, -⟩ := hmsg
  exact ⟨hsrc, hsrc ▸ h.src_mem p hp⟩

theorem follower_of_vote (hp : p ∈ w.sent)
    {term candidate lastLogIndex lastLogTerm : ℕ}
    (hm : p.msg = .requestVote term candidate lastLogIndex lastLogTerm)
    (hvote : (w.nodes p.dst).votedFor = none ∨ (w.nodes p.dst).votedFor = some candidate) :
    (w.nodes p.dst).role = .follower := by
  have hmsg := h.msg p hp
  rw [hm] at hmsg
  obtain ⟨hsrc, hne⟩ := hmsg
  by_contra hrole
  rw [(h.node p.dst (h.dst_mem p hp)).self_vote hrole] at hvote
  rcases hvote with hv | hv
  · cases hv
  · exact hne (hsrc.symm.trans (Option.some.inj hv).symm)

theorem leader_mem (hp : p ∈ w.sent)
    {term leader prevLogIndex prevLogTerm : ℕ} {entries : List Entry} {leaderCommit : ℕ}
    (hm : p.msg = .appendEntries term leader prevLogIndex prevLogTerm entries leaderCommit) :
    leader = p.src ∧ leader ∈ g.members := by
  have hmsg := h.msg p hp
  rw [hm] at hmsg
  exact ⟨hmsg, hmsg ▸ h.src_mem p hp⟩

theorem reply (hp : p ∈ w.sent)
    (hq : Quiet (w.nodes p.dst) n) {dest : NodeId} (hdest : dest ∈ g.members) {msg : RaftMsg}
    (hmsg : MsgElection b p.dst dest msg) : ElectionRel g (w.put p.dst (n, [(dest, msg)])) b :=
  h.quiet (h.dst_mem p hp) hq (by simpa using ⟨hdest, hmsg⟩)

theorem backOff (hp : p ∈ w.sent) :
    ElectionRel g (w.put p.dst ((w.nodes p.dst).backOff p.src,
      ((w.nodes p.dst).backOff p.src).sendAppend p.src)) b :=
  h.reply hp (.backOff _ _) (h.src_mem p hp) (h.node p.dst (h.dst_mem p hp)).id

theorem withApplied (applied : NodeId → List (ℕ × Bytes)) :
    ElectionRel g { w with applied := applied } b :=
  ⟨h.inv, h.node, h.src_mem, h.dst_mem, h.msg⟩

theorem restart (hi : i ∈ g.members) {log : RaftLog}
    (hterm : log.term = (w.nodes i).log.term) (hvote : log.vote = (w.nodes i).log.vote)
    (seed : UInt64) (heartbeat : Option ℕ) :
    ElectionRel g (w.put i (g.boot i log seed heartbeat, [])) b := by
  have hn := h.node i hi
  rw [hn.log_term] at hterm
  rw [hn.log_vote] at hvote
  refine h.put_same hi (NodeElection.boot hi ?_ ?_ seed heartbeat) (by simp)
  · rw [hn.term, hterm]
  · rw [hterm, hn.vote, hvote]

end

end ElectionRel

def BallotStep (g : Group) (b b' : Ballot NodeId) : Prop :=
  ∃ p, Ballot.Step (majorities g.members) p b b'

theorem electionRel_init (g : Group) : ElectionRel g (Cluster.init g) init := by
  refine ⟨inv_init _, fun i hi => ?_, by simp [Cluster.init], by simp [Cluster.init],
    by simp [Cluster.init]⟩
  exact NodeElection.boot hi rfl rfl (g.seed i) (g.heartbeat i)

theorem ballotRun_extends
    (hrun : Relation.ReflTransGen (BallotStep g) b b') (hb : b.Inv (majorities g.members)) :
    b'.Inv (majorities g.members) ∧ b.Extends b' :=
  Simulation.run_invariant Ballot.Extends.refl (fun _ _ _ h h' => h.trans h')
    (fun _ _ hb ⟨_, hs⟩ => ⟨hs.inv hb, hs.extends hb⟩) hrun hb

section Rules

variable [Crc32fast]

theorem electionRules (g : Group) (w : Cluster) (c : Call) (b : Ballot NodeId) :
    CallRules g w c fun v =>
      ∃ b', Relation.ReflTransGen (BallotStep g) b b' ∧ ElectionRel g v b' where
  adopt := by
    rintro p hp ⟨b', hrun, h⟩ hlt
    have hi := h.dst_mem p hp
    refine ⟨_, hrun.tail ⟨p.dst, .adopt (msgTerm p.msg) ?_⟩, h.becomeFollower hi hlt⟩
    rwa [(h.node _ hi).term]
  wait := by
    rintro i ⟨b', hrun, h⟩ hi -
    exact ⟨b', hrun, h.quiet hi (.wait _) (by simp)⟩
  campaign := by
    rintro v i ⟨b', hrun, h⟩ hi -
    exact ⟨_, hrun.tail ⟨i, .campaign⟩, h.asCandidate hi⟩
  win := by
    rintro v i ⟨b', hrun, h⟩ hi hrole hcount - - -
    refine ⟨_, hrun.tail ⟨i, .elect ?_ ?_⟩, h.asLeader hi hrole hcount⟩
    · rw [(h.node i hi).term]
      exact (h.node i hi).running hrole
    · rw [(h.node i hi).term]
      exact h.isQuorum_votes hi hrole hcount
  leaderTick := by
    rintro i ⟨b', hrun, h⟩ hi -
    exact ⟨b', hrun, h.quiet hi (.leaderTick _) (by simp)⟩
  heartbeat := by
    rintro i - ⟨b', hrun, h⟩ hi -
    exact ⟨b', hrun, h.heartbeat hi⟩
  vote := by
    rintro v p term candidate lli llt ⟨b', hrun, h⟩ hp hm - hvote -
    have hi := h.dst_mem p hp
    refine ⟨_, hrun.tail ⟨p.dst, .grant candidate ?_⟩,
      h.withVote hi (h.candidate_mem hp hm).2 hvote⟩
    rw [(h.node _ hi).term, (h.node _ hi).vote]
    exact hvote
  refuse := by
    rintro v p term candidate lli llt ⟨b', hrun, h⟩ hp hm
    exact ⟨b', hrun, h.reply hp (.refl _) (h.candidate_mem hp hm).2 (fun hf => by cases hf)⟩
  count := by
    rintro v p ⟨b', hrun, h⟩ hp hm -
    exact ⟨b', hrun, h.count hp hm⟩
  append := by
    rintro k v p term leader prev prevTerm entries lc - ⟨b', hrun, h⟩ - hp hm - - -
    exact ⟨b', hrun, h.reply hp (.append _ _ _ _ _) (h.leader_mem hp hm).2 trivial⟩
  mismatch := by
    rintro v p term leader prev prevTerm entries lc ⟨b', hrun, h⟩ hp hm -
    exact ⟨b', hrun, h.reply hp (.follow _ _) (h.leader_mem hp hm).2 trivial⟩
  stale := by
    rintro v p term leader prev prevTerm entries lc ⟨b', hrun, h⟩ hp hm
    exact ⟨b', hrun, h.reply hp (.refl _) (h.leader_mem hp hm).2 trivial⟩
  ack := by
    rintro k p m - ⟨b', hrun, h⟩ hk - -
    exact ⟨b', hrun, h.quiet (h.dst_mem p (mem_of_getElem? hk))
      ((Quiet.withAck _ _ _).trans (.advanceCommit _)) (by simp)⟩
  backOff := by
    rintro k p m - ⟨b', hrun, h⟩ hk - -
    exact ⟨b', hrun, h.backOff (mem_of_getElem? hk)⟩
  propose := by
    rintro i command - ⟨b', hrun, h⟩ hi -
    exact ⟨b', hrun, h.quiet hi (.propose _ _) (by simp)⟩
  takeCommitted := by
    rintro i - ⟨b', hrun, h⟩ hi
    exact ⟨b', hrun, (h.quiet hi (.takeCommitted _) (by simp)).withApplied _⟩
  maybeCompact := by
    rintro i keep - ⟨b', hrun, h⟩ hi
    exact ⟨b', hrun, h.quiet hi (.maybeCompact _ _) (by simp)⟩
  restart := by
    rintro i log seed heartbeat - ⟨b', hrun, h⟩ ⟨hi, hterm, hvote⟩
    exact ⟨b', hrun, (h.restart hi hterm hvote seed heartbeat).withApplied _⟩

theorem election_forward (g : Group) (ok : Cluster → Call → Prop) :
    Simulation.Forward (Cluster.Step g ok) (BallotStep g) (ElectionRel g) := by
  rintro w w' b h ⟨c, hvalid, -, rfl⟩
  exact (electionRules g w c b).exec hvalid h.dst_mem ⟨b, .refl, h⟩

/-- Election safety: in a run with any calls, restarts included, at most one
node is ever the leader of a term. The two leaders may be so in different
states of the run. -/
theorem leader_unique (g : Group) (w w' : Cluster) (i j : NodeId) (hi : i ∈ g.members)
    (hj : j ∈ g.members) (hw : Cluster.Reachable g (fun _ _ => True) w)
    (hrun : Cluster.Run g (fun _ _ => True) w w') (hli : (w.nodes i).role = .leader)
    (hlj : (w'.nodes j).role = .leader)
    (hterm : (w.nodes i).currentTerm = (w'.nodes j).currentTerm) : i = j := by
  obtain ⟨b, -, h⟩ := (election_forward g _).run hw (electionRel_init g)
  obtain ⟨b', hbb', h'⟩ := (election_forward g _).run hrun h
  have hext := (ballotRun_extends hbb' h.inv).2
  have hleader := hext.leader _ _ ((h.node i hi).leader hli)
  rw [hterm, (h'.node j hj).leader hlj] at hleader
  exact (Option.some.inj hleader).symm

end Rules

set_option maxRecDepth 100000 in
/-- A leader of a later state is the leader that was elected. -/
theorem leader_unique_firstElection :
    let w := (init threeNodes).execAll threeNodes firstElection
    let w' := w.execAll threeNodes [.tick 0, .tick 1]
    (w.nodes 0).role = .leader ∧ (w.nodes 0).currentTerm = 1 ∧ (w'.nodes 0).role = .leader ∧
      0 = 0 :=
  ⟨by decide +kernel, by decide +kernel, by decide +kernel,
    leader_unique threeNodes _ _ 0 0 (by decide) (by decide)
      (run_execAll firstElection (by decide +kernel))
      (run_execAll [.tick 0, .tick 1] (by decide +kernel))
      (by decide +kernel) (by decide +kernel) (by decide +kernel)⟩

end BonsaiGrid.Raft
