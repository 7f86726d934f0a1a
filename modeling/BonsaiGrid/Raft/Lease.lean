import BonsaiGrid.Raft.Safety

/-!
# Reads under the leader's lease

A leader that a majority has confirmed within its election timeout answers reads from its own
state. Such a read is up to date if no other node knows more to be committed than the leader does.
-/

namespace BonsaiGrid.Raft

open Function Consensus Consensus.Replog RaftNode Cluster List Nat

/-- Everything a node knows to be committed: what it has handed to its state
machine, and what it would hand out now. -/
def Cluster.committed (w : Cluster) (i : NodeId) : List (ℕ × Bytes) :=
  w.applied i ++ (w.nodes i).takeCommitted.2

/-- A node with the lease knows everything that any node knows to be committed. -/
def LeaseReads (g : Group) (w : Cluster) : Prop :=
  ∀ i ∈ g.members, (w.nodes i).hasReadLease = true → ∀ j ∈ g.members,
    (w.nodes j).commitIndex ≤ (w.nodes i).commitIndex ∧ w.committed j <+: w.committed i

variable {n : RaftNode}

namespace RaftNode

theorem count_true_set_le (l : List Bool) (i : ℕ) :
    ((l.map fun _ => false).set i true).count true ≤ 1 := by
  have hzero : (l.map fun _ => false).count true = 0 := by
    rw [map_const', count_replicate]
    rfl
  by_cases hi : i < (l.map fun _ => false).length
  · rw [count_set hi, hzero]
    simp
  · rw [set_eq_of_length_le (not_lt.1 hi), hzero]
    exact zero_le 1

theorem hasReadLease_iff :
    n.hasReadLease = true ↔ n.role = .leader ∧ n.sinceMajority < n.electionTimeout := by
  rw [hasReadLease, Bool.and_eq_true, decide_eq_true_eq, decide_eq_true_eq]

theorem hasReadLease_of_leaderTick (h : n.leaderTick.hasReadLease = true) :
    n.hasReadLease = true := by
  obtain ⟨hlead, hsince⟩ := hasReadLease_iff.1 h
  exact hasReadLease_iff.2 ⟨hlead, (lt_succ_self _).trans hsince⟩

/-- The first entry that is not committed, if any, is of the node's own term. -/
def Fresh (n : RaftNode) : Prop :=
  n.commitIndex = n.log.lastIndex ∨ n.log.termAt (n.commitIndex + 1) = n.currentTerm

instance (n : RaftNode) : Decidable n.Fresh := inferInstanceAs (Decidable (_ ∨ _))

/-- With the acknowledgement a majority has an entry of the node's own term that is not committed
yet. -/
def Completes (n : RaftNode) (src : NodeId) (matchIndex : ℕ) : Prop :=
  ∃ idx ∈ range' (n.commitIndex + 1) (n.log.lastIndex - n.commitIndex),
    n.log.termAt idx = n.currentTerm ∧ n.majority ≤ n.peers.countP fun p =>
      idx ≤ (n.matchIndex.set src (max (n.matchIndex.getD src 0) matchIndex)).getD p 0

instance (n : RaftNode) (src : NodeId) (matchIndex : ℕ) : Decidable (n.Completes src matchIndex) :=
  inferInstanceAs (Decidable (∃ idx ∈ _, _))

theorem advanceCommit_of_completes {src : NodeId} {matchIndex : ℕ}
    (h : n.Completes src matchIndex) :
    ∃ idx, n.commitIndex < idx ∧ n.log.termAt idx = n.currentTerm ∧
      (n.withAck src matchIndex).advanceCommit.commitIndex = idx := by
  obtain ⟨k, hk, hterm, hcount⟩ := h
  rcases (n.withAck src matchIndex).advanceCommit_cases with hsame | ⟨idx, hlt, -, hown, -, heq⟩
  · -- there is an entry to be committed, so that the search does not fail
    unfold advanceCommit at hsame
    dsimp only at hsame
    split at hsame
    next idx hfind =>
      have hmem := mem_of_find?_eq_some hfind
      rw [mem_reverse, mem_range'_1] at hmem
      have hidx : idx = n.commitIndex := congrArg RaftNode.commitIndex hsame
      change n.commitIndex + 1 ≤ idx ∧ _ at hmem
      omega
    next hfind =>
      rw [find?_eq_none] at hfind
      exact absurd (decide_eq_true (p := _ ∧ _) ⟨hterm, hcount⟩) (hfind k (mem_reverse.2 hk))
  · exact ⟨idx, hlt, hown, by rw [heq]⟩

/-- A node that is not a leader becomes one by a vote that completes a majority in its term. -/
theorem elected_of_step [Crc32fast] {src : NodeId} {msg : RaftMsg} (hnot : n.role ≠ .leader)
    (hlead : (n.step src msg).1.role = .leader) :
    n.role = .candidate ∧ msg = .requestVoteResp n.currentTerm true ∧
      n.majority ≤ (n.votes.set src true).count true ∧
      (n.step src msg).1.currentTerm = n.currentTerm := by
  have hobserved : (n.observeTerm (msgTerm msg)).role ≠ .leader := by
    rcases n.observeTerm_eq_or (msgTerm msg) with hrole | hsame
    · rw [hrole]
      decide
    · rw [hsame]
      exact hnot
  rw [step] at hlead ⊢
  cases msg with
  | requestVote term candidate lastLogIndex lastLogTerm =>
    refine absurd hlead ?_
    rw [handle, onRequestVote]
    split
    next => simpa [withVote] using hobserved
    next => exact hobserved
  | requestVoteResp term granted =>
    rw [handle, onVoteResp] at hlead ⊢
    split at hlead
    next => exact absurd hlead hobserved
    next hguard =>
      obtain ⟨hrole, hterm⟩ := not_or.1 hguard
      rw [not_not] at hrole hterm
      have hsame : n.observeTerm (msgTerm (.requestVoteResp term granted)) = n :=
        observeTerm_eq_of_role_ne (by rw [hrole]; decide)
      rw [hsame] at hrole hterm hlead ⊢
      subst hterm
      cases granted with
      | false => exact absurd hlead hnot
      | true =>
        rw [if_pos rfl, maybeBecomeLeader, if_neg (not_not.2 hrole)] at hlead
        rw [if_neg (by simp [hrole]), if_pos rfl, maybeBecomeLeader, if_neg (not_not.2 hrole)]
        split at hlead
        next hcount => exact ⟨hrole, rfl, hcount, by rw [if_pos hcount]; rfl⟩
        next => exact absurd hlead hnot
  | appendEntries term leader prevLogIndex prevLogTerm entries leaderCommit =>
    refine absurd hlead ?_
    rw [handle, onAppend]
    split
    next =>
      split
      next => simp [withEntries, follow]
      next => simp [follow]
    next => exact hobserved
  | appendEntriesResp term success matchIndex =>
    refine absurd hlead ?_
    rw [handle, onAppendResp, if_pos (.inl hobserved)]
    exact hobserved

/-- A clock alone makes a node leader only in a group of one. -/
theorem majority_of_tick (hnot : n.role ≠ .leader) (hlead : n.tick.1.role = .leader) :
    n.tick.1.majority ≤ 1 := by
  unfold tick at hlead ⊢
  split at hlead
  next hrole => exact absurd hrole hnot
  next =>
    dsimp only at hlead ⊢
    split at hlead
    next htimeout =>
      rw [if_pos htimeout]
      unfold startElection maybeBecomeLeader at hlead ⊢
      rw [if_neg (by simp [asCandidate])] at hlead ⊢
      split at hlead
      next hcount =>
        rw [if_pos hcount]
        exact hcount.trans (count_true_set_le n.votes n.id)
      next => simp [asCandidate] at hlead
    next => exact absurd hlead hnot

end RaftNode

namespace RaftMsg

def isAppend : RaftMsg → Bool
  | .appendEntries _ _ _ _ _ _ => true
  | _ => false

def acknowledges (term : ℕ) : RaftMsg → Option ℕ
  | .appendEntriesResp t true matchIndex => if t = term then some matchIndex else none
  | _ => none

end RaftMsg

/-- A vote that makes its candidate the leader finds no node with the lease in an earlier term. -/
def ElectionGuard (g : Group) (w : Cluster) (p : Packet) : Prop :=
  (w.nodes p.dst).role = .candidate →
    p.msg = .requestVoteResp (w.nodes p.dst).currentTerm true →
      (w.nodes p.dst).majority ≤ ((w.nodes p.dst).votes.set p.src true).count true →
        ∀ j ∈ g.members, (w.nodes j).hasReadLease = true →
          (w.nodes p.dst).currentTerm ≤ (w.nodes j).currentTerm

/-- An acknowledgement that completes a majority, and so renews the lease, finds the leader without
a successor, and either with no uncommitted entry of an earlier term or with an entry of its own
term that the acknowledgement commits. -/
def RenewalGuard (w : Cluster) (p : Packet) : Prop :=
  (w.nodes p.dst).role = .leader →
    ∀ matchIndex ∈ p.msg.acknowledges (w.nodes p.dst).currentTerm,
      (w.nodes p.dst).majority ≤ ((w.nodes p.dst).contacted.set p.src true).count true →
        (∀ q ∈ w.sent, q.msg.isAppend = true → msgTerm q.msg ≤ (w.nodes p.dst).currentTerm) ∧
          ((w.nodes p.dst).Fresh ∨ (w.nodes p.dst).Completes p.src matchIndex)

instance (g : Group) (w : Cluster) (p : Packet) : Decidable (ElectionGuard g w p) :=
  inferInstanceAs (Decidable (_ → _))

instance (w : Cluster) (p : Packet) : Decidable (RenewalGuard w p) :=
  inferInstanceAs (Decidable (_ → _))

/-- No node is elected in a term after that of a node with the lease, leases are renewed as in
`RenewalGuard`, and nodes do not restart. -/
def LeaseGuard (g : Group) (w : Cluster) (c : Call) : Prop :=
  (∀ p ∈ w.packet? c, ElectionGuard g w p ∧ RenewalGuard w p) ∧ c.isRestart = false

instance (g : Group) (w : Cluster) (c : Call) : Decidable (LeaseGuard g w c) :=
  inferInstanceAs (Decidable (_ ∧ _))

/-- A node becomes the leader by a vote, unless it is alone. -/
theorem elected_of_exec [Crc32fast] {g : Group} {w : Cluster} {c : Call} {i : NodeId}
    (hrestart : c.isRestart = false) (hnot : (w.nodes i).role ≠ .leader)
    (hlead : ((w.exec g c).nodes i).role = .leader) :
    ((w.exec g c).nodes i).majority ≤ 1 ∨ ∃ p ∈ w.packet? c, p.dst = i ∧
      (w.nodes i).role = .candidate ∧
      p.msg = .requestVoteResp (w.nodes i).currentTerm true ∧
      (w.nodes i).majority ≤ ((w.nodes i).votes.set p.src true).count true ∧
      ((w.exec g c).nodes i).currentTerm = (w.nodes i).currentTerm := by
  have hput : ∀ {k : NodeId} {r : RaftNode × Out}, ((w.put k r).nodes i).role = .leader →
      k = i ∧ r.1.role = .leader := by
    intro k r h
    by_cases hki : i = k
    · subst hki
      rw [put_nodes_self] at h
      exact ⟨rfl, h⟩
    · rw [put_nodes_of_ne _ _ hki] at h
      exact absurd h hnot
  cases c with
  | tick k =>
    obtain ⟨rfl, hrole⟩ := hput hlead
    left
    rw [exec, put_nodes_self]
    exact majority_of_tick hnot hrole
  | deliver k =>
    right
    rw [exec] at hlead ⊢
    cases hk : w.sent[k]? with
    | none =>
      rw [hk] at hlead
      exact absurd hlead hnot
    | some p =>
      rw [hk] at hlead
      obtain ⟨rfl, hrole⟩ := hput hlead
      obtain ⟨hcand, hmsg, hcount, hterm⟩ := elected_of_step hnot hrole
      refine ⟨p, hk, rfl, hcand, hmsg, hcount, ?_⟩
      dsimp only
      rw [put_nodes_self, hterm]
  | propose k command =>
    obtain ⟨rfl, hrole⟩ := hput hlead
    rw [RaftNode.propose, if_pos hnot] at hrole
    exact absurd hrole hnot
  | takeCommitted k =>
    obtain ⟨rfl, hrole⟩ := hput (r := ((w.nodes k).takeCommitted.1, [])) hlead
    exact absurd hrole hnot
  | maybeCompact k keep =>
    obtain ⟨rfl, hrole⟩ := hput hlead
    refine absurd hrole ?_
    rw [RaftNode.maybeCompact]
    split <;> exact hnot
  | restart k log seed heartbeat => cases hrestart

/-- A leader in whose term the entry at `k` was created knows it to be
committed. -/
def Claim (g : Group) (w : Cluster) (F : List (Ent Bytes)) (k : ℕ) : Prop :=
  ∀ i ∈ g.members, (w.nodes i).role = .leader → 0 < k →
    termIn F k = (w.nodes i).currentTerm → k ≤ (w.nodes i).commitIndex

/-- Commit indices, in nodes and in messages, are known to the leader of the
term of their entry; every leader has shown itself; a leader with the lease has
no successor, and what it has not committed is of its own term. -/
structure LeaseInv (g : Group) (w : Cluster) (m : Record) : Prop where
  claim : ∀ j ∈ g.members, Claim g w (m.log j) (w.nodes j).commitIndex
  claim_msg : ∀ p ∈ w.sent, ∀ t l prev prevTerm es commit,
    p.msg = .appendEntries t l prev prevTerm es commit → Claim g w (m.hist t) commit
  shown : ∀ t, m.leader t ≠ none → ∃ p ∈ w.sent, p.msg.isAppend = true ∧ msgTerm p.msg = t
  last : ∀ i ∈ g.members, (w.nodes i).hasReadLease = true →
    ∀ t, (w.nodes i).currentTerm < t → m.leader t = none
  fresh : ∀ i ∈ g.members, (w.nodes i).hasReadLease = true →
    ∀ k, (w.nodes i).commitIndex < k → k ≤ (m.log i).length →
      termIn (m.log i) k = (w.nodes i).currentTerm

section Reads

variable {g : Group} {w : Cluster} {m : Record}

/-- The prefix a node knows to be committed ends with an entry of a term that
had a leader, and it is in the log of every leader from that term on. -/
theorem LogRel.committed_term (h : LogRel g w m) {j : NodeId} (hj : j ∈ g.members)
    (hpos : 0 < (w.nodes j).commitIndex) :
    m.leader (termIn (m.log j) (w.nodes j).commitIndex) ≠ none ∧
      ∀ u, termIn (m.log j) (w.nodes j).commitIndex ≤ u → m.leader u ≠ none →
        (m.log j).take (w.nodes j).commitIndex <+: m.hist u := by
  have hn := h.node j hj
  rcases hn.decided with hnil | ⟨t, k, -, hc, heq⟩
  · have hlen := congrArg length hnil
    rw [length_take, min_eq_left hn.commit_le] at hlen
    exact absurd hlen hpos.ne'
  · have hk : (w.nodes j).commitIndex = k + 1 := by
      have hlen := congrArg length heq
      have hlt := hc.1.lt_length
      rw [length_take, length_take, min_eq_left hn.commit_le,
        min_eq_left hlt] at hlen
      exact hlen
    have hterm : termIn (m.log j) (w.nodes j).commitIndex = t := by
      obtain ⟨e, he, het⟩ := hc.1
      rw [← het, termIn, hk, Nat.add_sub_cancel]
      have := congrArg (fun l => l[k]?) heq
      simp only [hk, getElem?_take_of_lt (lt_succ_self k), he] at this
      rw [this]
      rfl
    rw [hterm, heq]
    exact ⟨h.inv.leader_ne_none_of_own hc.1, fun u htu hu => h.inv.committed_prefix hc htu hu⟩

theorem LeaseInv.commitIndex_le (h : LeaseInv g w m) (hr : LogRel g w m) {i j : NodeId}
    (hi : i ∈ g.members) (hj : j ∈ g.members) (hlease : (w.nodes i).hasReadLease = true) :
    (w.nodes j).commitIndex ≤ (w.nodes i).commitIndex ∧
      (m.log j).take (w.nodes j).commitIndex <+: m.log i := by
  have hrole := (hasReadLease_iff.1 hlease).1
  rcases Nat.eq_zero_or_pos (w.nodes j).commitIndex with h0 | hpos
  · rw [h0]
    exact ⟨zero_le _, nil_prefix⟩
  · obtain ⟨hlead, hpre⟩ := hr.committed_term hj hpos
    have he := hr.election.node i hi
    have hF : m.log i = m.hist (w.nodes i).currentTerm := by
      rw [← he.term]
      exact hr.inv.leader_log i (he.term.symm ▸ he.leader hrole)
    have hle : termIn (m.log j) (w.nodes j).commitIndex ≤ (w.nodes i).currentTerm := by
      by_contra hlt
      exact hlead (h.last i hi hlease _ (not_le.1 hlt))
    have hin := hpre _ hle (by rw [he.leader hrole]; exact Option.some_ne_none i)
    rw [← hF] at hin
    refine ⟨?_, hin⟩
    have hlen : (w.nodes j).commitIndex ≤ (m.log i).length := by
      have := hin.length_le
      rwa [length_take, min_eq_left (hr.node j hj).commit_le] at this
    by_contra hgt
    have hfresh := h.fresh i hi hlease _ (not_le.1 hgt) hlen
    have hsame : termIn (m.log i) (w.nodes j).commitIndex =
        termIn (m.log j) (w.nodes j).commitIndex := by
      rw [termIn_eq_of_isPrefix hin hpos (by
        rw [length_take, min_eq_left (hr.node j hj).commit_le])]
      exact termIn_take hpos le_rfl
    rw [hsame] at hfresh
    exact hgt (h.claim j hj i hi hrole hpos hfresh)

theorem applications_mono {F H : List (Ent Bytes)} {k l : ℕ} (hk : k ≤ F.length) (hkl : k ≤ l)
    (hp : F.take k <+: H) : applications F k <+: applications H l := by
  have htake : F.take k <+: H.take l := by
    rw [prefix_iff_eq_take, length_take, min_eq_left hk] at hp
    rw [hp]
    exact take_prefix_take_left hkl
  obtain ⟨s, hs⟩ := htake
  rw [applications, applications, ← hs, number_append, map_append]
  exact prefix_append _ _

theorem LogRel.committed_eq (h : LogRel g w m) {i : NodeId} (hi : i ∈ g.members) :
    w.committed i = applications (m.log i) (w.nodes i).commitIndex := by
  have hn := h.node i hi
  have hle := hn.applied_le
  have hcommit := hn.commit_le
  rw [committed, hn.applied]
  refine (hn.log.committedFrom_eq _ _ hn.snapshot_le (by omega)).trans ?_
  rw [Nat.add_sub_cancel' hle]

theorem LeaseInv.leaseReads (h : LeaseInv g w m) (hr : LogRel g w m) : LeaseReads g w := by
  intro i hi hlease j hj
  obtain ⟨hle, hp⟩ := h.commitIndex_le hr hi hj hlease
  refine ⟨hle, ?_⟩
  rw [hr.committed_eq hi, hr.committed_eq hj]
  exact applications_mono (hr.node j hj).commit_le hle hp

end Reads

/-- A node that is a leader after the move was so before, in the same term and
with no higher commit index. -/
def Remains (n n' : RaftNode) : Prop :=
  n'.role = .leader → n.role = .leader ∧ n'.currentTerm = n.currentTerm ∧
    n.commitIndex ≤ n'.commitIndex

theorem Claim.put {g : Group} {w : Cluster} {F : List (Ent Bytes)} {k : ℕ} {i : NodeId}
    {out : Out} (h : Claim g w F k) (hn : Remains (w.nodes i) n) :
    Claim g (w.put i (n, out)) F k := by
  intro j hj hrole hpos hterm
  by_cases hij : j = i
  · subst hij
    rw [put_nodes_self] at hrole hterm ⊢
    obtain ⟨hr, ht, hc⟩ := hn hrole
    exact (h j hj hr hpos (hterm.trans ht)).trans hc
  · rw [put_nodes_of_ne _ _ hij] at hrole hterm ⊢
    exact h j hj hrole hpos hterm

namespace LeaseInv

variable {g : Group} {w : Cluster} {m m' : Record} {i : NodeId} {n : RaftNode} {out : Out}

theorem put (h : LeaseInv g w m) (hr : LogRel g w m) (hg : Grows m m')
    (hlead : m'.leader = m.leader) (hlog : ∀ j, j ≠ i → m'.log j = m.log j)
    (hn : Remains (w.nodes i) n)
    (hclaim : Claim g (w.put i (n, out)) (m'.log i) n.commitIndex)
    (hout : ∀ o ∈ out, ∀ t l prev prevTerm es commit,
      o.2 = .appendEntries t l prev prevTerm es commit →
        commit = n.commitIndex ∧ m'.hist t = m'.log i)
    (hlease : n.hasReadLease = true → (∀ t, n.currentTerm < t → m'.leader t = none) ∧
      ∀ k, n.commitIndex < k → k ≤ (m'.log i).length → termIn (m'.log i) k = n.currentTerm) :
    LeaseInv g (w.put i (n, out)) m' := by
  refine ⟨fun j hj => ?_, fun p hp t l prev prevTerm es commit hm => ?_, fun t ht => ?_,
    fun j hj hl => ?_, fun j hj hl => ?_⟩
  · by_cases hij : j = i
    · subst hij
      rw [put_nodes_self]
      exact hclaim
    · rw [put_nodes_of_ne _ _ hij, hlog j hij]
      exact (h.claim j hj).put hn
  · rw [put_sent, mem_append, mem_map] at hp
    rcases hp with hp | ⟨o, ho, rfl⟩
    · have hmsg := hr.msg p hp
      rw [hm] at hmsg
      obtain ⟨a, b, hc⟩ := hmsg
      have hcl : Claim g (w.put i (n, out)) (m.hist t) commit :=
        (h.claim_msg p hp t l prev prevTerm es commit hm).put hn
      intro j hj hrole hpos hterm
      rw [termIn_eq_of_isPrefix (hg.hist t) hpos (hc.commit_le.trans hc.le_length)] at hterm
      exact hcl j hj hrole hpos hterm
    · obtain ⟨hcommit, hhist⟩ := hout o ho t l prev prevTerm es commit hm
      rw [hcommit, hhist]
      exact hclaim
  · rw [hlead] at ht
    obtain ⟨p, hp, happ⟩ := h.shown t ht
    exact ⟨p, by rw [put_sent]; exact mem_append_left _ hp, happ⟩
  · by_cases hij : j = i
    · subst hij
      rw [put_nodes_self] at hl ⊢
      exact (hlease hl).1
    · rw [put_nodes_of_ne _ _ hij] at hl ⊢
      rw [hlead]
      exact h.last j hj hl
  · by_cases hij : j = i
    · subst hij
      rw [put_nodes_self] at hl ⊢
      exact (hlease hl).2
    · rw [put_nodes_of_ne _ _ hij] at hl ⊢
      rw [hlog j hij]
      exact h.fresh j hj hl

theorem calm (h : LeaseInv g w m) (hr : LogRel g w m) (hi : i ∈ g.members) (hg : Grows m m')
    (hlead : m'.leader = m.leader) (hlog : m'.log = m.log)
    (hcommit : n.commitIndex = (w.nodes i).commitIndex)
    (hrole : n.role = .leader → (w.nodes i).role = .leader ∧
      n.currentTerm = (w.nodes i).currentTerm)
    (hlease : n.hasReadLease = true → (w.nodes i).hasReadLease = true)
    (hout : ∀ o ∈ out, ∀ t l prev prevTerm es commit,
      o.2 = .appendEntries t l prev prevTerm es commit →
        commit = n.commitIndex ∧ m'.hist t = m'.log i) :
    LeaseInv g (w.put i (n, out)) m' := by
  have hn : Remains (w.nodes i) n := fun hr => ⟨(hrole hr).1, (hrole hr).2, hcommit.ge⟩
  refine h.put hr hg hlead (fun j _ => congrFun hlog j) hn ?_ hout fun hl => ?_
  · rw [hlog, hcommit]
    exact (h.claim i hi).put hn
  · rw [(hrole (hasReadLease_iff.1 hl).1).2, hcommit, hlog, hlead]
    exact ⟨h.last i hi (hlease hl), h.fresh i hi (hlease hl)⟩

theorem still (h : LeaseInv g w m) (hr : LogRel g w m) (hi : i ∈ g.members)
    (hcommit : n.commitIndex = (w.nodes i).commitIndex) (hrole : n.role = (w.nodes i).role)
    (hterm : n.currentTerm = (w.nodes i).currentTerm)
    (hlease : n.hasReadLease = true → (w.nodes i).hasReadLease = true)
    (hout : ∀ o ∈ out, ∀ t l prev prevTerm es commit,
      o.2 = .appendEntries t l prev prevTerm es commit →
        commit = n.commitIndex ∧ m.hist t = m.log i) :
    LeaseInv g (w.put i (n, out)) m :=
  h.calm hr hi (Grows.refl m) rfl rfl hcommit (fun hl => ⟨hrole ▸ hl, hterm⟩) hlease hout

end LeaseInv

theorem RaftNode.le_advanceCommit (n : RaftNode) :
    n.commitIndex ≤ n.advanceCommit.commitIndex := by
  rcases n.advanceCommit_cases with heq | ⟨idx, hlt, -, -, -, heq⟩
  · rw [heq]
  · rw [heq]
    exact hlt.le

theorem ElectionRel.leader_eq {g : Group} {w : Cluster} {b : Ballot NodeId}
    (h : ElectionRel g w b) {i j : NodeId} (hi : i ∈ g.members) (hj : j ∈ g.members)
    (hri : (w.nodes i).role = .leader) (hrj : (w.nodes j).role = .leader)
    (hterm : (w.nodes i).currentTerm = (w.nodes j).currentTerm) : i = j := by
  have hl := (h.node i hi).leader hri
  rw [hterm, (h.node j hj).leader hrj] at hl
  exact (Option.some.inj hl).symm

section Moves

variable {g : Group} {w : Cluster} {m m' : Record} {i : NodeId} {n : RaftNode}

/-- The entry that moves the commit index on is of the leader's own term, and
there is no other leader in that term. -/
theorem claim_advanceCommit (hr : LogRel g w m) (hi : i ∈ g.members)
    (hrole : (w.nodes i).role = .leader) (hterm : n.currentTerm = (w.nodes i).currentTerm)
    {applied : List (ℕ × Bytes)} (hn : NodeLog g m' i n applied)
    (hclaim : Claim g (w.put i (n.advanceCommit, [])) (m'.log i) n.commitIndex) :
    Claim g (w.put i (n.advanceCommit, [])) (m'.log i) n.advanceCommit.commitIndex := by
  rcases n.advanceCommit_cases with heq | ⟨idx, hlt, hle, hown, -, heq⟩
  · rw [heq] at hclaim ⊢
    exact hclaim
  · rw [heq] at hclaim ⊢
    intro j hj hrj hpos ht
    by_cases hij : j = i
    · subst hij
      rw [put_nodes_self]
    · rw [put_nodes_of_ne _ _ hij] at hrj ht
      have hsnap := (hn.snapshot_le.trans hn.applied_le).trans hlt.le
      rw [hn.log.termAt_eq (by omega) hsnap] at hown
      exact absurd (hr.election.leader_eq hi hj hrole hrj
        (hterm.symm.trans (hown.symm.trans ht))).symm hij

/-- Terms do not decrease along the log: after an entry of the node's own term there is none of an
earlier one. -/
theorem LogRel.own_from {applied : List (ℕ × Bytes)} (hinv : m.Inv (majorities g.members))
    (hn : NodeLog g m i n applied) (hterm : m.term i = n.currentTerm) {idx : ℕ}
    (hidx : n.commitIndex < idx) (hown : n.log.termAt idx = n.currentTerm) :
    ∀ k, idx ≤ k → k ≤ (m.log i).length → termIn (m.log i) k = n.currentTerm := by
  intro k hlt hle
  have hsnap : n.log.snapshotIndex ≤ idx :=
    (hn.snapshot_le.trans hn.applied_le).trans hidx.le
  rw [hn.log.termAt_eq (by omega) hsnap, termIn] at hown
  have hc := getElem?_eq_getElem (show idx - 1 < (m.log i).length by omega)
  have hk := getElem?_eq_getElem (show k - 1 < (m.log i).length by omega)
  have hmono := hinv.term_mono (hinv.chain_log i) hc hk (by omega)
  have hbound := (hinv.chain_log i _ _ hk).1
  rw [hc] at hown
  rw [termIn, hk]
  simp only [Option.map_some, Option.getD_some] at hown ⊢
  omega

/-- A log without an uncommitted entry of an earlier term, from the check of the
first uncommitted entry. -/
theorem LogRel.fresh_of_check {applied : List (ℕ × Bytes)} (hinv : m.Inv (majorities g.members))
    (hn : NodeLog g m i n applied) (hterm : m.term i = n.currentTerm) (hf : n.Fresh) :
    ∀ k, n.commitIndex < k → k ≤ (m.log i).length → termIn (m.log i) k = n.currentTerm := by
  intro k hlt hle
  rcases hf with hlast | hnext
  · rw [hn.log.lastIndex_eq] at hlast
    omega
  · exact LogRel.own_from hinv hn hterm (lt_succ_self _) hnext k hlt hle

theorem LeaseInv.ack (h : LeaseInv g w m) (hr : LogRel g w m) {p : Packet} (hp : p ∈ w.sent)
    {matchIndex : ℕ}
    (hm : p.msg = .appendEntriesResp (w.nodes p.dst).currentTerm true matchIndex)
    (hrole : (w.nodes p.dst).role = .leader) (hguard : RenewalGuard w p) :
    LeaseInv g (w.put p.dst (((w.nodes p.dst).withAck p.src matchIndex).advanceCommit, [])) m := by
  have hi := hr.election.dst_mem p hp
  have hnode := hr.node p.dst hi
  have hterm := hr.term_eq hi
  have hle : (w.nodes p.dst).commitIndex ≤
      ((w.nodes p.dst).withAck p.src matchIndex).advanceCommit.commitIndex :=
    le_advanceCommit ((w.nodes p.dst).withAck p.src matchIndex)
  have hremains : Remains (w.nodes p.dst)
      ((w.nodes p.dst).withAck p.src matchIndex).advanceCommit := fun _ =>
    ⟨hrole, by simp [withAck], hle⟩
  refine h.put hr (Grows.refl m) rfl (fun _ _ => rfl) hremains ?_ (by simp) fun hl => ?_
  · exact claim_advanceCommit hr hi hrole rfl
      (hr.withAck hp hm hrole) ((h.claim p.dst hi).put hremains)
  · by_cases hmaj : (w.nodes p.dst).majority ≤
        ((w.nodes p.dst).contacted.set p.src true).count true
    · obtain ⟨hsent, hfresh⟩ := hguard hrole matchIndex (by simp [hm, RaftMsg.acknowledges]) hmaj
      refine ⟨fun t ht => ?_, fun k hk hkl => ?_⟩
      · by_contra hne
        obtain ⟨q, hq, happ, rfl⟩ := h.shown t hne
        have := hsent q hq happ
        simp only [advanceCommit_fields, withAck] at ht
        omega
      · have hown : termIn (m.log p.dst) k = (w.nodes p.dst).currentTerm := by
          rcases hfresh with hf | hc
          · exact LogRel.fresh_of_check hr.inv hnode hterm hf k (hle.trans_lt hk) hkl
          · obtain ⟨idx, hidx, hat, hcommit⟩ := advanceCommit_of_completes hc
            exact LogRel.own_from hr.inv hnode hterm hidx hat k (hcommit ▸ hk.le) hkl
        simpa [withAck] using hown
    · have hold : (w.nodes p.dst).hasReadLease = true := by
        simpa [hasReadLease, withAck, hmaj] using hl
      refine ⟨?_, fun k hk hkl => ?_⟩
      · simpa [withAck] using h.last p.dst hi hold
      · simpa [withAck] using h.fresh p.dst hi hold k (hle.trans_lt hk) hkl

theorem LeaseInv.propose [Crc32fast] (h : LeaseInv g w m) (hr : LogRel g w m) (hi : i ∈ g.members)
    (hrole : (w.nodes i).role = .leader) (command : Bytes) :
    LeaseInv g (w.put i (((w.nodes i).propose command).1, [])) (m.propose i command) := by
  obtain ⟨hstep, hlog, hnode⟩ := hr.withCommand hi hrole command
  have hprop : ((w.nodes i).propose command).1 =
      ((w.nodes i).withCommand command).advanceCommit := by
    simp [RaftNode.propose, hrole]
  have hle : (w.nodes i).commitIndex ≤
      ((w.nodes i).withCommand command).advanceCommit.commitIndex :=
    le_advanceCommit ((w.nodes i).withCommand command)
  have hremains : Remains (w.nodes i) ((w.nodes i).withCommand command).advanceCommit := fun _ =>
    ⟨hrole, by simp [withCommand], hle⟩
  have hpre : m.log i <+: (m.propose i command).log i := hlog ▸ prefix_append _ _
  rw [hprop]
  refine h.put hr (hstep.grows hr.inv) rfl (fun j hij => hstep.frame hij) hremains ?_ (by simp)
    fun hl => ?_
  · refine claim_advanceCommit hr hi hrole rfl hnode fun j hj hrj hpos ht => ?_
    rw [termIn_eq_of_isPrefix hpre hpos (hr.node i hi).commit_le] at ht
    exact (h.claim i hi).put hremains j hj hrj hpos ht
  · have hold : (w.nodes i).hasReadLease = true := by
      simpa [hasReadLease, withCommand] using hl
    refine ⟨?_, fun k hk hkl => ?_⟩
    · simpa [withCommand, Replog.propose] using h.last i hi hold
    · have hterm : ((w.nodes i).withCommand command).advanceCommit.currentTerm =
          (w.nodes i).currentTerm := by
        simp [withCommand]
      rw [hterm]
      rcases lt_or_ge (m.log i).length k with hgt | hkold
      · have hklast : k = (m.log i).length + 1 := by
          rw [hlog, length_append, length_singleton] at hkl
          omega
        rw [hklast, hlog, termIn]
        simp
      · rw [termIn_eq_of_isPrefix hpre (by omega) hkold]
        exact h.fresh i hi hold k (hle.trans_lt hk) hkold

theorem LeaseInv.append [Crc32fast] (h : LeaseInv g w m) (hr : LogRel g w m) {p : Packet}
    (hp : p ∈ w.sent) {term leader prev prevTerm : ℕ} {entries : List Entry} {commit j k : ℕ}
    (hm : p.msg = .appendEntries term leader prev prevTerm entries commit)
    (hterm : (w.nodes p.dst).currentTerm = term)
    (ha : Accepts g m p.dst (w.nodes p.dst) prev prevTerm entries commit j k)
    {reply : NodeId × RaftMsg} (hreply : reply.2.isAppend = false) :
    LeaseInv g (w.put p.dst (((w.nodes p.dst).follow leader).withEntries
      (appendAll (w.nodes p.dst).log prev entries).1 commit, [reply]))
      (m.accept p.dst k) := by
  have hi := hr.election.dst_mem p hp
  have hremains : Remains (w.nodes p.dst) (((w.nodes p.dst).follow leader).withEntries
      (appendAll (w.nodes p.dst).log prev entries).1 commit) := by
    intro hlead
    cases hlead
  refine h.put hr (ha.step.grows hr.inv) rfl (fun j hij => ha.step.frame hij) hremains ?_ ?_ ?_
  · rw [ha.commitIndex leader]
    intro l hl hrl hpos ht
    rcases ha.take_max (hr.node p.dst hi).commit_le with ⟨htake, hle⟩ | ⟨htake, hle⟩
    · rw [max_eq_left hle] at htake hpos ht ⊢
      rw [← termIn_take hpos le_rfl, htake, termIn_take hpos le_rfl] at ht
      exact (h.claim p.dst hi).put hremains l hl hrl hpos ht
    · rw [max_eq_right hle] at htake hpos ht ⊢
      rw [← termIn_take hpos le_rfl, htake, termIn_take hpos le_rfl, hterm] at ht
      exact (h.claim_msg p hp term leader prev prevTerm entries commit hm).put hremains l hl hrl
        hpos ht
  · intro o ho t l prev' prevTerm' es c heq
    rw [mem_singleton] at ho
    subst ho
    rw [heq] at hreply
    cases hreply
  · intro hl
    have hlead := (hasReadLease_iff.1 hl).1
    cases hlead

theorem hasReadLease_asLeader (hmore : 1 < n.peers.length) : n.asLeader.hasReadLease = false := by
  have hcount := count_true_set_le n.contacted n.id
  have hmaj : ¬ n.majority ≤ ((n.contacted.map fun _ => false).set n.id true).count true := by
    rw [majority]
    omega
  have hsince : n.asLeader.sinceMajority = n.asLeader.electionTimeout := if_neg hmaj
  rw [hasReadLease, hsince]
  simp

theorem termIn_ne_of_leader_eq_none {b k u : ℕ} {F : List (Ent Bytes)} (hF : Replog.Chain m b F)
    (hu : m.leader u = none) (hpos : 0 < k) (hle : k ≤ F.length) : termIn F k ≠ u := by
  intro heq
  have hk := getElem?_eq_getElem (show k - 1 < F.length by omega)
  rw [termIn, hk] at heq
  exact (hF _ _ hk).2.1 (heq ▸ hu)

theorem LeaseInv.asLeader (h : LeaseInv g w m) (hr : LogRel g w m) (hi : i ∈ g.members)
    (hmore : 1 < g.members.card) (hrole : (w.nodes i).role = .candidate)
    (hcount : (w.nodes i).majority ≤ (w.nodes i).votes.count true)
    (hguard : ∀ j ∈ g.members, j ≠ i → (w.nodes j).hasReadLease = true →
      (w.nodes i).currentTerm ≤ (w.nodes j).currentTerm) :
    LeaseInv g (w.put i ((w.nodes i).asLeader, (w.nodes i).asLeader.broadcastAppend))
      (m.elect i) := by
  have he := hr.election.node i hi
  have hnone : m.leader (w.nodes i).currentTerm = none :=
    hr.inv.ballot.leader_eq_none (he.running hrole) (hr.election.isQuorum_votes hi hrole hcount)
  have hclaim : ∀ {F b k}, Replog.Chain m b F → k ≤ F.length → Claim g w F k →
      Claim g (w.put i ((w.nodes i).asLeader, (w.nodes i).asLeader.broadcastAppend)) F k := by
    intro F b k hF hk hcl j hj hrj hpos ht
    by_cases hij : j = i
    · subst hij
      rw [put_nodes_self] at ht
      exact absurd ht (termIn_ne_of_leader_eq_none hF hnone hpos hk)
    · rw [put_nodes_of_ne _ _ hij] at hrj ht ⊢
      exact hcl j hj hrj hpos ht
  have hlead : ∀ t, t ≠ (w.nodes i).currentTerm → (m.elect i).leader t = m.leader t := by
    intro t ht
    have hterm := he.term
    simp [elect, Ballot.elect, hterm, ht]
  have hhist : (m.elect i).hist (w.nodes i).currentTerm = m.log i := by
    simp [elect, he.term]
  have hnolease : (w.nodes i).asLeader.hasReadLease = false := by
    refine hasReadLease_asLeader ?_
    rw [← hr.election.card_members hi]
    exact hmore
  refine ⟨fun j hj => ?_, fun p hp t l prev prevTerm es commit hm => ?_, fun t ht => ?_,
    fun j hj hl t ht => ?_, fun j hj hl => ?_⟩
  · have hsame : ((w.put i ((w.nodes i).asLeader,
        (w.nodes i).asLeader.broadcastAppend)).nodes j).commitIndex =
        (w.nodes j).commitIndex := by
      by_cases hij : j = i
      · subst hij
        rw [put_nodes_self]
        rfl
      · rw [put_nodes_of_ne _ _ hij]
    rw [hsame]
    exact hclaim (hr.inv.chain_log j) (hr.node j hj).commit_le (h.claim j hj)
  · rw [put_sent, mem_append, mem_map] at hp
    rcases hp with hp | ⟨o, ho, rfl⟩
    · have hmsg := hr.msg p hp
      rw [hm] at hmsg
      obtain ⟨a, b, hc⟩ := hmsg
      have ht : t ≠ (w.nodes i).currentTerm := by
        rintro rfl
        exact hc.leader hnone
      have hsame : (m.elect i).hist t = m.hist t := by
        simp [elect, he.term, ht]
      rw [hsame]
      exact hclaim (hr.inv.chain_hist t) (hc.commit_le.trans hc.le_length)
        (h.claim_msg p hp t l prev prevTerm es commit hm)
    · obtain ⟨q, -, rfl⟩ := mem_broadcastAppend.1 ho
      cases hm
      change Claim _ _ ((m.elect i).hist (w.nodes i).currentTerm) (w.nodes i).commitIndex
      rw [hhist]
      exact hclaim (hr.inv.chain_log i) (hr.node i hi).commit_le (h.claim i hi)
  · by_cases htu : t = (w.nodes i).currentTerm
    · obtain ⟨q, hq, hne⟩ := Finset.exists_mem_ne hmore i
      refine ⟨⟨i, q, ((w.nodes i).asLeader.appendTo q).2⟩, ?_, rfl, htu.symm⟩
      rw [put_sent, mem_append, mem_map]
      refine .inr ⟨(w.nodes i).asLeader.appendTo q, mem_broadcastAppend.2
        ⟨q, ⟨(hr.election.mem_peers hi).2 hq, ?_⟩, rfl⟩, rfl⟩
      change q ≠ (w.nodes i).id
      rwa [he.id]
    · rw [hlead t htu] at ht
      obtain ⟨p, hp, happ⟩ := h.shown t ht
      exact ⟨p, by rw [put_sent]; exact mem_append_left _ hp, happ⟩
  · by_cases hij : j = i
    · subst hij
      rw [put_nodes_self, hnolease] at hl
      cases hl
    · rw [put_nodes_of_ne _ _ hij] at hl ht
      have hle := hguard j hj hij hl
      rw [hlead t (by omega)]
      exact h.last j hj hl t ht
  · by_cases hij : j = i
    · subst hij
      rw [put_nodes_self, hnolease] at hl
      cases hl
    · rw [put_nodes_of_ne _ _ hij] at hl ⊢
      exact h.fresh j hj hl

end Moves

theorem commit_of_appendTo {m : Record} {i : NodeId}
    (hhist : m.hist n.currentTerm = m.log i) (q : NodeId) :
    ∀ t l prev prevTerm es commit,
      (n.appendTo q).2 = RaftMsg.appendEntries t l prev prevTerm es commit →
        commit = n.commitIndex ∧ m.hist t = m.log i := by
  intro t l prev prevTerm es commit heq
  cases heq
  exact ⟨rfl, hhist⟩

section Rules

variable [Crc32fast]

theorem leaseRules {g : Group} {w : Cluster} {c : Call} (hmore : 1 < g.members.card)
    (hserved : Served w c) (hguard : LeaseGuard g w c) :
    CallRules g w c fun v => ∃ m, LogRel g v m ∧ LeaseInv g v m where
  adopt := by
    rintro p hp ⟨m, hr, h⟩ hlt
    have hi := hr.election.dst_mem p hp
    refine ⟨_, hr.becomeFollower hi hlt, h.calm hr hi
      (grows_adopt ((hr.term_eq hi).trans_lt hlt).le) rfl rfl ?_ ?_ ?_ (by simp)⟩
    · simp [becomeFollower]
    · simp [becomeFollower]
    · simp [becomeFollower, hasReadLease]
  wait := by
    rintro i ⟨m, hr, h⟩ hi -
    exact ⟨m, hr.idle hi (.wait _) (.wait _), h.still hr hi rfl rfl rfl id (by simp)⟩
  campaign := by
    rintro v i ⟨m, hr, h⟩ hi -
    refine ⟨_, hr.asCandidate hi, h.calm hr hi (grows_campaign hr.inv i) rfl rfl ?_ ?_ ?_ ?_⟩
    · simp [asCandidate]
    · simp [asCandidate]
    · simp [asCandidate, hasReadLease]
    · intro o ho t l prev prevTerm es commit heq
      obtain ⟨q, -, rfl⟩ := mem_voteRequests.1 ho
      cases heq
  win := by
    rintro v i ⟨m, hr, h⟩ hi hrole hcount hnot hsame hexec
    refine ⟨_, (hr.asLeader hi hrole hcount).2, h.asLeader hr hi hmore hrole hcount ?_⟩
    intro j hj hij hl
    have hlease : (w.nodes j).hasReadLease = true := by
      rw [← hsame j hij]
      exact hl
    have hlead : ((w.exec g c).nodes i).role = .leader := by
      rw [hexec, put_nodes_self]
      rfl
    rcases elected_of_exec hguard.2 hnot hlead with hone | ⟨p, hp, rfl, hcand, hvote, hmaj, hterm⟩
    · rw [hexec, put_nodes_self] at hone
      have hpeers := hr.election.card_members hi
      change (v.nodes i).peers.length / 2 + 1 ≤ 1 at hone
      omega
    · have hle := (hguard.1 p hp).1 hcand hvote hmaj j hj hlease
      rw [← hterm, hexec, put_nodes_self, ← hsame j hij] at hle
      exact hle
  leaderTick := by
    rintro i ⟨m, hr, h⟩ hi hrole
    exact ⟨m, hr.idle hi (.leaderTick _) (.leaderTick _),
      h.still hr hi rfl rfl rfl hasReadLease_of_leaderTick (by simp)⟩
  heartbeat := by
    rintro i rfl ⟨m, hr, h⟩ hi hrole
    refine ⟨m, hr.heartbeat hi hrole (hserved hrole),
      h.still hr hi rfl rfl rfl (hasReadLease_of_leaderTick (n := w.nodes i)) fun o ho => ?_⟩
    obtain ⟨q, -, rfl⟩ := mem_broadcastAppend.1 ho
    exact commit_of_appendTo (hr.hist_eq_log hi hrole) q
  vote := by
    rintro v p term candidate lli llt ⟨m, hr, h⟩ hp hm hterm hvote hup
    obtain ⟨hstep, hr'⟩ := hr.withVote hp hm hterm hvote hup
    refine ⟨_, hr', h.calm hr (hr.election.dst_mem p hp) (hstep.grows hr.inv) rfl rfl ?_ ?_ ?_
      (by simp)⟩
    · simp [withVote]
    · simp [withVote]
    · simp [hasReadLease_iff, withVote, hr.election.follower_of_vote hp hm hvote]
  refuse := by
    rintro v p term candidate lli llt ⟨m, hr, h⟩ hp hm
    exact ⟨m, hr.reply hp (.refl _) (.refl _) (hr.election.candidate_mem hp hm).2
      (by simp [MsgElection]) (by simp [MsgLog]),
      h.still hr (hr.election.dst_mem p hp) rfl rfl rfl id (by simp)⟩
  count := by
    rintro v p ⟨m, hr, h⟩ hp hm -
    exact ⟨m, hr.still (hr.election.dst_mem p hp) (hr.election.count hp hm) (.count _ _) le_rfl
      (by simp), h.still hr (hr.election.dst_mem p hp) rfl rfl rfl id (by simp)⟩
  append := by
    rintro k v p term leader prev prevTerm entries lc - ⟨m, hr, h⟩ - hp hm - hterm hprev
    obtain ⟨j, k, ha⟩ := hr.accepts hp hm hterm hprev
    exact ⟨_, hr.append hp hm ha, h.append hr hp hm hterm ha rfl⟩
  mismatch := by
    rintro v p term leader prev prevTerm entries lc ⟨m, hr, h⟩ hp hm -
    refine ⟨m, hr.reply hp (.follow _ _) (.follow _ _) (hr.election.leader_mem hp hm).2 trivial
      (by simp [MsgLog]), h.calm hr (hr.election.dst_mem p hp) (Grows.refl m) rfl rfl ?_ ?_ ?_
        (by simp)⟩
    · simp [follow]
    · simp [follow]
    · simp [follow, hasReadLease]
  stale := by
    rintro v p term leader prev prevTerm entries lc ⟨m, hr, h⟩ hp hm
    exact ⟨m, hr.reply hp (.refl _) (.refl _) (hr.election.leader_mem hp hm).2 trivial
      (by simp [MsgLog]), h.still hr (hr.election.dst_mem p hp) rfl rfl rfl id (by simp)⟩
  ack := by
    rintro k p matchIndex rfl ⟨m, hr, h⟩ hk hm hrole
    have hp := mem_of_getElem? hk
    exact ⟨m, hr.ack hp hm hrole, h.ack hr hp hm hrole (hguard.1 p hk).2⟩
  backOff := by
    rintro k p matchIndex rfl ⟨m, hr, h⟩ hk hm hrole
    have hp := mem_of_getElem? hk
    have hserve := hserved p hk hrole (by simp [hm, RaftMsg.Refuses])
    refine ⟨m, hr.backOff hp hrole hserve,
      h.still hr (hr.election.dst_mem p hp) rfl rfl rfl id ?_⟩
    simp only [sendAppend, mem_singleton, forall_eq]
    exact commit_of_appendTo (n := (w.nodes p.dst).backOff p.src)
      (hr.hist_eq_log (hr.election.dst_mem p hp) hrole) p.src
  propose := by
    rintro i command - ⟨m, hr, h⟩ hi hrole
    exact ⟨_, (hr.propose hi hrole command).2, h.propose hr hi hrole command⟩
  takeCommitted := by
    rintro i - ⟨m, hr, h⟩ hi
    have hcalm : LeaseInv g (w.put i ((w.nodes i).takeCommitted.1, [])) m :=
      h.still hr hi rfl rfl rfl id (by simp)
    exact ⟨m, hr.takeCommitted hi, { hcalm with }⟩
  maybeCompact := by
    rintro i keep - ⟨m, hr, h⟩ hi
    refine ⟨m, hr.maybeCompact hi keep, ?_⟩
    unfold maybeCompact
    split <;> exact h.still hr hi rfl rfl rfl id (by simp)
  restart := by
    rintro i log seed heartbeat rfl - -
    cases hguard.2

end Rules

theorem leaseInv_init (g : Group) : LeaseInv g (Cluster.init g) Replog.init := by
  refine ⟨fun j _ i _ hrole => ?_, by simp [Cluster.init], by simp [Replog.init, Ballot.init],
    fun i _ hl => ?_, fun i _ hl => ?_⟩
  · simp [Cluster.init] at hrole
  · simp [Cluster.init, hasReadLease] at hl
  · simp [Cluster.init, hasReadLease] at hl

/-- In every state of a run of guarded calls a node with the lease knows all
that is known to be committed. -/
theorem leaseReads_of_guard [Crc32fast] (g : Group) (w : Cluster)
    (h : Cluster.Reachable g (fun w c => Served w c ∧ LeaseGuard g w c) w) : LeaseReads g w := by
  rcases lt_or_ge 1 g.members.card with hmore | hone
  · have hinv : ∃ m, LogRel g w m ∧ LeaseInv g w m := by
      induction h with
      | refl => exact ⟨_, logRel_init g, leaseInv_init g⟩
      | tail _ hstep ih =>
        obtain ⟨c, hvalid, ⟨hserved, hguard⟩, rfl⟩ := hstep
        obtain ⟨m, hr, hl⟩ := ih
        exact (leaseRules hmore hserved hguard).exec hvalid hr.election.dst_mem ⟨m, hr, hl⟩
    obtain ⟨m, hr, hl⟩ := hinv
    exact hl.leaseReads hr
  · intro i hi _ j hj
    rw [Finset.card_le_one.1 hone j hj i hi]
    exact ⟨le_rfl, prefix_rfl⟩

def leaseNodes : Group := { threeNodes with seed := fun i => [1, 6, 12].getD i 0 }

def lockStep (rounds : List (List Call)) : List Call :=
  rounds.flatMap fun calls => calls ++ [.tick 0, .tick 1, .tick 2]

def firstLease : List Call :=
  lockStep (replicate 10 [] ++
    [[.deliver 0, .deliver 1, .deliver 2, .propose 0 [97]], [.deliver 6, .deliver 8]])

set_option maxRecDepth 100000 in
/-- The condition can be met by a run in which a leader has the lease. -/
theorem leaseReads_firstLease :
    let w := (init leaseNodes).execAll leaseNodes firstLease
    (w.nodes 0).hasReadLease = true ∧ (w.nodes 0).commitIndex = 1 ∧ LeaseReads leaseNodes w :=
  ⟨by decide +kernel, by decide +kernel,
    leaseReads_of_guard _ _ (run_execAll firstLease (by decide +kernel))⟩

/-- Everything node `0` sends from then on is late. -/
def secondLease : List Call :=
  firstLease ++ lockStep (replicate 9 []) ++
  [.deliver 30, .deliver 31, .deliver 33, .deliver 34, .deliver 35, .deliver 36]

set_option maxRecDepth 100000 in
/-- Two nodes have the lease, and the newer leader knows of no commit yet: it
would answer a read from before the command that node `0` has committed. -/
theorem not_leaseReads_secondLease :
    let w := (init leaseNodes).execAll leaseNodes secondLease
    Cluster.Reachable leaseNodes Served w ∧ (w.nodes 1).hasReadLease = true ∧
      (w.nodes 1).commitIndex = 0 ∧ (w.nodes 0).commitIndex = 1 ∧
      w.committed 1 = [] ∧ w.committed 0 = [(1, [97])] ∧ ¬ LeaseReads leaseNodes w := by
  have hlease : (((init leaseNodes).execAll leaseNodes secondLease).nodes
      1).hasReadLease = true := by decide +kernel
  have hone : (((init leaseNodes).execAll leaseNodes secondLease).nodes
      1).commitIndex = 0 := by decide +kernel
  have hzero : (((init leaseNodes).execAll leaseNodes secondLease).nodes
      0).commitIndex = 1 := by decide +kernel
  refine ⟨run_execAll secondLease (by decide +kernel), hlease, hone, hzero,
    by decide +kernel, by decide +kernel, fun hreads => ?_⟩
  have hle := (hreads 1 (by decide) hlease 0 (by decide)).1
  rw [hone, hzero] at hle
  exact absurd hle (by decide)

end BonsaiGrid.Raft
