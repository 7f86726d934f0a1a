import BonsaiGrid.Raft.Cluster

/-!
# What a call can do

A call is one or two moves of one node: adopt a newer term, then handle the message; start an
election, then win it at once.
-/

namespace BonsaiGrid.Raft

open Function RaftNode Cluster

variable [Crc32fast]

structure CallRules (g : Group) (w : Cluster) (c : Call) (Q : Cluster → Prop) : Prop where
  adopt : ∀ p ∈ w.sent, Q w → (w.nodes p.dst).currentTerm < msgTerm p.msg →
    Q (w.put p.dst ((w.nodes p.dst).becomeFollower (msgTerm p.msg), []))
  wait : ∀ i, Q w → i ∈ g.members → (w.nodes i).role ≠ .leader →
    Q (w.put i ({ w.nodes i with elapsed := (w.nodes i).elapsed + 1 }, []))
  campaign : ∀ v i, Q v → i ∈ g.members → (v.nodes i).role ≠ .leader →
    Q (v.put i ((v.nodes i).asCandidate, (v.nodes i).asCandidate.voteRequests))
  win : ∀ v i, Q v → i ∈ g.members → (v.nodes i).role = .candidate →
    (v.nodes i).majority ≤ (v.nodes i).votes.count true → (w.nodes i).role ≠ .leader →
    (∀ j, j ≠ i → v.nodes j = w.nodes j) →
    w.exec g c = v.put i ((v.nodes i).asLeader, (v.nodes i).asLeader.broadcastAppend) →
    Q (v.put i ((v.nodes i).asLeader, (v.nodes i).asLeader.broadcastAppend))
  leaderTick : ∀ i, Q w → i ∈ g.members → (w.nodes i).role = .leader →
    Q (w.put i ((w.nodes i).leaderTick, []))
  heartbeat : ∀ i, c = .tick i → Q w → i ∈ g.members → (w.nodes i).role = .leader →
    Q (w.put i ((w.nodes i).leaderTick.freshRound,
      (w.nodes i).leaderTick.freshRound.broadcastAppend))
  vote : ∀ v p term candidate lastLogIndex lastLogTerm, Q v → p ∈ v.sent →
    p.msg = .requestVote term candidate lastLogIndex lastLogTerm →
    (v.nodes p.dst).currentTerm = term →
    (v.nodes p.dst).votedFor = none ∨ (v.nodes p.dst).votedFor = some candidate →
    (v.nodes p.dst).upToDate lastLogIndex lastLogTerm →
    Q (v.put p.dst ((v.nodes p.dst).withVote candidate,
      [(candidate, .requestVoteResp (v.nodes p.dst).currentTerm true)]))
  refuse : ∀ v p term candidate lastLogIndex lastLogTerm, Q v → p ∈ v.sent →
    p.msg = .requestVote term candidate lastLogIndex lastLogTerm →
    Q (v.put p.dst (v.nodes p.dst,
      [(candidate, .requestVoteResp (v.nodes p.dst).currentTerm false)]))
  count : ∀ v p, Q v → p ∈ v.sent → p.msg = .requestVoteResp (v.nodes p.dst).currentTerm true →
    (v.nodes p.dst).role = .candidate →
    Q (v.put p.dst
      ({ v.nodes p.dst with votes := (v.nodes p.dst).votes.set p.src true }, []))
  append : ∀ k v p term leader prevLogIndex prevLogTerm entries leaderCommit,
    c = .deliver k → Q v → w.sent[k]? = some p → p ∈ v.sent →
    p.msg = .appendEntries term leader prevLogIndex prevLogTerm entries leaderCommit →
    v.nodes p.dst = (w.nodes p.dst).observeTerm term →
    (v.nodes p.dst).currentTerm = term →
    (v.nodes p.dst).prevMatches prevLogIndex prevLogTerm →
    Q (v.put p.dst (((v.nodes p.dst).follow leader).withEntries
      (appendAll (v.nodes p.dst).log prevLogIndex entries).1 leaderCommit,
      [(leader, .appendEntriesResp (v.nodes p.dst).currentTerm true
        (max (appendAll (v.nodes p.dst).log prevLogIndex entries).2 prevLogIndex))]))
  mismatch : ∀ v p term leader prevLogIndex prevLogTerm entries leaderCommit, Q v → p ∈ v.sent →
    p.msg = .appendEntries term leader prevLogIndex prevLogTerm entries leaderCommit →
    (v.nodes p.dst).currentTerm = term →
    Q (v.put p.dst ((v.nodes p.dst).follow leader,
      [(leader, .appendEntriesResp (v.nodes p.dst).currentTerm false 0)]))
  stale : ∀ v p term leader prevLogIndex prevLogTerm entries leaderCommit, Q v → p ∈ v.sent →
    p.msg = .appendEntries term leader prevLogIndex prevLogTerm entries leaderCommit →
    Q (v.put p.dst (v.nodes p.dst,
      [(leader, .appendEntriesResp (v.nodes p.dst).currentTerm false 0)]))
  ack : ∀ k p matchIndex, c = .deliver k → Q w → w.sent[k]? = some p →
    p.msg = .appendEntriesResp (w.nodes p.dst).currentTerm true matchIndex →
    (w.nodes p.dst).role = .leader →
    Q (w.put p.dst (((w.nodes p.dst).withAck p.src matchIndex).advanceCommit, []))
  backOff : ∀ k p matchIndex, c = .deliver k → Q w → w.sent[k]? = some p →
    p.msg = .appendEntriesResp (w.nodes p.dst).currentTerm false matchIndex →
    (w.nodes p.dst).role = .leader →
    Q (w.put p.dst ((w.nodes p.dst).backOff p.src,
      ((w.nodes p.dst).backOff p.src).sendAppend p.src))
  propose : ∀ i command, c = .propose i command → Q w → i ∈ g.members →
    (w.nodes i).role = .leader → Q (w.put i (((w.nodes i).propose command).1, []))
  takeCommitted : ∀ i, c = .takeCommitted i → Q w → i ∈ g.members →
    Q (w.exec g (.takeCommitted i))
  maybeCompact : ∀ i keep, c = .maybeCompact i keep → Q w → i ∈ g.members →
    Q (w.put i ((w.nodes i).maybeCompact keep, []))
  restart : ∀ i log seed heartbeat, c = .restart i log seed heartbeat → Q w →
    w.Valid g (.restart i log seed heartbeat) → Q (w.exec g (.restart i log seed heartbeat))

namespace CallRules

variable {g : Group} {w : Cluster} {c : Call} {i : NodeId} {Q : Cluster → Prop}

theorem maybeBecomeLeader (h : CallRules g w c Q) {v : Cluster} (hQ : Q v)
    (hi : i ∈ g.members) (hrole : (w.nodes i).role ≠ .leader)
    (hv : ∀ j, j ≠ i → v.nodes j = w.nodes j)
    (hexec : w.exec g c = v.put i (v.nodes i).maybeBecomeLeader) :
    Q (v.put i (v.nodes i).maybeBecomeLeader) := by
  unfold RaftNode.maybeBecomeLeader at hexec ⊢
  split at hexec <;> rename_i hcand
  · rw [if_pos hcand, put_self]
    exact hQ
  · rw [if_neg hcand]
    split at hexec <;> rename_i hcount
    · rw [if_pos hcount]
      exact h.win v i hQ hi (not_not.1 hcand) hcount hrole hv hexec
    · rw [if_neg hcount, put_self]
      exact hQ

theorem tick (h : CallRules g w (.tick i) Q) (hQ : Q w) (hi : i ∈ g.members) :
    Q (w.put i (w.nodes i).tick) := by
  unfold RaftNode.tick
  split
  · rename_i hrole
    split
    · exact h.heartbeat i rfl hQ hi hrole
    · exact h.leaderTick i hQ hi hrole
  · rename_i hrole
    have hwait := h.wait i hQ hi hrole
    have hother : ∀ (r r' : RaftNode × Out) (j : NodeId), j ≠ i →
        ((w.put i r).put i r').nodes j = w.nodes j := by
      intro r r' j hij
      rw [put_nodes_of_ne _ _ hij, put_nodes_of_ne _ _ hij]
    dsimp only
    split
    · rename_i htimeout
      have hcamp := h.campaign _ i hwait hi (by simpa using hrole)
      have hwin := h.maybeBecomeLeader hcamp hi hrole (hother _ _) (by
        simp [exec, RaftNode.tick, htimeout, RaftNode.startElection,
          put_put])
      simpa [startElection, put_put] using hwin
    · exact hwait

/-- The messages a follower or a candidate handles, in the state `v` that it
has after the term of the message was adopted. -/
theorem handle {k : ℕ} (h : CallRules g w (.deliver k) Q) {p : Packet} {v : Cluster}
    (hk : w.sent[k]? = some p) (hQ : Q v) (hp : p ∈ v.sent) (hdst : p.dst ∈ g.members)
    (hv : v = w.put p.dst ((w.nodes p.dst).observeTerm (msgTerm p.msg), []))
    (hexec : w.exec g (.deliver k) = v.put p.dst ((v.nodes p.dst).handle p.src p.msg)) :
    Q (v.put p.dst ((v.nodes p.dst).handle p.src p.msg)) := by
  have hnode : v.nodes p.dst = (w.nodes p.dst).observeTerm (msgTerm p.msg) := by
    rw [hv, put_nodes_self]
  have hle : msgTerm p.msg ≤ (v.nodes p.dst).currentTerm := by
    rw [hnode]
    exact le_observeTerm_currentTerm _ _
  -- a node that is not a follower has not adopted a term
  have hsame : (v.nodes p.dst).role ≠ .follower → v = w := by
    intro hrole
    rw [hnode] at hrole
    rw [hv, observeTerm_eq_of_role_ne hrole, put_self]
  cases hm : p.msg with
  | requestVote term candidate lastLogIndex lastLogTerm =>
    rw [hm] at hle
    simp only [RaftNode.handle, RaftNode.onRequestVote]
    split
    · rename_i hguard
      exact h.vote v p term candidate lastLogIndex lastLogTerm hQ hp hm
        (le_antisymm hguard.1 hle) hguard.2.1 hguard.2.2
    · exact h.refuse v p term candidate lastLogIndex lastLogTerm hQ hp hm
  | requestVoteResp term granted =>
    rw [hm] at hexec
    simp only [RaftNode.handle, RaftNode.onVoteResp] at hexec ⊢
    split at hexec <;> rename_i hguard
    · rw [if_pos hguard, put_self]
      exact hQ
    · rw [if_neg hguard]
      obtain ⟨hrole, hterm⟩ := not_or.1 hguard
      rw [not_not] at hrole hterm
      have hvw := hsame (by rw [hrole]; decide)
      subst hvw
      cases granted with
      | false => simpa using hQ
      | true =>
        rw [hterm] at hm
        have hcount := h.count v p hQ hp hm hrole
        simpa [put_put] using h.maybeBecomeLeader hcount hdst
          (by rw [hrole]; decide) (fun j hij => put_nodes_of_ne _ _ hij)
          (by simpa [put_put] using hexec)
  | appendEntries term leader prevLogIndex prevLogTerm entries leaderCommit =>
    rw [hm] at hle hnode
    simp only [RaftNode.handle, RaftNode.onAppend]
    split
    · rename_i hterm
      split
      · rename_i hprev
        exact h.append k v p term leader prevLogIndex prevLogTerm entries leaderCommit rfl hQ hk
          hp hm hnode (le_antisymm hterm hle) hprev
      · exact h.mismatch v p term leader prevLogIndex prevLogTerm entries leaderCommit hQ hp hm
          (le_antisymm hterm hle)
    · exact h.stale v p term leader prevLogIndex prevLogTerm entries leaderCommit hQ hp hm
  | appendEntriesResp term success matchIndex =>
    simp only [RaftNode.handle, RaftNode.onAppendResp]
    split
    · rwa [put_self]
    · rename_i hguard
      obtain ⟨hrole, hterm⟩ := not_or.1 hguard
      have hvw := hsame (by rw [not_not.1 hrole]; decide)
      subst hvw
      rw [not_not.1 hterm] at hm
      split
      · rename_i hsucc
        rw [hsucc] at hm
        exact h.ack k p matchIndex rfl hQ hk hm (not_not.1 hrole)
      · rename_i hsucc
        rw [Bool.not_eq_true] at hsucc
        rw [hsucc] at hm
        exact h.backOff k p matchIndex rfl hQ hk hm (not_not.1 hrole)

theorem exec (h : CallRules g w c Q) (hvalid : w.Valid g c)
    (hdst : ∀ p ∈ w.sent, p.dst ∈ g.members) (hQ : Q w) : Q (w.exec g c) := by
  cases c with
  | tick i => exact h.tick hQ hvalid
  | propose i command =>
    simp only [exec]
    by_cases hrole : (w.nodes i).role = .leader
    · exact h.propose i command rfl hQ hvalid hrole
    · simpa [RaftNode.propose, hrole] using hQ
  | deliver k =>
    simp only [exec]
    cases hk : w.sent[k]? with
    | none => exact hQ
    | some p =>
      have hp : p ∈ w.sent := List.mem_of_getElem? hk
      have hv : Q (w.put p.dst ((w.nodes p.dst).observeTerm (msgTerm p.msg), [])) := by
        unfold observeTerm
        split
        · rename_i hlt
          exact h.adopt p hp hQ hlt
        · rwa [put_self]
      have := h.handle hk hv (by simpa using hp) (hdst p hp) rfl
        (by simp [exec, hk, step, put_put])
      simpa [step, put_put] using this
  | takeCommitted i => exact h.takeCommitted i rfl hQ hvalid
  | maybeCompact i keep => exact h.maybeCompact i keep rfl hQ hvalid
  | restart i log seed heartbeat => exact h.restart i log seed heartbeat rfl hQ hvalid

end CallRules

end BonsaiGrid.Raft
