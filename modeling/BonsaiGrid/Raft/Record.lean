import BonsaiGrid.Consensus.Safety
import BonsaiGrid.Raft.Election
import BonsaiGrid.Raft.FullLog

/-!
# Nodes and messages in the record of the replicated log

What the state of a node and a message on its way say about the replicated log: the full log of a
node is the log of the member, its commit index ends a decided prefix, a leader's match indices
are bounds on what the members have taken over, and entries on their way are a piece of the log of
their leader.
-/

namespace BonsaiGrid.Raft

open Consensus Consensus.Replog List RaftNode

abbrev Record := Replog NodeId Bytes

/-- The leader still has the entries `peer` is sent next, or `peer` has
acknowledged the ones that are gone. -/
def RaftNode.CanServe (n : RaftNode) (peer : NodeId) : Prop :=
  n.log.snapshotIndex < n.nextIndex.getD peer 0 ∨ n.log.snapshotIndex ≤ n.matchIndex.getD peer 0

instance (n : RaftNode) (peer : NodeId) : Decidable (n.CanServe peer) :=
  inferInstanceAs (Decidable (_ ∨ _))

def applications (F : List (Ent Bytes)) (k : ℕ) : List (ℕ × Bytes) :=
  (number 0 (F.take k)).map fun e => (e.index, e.command)

/-- The log and the volatile state of member `i` agree with the record. -/
structure NodeLog (g : Group) (m : Record) (i : NodeId) (n : RaftNode)
    (applied : List (ℕ × Bytes)) : Prop where
  log : Represents n.log (m.log i)
  assertFailed : n.log.assertFailed = false
  snapshot_le : n.log.snapshotIndex ≤ n.lastApplied
  applied_le : n.lastApplied ≤ n.commitIndex
  commit_le : n.commitIndex ≤ (m.log i).length
  decided : Decided (majorities g.members) m n.currentTerm ((m.log i).take n.commitIndex)
  cand : n.role = .candidate → m.cand i n.currentTerm = some (m.log i)
  match_le : n.role = .leader → ∀ p ∈ g.members, n.matchIndex.getD p 0 ≤ m.ack p n.currentTerm
  next_le : n.role = .leader → ∀ p ∈ g.members, n.nextIndex.getD p 0 ≤ (m.log i).length + 1
  applied : applied = applications (m.log i) n.lastApplied

/-- The entries of a leader of term `t` after the first `j` and up to the first `k`, sent to `dst`
as what follows `prev`. -/
structure Carries (g : Group) (m : Record) (dst : NodeId) (t prev prevTerm : ℕ)
    (entries : List Entry) (commit j k : ℕ) : Prop where
  leader : m.leader t ≠ none
  prev_le : prev ≤ j
  le : j ≤ k
  le_length : k ≤ (m.hist t).length
  entries : entries = number j (((m.hist t).take k).drop j)
  prev : (prev = j ∧ (0 < prev → prevTerm = termIn (m.hist t) prev)) ∨ j ≤ m.ack dst t
  commit_le : commit ≤ k
  decided : Decided (majorities g.members) m t ((m.hist t).take commit)

/-- What a message from `src` to `dst` says about the record. -/
def MsgLog (g : Group) (m : Record) (src dst : NodeId) : RaftMsg → Prop
  | .requestVote term _ lastLogIndex lastLogTerm =>
    ∃ l, m.cand src term = some l ∧ lastLogIndex = l.length ∧ lastLogTerm = lastTerm l
  | .requestVoteResp _ _ => True
  | .appendEntries term _ prevLogIndex prevLogTerm entries leaderCommit =>
    ∃ j k, Carries g m dst term prevLogIndex prevLogTerm entries leaderCommit j k
  | .appendEntriesResp term success matchIndex => success = true → matchIndex ≤ m.ack src term

structure LogRel (g : Group) (w : Cluster) (m : Record) : Prop where
  election : ElectionRel g w m.toBallot
  inv : m.Inv (majorities g.members)
  node : ∀ i ∈ g.members, NodeLog g m i (w.nodes i) (w.applied i)
  msg : ∀ p ∈ w.sent, MsgLog g m p.src p.dst p.msg

section Grows

variable {g : Group} {m m' : Record}

theorem termIn_eq_of_isPrefix {F H : List (Ent Bytes)} {idx : ℕ} (h : F <+: H) (hpos : 0 < idx)
    (hle : idx ≤ F.length) : termIn H idx = termIn F idx := by
  obtain ⟨s, rfl⟩ := h
  rw [termIn, termIn, getElem?_append_left (by omega)]

theorem Carries.mono (hg : Grows m m') {dst : NodeId} {t prev prevTerm : ℕ}
    {entries : List Entry} {commit j k : ℕ}
    (h : Carries g m dst t prev prevTerm entries commit j k) :
    Carries g m' dst t prev prevTerm entries commit j k where
  leader := hg.ballot.leader_ne_none h.leader
  prev_le := h.prev_le
  le := h.le
  le_length := h.le_length.trans (hg.hist t).length_le
  entries := by
    rw [hg.take_eq h.le_length]
    exact h.entries
  prev := by
    rcases h.prev with ⟨hj, hterm⟩ | hack
    · refine .inl ⟨hj, fun hpos => ?_⟩
      have hle : prev ≤ (m.hist t).length := h.prev_le.trans (h.le.trans h.le_length)
      rw [termIn_eq_of_isPrefix (hg.hist t) hpos hle]
      exact hterm hpos
    · exact .inr (hack.trans (hg.ack dst t))
  commit_le := h.commit_le
  decided := by
    rw [hg.take_eq (h.commit_le.trans h.le_length)]
    exact hg.decided le_rfl h.decided

theorem MsgLog.mono (hg : Grows m m') {src dst : NodeId} {msg : RaftMsg}
    (h : MsgLog g m src dst msg) : MsgLog g m' src dst msg := by
  cases msg with
  | requestVote term candidate lastLogIndex lastLogTerm =>
    obtain ⟨l, hl, hi, ht⟩ := h
    exact ⟨l, hg.cand _ _ l hl, hi, ht⟩
  | requestVoteResp term granted => trivial
  | appendEntries term leader prevLogIndex prevLogTerm entries leaderCommit =>
    obtain ⟨j, k, hc⟩ := h
    exact ⟨j, k, hc.mono hg⟩
  | appendEntriesResp term success matchIndex =>
    exact fun hs => (h hs).trans (hg.ack _ _)

theorem NodeLog.mono (hg : Grows m m') {i : NodeId} {n : RaftNode} {applied : List (ℕ × Bytes)}
    (hlog : m'.log i = m.log i) (h : NodeLog g m i n applied) : NodeLog g m' i n applied where
  log := hlog ▸ h.log
  assertFailed := h.assertFailed
  snapshot_le := h.snapshot_le
  applied_le := h.applied_le
  commit_le := hlog ▸ h.commit_le
  decided := by
    rw [hlog]
    exact hg.decided le_rfl h.decided
  cand := fun hr => by
    rw [hlog]
    exact hg.cand _ _ _ (h.cand hr)
  match_le := fun hr p hp => (h.match_le hr p hp).trans (hg.ack _ _)
  next_le := fun hr p hp => hlog ▸ h.next_le hr p hp
  applied := hlog ▸ h.applied

end Grows

/-- A change of the node that leaves its log, its indices and, unless it has
become a follower, its role and what it knows of the others. -/
structure Still (n n' : RaftNode) : Prop where
  log : ∀ F, Represents n.log F → Represents n'.log F
  assertFailed : n'.log.assertFailed = n.log.assertFailed
  snapshotIndex : n'.log.snapshotIndex = n.log.snapshotIndex
  commitIndex : n'.commitIndex = n.commitIndex
  lastApplied : n'.lastApplied = n.lastApplied
  role : n'.role = .follower ∨ n'.role = n.role ∧ n'.currentTerm = n.currentTerm ∧
    n'.matchIndex = n.matchIndex ∧ n'.nextIndex = n.nextIndex

namespace Still

variable (n : RaftNode)

theorem refl : Still n n :=
  ⟨fun _ h => h, rfl, rfl, rfl, rfl, .inr ⟨rfl, rfl, rfl, rfl⟩⟩

theorem wait : Still n { n with elapsed := n.elapsed + 1 } :=
  ⟨fun _ h => h, rfl, rfl, rfl, rfl, .inr ⟨rfl, rfl, rfl, rfl⟩⟩

theorem leaderTick : Still n n.leaderTick :=
  ⟨fun _ h => h, rfl, rfl, rfl, rfl, .inr ⟨rfl, rfl, rfl, rfl⟩⟩

theorem heartbeat : Still n n.leaderTick.freshRound :=
  ⟨fun _ h => h, rfl, rfl, rfl, rfl, .inr ⟨rfl, rfl, rfl, rfl⟩⟩

theorem count (src : NodeId) : Still n { n with votes := n.votes.set src true } :=
  ⟨fun _ h => h, rfl, rfl, rfl, rfl, .inr ⟨rfl, rfl, rfl, rfl⟩⟩

theorem follow (leader : NodeId) : Still n (n.follow leader) := by
  constructor <;> simp [RaftNode.follow]

end Still

theorem NodeLog.of_still {g : Group} {m : Record} {i : NodeId} {n n' : RaftNode}
    {applied : List (ℕ × Bytes)} (h : NodeLog g m i n applied) (hs : Still n n')
    (hterm : n.currentTerm ≤ n'.currentTerm) : NodeLog g m i n' applied := by
  have hrole : ∀ r, r ≠ .follower → n'.role = r → n.role = r ∧
      n'.currentTerm = n.currentTerm ∧ n'.matchIndex = n.matchIndex ∧
      n'.nextIndex = n.nextIndex := by
    intro r hne hr
    rcases hs.role with hf | ⟨hr', hrest⟩
    · exact absurd (hr.symm.trans hf) hne
    · exact ⟨hr' ▸ hr, hrest⟩
  refine ⟨hs.log _ h.log, hs.assertFailed.trans h.assertFailed, ?_, ?_, ?_, ?_, fun hr => ?_,
    fun hr p hp => ?_, fun hr p hp => ?_, ?_⟩
  · rw [hs.snapshotIndex, hs.lastApplied]
    exact h.snapshot_le
  · rw [hs.lastApplied, hs.commitIndex]
    exact h.applied_le
  · rw [hs.commitIndex]
    exact h.commit_le
  · rw [hs.commitIndex]
    exact h.decided.mono hterm
  · obtain ⟨hr', ht, -⟩ := hrole _ (by decide) hr
    rw [ht]
    exact h.cand hr'
  · obtain ⟨hr', ht, hm, -⟩ := hrole _ (by decide) hr
    rw [ht, hm]
    exact h.match_le hr' p hp
  · obtain ⟨hr', -, -, hn⟩ := hrole _ (by decide) hr
    rw [hn]
    exact h.next_le hr' p hp
  · rw [hs.lastApplied]
    exact h.applied

section Vectors

theorem getD_foldl_set_le (l : List ℕ) (x : ℕ) (v : List ℕ) {q : ℕ} (hq : q ∈ l) :
    (l.foldl (fun v p => v.set p x) v).getD q 0 ≤ x := by
  rw [getD_eq_getElem?_getD, getElem?_foldl_set, if_pos hq]
  cases v[q]? <;> simp

theorem getD_set_le {v : List ℕ} {p q x b : ℕ} (hx : q = p → x ≤ b) (hv : v.getD q 0 ≤ b) :
    (v.set p x).getD q 0 ≤ b := by
  rw [getD_eq_getElem?_getD] at hv ⊢
  by_cases hpq : p = q
  · subst hpq
    by_cases hlt : p < v.length
    · simpa [hlt] using hx rfl
    · simp [hlt]
  · simpa [hpq] using hv

end Vectors

theorem Represents.committedFrom_eq {log : RaftLog} {F : List (Ent Bytes)} (hF : Represents log F)
    (todo k : ℕ) (hk : log.snapshotIndex ≤ k) (hle : k + todo ≤ F.length) :
    applications F k ++ RaftNode.committedFrom log todo k = applications F (k + todo) := by
  induction todo generalizing k with
  | zero => simp [committedFrom]
  | succ todo ih =>
    have hlt : k < F.length := by omega
    have hcmd : log.commandAt (k + 1) = some F[k].val := by
      rw [hF.commandAt_eq (show log.snapshotIndex < k + 1 by omega), Nat.add_sub_cancel,
        getElem?_eq_getElem hlt]
      rfl
    have hnext : applications F (k + 1) = applications F k ++ [(k + 1, F[k].val)] := by
      rw [applications, applications, take_add_one, getElem?_eq_getElem hlt,
        number_append, length_take, Nat.min_eq_left hlt.le]
      simp [number]
    rw [committedFrom, hcmd]
    dsimp only
    rw [← singleton_append, ← append_assoc, ← hnext, ih (k + 1) (by omega) (by omega)]
    congr 1
    omega

section Leader

variable {g : Group} {m : Record} {i : NodeId} {n : RaftNode} {applied : List (ℕ × Bytes)}

theorem NodeLog.advanceCommit (hinv : m.Inv (majorities g.members))
    (hi : i ∈ g.members) (he : NodeElection g m.toBallot i n) (hn : NodeLog g m i n applied)
    (hrole : n.role = .leader) : NodeLog g m i n.advanceCommit applied := by
  rcases n.advanceCommit_cases with heq | ⟨idx, hlt, hle, hterm, hmaj, heq⟩
  · rw [heq]
    exact hn
  · rw [heq]
    have hleader := he.leader hrole
    have hF : m.log i = m.hist n.currentTerm := by
      rw [← he.term]
      exact hinv.leader_log i (he.term.symm ▸ hleader)
    have hlen := hn.log.lastIndex_eq
    have hsnap : n.log.snapshotIndex ≤ idx :=
      (hn.snapshot_le.trans hn.applied_le).trans hlt.le
    refine ⟨hn.log, hn.assertFailed, hn.snapshot_le, hn.applied_le.trans hlt.le, hlen ▸ hle, ?_,
      hn.cand, hn.match_le, hn.next_le, hn.applied⟩
    refine .inr ⟨n.currentTerm, idx - 1, le_rfl, ⟨?_, ?_⟩, ?_⟩
    · rw [hn.log.termAt_eq (by omega) hsnap, hF, termIn] at hterm
      have hin : idx - 1 < (m.hist n.currentTerm).length := by
        rw [← hF]
        omega
      rw [getElem?_eq_getElem hin] at hterm
      exact ⟨_, getElem?_eq_getElem hin, hterm⟩
    · rw [majority, replicas, he.peers] at hmaj
      refine majorities_isQuorum_of_countP (g.nodup i hi) (g.mem_peers i hi)
        (fun p hp hrep => ?_) hmaj
      have hack := hn.match_le hrole p hp
      rw [decide_eq_true_eq] at hrep
      change idx - 1 < m.ack p n.currentTerm
      omega
    · rw [hF, Nat.sub_add_cancel (by omega)]

theorem msgLog_appendTo (hinv : m.Inv (majorities g.members))
    (hn : NodeLog g m i n applied) (hterm : m.term i = n.currentTerm)
    (hleader : m.leader n.currentTerm = some i) (hrole : n.role = .leader) {peer : NodeId}
    (hpeer : peer ∈ g.members) (hserve : n.CanServe peer) :
    MsgLog g m i peer (n.appendTo peer).2 := by
  have hF : m.log i = m.hist n.currentTerm := by
    rw [← hterm]
    exact hinv.leader_log i (hterm.symm ▸ hleader)
  have hlog := hn.log
  have hnext := hn.next_le hrole peer hpeer
  have hcommit := hn.commit_le
  have hdec := hn.decided
  rw [hF] at hlog hnext hcommit hdec
  have hsnap := hlog.snapshot_le
  have hj : max (n.nextIndex.getD peer 0 - 1) n.log.snapshotIndex ≤
      (m.hist n.currentTerm).length := by
    omega
  refine ⟨_, _, ?_, le_max_left _ _, hj, le_rfl, ?_, ?_, hcommit, hdec⟩
  · rw [hleader]
    exact Option.some_ne_none i
  · rw [take_length]
    exact hlog.entriesFrom_eq _
  · by_cases hle : n.log.snapshotIndex ≤ n.nextIndex.getD peer 0 - 1
    · exact .inl ⟨(max_eq_left hle).symm, fun hpos => hlog.termAt_eq hpos hle⟩
    · have hack := hn.match_le hrole peer hpeer
      unfold RaftNode.CanServe at hserve
      omega

theorem msgLog_broadcastAppend (hinv : m.Inv (majorities g.members))
    (hn : NodeLog g m i n applied) (he : NodeElection g m.toBallot i n) (hi : i ∈ g.members)
    (hrole : n.role = .leader) (hserve : ∀ p ∈ n.peers, p ≠ i → n.CanServe p) :
    ∀ o ∈ n.broadcastAppend, MsgLog g m i o.1 o.2 := by
  intro o ho
  obtain ⟨p, ⟨hp, hne⟩, rfl⟩ := mem_broadcastAppend.1 ho
  have hmem : p ∈ g.members := by
    rw [he.peers] at hp
    exact (g.mem_peers i hi p).1 hp
  exact msgLog_appendTo hinv hn he.term (he.leader hrole) hrole hmem
    (hserve p hp (he.id ▸ hne))

end Leader

end BonsaiGrid.Raft
