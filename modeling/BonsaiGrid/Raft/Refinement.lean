import BonsaiGrid.Raft.Record

/-!
# The group refines the replicated log

Adopting a term, voting, starting an election and winning one are the steps of the same name;
taking over entries is the step `accept`, proposing is the step `propose`.
-/

namespace BonsaiGrid.Raft

open Function Consensus Consensus.Replog Cluster List

variable {p : Packet} {entries : List Entry}

namespace LogRel

variable {g : Group} {w : Cluster} {m m' : Record} {i : NodeId} {n : RaftNode} {out : Out}

section

variable (h : LogRel g w m)

include h

theorem put_applied (he : ElectionRel g (w.put i (n, out)) m.toBallot)
    {applied : List (ℕ × Bytes)} (hn : NodeLog g m i n applied)
    (hout : ∀ o ∈ out, MsgLog g m i o.1 o.2) :
    LogRel g { w.put i (n, out) with applied := update w.applied i applied } m := by
  refine ⟨he.withApplied _, h.inv, fun j hj => ?_, fun p hp => ?_⟩
  · by_cases hij : j = i
    · subst hij
      change NodeLog g m j ((w.put j (n, out)).nodes j) (update w.applied j applied j)
      rw [put_nodes_self, update_self]
      exact hn
    · change NodeLog g m j ((w.put i (n, out)).nodes j) (update w.applied i applied j)
      rw [put_nodes_of_ne _ _ hij, update_of_ne hij]
      exact h.node j hj
  · rw [put_sent, mem_append, mem_map] at hp
    rcases hp with hp | ⟨o, ho, rfl⟩
    · exact h.msg p hp
    · exact hout o ho

theorem put_same (he : ElectionRel g (w.put i (n, out)) m.toBallot)
    (hn : NodeLog g m i n (w.applied i)) (hout : ∀ o ∈ out, MsgLog g m i o.1 o.2) :
    LogRel g (w.put i (n, out)) m := by
  have := h.put_applied he hn hout
  rwa [update_eq_self] at this

theorem put_step (hstep : Replog.Step (majorities g.members) i m m')
    (he : ElectionRel g (w.put i (n, out)) m'.toBallot) (hn : NodeLog g m' i n (w.applied i))
    (hout : ∀ o ∈ out, MsgLog g m' i o.1 o.2) : LogRel g (w.put i (n, out)) m' := by
  have hg := hstep.grows h.inv
  refine ⟨he, hstep.inv h.inv, fun j hj => ?_, fun p hp => ?_⟩
  · by_cases hij : j = i
    · subst hij
      rw [put_nodes_self]
      exact hn
    · rw [put_nodes_of_ne _ _ hij]
      exact (h.node j hj).mono hg (hstep.frame hij)
  · rw [put_sent, mem_append, mem_map] at hp
    rcases hp with hp | ⟨o, ho, rfl⟩
    · exact (h.msg p hp).mono hg
    · exact hout o ho

section

variable (hi : i ∈ g.members)

include hi

theorem still
    (he : ElectionRel g (w.put i (n, out)) m.toBallot) (hs : Still (w.nodes i) n)
    (hterm : (w.nodes i).currentTerm ≤ n.currentTerm) (hout : ∀ o ∈ out, MsgLog g m i o.1 o.2) :
    LogRel g (w.put i (n, out)) m :=
  h.put_same he ((h.node i hi).of_still hs hterm) hout

theorem idle (hq : Quiet (w.nodes i) n) (hs : Still (w.nodes i) n) :
    LogRel g (w.put i (n, [])) m :=
  h.still hi (h.election.quiet hi hq (by simp)) hs hq.term.ge (by simp)

theorem term_eq :
    m.term i = (w.nodes i).currentTerm :=
  (h.election.node i hi).term

theorem hist_eq_log (hrole : (w.nodes i).role = .leader) :
    m.hist (w.nodes i).currentTerm = m.log i := by
  have hlog := h.inv.leader_log i
  rw [h.term_eq hi] at hlog
  exact (hlog ((h.election.node i hi).leader hrole)).symm

theorem becomeFollower {t : ℕ}
    (ht : (w.nodes i).currentTerm < t) :
    LogRel g (w.put i ((w.nodes i).becomeFollower t, [])) (m.adopt i t) := by
  have hlt : m.term i < t := (h.term_eq hi).trans_lt ht
  have hstep : Replog.Step (majorities g.members) i m (m.adopt i t) := .adopt t hlt
  refine h.put_step hstep (h.election.becomeFollower hi ht) ?_ (by simp)
  refine ((h.node i hi).mono (hstep.grows h.inv) rfl).of_still ?_ ?_
  · constructor <;> simp [RaftNode.becomeFollower]
    exact fun F hF => hF.persistTermVote t none
  · simpa [RaftNode.becomeFollower] using ht.le

end

theorem reply (hp : p ∈ w.sent) (hq : Quiet (w.nodes p.dst) n) (hs : Still (w.nodes p.dst) n)
    {dest : NodeId} (hdest : dest ∈ g.members) {msg : RaftMsg}
    (hmsg : MsgElection m.toBallot p.dst dest msg) (hlog : MsgLog g m p.dst dest msg) :
    LogRel g (w.put p.dst (n, [(dest, msg)])) m :=
  h.still (h.election.dst_mem p hp) (h.election.reply hp hq hdest hmsg) hs hq.term.ge
    (by simpa using hlog)

theorem withVote (hp : p ∈ w.sent)
    {term candidate lastLogIndex lastLogTerm : ℕ}
    (hm : p.msg = .requestVote term candidate lastLogIndex lastLogTerm)
    (hterm : (w.nodes p.dst).currentTerm = term)
    (hvote : (w.nodes p.dst).votedFor = none ∨ (w.nodes p.dst).votedFor = some candidate)
    (hup : (w.nodes p.dst).upToDate lastLogIndex lastLogTerm) :
    Replog.Step (majorities g.members) p.dst m (m.grant p.dst candidate) ∧
      LogRel g (w.put p.dst ((w.nodes p.dst).withVote candidate,
        [(candidate, .requestVoteResp (w.nodes p.dst).currentTerm true)]))
        (m.grant p.dst candidate) := by
  have hi := h.election.dst_mem p hp
  have hn := h.node p.dst hi
  obtain ⟨hsrc, hc⟩ := h.election.candidate_mem hp hm
  have hmsg := h.msg p hp
  rw [hm] at hmsg
  obtain ⟨l, hl, hlen, hlast⟩ := hmsg
  have hguard : m.vote p.dst (m.term p.dst) = none ∨ m.vote p.dst (m.term p.dst) = some candidate := by
    rw [h.term_eq hi, (h.election.node p.dst hi).vote]
    exact hvote
  have hcand : m.cand candidate (m.term p.dst) = some l := by
    rw [h.term_eq hi, hterm, hsrc]
    exact hl
  have hlog : UpToDate l (m.log p.dst) := by
    rw [RaftNode.upToDate, hn.log.lastTerm_eq, hn.log.lastIndex_eq, hlen, hlast] at hup
    exact hup.imp id fun ⟨ht, hle⟩ => ⟨ht.symm, hle⟩
  have hstep : Replog.Step (majorities g.members) p.dst m (m.grant p.dst candidate) :=
    .grant candidate l hguard hcand hlog
  refine ⟨hstep, h.put_step hstep (h.election.withVote hi hc hvote) ?_ ?_⟩
  · refine (hn.mono (hstep.grows h.inv) rfl).of_still ?_ ?_
    · constructor <;> simp [RaftNode.withVote]
      exact fun F hF => hF.persistTermVote _ _
    · simp [RaftNode.withVote]
  · simp [MsgLog]

theorem asCandidate (hi : i ∈ g.members) :
    LogRel g (w.put i ((w.nodes i).asCandidate, (w.nodes i).asCandidate.voteRequests))
      (m.campaign i) := by
  have hn := h.node i hi
  have hstep : Replog.Step (majorities g.members) i m (m.campaign i) := .campaign
  have hcand : (m.campaign i).cand i ((w.nodes i).currentTerm + 1) = some (m.log i) := by
    rw [← h.term_eq hi, campaign_cand]
  refine h.put_step hstep (h.election.asCandidate hi) ?_ ?_
  · have hn' := hn.mono (hstep.grows h.inv) (rfl : (m.campaign i).log i = m.log i)
    constructor
    case log => simpa [RaftNode.asCandidate] using hn'.log.persistTermVote _ _
    case decided =>
      simpa [RaftNode.asCandidate] using hn'.decided.mono (Nat.le_succ _)
    case cand =>
      intro _
      change _ = some (m.log i)
      simpa [RaftNode.asCandidate] using hcand
    case applied => simpa [RaftNode.asCandidate] using hn'.applied
    all_goals
      simp [RaftNode.asCandidate, hn'.assertFailed, hn'.snapshot_le, hn'.applied_le, hn'.commit_le]
  · intro o ho
    obtain ⟨p, -, rfl⟩ := RaftNode.mem_voteRequests.1 ho
    refine ⟨m.log i, ?_, ?_, ?_⟩
    · simpa [RaftNode.asCandidate] using hcand
    · simpa [RaftNode.asCandidate] using (hn.log.persistTermVote _ _).lastIndex_eq
    · simpa [RaftNode.asCandidate] using (hn.log.persistTermVote _ _).lastTerm_eq

/-- An election that is won is the step `elect`. A new leader expects every
member to be level with it, so it can serve all of them. -/
theorem asLeader (hi : i ∈ g.members) (hrole : (w.nodes i).role = .candidate)
    (hcount : (w.nodes i).majority ≤ (w.nodes i).votes.count true) :
    Replog.Step (majorities g.members) i m (m.elect i) ∧
      LogRel g (w.put i ((w.nodes i).asLeader, (w.nodes i).asLeader.broadcastAppend))
        (m.elect i) := by
  have hn := h.node i hi
  have he := h.election.node i hi
  have hterm := h.term_eq hi
  have hstep : Replog.Step (majorities g.members) i m (m.elect i) := by
    refine .elect ?_ ?_ ?_
    · rw [hterm]
      exact he.running hrole
    · rw [hterm]
      exact hn.cand hrole
    · rw [hterm]
      exact h.election.isQuorum_votes hi hrole hcount
  have hn' := hn.mono (hstep.grows h.inv) (rfl : (m.elect i).log i = m.log i)
  have hlast : (w.nodes i).log.lastIndex = (m.log i).length := hn.log.lastIndex_eq
  have hack : (m.elect i).ack i (w.nodes i).currentTerm = (m.log i).length := by
    simp [elect, hterm]
  have hpeers : ∀ p ∈ g.members, p ∈ (w.nodes i).peers := fun p hp =>
    (h.election.mem_peers hi).2 hp
  have hnode : NodeLog g (m.elect i) i (w.nodes i).asLeader (w.applied i) := by
    refine ⟨hn'.log, hn'.assertFailed, hn'.snapshot_le, hn'.applied_le, hn'.commit_le,
      hn'.decided, ?_, fun _ p hp => ?_, fun _ p hp => ?_, hn'.applied⟩
    · intro hr
      cases hr
    · refine getD_set_le ?_ ((getD_foldl_set_le _ 0 _ (hpeers p hp)).trans (Nat.zero_le _))
      rintro rfl
      rw [he.id, hlast]
      exact hack.ge
    · change _ ≤ (m.log i).length + 1
      rw [← hlast]
      exact getD_foldl_set_le _ _ _ (hpeers p hp)
  have helect := h.election.asLeader hi hrole hcount
  refine ⟨hstep, h.put_step hstep helect hnode ?_⟩
  have hself := helect.node i hi
  rw [put_nodes_self] at hself
  refine msgLog_broadcastAppend (hstep.inv h.inv) hnode hself hi rfl fun p hp _ => .inl ?_
  have hnext : (w.nodes i).asLeader.nextIndex.getD p 0 = (w.nodes i).log.lastIndex + 1 := by
    have hsize : p < (w.nodes i).nextIndex.length :=
      he.slots p ((h.election.mem_peers hi).1 hp) _ (by simp [RaftNode.slots])
    have hp' : p ∈ (w.nodes i).peers := hp
    simp only [RaftNode.asLeader, getD_eq_getElem?_getD]
    rw [RaftNode.getElem?_foldl_set, if_pos hp', getElem?_eq_getElem hsize]
    rfl
  rw [hnext, hlast]
  exact Nat.lt_succ_of_le hn.log.snapshot_le

end

section Entries

variable [Crc32fast]

theorem withCommand (h : LogRel g w m) (hi : i ∈ g.members) (hrole : (w.nodes i).role = .leader)
    (command : Bytes) :
    Replog.Step (majorities g.members) i m (m.propose i command) ∧
      (m.propose i command).log i = m.log i ++ [⟨(w.nodes i).currentTerm, command⟩] ∧
      NodeLog g (m.propose i command) i ((w.nodes i).withCommand command) (w.applied i) := by
  have hn := h.node i hi
  have he := h.election.node i hi
  have hterm := h.term_eq hi
  have hstep : Replog.Step (majorities g.members) i m (m.propose i command) := by
    refine .propose command ?_
    rw [hterm]
    exact he.leader hrole
  have hg := hstep.grows h.inv
  have hlog : (m.propose i command).log i =
      m.log i ++ [⟨(w.nodes i).currentTerm, command⟩] := by
    simp [propose, hterm]
  have hidx : (w.nodes i).log.lastIndex + 1 = (m.log i).length + 1 := by
    rw [hn.log.lastIndex_eq]
  have hack : (m.propose i command).ack i (w.nodes i).currentTerm = (m.log i).length + 1 := by
    simp [propose, hterm]
  refine ⟨hstep, hlog, ?_, ?_, hn.snapshot_le, hn.applied_le, ?_, ?_, ?_, fun _ p hp => ?_,
    fun _ p hp => ?_, ?_⟩
  · rw [hlog]
    exact hn.log.append hidx
  · exact (hn.log.append_assertFailed hidx).trans hn.assertFailed
  · rw [hlog, length_append]
    exact hn.commit_le.trans (Nat.le_add_right _ _)
  · rw [hlog]
    change Decided _ _ _ (take (w.nodes i).commitIndex _)
    rw [take_append_of_le_length hn.commit_le]
    exact hg.decided le_rfl hn.decided
  · intro hr
    change (w.nodes i).role = _ at hr
    rw [hrole] at hr
    cases hr
  · refine getD_set_le ?_ ((hn.match_le hrole p hp).trans (hg.ack _ _))
    rintro rfl
    rw [he.id, hidx]
    exact hack.ge
  · rw [hlog, length_append]
    exact (hn.next_le hrole p hp).trans (by omega)
  · rw [hlog, hn.applied]
    change _ = applications _ (w.nodes i).lastApplied
    rw [applications, applications,
      take_append_of_le_length (hn.applied_le.trans hn.commit_le)]

theorem propose (h : LogRel g w m) (hi : i ∈ g.members) (hrole : (w.nodes i).role = .leader)
    (command : Bytes) :
    Replog.Step (majorities g.members) i m (m.propose i command) ∧
      LogRel g (w.put i (((w.nodes i).propose command).1, [])) (m.propose i command) := by
  obtain ⟨hstep, -, hcommand⟩ := h.withCommand hi hrole command
  have hq := Quiet.withCommand (w.nodes i) command
  refine ⟨hstep, h.put_step hstep (h.election.quiet hi (.propose _ _) (by simp)) ?_ (by simp)⟩
  have hadv := hcommand.advanceCommit (hstep.inv h.inv) hi
    ((h.election.node i hi).of_quiet hq) hrole
  simpa [RaftNode.propose, hrole] using hadv

end Entries

theorem matching (h : LogRel g w m) (i : NodeId) (t : ℕ) : Matching (m.log i) (m.hist t) :=
  fun _ _ _ he hf hterm => (h.inv.chain_log i).take_eq (h.inv.chain_hist t) he hf hterm

theorem committed_prefix_hist (h : LogRel g w m) (hi : i ∈ g.members)
    (hleader : m.leader (w.nodes i).currentTerm ≠ none) :
    (m.log i).take (w.nodes i).commitIndex <+: m.hist (w.nodes i).currentTerm :=
  h.inv.decided_prefix (h.node i hi).decided le_rfl hleader

theorem take_prefix_of_prevMatches (h : LogRel g w m) (hi : i ∈ g.members)
    {prev prevTerm commit j k : ℕ}
    (hc : Carries g m i (w.nodes i).currentTerm prev prevTerm entries commit j k)
    (hprev : (w.nodes i).prevMatches prev prevTerm) :
    (m.hist (w.nodes i).currentTerm).take j <+: m.log i := by
  have hn := h.node i hi
  rcases hc.prev with ⟨rfl, hterm⟩ | hack
  · rcases Nat.eq_zero_or_pos prev with rfl | hpos
    · exact nil_prefix
    · have hlen : prev ≤ (m.hist (w.nodes i).currentTerm).length := hc.le.trans hc.le_length
      rcases lt_or_ge (w.nodes i).log.snapshotIndex prev with hlive | hfolded
      · have hterm' : (w.nodes i).log.termAt prev = prevTerm := by
          rcases hprev with h0 | hle | ht
          · omega
          · omega
          · exact ht
        rw [hn.log.termAt_eq hpos hlive.le, hterm hpos, termIn, termIn] at hterm'
        have hH := getElem?_eq_getElem (show prev - 1 <
          (m.hist (w.nodes i).currentTerm).length by omega)
        rw [hH] at hterm'
        cases hF : (m.log i)[prev - 1]? with
        | none =>
          -- beyond the log the source reads the term `0`, which no entry has
          rw [hF] at hterm'
          have hpos' := h.inv.leader_pos (h.inv.chain_hist _ _ _ hH).2.1
          exact absurd hterm' hpos'.ne
        | some e =>
          rw [hF] at hterm'
          have htake := h.matching i _ _ _ _ hF hH hterm'
          rw [Nat.sub_add_cancel hpos] at htake
          rw [← htake]
          exact take_prefix _ _
      · have hle : prev ≤ (w.nodes i).commitIndex :=
          hfolded.trans (hn.snapshot_le.trans hn.applied_le)
        have hp := (take_prefix_take_left hle).trans (h.committed_prefix_hist hi hc.leader)
        rw [prefix_iff_eq_take, length_take,
          min_eq_left (hle.trans hn.commit_le)] at hp
        rw [← hp]
        exact take_prefix _ _
  · have hcur := h.inv.ack_cur i
    rw [h.term_eq hi] at hcur
    exact (take_prefix_take_left hack).trans hcur

end LogRel

section TakeOver

variable [Crc32fast] {g : Group} {m : Record} {i : NodeId} {n : RaftNode}
  {prev prevTerm commit j k : ℕ} {entries : List Entry}

/-- The node takes the first `k` entries of its leader over into its log, which
keeps what is committed. -/
structure Accepts (g : Group) (m : Record) (i : NodeId) (n : RaftNode) (prev prevTerm : ℕ)
    (entries : List Entry) (commit j k : ℕ) : Prop where
  step : Replog.Step (majorities g.members) i m (m.accept i k)
  carries : Carries g m i n.currentTerm prev prevTerm entries commit j k
  log : Represents (RaftNode.appendAll n.log prev entries).1 ((m.accept i k).log i)
  snapshotIndex : (RaftNode.appendAll n.log prev entries).1.snapshotIndex = n.log.snapshotIndex
  assertFailed : (RaftNode.appendAll n.log prev entries).1.assertFailed = n.log.assertFailed
  keep : (m.log i).take n.commitIndex <+: (m.accept i k).log i
  new : (m.hist n.currentTerm).take k <+: (m.accept i k).log i

theorem Accepts.commitIndex (h : Accepts g m i n prev prevTerm entries commit j k)
    (leader : NodeId) :
    ((n.follow leader).withEntries (RaftNode.appendAll n.log prev entries).1 commit).commitIndex =
      max n.commitIndex commit := by
  have hlen := h.new.length_le
  rw [length_take, min_eq_left h.carries.le_length] at hlen
  have hle := h.carries.commit_le
  simp only [RaftNode.withEntries, RaftNode.follow, RaftNode.resetElectionTimeout_commitIndex,
    h.log.lastIndex_eq]
  split <;> omega

theorem Accepts.take_max (h : Accepts g m i n prev prevTerm entries commit j k)
    (hle : n.commitIndex ≤ (m.log i).length) :
    ((m.accept i k).log i).take (max n.commitIndex commit) = (m.log i).take n.commitIndex ∧
        commit ≤ n.commitIndex ∨
      ((m.accept i k).log i).take (max n.commitIndex commit) =
        (m.hist n.currentTerm).take commit ∧ n.commitIndex ≤ commit := by
  have hc := h.carries
  rcases le_total commit n.commitIndex with hcn | hcn
  · left
    have hkeep := h.keep
    rw [prefix_iff_eq_take, length_take, min_eq_left hle] at hkeep
    rw [max_eq_left hcn]
    exact ⟨hkeep.symm, hcn⟩
  · right
    have hp := (take_prefix_take_left hc.commit_le).trans h.new
    rw [prefix_iff_eq_take, length_take,
      min_eq_left (hc.commit_le.trans hc.le_length)] at hp
    rw [max_eq_right hcn]
    exact ⟨hp.symm, hcn⟩

theorem NodeLog.withEntries {applied : List (ℕ × Bytes)} (hn : NodeLog g m i n applied)
    (hg : Grows m (m.accept i k)) (h : Accepts g m i n prev prevTerm entries commit j k)
    {leader : NodeId} : NodeLog g (m.accept i k) i
      ((n.follow leader).withEntries (RaftNode.appendAll n.log prev entries).1 commit) applied := by
  have hc := h.carries
  have hkept := h.keep
  rw [prefix_iff_eq_take, length_take, min_eq_left hn.commit_le] at hkept
  have hlen := h.keep.length_le
  rw [length_take, min_eq_left hn.commit_le] at hlen
  have hlen' := h.new.length_le
  rw [length_take, min_eq_left hc.le_length] at hlen'
  have hidx := h.commitIndex leader
  refine ⟨h.log, h.assertFailed.trans hn.assertFailed, ?_, ?_, ?_, ?_, ?_, ?_, ?_, ?_⟩
  · change (RaftNode.appendAll n.log prev entries).1.snapshotIndex ≤ _
    rw [h.snapshotIndex]
    simpa [RaftNode.withEntries, RaftNode.follow] using hn.snapshot_le
  · rw [hidx]
    simpa [RaftNode.withEntries, RaftNode.follow] using Or.inl hn.applied_le
  · rw [hidx]
    exact max_le hlen (hc.commit_le.trans hlen')
  · rw [hidx]
    rcases h.take_max hn.commit_le with ⟨heq, -⟩ | ⟨heq, -⟩
    · rw [heq]
      exact hg.decided le_rfl hn.decided
    · rw [heq]
      exact hg.decided le_rfl hc.decided
  iterate 3
    · intro hr
      simp [RaftNode.withEntries, RaftNode.follow] at hr
  · have happ : ((n.follow leader).withEntries (RaftNode.appendAll n.log prev entries).1
        commit).lastApplied = n.lastApplied := by
      simp [RaftNode.withEntries, RaftNode.follow]
    rw [happ, hn.applied, applications, applications]
    rw [← min_eq_left hn.applied_le, ← take_take, ← take_take, hkept]

end TakeOver

namespace LogRel

variable {g : Group} {w : Cluster} {m m' : Record} {i : NodeId} {n : RaftNode} {out : Out}
  [Crc32fast]

/-- Entries whose previous entry matches are taken over: the log becomes the one
of the step `accept`, which keeps what is committed and has the first `k` entries
of the leader. -/
theorem accepts (h : LogRel g w m) (hp : p ∈ w.sent)
    {term leader prev prevTerm : ℕ} {commit : ℕ}
    (hm : p.msg = .appendEntries term leader prev prevTerm entries commit)
    (hterm : (w.nodes p.dst).currentTerm = term)
    (hprev : (w.nodes p.dst).prevMatches prev prevTerm) :
    ∃ j k, Accepts g m p.dst (w.nodes p.dst) prev prevTerm entries commit j k := by
  have hi := h.election.dst_mem p hp
  have hn := h.node p.dst hi
  have hmsg := h.msg p hp
  rw [hm, ← hterm] at hmsg
  obtain ⟨j, k, hc⟩ := hmsg
  have hmt := h.term_eq hi
  have hcommitted := h.committed_prefix_hist hi hc.leader
  have hpre := h.take_prefix_of_prevMatches hi hc hprev
  have hsnap := hn.snapshot_le.trans hn.applied_le
  obtain ⟨hrep, hs, ha⟩ := appendAll_represents hc.le hc.le_length (h.matching p.dst _)
    (by rw [splice_of_isPrefix hpre]; exact hn.log) hn.log.snapshot_le
    ((take_prefix_take_left hsnap).trans hcommitted) prev
  rw [← hc.entries] at hrep hs ha
  have hlog : (m.accept p.dst k).log p.dst =
      splice ((m.hist (w.nodes p.dst).currentTerm).take k) (m.log p.dst) := by
    simp [accept, hmt]
  refine ⟨j, k, .accept k (by rw [hmt]; exact hc.leader) (by rw [hmt]; exact hc.le_length), hc,
    hlog ▸ hrep, hs, ha, ?_, hlog ▸ prefix_splice⟩
  exact hlog ▸ prefix_splice_of_isPrefix ( take_prefix _ _) hcommitted ( take_prefix _ _)

theorem append (h : LogRel g w m) (hp : p ∈ w.sent)
    {term leader prev prevTerm : ℕ} {commit j k : ℕ}
    (hm : p.msg = .appendEntries term leader prev prevTerm entries commit)
    (ha : Accepts g m p.dst (w.nodes p.dst) prev prevTerm entries commit j k) :
    LogRel g (w.put p.dst (((w.nodes p.dst).follow leader).withEntries
      (RaftNode.appendAll (w.nodes p.dst).log prev entries).1 commit,
      [(leader, .appendEntriesResp (w.nodes p.dst).currentTerm true
        (max (RaftNode.appendAll (w.nodes p.dst).log prev entries).2 prev))]))
      (m.accept p.dst k) := by
  have hi := h.election.dst_mem p hp
  have hc := ha.carries
  have hack : k ≤ (m.accept p.dst k).ack p.dst (w.nodes p.dst).currentTerm := by
    simp [accept, h.term_eq hi]
  refine h.put_step ha.step ?_ ((h.node p.dst hi).withEntries (ha.step.grows h.inv) ha) ?_
  · exact h.election.reply hp (.append _ _ _ _ _) (h.election.leader_mem hp hm).2 trivial
  · simp only [mem_singleton, forall_eq]
    intro _
    refine le_trans (max_le ?_ (hc.prev_le.trans hc.le)) hack
    rw [hc.entries]
    exact appendAll_snd_le _ (hc.prev_le.trans hc.le) hc.le

omit [Crc32fast] in
theorem heartbeat (h : LogRel g w m) (hi : i ∈ g.members) (hrole : (w.nodes i).role = .leader)
    (hserve : ∀ p ∈ (w.nodes i).peers, p ≠ i → (w.nodes i).CanServe p) :
    LogRel g (w.put i ((w.nodes i).leaderTick.freshRound,
      (w.nodes i).leaderTick.freshRound.broadcastAppend)) m := by
  have hn := (h.node i hi).of_still (.heartbeat _) le_rfl
  have he := (h.election.node i hi).of_quiet (.heartbeat _)
  exact h.put_same (h.election.heartbeat hi) hn
    (msgLog_broadcastAppend h.inv hn he hi hrole hserve)

omit [Crc32fast] in
theorem withAck (h : LogRel g w m) (hp : p ∈ w.sent) {matchIndex : ℕ}
    (hm : p.msg = .appendEntriesResp (w.nodes p.dst).currentTerm true matchIndex)
    (hrole : (w.nodes p.dst).role = .leader) :
    NodeLog g m p.dst ((w.nodes p.dst).withAck p.src matchIndex) (w.applied p.dst) := by
  have hi := h.election.dst_mem p hp
  have hn := h.node p.dst hi
  have hack := h.msg p hp
  rw [hm] at hack
  have hmatch : max ((w.nodes p.dst).matchIndex.getD p.src 0) matchIndex ≤
      m.ack p.src (w.nodes p.dst).currentTerm :=
    max_le (hn.match_le hrole p.src (h.election.src_mem p hp)) (hack rfl)
  have hlen : m.ack p.src (w.nodes p.dst).currentTerm ≤ (m.log p.dst).length := by
    have hF := h.inv.leader_log p.dst
    rw [h.term_eq hi] at hF
    rw [hF ((h.election.node p.dst hi).leader hrole)]
    exact h.inv.ack_le _ _
  refine ⟨hn.log, hn.assertFailed, hn.snapshot_le, hn.applied_le, hn.commit_le, hn.decided,
    hn.cand, fun _ q hq => ?_, fun _ q hq => ?_, hn.applied⟩
  · exact getD_set_le (fun hqp => hqp ▸ hmatch) (hn.match_le hrole q hq)
  · exact getD_set_le (fun _ => Nat.succ_le_succ (hmatch.trans hlen)) (hn.next_le hrole q hq)

omit [Crc32fast] in
theorem ack (h : LogRel g w m) (hp : p ∈ w.sent) {matchIndex : ℕ}
    (hm : p.msg = .appendEntriesResp (w.nodes p.dst).currentTerm true matchIndex)
    (hrole : (w.nodes p.dst).role = .leader) :
    LogRel g (w.put p.dst (((w.nodes p.dst).withAck p.src matchIndex).advanceCommit, [])) m := by
  have hi := h.election.dst_mem p hp
  have hq := Quiet.withAck (w.nodes p.dst) p.src matchIndex
  refine h.put_same (h.election.quiet hi (hq.trans (.advanceCommit _)) (by simp)) ?_ (by simp)
  exact (h.withAck hp hm hrole).advanceCommit h.inv hi ((h.election.node p.dst hi).of_quiet hq)
    hrole

omit [Crc32fast] in
theorem backOff (h : LogRel g w m) (hp : p ∈ w.sent)
    (hrole : (w.nodes p.dst).role = .leader)
    (hserve : ((w.nodes p.dst).backOff p.src).CanServe p.src) :
    LogRel g (w.put p.dst ((w.nodes p.dst).backOff p.src,
      ((w.nodes p.dst).backOff p.src).sendAppend p.src)) m := by
  have hi := h.election.dst_mem p hp
  have hn := h.node p.dst hi
  have hsrc := h.election.src_mem p hp
  have hback : NodeLog g m p.dst ((w.nodes p.dst).backOff p.src) (w.applied p.dst) := by
    refine ⟨hn.log, hn.assertFailed, hn.snapshot_le, hn.applied_le, hn.commit_le, hn.decided,
      hn.cand, hn.match_le, fun _ q hq => getD_set_le (fun _ => ?_) (hn.next_le hrole q hq),
      hn.applied⟩
    have := hn.next_le hrole p.src hsrc
    omega
  have he := (h.election.node p.dst hi).of_quiet (.backOff _ p.src)
  refine h.put_same (h.election.backOff hp) hback ?_
  simp only [RaftNode.sendAppend, mem_singleton, forall_eq]
  exact msgLog_appendTo h.inv hback he.term (he.leader hrole) hrole hsrc hserve

theorem takeCommitted (h : LogRel g w m) (hi : i ∈ g.members) :
    LogRel g (w.exec g (.takeCommitted i)) m := by
  have hn := h.node i hi
  have hmax : max (w.nodes i).lastApplied (w.nodes i).commitIndex =
      (w.nodes i).lastApplied + ((w.nodes i).commitIndex - (w.nodes i).lastApplied) := by
    omega
  have hcommit := hn.commit_le
  have hle := hn.applied_le
  refine h.put_applied (h.election.quiet hi (.takeCommitted _) (by simp)) ?_ (by simp)
  refine ⟨hn.log, hn.assertFailed, hn.snapshot_le.trans (le_max_left _ _), max_le hle le_rfl,
    hn.commit_le, hn.decided, hn.cand, hn.match_le, hn.next_le, ?_⟩
  change _ = applications _ (max (w.nodes i).lastApplied (w.nodes i).commitIndex)
  rw [hmax, ← hn.log.committedFrom_eq _ _ hn.snapshot_le (by omega), hn.applied]
  rfl

omit [Crc32fast] in
theorem maybeCompact (h : LogRel g w m) (hi : i ∈ g.members) (keep : ℕ) :
    LogRel g (w.put i ((w.nodes i).maybeCompact keep, [])) m := by
  have hn := h.node i hi
  refine h.put_same (h.election.quiet hi (.maybeCompact _ _) (by simp)) ?_ (by simp)
  unfold RaftNode.maybeCompact
  split
  · exact hn
  · refine ⟨hn.log.compact _, ?_, ?_, hn.applied_le, hn.commit_le, hn.decided, hn.cand,
      hn.match_le, hn.next_le, hn.applied⟩
    · rw [← hn.assertFailed]
      exact (RaftLog.compact_fields _ _).2.2
    · exact (RaftLog.compact_snapshotIndex_le _ _).trans
        (max_le hn.snapshot_le (RaftNode.safeCompactIndex_le _))

omit [Crc32fast] in
theorem restart (h : LogRel g w m) (hi : i ∈ g.members) {log : RaftLog}
    (hterm : log.term = (w.nodes i).log.term) (hvote : log.vote = (w.nodes i).log.vote)
    (hsame : (w.nodes i).log.SamePersisted log) (seed : UInt64) (heartbeat : Option ℕ) :
    LogRel g { w.put i (g.boot i log seed heartbeat, []) with
      applied := update w.applied i [] } m := by
  have hn := h.node i hi
  obtain ⟨hentries, hold, hsnap, hsnapTerm, hassert⟩ := hsame
  refine h.put_applied (h.election.restart hi hterm hvote seed heartbeat) ?_ (by simp)
  constructor
  case log =>
    simp only [Group.boot_fields]
    refine ⟨by omega, ?_, ?_⟩
    · rw [hentries, hsnap, hn.log.entries, hold]
    · rw [hsnap, hsnapTerm]
      rfl
  case assertFailed => simpa using hassert
  case decided => exact .inl (by simp)
  all_goals simp [hsnap, applications, number]

end LogRel

def RaftMsg.Refuses (msg : RaftMsg) (term : ℕ) : Bool :=
  match msg with
  | .appendEntriesResp t false _ => t = term
  | _ => false

variable (w : Cluster)

/-- A refusal of its term makes a leader send again; it can serve the sender. -/
def ServedPacket (p : Packet) : Prop :=
  (w.nodes p.dst).role = .leader → p.msg.Refuses (w.nodes p.dst).currentTerm = true →
    ((w.nodes p.dst).backOff p.src).CanServe p.src

instance  (p : Packet) : Decidable (ServedPacket w p) :=
  inferInstanceAs (Decidable (_ → _ → _))

/-- The calls in which a leader can serve the members it sends to, and a restart
finds the entries that were persisted. -/
def Served : Call → Prop
  | .tick i => (w.nodes i).role = .leader →
      ∀ p ∈ (w.nodes i).peers, p ≠ i → (w.nodes i).CanServe p
  | .deliver k => ∀ p ∈ w.sent[k]?, ServedPacket w p
  | .restart i log _ _ => (w.nodes i).log.SamePersisted log
  | _ => True

instance decidableServed : ∀ c, Decidable (Served w c)
  | .tick i => inferInstanceAs (Decidable (_ → ∀ p ∈ (w.nodes i).peers, _ → _))
  | .deliver k => inferInstanceAs (Decidable (∀ p ∈ w.sent[k]?, ServedPacket w p))
  | .restart i log _ _ => inferInstanceAs (Decidable ((w.nodes i).log.SamePersisted log))
  | .propose .. | .takeCommitted _ | .maybeCompact .. => isTrue trivial

def RecordStep (g : Group) (m m' : Record) : Prop :=
  ∃ p, Replog.Step (majorities g.members) p m m'

section Rules

variable [Crc32fast]

theorem logRules {g : Group} {w : Cluster} {c : Call} (hserved : Served w c) (m : Record) :
    CallRules g w c fun v =>
      ∃ m', Relation.ReflTransGen (RecordStep g) m m' ∧ LogRel g v m' where
  adopt := by
    rintro p hp ⟨m', hrun, h⟩ hlt
    have hi := h.election.dst_mem p hp
    refine ⟨_, hrun.tail ⟨p.dst, .adopt (msgTerm p.msg) ?_⟩, h.becomeFollower hi hlt⟩
    rwa [h.term_eq hi]
  wait := by
    rintro i ⟨m', hrun, h⟩ hi -
    exact ⟨m', hrun, h.idle hi (.wait _) (.wait _)⟩
  campaign := by
    rintro v i ⟨m', hrun, h⟩ hi -
    exact ⟨_, hrun.tail ⟨i, .campaign⟩, h.asCandidate hi⟩
  win := by
    rintro v i ⟨m', hrun, h⟩ hi hrole hcount - - -
    obtain ⟨hstep, h'⟩ := h.asLeader hi hrole hcount
    exact ⟨_, hrun.tail ⟨i, hstep⟩, h'⟩
  leaderTick := by
    rintro i ⟨m', hrun, h⟩ hi -
    exact ⟨m', hrun, h.idle hi (.leaderTick _) (.leaderTick _)⟩
  heartbeat := by
    rintro i rfl ⟨m', hrun, h⟩ hi hrole
    refine ⟨m', hrun, h.heartbeat hi hrole (hserved hrole)⟩
  vote := by
    rintro v p term candidate lli llt ⟨m', hrun, h⟩ hp hm hterm hvote hup
    obtain ⟨hstep, h'⟩ := h.withVote hp hm hterm hvote hup
    exact ⟨_, hrun.tail ⟨p.dst, hstep⟩, h'⟩
  refuse := by
    rintro v p term candidate lli llt ⟨m', hrun, h⟩ hp hm
    exact ⟨m', hrun, h.reply hp (.refl _) (.refl _) (h.election.candidate_mem hp hm).2
      (by simp [MsgElection]) (by simp [MsgLog])⟩
  count := by
    rintro v p ⟨m', hrun, h⟩ hp hm -
    exact ⟨m', hrun, h.still (h.election.dst_mem p hp) (h.election.count hp hm) (.count _ _)
      le_rfl (by simp)⟩
  append := by
    rintro k v p term leader prev prevTerm entries lc - ⟨m', hrun, h⟩ - hp hm - hterm hprev
    obtain ⟨j, k, ha⟩ := h.accepts hp hm hterm hprev
    exact ⟨_, hrun.tail ⟨p.dst, ha.step⟩, h.append hp hm ha⟩
  mismatch := by
    rintro v p term leader prev prevTerm entries lc ⟨m', hrun, h⟩ hp hm -
    exact ⟨m', hrun, h.reply hp (.follow _ _) (.follow _ _) (h.election.leader_mem hp hm).2 trivial
      (by simp [MsgLog])⟩
  stale := by
    rintro v p term leader prev prevTerm entries lc ⟨m', hrun, h⟩ hp hm
    exact ⟨m', hrun, h.reply hp (.refl _) (.refl _) (h.election.leader_mem hp hm).2 trivial
      (by simp [MsgLog])⟩
  ack := by
    rintro k p matchIndex - ⟨m', hrun, h⟩ hk hm hrole
    exact ⟨m', hrun, h.ack (mem_of_getElem? hk) hm hrole⟩
  backOff := by
    rintro k p matchIndex rfl ⟨m', hrun, h⟩ hk hm hrole
    have hserve := hserved p hk hrole (by simp [hm, RaftMsg.Refuses])
    exact ⟨m', hrun, h.backOff (mem_of_getElem? hk) hrole hserve⟩
  propose := by
    rintro i command - ⟨m', hrun, h⟩ hi hrole
    obtain ⟨hstep, h'⟩ := h.propose hi hrole command
    exact ⟨_, hrun.tail ⟨i, hstep⟩, h'⟩
  takeCommitted := by
    rintro i - ⟨m', hrun, h⟩ hi
    exact ⟨m', hrun, h.takeCommitted hi⟩
  maybeCompact := by
    rintro i keep - ⟨m', hrun, h⟩ hi
    exact ⟨m', hrun, h.maybeCompact hi keep⟩
  restart := by
    rintro i log seed heartbeat rfl ⟨m', hrun, h⟩ ⟨hi, hterm, hvote⟩
    exact ⟨m', hrun, h.restart hi hterm hvote hserved seed heartbeat⟩

theorem log_forward (g : Group) :
    Simulation.Forward (Cluster.Step g Served) (RecordStep g) (LogRel g) := by
  rintro w w' m h ⟨c, hvalid, hserved, rfl⟩
  exact (logRules hserved m).exec hvalid h.election.dst_mem ⟨m, .refl, h⟩

end Rules

theorem logRel_init (g : Group) : LogRel g (Cluster.init g) Replog.init := by
  refine ⟨electionRel_init g, inv_init _, fun i _ => ?_, by simp [Cluster.init]⟩
  constructor <;> simp [Cluster.init, Group.freshLog, Replog.init, applications, number]
  · exact ⟨le_rfl, rfl, rfl⟩
  · exact .inl rfl

theorem recordRun_grows {g : Group} {m m' : Record}
    (hrun : Relation.ReflTransGen (RecordStep g) m m') (hm : m.Inv (majorities g.members)) :
    m'.Inv (majorities g.members) ∧ Grows m m' :=
  Simulation.run_invariant Grows.refl (fun _ _ _ h h' => h.trans h')
    (fun _ _ hm ⟨_, hs⟩ => ⟨hs.inv hm, hs.grows hm⟩) hrun hm

end BonsaiGrid.Raft
