import BonsaiGrid.Raft.Refinement

/-!
# State-machine safety, leader completeness and log matching

What the refinement says about the group itself.
-/

namespace BonsaiGrid.Raft

open Function Consensus Consensus.Replog Cluster List

section Applied

variable {g : Group} {w : Cluster} {m : Record}

theorem mem_applications {F : List (Ent Bytes)} {k idx : ℕ} {c : Bytes}
    (h : (idx, c) ∈ applications F k) : ∃ e, (F.take k)[idx - 1]? = some e ∧ e.val = c := by
  rw [applications, mem_map] at h
  obtain ⟨e, he, heq⟩ := h
  cases heq
  exact ⟨_, (mem_number 0 _).1 he |>.2, rfl⟩

theorem map_fst_applications (F : List (Ent Bytes)) (k : ℕ) :
    (applications F k).map Prod.fst = range' 1 (applications F k).length := by
  rw [applications, map_map, length_map, length_number]
  exact map_index_number 0 _

theorem LogRel.committed_prefix_or_prefix (h : LogRel g w m) {i j : NodeId} (hi : i ∈ g.members)
    (hj : j ∈ g.members) :
    (m.log i).take (w.nodes i).commitIndex <+: (m.log j).take (w.nodes j).commitIndex ∨
      (m.log j).take (w.nodes j).commitIndex <+: (m.log i).take (w.nodes i).commitIndex :=
  h.inv.decided_prefix_or_prefix (h.node i hi).decided (h.node j hj).decided

theorem LogRel.applied_eq (h : LogRel g w m) {i j : NodeId} (hi : i ∈ g.members)
    (hj : j ∈ g.members) {k : ℕ} {e f : Ent Bytes}
    (he : ((m.log i).take (w.nodes i).lastApplied)[k]? = some e)
    (hf : ((m.log j).take (w.nodes j).lastApplied)[k]? = some f) : e = f := by
  have hgen : ∀ {x y z : List (Ent Bytes)}, x <+: z → y <+: z → x[k]? = some e →
      y[k]? = some f → e = f := by
    intro x y z hxz hyz hx hy
    obtain ⟨hlx, rfl⟩ := List.getElem?_eq_some_iff.1 hx
    obtain ⟨hly, rfl⟩ := List.getElem?_eq_some_iff.1 hy
    have hz := prefix_iff_getElem?.1 hxz k hlx
    rw [prefix_iff_getElem?.1 hyz k hly] at hz
    exact (Option.some.inj hz).symm
  have hxi := take_prefix_take_left (l := m.log i) (h.node i hi).applied_le
  have hxj := take_prefix_take_left (l := m.log j) (h.node j hj).applied_le
  rcases h.committed_prefix_or_prefix hi hj with hp | hp
  · exact hgen (hxi.trans hp) hxj he hf
  · exact hgen hxi (hxj.trans hp) he hf

end Applied

/-- State-machine safety: what two nodes have handed to their state machines
agrees at every index, and each has handed out the indices from `1` on without
a gap or a repeat. -/
def AppliedSafe (g : Group) (w : Cluster) : Prop :=
  (∀ i ∈ g.members, ∀ j ∈ g.members, ∀ idx c d,
    (idx, c) ∈ w.applied i → (idx, d) ∈ w.applied j → c = d) ∧
  ∀ i ∈ g.members, (w.applied i).map Prod.fst = range' 1 (w.applied i).length

variable {w : Cluster} {g : Group}

theorem LogRel.appliedSafe {m : Record} (h : LogRel g w m) :
    AppliedSafe g w := by
  refine ⟨fun i hi j hj idx c d hc hd => ?_, fun i hi => ?_⟩
  · rw [(h.node i hi).applied] at hc
    rw [(h.node j hj).applied] at hd
    obtain ⟨e, he, rfl⟩ := mem_applications hc
    obtain ⟨f, hf, rfl⟩ := mem_applications hd
    rw [h.applied_eq hi hj he hf]
  · rw [(h.node i hi).applied]
    exact map_fst_applications _ _

theorem exists_logRel [Crc32fast] (h : Cluster.Reachable g Served w) :
    ∃ m, LogRel g w m := by
  obtain ⟨m, -, hm⟩ := (log_forward g).run h (logRel_init g)
  exact ⟨m, hm⟩

/-- In every state of a run of served calls, compaction included, the state
machines agree. -/
theorem appliedSafe_of_served [Crc32fast] (g : Group) (w : Cluster) (h : Cluster.Reachable g Served w) :
    AppliedSafe g w := by
  obtain ⟨m, hm⟩ := exists_logRel h
  exact hm.appliedSafe

def twoCommits : List Call :=
  firstElection ++
  [.propose 0 [97], .propose 0 [98], .tick 0, .deliver 5, .deliver 7, .tick 0, .deliver 8,
    .takeCommitted 1]

def folded : List Call := twoCommits ++ [.maybeCompact 1 0]

set_option maxRecDepth 100000 in
/-- The condition can be met by a run that compacts. -/
theorem appliedSafe_folded :
    let w := (init threeNodes).execAll threeNodes folded
    (w.nodes 1).log.snapshotIndex = 2 ∧ w.applied 1 = [(1, [97]), (2, [98])] ∧
      AppliedSafe threeNodes w :=
  ⟨by decide +kernel, by decide +kernel,
    appliedSafe_of_served _ _ (run_execAll folded (by decide +kernel))⟩

theorem applications_prefix {F G : List (Ent Bytes)} {k l : ℕ} (h : F.take k <+: G.take l) :
    applications F k <+: applications G l := by
  obtain ⟨t, ht⟩ := h
  rw [applications, applications, ← ht, number_append, map_append]
  exact prefix_append _ _

/-- What a member has applied and what any member applied later are prefixes of one history. -/
theorem applied_chain [Crc32fast] (w' : Cluster) (i j : NodeId) (hi : i ∈ g.members)
    (hj : j ∈ g.members) (hw : Cluster.Reachable g Served w) (hrun : Cluster.Run g Served w w') :
    w.applied i <+: w'.applied j ∨ w'.applied j <+: w.applied i := by
  obtain ⟨m, h⟩ := exists_logRel hw
  obtain ⟨m', hmm', h'⟩ := (log_forward g).run hrun h
  have hn := h.node i hi
  have hn' := h'.node j hj
  have hold := (recordRun_grows hmm' h.inv).2.decided le_rfl hn.decided
  have hx := take_prefix_take_left (l := m.log i) hn.applied_le
  have hy := take_prefix_take_left (l := m'.log j) hn'.applied_le
  rw [hn.applied, hn'.applied]
  refine .imp applications_prefix applications_prefix ?_
  rcases h'.inv.decided_prefix_or_prefix hold hn'.decided with hp | hp
  · exact prefix_or_prefix_of_prefix (hx.trans hp) hy
  · exact prefix_or_prefix_of_prefix hx (hy.trans hp)

set_option maxRecDepth 100000 in
theorem applied_chain_folded :
    let w := (init threeNodes).execAll threeNodes folded
    let w' := w.execAll threeNodes [.takeCommitted 0]
    w.applied 1 <+: w'.applied 0 ∨ w'.applied 0 <+: w.applied 1 :=
  applied_chain _ 1 0 (by decide) (by decide) (run_execAll folded (by decide +kernel))
    (run_execAll _ (by decide +kernel))

/-- In every served run no index of a member passes the next. -/
theorem indices_ordered [Crc32fast] (hw : Cluster.Reachable g Served w) (i : NodeId)
    (hi : i ∈ g.members) :
    let n := w.nodes i
    n.log.snapshotIndex ≤ n.lastApplied ∧ n.lastApplied ≤ n.commitIndex ∧
      n.commitIndex ≤ n.log.lastIndex := by
  obtain ⟨m, h⟩ := exists_logRel hw
  have hn := h.node i hi
  exact ⟨hn.snapshot_le, hn.applied_le, hn.log.lastIndex_eq ▸ hn.commit_le⟩

set_option maxRecDepth 100000 in
theorem indices_ordered_folded :
    let w := (init threeNodes).execAll threeNodes folded
    (w.nodes 1).commitIndex ≤ (w.nodes 1).log.lastIndex :=
  (indices_ordered (run_execAll folded (by decide +kernel)) 1 (by decide)).2.2

def secondElection : List Call := replicate 15 (.tick 1) ++ [.deliver 12, .deliver 13]

/-- Node `1` is elected after it has folded the commands away, and sends node
`2` the one entry it has left. -/
def foldedLeaderRun : List Call :=
  folded ++ secondElection ++
  [.propose 1 [99], .deliver 15, .deliver 16, .deliver 17, .takeCommitted 2]

set_option maxRecDepth 100000 in
/-- Without the condition state-machine safety fails, with no restart and no
lost message: two nodes apply different commands at index `1`. -/
theorem not_appliedSafe_foldedLeaderRun : ∃ w,
    Cluster.Reachable threeNodes (fun _ c => c.isRestart = false) w ∧ (1, [97]) ∈ w.applied 1 ∧
      (1, [99]) ∈ w.applied 2 ∧ ¬ AppliedSafe threeNodes w := by
  have happlied : (1, [97]) ∈ ((init threeNodes).execAll threeNodes
        foldedLeaderRun).applied 1 ∧
      (1, [99]) ∈ ((init threeNodes).execAll threeNodes foldedLeaderRun).applied 2 := by
    decide +kernel
  refine ⟨_, run_execAll foldedLeaderRun (by decide +kernel), happlied.1, happlied.2, fun hsafe => ?_⟩
  have := hsafe.1 1 (by decide) 2 (by decide) 1 [97] [99] happlied.1 happlied.2
  exact absurd this (by decide)

/-- The calls in which compaction changes nothing, and a restart finds the entries
that were persisted. -/
def Uncompacted (w : Cluster) : Call → Prop
  | .maybeCompact i keep => (w.nodes i).maybeCompact keep = w.nodes i
  | .restart i log _ _ => (w.nodes i).log.SamePersisted log
  | _ => True

instance decidableUncompacted (w : Cluster) : ∀ c, Decidable (Uncompacted w c)
  | .maybeCompact i keep =>
    inferInstanceAs (Decidable ((w.nodes i).maybeCompact keep = w.nodes i))
  | .restart i log _ _ => inferInstanceAs (Decidable ((w.nodes i).log.SamePersisted log))
  | .tick _ | .propose .. | .deliver _ | .takeCommitted _ => isTrue trivial

def Whole (w : Cluster) : Prop := ∀ i, (w.nodes i).log.snapshotIndex = 0

theorem Whole.put (h : Whole w) {i : NodeId} {r : RaftNode × Out}
    (hr : r.1.log.snapshotIndex = (w.nodes i).log.snapshotIndex) : Whole (w.put i r) := by
  intro j
  by_cases hij : j = i
  · subst hij
    rw [put_nodes_self, hr]
    exact h j
  · rw [put_nodes_of_ne _ _ hij]
    exact h j

theorem wholeRules [Crc32fast] {c : Call} (hc : Uncompacted w c) :
    CallRules g w c Whole where
  adopt := fun p _ h _ => h.put (by simp [RaftNode.becomeFollower])
  wait := fun i h _ _ => h.put rfl
  campaign := fun v i h _ _ => h.put (by simp [RaftNode.asCandidate])
  win := fun v i h _ _ _ _ _ _ => h.put rfl
  leaderTick := fun i h _ _ => h.put rfl
  heartbeat := fun i _ h _ _ => h.put rfl
  vote := fun v p _ _ _ _ h _ _ _ _ _ => h.put (by simp [RaftNode.withVote])
  refuse := fun v p _ _ _ _ h _ _ => h.put rfl
  count := fun v p h _ _ _ => h.put rfl
  append := fun _ v p _ _ _ _ _ _ _ h _ _ _ _ _ _ =>
    h.put (RaftNode.appendAll_fields _ _ _).2.2
  mismatch := fun v p _ _ _ _ _ _ h _ _ _ => h.put (by simp [RaftNode.follow])
  stale := fun v p _ _ _ _ _ _ h _ _ => h.put rfl
  ack := fun _ p _ _ h _ _ _ => h.put (by simp [RaftNode.withAck])
  backOff := fun _ p _ _ h _ _ _ => h.put rfl
  propose := fun i _ _ h _ hrole => h.put (by simp [RaftNode.propose, RaftNode.withCommand, hrole])
  takeCommitted := fun i _ h _ => h.put (r := ((w.nodes i).takeCommitted.1, [])) rfl
  maybeCompact := by
    rintro i keep rfl h -
    exact h.put (congrArg (fun n => n.log.snapshotIndex) hc)
  restart := by
    rintro i log seed heartbeat rfl h -
    obtain ⟨-, hold, hnew, -⟩ := hc
    exact h.put (r := (g.boot i log seed heartbeat, [])) (by simp [hnew, hold])

theorem served_of_uncompacted (h : Whole w) {c : Call} (hc : Uncompacted w c) :
    Served w c := by
  cases c with
  | tick i => exact fun _ p _ _ => .inr ((h i).le.trans (Nat.zero_le _))
  | deliver k => exact fun p _ _ _ => .inr ((h p.dst).le.trans (Nat.zero_le _))
  | restart i log seed heartbeat => exact hc
  | propose i command | takeCommitted i | maybeCompact i keep => trivial

theorem uncompacted_forward [Crc32fast] (g : Group) :
    Simulation.Forward (Cluster.Step g Uncompacted) (RecordStep g)
      fun w m => Whole w ∧ LogRel g w m := by
  rintro w w' m ⟨hw, h⟩ ⟨c, hvalid, hc, rfl⟩
  obtain ⟨m', hrun, h'⟩ := (logRules (served_of_uncompacted hw hc) m).exec hvalid
    h.election.dst_mem ⟨m, .refl, h⟩
  exact ⟨m', hrun, (wholeRules hc).exec hvalid h.election.dst_mem hw, h'⟩

theorem whole_init (g : Group) : Whole (Cluster.init g) := by
  intro i
  simp [Cluster.init, Group.freshLog]

theorem mem_entries_iff {m : Record} (hw : Whole w) (h : LogRel g w m)
    {i : NodeId} (hi : i ∈ g.members) {e : Entry} :
    e ∈ (w.nodes i).log.entries ↔
      0 < e.index ∧ (m.log i)[e.index - 1]? = some ⟨e.term, e.command⟩ := by
  have hentries := (h.node i hi).log.entries
  rw [hw i] at hentries
  rw [hentries]
  exact mem_number 0 _

/-- Leader completeness: an entry that some node knows to be committed is, from
then on, in the log of every node that leads in that node's term or a later
one. -/
theorem leader_complete [Crc32fast] (g : Group) (w w' : Cluster) (i j : NodeId) (e : Entry)
    (hi : i ∈ g.members) (hj : j ∈ g.members) (hw : Cluster.Reachable g Uncompacted w)
    (hrun : Cluster.Run g Uncompacted w w') (he : e ∈ (w.nodes i).log.entries)
    (hcommit : e.index ≤ (w.nodes i).commitIndex) (hleader : (w'.nodes j).role = .leader)
    (hterm : (w.nodes i).currentTerm ≤ (w'.nodes j).currentTerm) :
    e ∈ (w'.nodes j).log.entries := by
  obtain ⟨m, -, hwhole, h⟩ := (uncompacted_forward g).run hw ⟨whole_init g, logRel_init g⟩
  obtain ⟨m', hmm', hwhole', h'⟩ := (uncompacted_forward g).run hrun ⟨hwhole, h⟩
  have hg := (recordRun_grows hmm' h.inv).2
  rw [mem_entries_iff hwhole h hi] at he
  rw [mem_entries_iff hwhole' h' hj]
  refine ⟨he.1, ?_⟩
  have hlead := (h'.election.node j hj).leader hleader
  have hlog := h'.inv.leader_log j
  rw [h'.term_eq hj] at hlog
  have hp := h'.inv.decided_prefix (hg.decided hterm (h.node i hi).decided) le_rfl
    (by rw [hlead]; exact Option.some_ne_none j)
  rw [← hlog hlead] at hp
  have htake : ((m.log i).take (w.nodes i).commitIndex)[e.index - 1]? =
      some ⟨e.term, e.command⟩ := by
    rw [getElem?_take_of_lt (by omega)]
    exact he.2
  obtain ⟨hlt, heq⟩ := List.getElem?_eq_some_iff.1 htake
  rw [prefix_iff_getElem?.1 hp _ hlt, heq]

set_option maxRecDepth 100000 in
/-- Node `1` leads in term `2` and has what node `0` had committed in term `1`. -/
theorem leader_complete_secondElection :
    let w := (init threeNodes).execAll threeNodes twoCommits
    let w' := w.execAll threeNodes secondElection
    (w.nodes 0).commitIndex = 2 ∧ (w'.nodes 1).role = .leader ∧ (w'.nodes 1).currentTerm = 2 ∧
      ⟨1, 2, [98]⟩ ∈ (w'.nodes 1).log.entries :=
  ⟨by decide +kernel, by decide +kernel, by decide +kernel,
    leader_complete threeNodes _ _ 0 1 ⟨1, 2, [98]⟩ (by decide) (by decide)
      (run_execAll twoCommits (by decide +kernel))
      (run_execAll secondElection (by decide +kernel))
      (by decide +kernel) (by decide +kernel) (by decide +kernel) (by decide +kernel)⟩

/-- Log matching: the indices of every log are `1` to its last index, appending
has never met a gap, and two logs that have an entry of one term at one index
have the same entries up to there. -/
theorem logs_match [Crc32fast] (g : Group) (w : Cluster) (hw : Cluster.Reachable g Uncompacted w) :
    (∀ i ∈ g.members,
      (w.nodes i).log.entries.map Entry.index = List.range' 1 (w.nodes i).log.lastIndex ∧
        (w.nodes i).log.assertFailed = false) ∧
    ∀ i ∈ g.members, ∀ j ∈ g.members, ∀ e ∈ (w.nodes i).log.entries,
      ∀ f ∈ (w.nodes j).log.entries, e.index = f.index → e.term = f.term →
        e.command = f.command ∧ ∀ x : Entry, x.index < e.index →
          (x ∈ (w.nodes i).log.entries ↔ x ∈ (w.nodes j).log.entries) := by
  obtain ⟨m, -, hwhole, h⟩ := (uncompacted_forward g).run hw ⟨whole_init g, logRel_init g⟩
  refine ⟨fun i hi => ⟨?_, (h.node i hi).assertFailed⟩, ?_⟩
  · have hrep := (h.node i hi).log
    rw [hrep.lastIndex_eq, hrep.entries, hwhole i]
    exact map_index_number 0 _
  · intro i hi j hj e he f hf hidx hterm
    rw [mem_entries_iff hwhole h hi] at he
    rw [mem_entries_iff hwhole h hj, ← hidx] at hf
    have htake := (h.inv.chain_log i).take_eq (h.inv.chain_log j) he.2 hf.2 hterm
    have hget : ∀ k, k < e.index → (m.log i)[k]? = (m.log j)[k]? := by
      intro k hk
      have := congrArg (fun l => l[k]?) htake
      simpa [getElem?_take_of_lt (show k < e.index - 1 + 1 by omega)] using this
    refine ⟨?_, fun x hx => ?_⟩
    · have := hget (e.index - 1) (by omega)
      rw [he.2, hf.2] at this
      exact congrArg Ent.val (Option.some.inj this)
    · rw [mem_entries_iff hwhole h hi, mem_entries_iff hwhole h hj, hget _ (by omega)]

set_option maxRecDepth 100000 in
theorem logs_match_twoCommits :
    let w := (init threeNodes).execAll threeNodes twoCommits
    (w.nodes 0).log.entries = (w.nodes 1).log.entries ∧ (w.nodes 1).log.lastIndex = 2 ∧
      ∀ i ∈ threeNodes.members, (w.nodes i).log.entries.map Entry.index =
        range' 1 (w.nodes i).log.lastIndex ∧ (w.nodes i).log.assertFailed = false :=
  ⟨by decide +kernel, by decide +kernel,
    (logs_match threeNodes _ (run_execAll twoCommits (by decide +kernel))).1⟩

end BonsaiGrid.Raft
