import BonsaiGrid.Cp.Pending
import BonsaiGrid.Lib.Trace

/-!
# Replies

A member answers a client when it applies the index it remembered for it. The answer is to the
command of the client if the entry under this index is still the one that was proposed for it.
-/

namespace BonsaiGrid.Cp

open Function Raft Consensus Consensus.Replog Members CpGroup List Option Nat

/-- The members agree with the record `m` of the replicated log, pending indices
are those of live proposals, and whatever was answered is right. -/
structure CpInv (g : Group) (s : Members) (w : Cluster) (m : Record) : Prop where
  rel : LogRel g w m
  nodes : ∀ i, w.nodes i = (s.groups i).raft
  sent : ∀ p ∈ s.flight, ∀ msg, p.msg = .raft msg → ⟨p.src, p.dst, msg⟩ ∈ w.sent
  applied : ∀ i ∈ g.members,
    s.applied i = number 0 ((m.log i).take (s.groups i).raft.lastApplied)
  sm : ∀ i ∈ g.members, (s.groups i).sm = CpSm.run {} ((s.applied i).map Entry.command)
  pending : ∀ i ∈ g.members, ∀ idx client origin,
    (s.groups i).pending.lookup idx = some (client, origin) →
      (s.groups i).raft.lastApplied < idx ∧ ∃ q ∈ s.proposals, q.client = client ∧
        q.entry.index = idx ∧ EntryAt (s.groups i).raft.log q.entry
  waiting : ∀ i ∈ g.members, ∀ o ∈ (s.groups i).waiting, o ∈ s.submitted
  forward : ∀ p ∈ s.flight, ∀ client origin command,
    p.msg = .forward client origin command → (client, command) ∈ s.submitted
  proposals : ∀ q ∈ s.proposals, (q.client, q.entry.command) ∈ s.submitted ∧ 0 < q.entry.index ∧
    (m.hist q.entry.term)[q.entry.index - 1]? = some ⟨q.entry.term, q.entry.command⟩
  unique : ∀ q ∈ s.proposals, ∀ q' ∈ s.proposals, q'.entry.term = q.entry.term →
    q'.entry.index = q.entry.index → q' = q
  surfaced : ∀ c ∈ s.surfaced, Answered g s c
  completions : ∀ i ∈ g.members, ∀ c ∈ (s.groups i).completions, Answered g s c
  replies : ∀ p ∈ s.flight, ∀ client reply, p.msg = .reply client reply →
    Answered g s ⟨client, reply⟩

/-- The record has grown from `m` to `m'` and the proposals from `ps` to `ps'`, and each new
proposal comes after all that the record had of its term. -/
structure Later (ps : List Proposal) (m : Record) (ps' : List Proposal) (m' : Record) : Prop where
  grows : Grows m m'
  fresh : ∀ q ∈ ps', q ∈ ps ∨ (m.hist q.entry.term).length < q.entry.index

def Follows (g : Group) (s : Members) (m : Record) (s' : Members) : Prop :=
  ∃ w' m', CpInv g s' w' m' ∧ Later s.proposals m s'.proposals m'

section Follows

variable {g : Group} {s s' s'' : Members} {m m' m'' : Record} {ps ps' ps'' : List Proposal}

theorem Later.refl (ps : List Proposal) (m : Record) : Later ps m ps m :=
  ⟨Grows.refl m, fun _ hq => .inl hq⟩

theorem Later.trans (h : Later ps m ps' m') (h' : Later ps' m' ps'' m'') :
    Later ps m ps'' m'' := by
  refine ⟨h.grows.trans h'.grows, fun q hq => ?_⟩
  rcases h'.fresh q hq with hq | hlt
  · exact h.fresh q hq
  · exact .inr ((h.grows.hist q.entry.term).length_le.trans_lt hlt)

theorem Later.of_grows (hg : Grows m m') : Later ps m (ps ++ []) m' :=
  ⟨hg, fun q hq => .inl (by rwa [append_nil] at hq)⟩

theorem CpInv.follows {w' : Cluster} (h : CpInv g s' w' m') (hl : Later s.proposals m s'.proposals m') :
    Follows g s m s' :=
  ⟨w', m', h, hl⟩

theorem Follows.bind (h : Follows g s m s')
    (h' : ∀ w' m', CpInv g s' w' m' → Follows g s' m' s'') : Follows g s m s'' := by
  obtain ⟨w', m', hs', hl⟩ := h
  obtain ⟨w'', m'', hs'', hl'⟩ := h' w' m' hs'
  exact ⟨w'', m'', hs'', hl.trans hl'⟩

end Follows

theorem CpInv.repliesCorrect {g : Group} {s : Members} {w : Cluster} {m : Record}
    (h : CpInv g s w m) : RepliesCorrect g s :=
  ⟨h.surfaced, h.completions⟩

section Applied

variable {g : Group} {w w' : Cluster} {m m' : Record}

theorem take_log_eq (hr : LogRel g w m) (hr' : LogRel g w' m') (hg : Grows m m') {i : NodeId}
    (hi : i ∈ g.members) {k : ℕ} (hk : k ≤ (w.nodes i).commitIndex)
    (hk' : k ≤ (w'.nodes i).commitIndex) : (m'.log i).take k = (m.log i).take k := by
  have hn := hr.node i hi
  have hn' := hr'.node i hi
  have hold := hg.decided le_rfl hn.decided
  have heq : ∀ {x y : List (Ent Bytes)}, x <+: y → k ≤ x.length → y.take k = x.take k := by
    rintro x y ⟨t, rfl⟩ hle
    exact take_append_of_le_length hle
  have hlen := hn.commit_le
  have hlen' := hn'.commit_le
  have htake : ((m'.log i).take (w'.nodes i).commitIndex).take k =
      ((m.log i).take (w.nodes i).commitIndex).take k := by
    rcases hr'.inv.decided_prefix_or_prefix hold hn'.decided with hp | hp
    · exact heq hp (by rw [length_take]; omega)
    · exact (heq hp (by rw [length_take]; omega)).symm
  rwa [take_take, take_take, min_eq_left hk', min_eq_left hk] at htake

end Applied

section Move

variable {g : Group} {s : Members} {w w' : Cluster} {m m' : Record} {i : NodeId}
  {r : CpGroup × CpOut} {ps : List Proposal} {es : List Entry}

@[simp] theorem Members.move_groups_self : (s.move i r ps es).groups i = r.1 := by
  simp [move]

theorem Members.move_groups_of_ne {j : NodeId} (h : j ≠ i) :
    (s.move i r ps es).groups j = s.groups j := by
  simp [move, h]

@[simp] theorem Members.move_applied_self :
    (s.move i r ps es).applied i = s.applied i ++ es := by
  simp [move]

theorem Members.move_applied_of_ne {j : NodeId} (h : j ≠ i) :
    (s.move i r ps es).applied j = s.applied j := by
  simp [move, h]

theorem Members.applied_prefix_move (s : Members) (i : NodeId) (r : CpGroup × CpOut)
    (ps : List Proposal) (es : List Entry) (j : NodeId) :
    s.applied j <+: (s.move i r ps es).applied j := by
  by_cases hij : j = i
  · subst hij
    rw [move_applied_self]
    exact prefix_append _ _
  · rw [move_applied_of_ne hij]

theorem Members.move_move (r' : CpGroup × CpOut) (ps' : List Proposal) (es' : List Entry) :
    (s.move i r ps es).move i r' ps' es' = s.move i (r'.1, r.2 ++ r'.2) (ps ++ ps') (es ++ es') := by
  simp [move, append_assoc]

theorem Answered.move {c : Completion} (h : Answered g s c)
    (hnew : ∀ q ∈ s.proposals, ∀ q' ∈ ps, q'.entry.term = q.entry.term →
      q'.entry.index = q.entry.index → q' = q) : Answered g (s.move i r ps es) c := by
  obtain ⟨q, hq, hclient, hsub, huniq, j, hj, k, hk, hidx, hreply⟩ := h
  obtain ⟨t, ht⟩ := s.applied_prefix_move i r ps es j
  have hlt : k < (s.applied j).length := (List.getElem?_eq_some_iff.1 hk).1
  refine ⟨q, mem_append_left _ hq, hclient, hsub, fun q' hq' hterm hindex => ?_, j, hj, k, ?_,
    hidx, ?_⟩
  · rcases mem_append.1 hq' with hold | hps
    · exact huniq q' hold hterm hindex
    · exact hnew q hq q' hps hterm hindex
  · rw [← ht, getElem?_append_left hlt]
    exact hk
  · rw [← ht, take_append_of_le_length hlt.le]
    exact hreply

/-- What a member may send: what the Raft nodes have sent, commands of clients, and answers. -/
def OutOk (g : Group) (s : Members) (sent : List Packet) (i : NodeId) : NodeId × CpMsg → Prop
  | (dst, .raft msg) => ⟨i, dst, msg⟩ ∈ sent
  | (_, .forward client _ command) => (client, command) ∈ s.submitted
  | (_, .reply client reply) => Answered g s ⟨client, reply⟩

section

variable (h : CpInv g s w m) (hi : i ∈ g.members)

include h hi

theorem CpInv.move (hr : LogRel g w' m')
    (hg : Grows m m') (hnode : w'.nodes i = r.1.raft)
    (hother : ∀ j, j ≠ i → w'.nodes j = w.nodes j) (hsent : ∀ p ∈ w.sent, p ∈ w'.sent)
    (happlied : s.applied i ++ es = number 0 ((m'.log i).take r.1.raft.lastApplied))
    (hsm : r.1.sm = (s.groups i).sm.run (es.map Entry.command))
    (hpending : ∀ idx client origin, r.1.pending.lookup idx = some (client, origin) →
      r.1.raft.lastApplied < idx ∧ ∃ q ∈ s.proposals ++ ps, q.client = client ∧
        q.entry.index = idx ∧ EntryAt r.1.raft.log q.entry)
    (hwaiting : ∀ o ∈ r.1.waiting, o ∈ s.submitted)
    (hproposals : ∀ q ∈ ps, (q.client, q.entry.command) ∈ s.submitted ∧ 0 < q.entry.index ∧
      (m'.hist q.entry.term)[q.entry.index - 1]? = some ⟨q.entry.term, q.entry.command⟩)
    (hunique : ∀ q ∈ ps, ∀ q' ∈ ps, q'.entry.term = q.entry.term →
      q'.entry.index = q.entry.index → q' = q)
    (hnew : ∀ q ∈ s.proposals, ∀ q' ∈ ps, q'.entry.term = q.entry.term →
      q'.entry.index ≠ q.entry.index)
    (hcompletions : ∀ c ∈ r.1.completions, c ∈ (s.groups i).completions ∨
      Answered g (s.move i r ps es) c)
    (hout : ∀ o ∈ r.2, OutOk g (s.move i r ps es) w'.sent i o) :
    CpInv g (s.move i r ps es) w' m' := by
  have hanswered : ∀ {c}, Answered g s c → Answered g (s.move i r ps es) c := fun hc =>
    hc.move fun q hq q' hq' hterm hindex => absurd hindex (hnew q hq q' hq' hterm)
  have hflight : ∀ p ∈ (s.move i r ps es).flight, p ∈ s.flight ∨
      ∃ o ∈ r.2, p = ⟨i, o.1, o.2⟩ := by
    intro p hp
    rcases mem_append.1 hp with hp | hp
    · exact .inl hp
    · obtain ⟨o, ho, rfl⟩ := mem_map.1 hp
      exact .inr ⟨o, ho, rfl⟩
  refine ⟨hr, fun j => ?_, fun p hp msg hm => ?_, fun j hj => ?_, fun j hj => ?_, fun j hj => ?_,
    fun j hj => ?_, fun p hp client origin command hm => ?_, fun q hq => ?_,
    fun q hq q' hq' hterm hindex => ?_, fun c hc => hanswered (h.surfaced c hc), fun j hj => ?_,
    fun p hp client reply hm => ?_⟩
  · by_cases hij : j = i
    · subst hij
      rw [move_groups_self, hnode]
    · rw [move_groups_of_ne hij, hother j hij, h.nodes j]
  · rcases hflight p hp with hp | ⟨⟨dst, _⟩, ho, rfl⟩
    · exact hsent _ (h.sent p hp msg hm)
    · cases hm
      exact hout _ ho
  · by_cases hij : j = i
    · subst hij
      rw [move_applied_self, move_groups_self]
      exact happlied
    · have hle := (h.rel.node j hj).applied_le
      have hle' := (hr.node j hj).applied_le
      rw [hother j hij] at hle'
      rw [move_applied_of_ne hij, move_groups_of_ne hij, h.applied j hj,
        ← h.nodes j, take_log_eq h.rel hr hg hj hle (by rw [hother j hij]; exact hle')]
  · by_cases hij : j = i
    · subst hij
      rw [move_applied_self, move_groups_self, hsm, h.sm j hj, map_append,
        CpSm.run, CpSm.run, CpSm.run, foldl_append]
    · rw [move_applied_of_ne hij, move_groups_of_ne hij]
      exact h.sm j hj
  · by_cases hij : j = i
    · subst hij
      rw [move_groups_self]
      exact hpending
    · rw [move_groups_of_ne hij]
      intro idx client origin hlook
      obtain ⟨hlt, q, hq, hrest⟩ := h.pending j hj idx client origin hlook
      exact ⟨hlt, q, mem_append_left _ hq, hrest⟩
  · by_cases hij : j = i
    · subst hij
      rw [move_groups_self]
      exact hwaiting
    · rw [move_groups_of_ne hij]
      exact h.waiting j hj
  · rcases hflight p hp with hp | ⟨⟨dst, _⟩, ho, rfl⟩
    · exact h.forward p hp client origin command hm
    · cases hm
      exact hout _ ho
  · rcases mem_append.1 hq with hq | hq
    · obtain ⟨hsub, hpos, hget⟩ := h.proposals q hq
      refine ⟨hsub, hpos, ?_⟩
      obtain ⟨t, ht⟩ := hg.hist q.entry.term
      rw [← ht, List.getElem?_append_left (List.getElem?_eq_some_iff.1 hget).1]
      exact hget
    · exact hproposals q hq
  · rcases mem_append.1 hq with hq | hq <;> rcases mem_append.1 hq' with hq' | hq'
    · exact h.unique q hq q' hq' hterm hindex
    · exact absurd hindex (hnew q hq q' hq' hterm)
    · exact absurd hindex.symm (hnew q' hq' q hq hterm.symm)
    · exact hunique q hq q' hq' hterm hindex
  · by_cases hij : j = i
    · subst hij
      rw [move_groups_self]
      intro c hc
      rcases hcompletions c hc with hc | hc
      · exact hanswered (h.completions j hj c hc)
      · exact hc
    · rw [move_groups_of_ne hij]
      exact fun c hc => hanswered (h.completions j hj c hc)
  · rcases hflight p hp with hp | ⟨⟨dst, _⟩, ho, rfl⟩
    · exact hanswered (h.replies p hp client reply hm)
    · cases hm
      exact hout _ ho

theorem CpInv.still (hr : LogRel g w' m')
    (hg : Grows m m') (hnode : w'.nodes i = r.1.raft)
    (hother : ∀ j, j ≠ i → w'.nodes j = w.nodes j) (hsent : ∀ p ∈ w.sent, p ∈ w'.sent)
    (hlast : r.1.raft.lastApplied = (s.groups i).raft.lastApplied)
    (hsm : r.1.sm = (s.groups i).sm) (hpending : r.1.pending = (s.groups i).pending)
    (hentry : ∀ idx ∈ (s.groups i).pending.keys, ∀ e : Entry, e.index = idx →
      (s.groups i).raft.lastApplied < idx → EntryAt (s.groups i).raft.log e →
      EntryAt r.1.raft.log e)
    (hwaiting : ∀ o ∈ r.1.waiting, o ∈ s.submitted)
    (hcompletions : ∀ c ∈ r.1.completions, c ∈ (s.groups i).completions ∨ Answered g s c)
    (hout : ∀ o ∈ r.2, OutOk g s w'.sent i o) : CpInv g (s.move i r [] []) w' m' := by
  refine h.move hi hr hg hnode hother hsent ?_ ?_ ?_ hwaiting (by simp) (by simp) (by simp)
    (fun c hc => (hcompletions c hc).imp_right fun hc => hc.move (by simp)) ?_
  · have hle := (h.rel.node i hi).applied_le
    have hle' := (hr.node i hi).applied_le
    rw [hnode, hlast] at hle'
    rw [h.nodes i] at hle
    rw [append_nil, h.applied i hi, hlast, take_log_eq h.rel hr hg hi (by rw [h.nodes i]; exact hle)
      (by rw [hnode]; exact hle')]
  · rw [hsm]
    rfl
  · intro idx client origin hlook
    rw [hpending] at hlook
    obtain ⟨hlt, q, hq, hclient, hidx, hat⟩ := h.pending i hi idx client origin hlook
    have hkey : idx ∈ (s.groups i).pending.keys :=
      AList.mem_keys.1 (AList.lookup_isSome.1 (by rw [hlook]; rfl))
    exact ⟨hlast ▸ hlt, q, mem_append_left _ hq, hclient, hidx,
      hentry idx hkey q.entry hidx hlt hat⟩
  · rintro ⟨dst, msg⟩ ho
    have hmsg := hout _ ho
    cases msg with
    | raft msg | forward client origin command => exact hmsg
    | reply client reply => exact Answered.move hmsg (by simp)

theorem CpInv.book
    (hraft : r.1.raft = (s.groups i).raft) (hsm : r.1.sm = (s.groups i).sm)
    (hpending : r.1.pending = (s.groups i).pending)
    (hwaiting : ∀ o ∈ r.1.waiting, o ∈ s.submitted)
    (hcompletions : ∀ c ∈ r.1.completions, c ∈ (s.groups i).completions ∨ Answered g s c)
    (hout : ∀ o ∈ r.2, OutOk g s w.sent i o) : CpInv g (s.move i r [] []) w m := by
  refine h.still hi h.rel (Grows.refl m) (by rw [hraft, h.nodes i]) (fun _ _ => rfl)
    (fun _ hp => hp) (by rw [hraft]) hsm hpending ?_ hwaiting hcompletions hout
  intro idx _ e _ _ he
  rw [hraft]
  exact he

theorem CpInv.booked
    (hwaiting : ∀ o ∈ r.1.waiting, o ∈ s.submitted)
    (hcompletions : ∀ c ∈ r.1.completions, c ∈ (s.groups i).completions ∨ Answered g s c)
    (hout : ∀ o ∈ r.2, OutOk g s w.sent i o) (hraft : r.1.raft = (s.groups i).raft := by rfl)
    (hsm : r.1.sm = (s.groups i).sm := by rfl)
    (hpending : r.1.pending = (s.groups i).pending := by rfl) :
    Follows g s m (s.move i r [] []) :=
  (h.book hi hraft hsm hpending hwaiting hcompletions hout).follows (.of_grows (.refl m))

theorem CpInv.stay : Follows g s m (s.move i (s.groups i, []) [] []) :=
  h.booked hi (h.waiting i hi) (fun _ => .inl) (by simp)

end

theorem CpInv.raftCall [Crc32fast] (h : CpInv g s w m) (hi : i ∈ g.members) {c : Call}
    (hvalid : w.Valid g c) (hserved : Served w c) {n : RaftNode} {out : Out}
    (hexec : w.exec g c = w.put i (n, out))
    (hlast : n.lastApplied = (s.groups i).raft.lastApplied)
    (hkept : ∀ idx ∈ (s.groups i).pending.keys, (s.groups i).raft.lastApplied < idx →
      idx ≤ (m.log i).length → Kept (s.groups i).raft n idx) :
    Follows g s m (s.move i ({ s.groups i with raft := n }, raftOut out) [] []) := by
  obtain ⟨m', hrun, hr⟩ := log_forward g w _ m h.rel ⟨c, hvalid, hserved, rfl⟩
  have hg := (recordRun_grows hrun h.rel.inv).2
  rw [hexec] at hr
  refine CpInv.follows (h.still hi hr hg (by simp) (fun j hij => Cluster.put_nodes_of_ne _ _ hij)
    ?_ hlast rfl rfl ?_ (h.waiting i hi) (fun c hc => .inl hc) ?_) (.of_grows hg)
  · intro p hp
    exact mem_append_left _ hp
  · rintro idx hkey e rfl hlt hat
    have hrep := (h.rel.node i hi).log
    rw [h.nodes i] at hrep
    have hlen := (List.getElem?_eq_some_iff.1 ((entryAt_iff hrep).1 hat).2).1
    exact hat.kept (hkept _ hkey hlt (by omega)) le_rfl
  · intro o ho
    obtain ⟨x, hx, rfl⟩ := mem_map.1 ho
    exact mem_append_right _ (mem_map.2 ⟨x, hx, rfl⟩)

section Propose

variable [Crc32fast]

section

variable (h : CpInv g s w m) (hi : i ∈ g.members)

include h hi

theorem proposed
    (hrole : (s.groups i).raft.role = .leader) (command : Bytes) :
    LogRel g (w.put i (((s.groups i).raft.propose command).1, [])) (m.propose i command) ∧
      Grows m (m.propose i command) ∧
      (m.propose i command).log i = m.log i ++ [⟨(s.groups i).raft.currentTerm, command⟩] ∧
      (m.propose i command).hist (s.groups i).raft.currentTerm = (m.propose i command).log i := by
  have hnode := h.nodes i
  rw [← hnode] at hrole ⊢
  obtain ⟨hstep, hr⟩ := h.rel.propose hi hrole command
  obtain ⟨-, hlog, -⟩ := h.rel.withCommand hi hrole command
  refine ⟨hr, hstep.grows h.rel.inv, hlog, ?_⟩
  have hhist := hr.hist_eq_log hi
  simp only [Cluster.put_nodes_self, RaftNode.propose, hrole, ne_eq, not_true_eq_false, if_false,
    RaftNode.advanceCommit_fields] at hhist
  exact hhist hrole

/-- The leader proposes a command, for a client or for itself; everything else of
the member but its pending indices stays. -/
theorem CpInv.propose
    (hrole : (s.groups i).raft.role = .leader) (command : Bytes) {n : CpGroup}
    (hraft : n.raft = ((s.groups i).raft.propose command).1) (hsm : n.sm = (s.groups i).sm)
    (hwaiting : n.waiting = (s.groups i).waiting)
    (hcompletions : n.completions = (s.groups i).completions)
    (hps : ∀ q ∈ ps, (q.client, command) ∈ s.submitted ∧
      q.entry = ⟨(s.groups i).raft.currentTerm, (s.groups i).raft.log.lastIndex + 1, command⟩)
    (hone : ∀ q ∈ ps, ∀ q' ∈ ps, q' = q)
    (hpending : ∀ idx client origin, n.pending.lookup idx = some (client, origin) →
      (s.groups i).pending.lookup idx = some (client, origin) ∨
        idx = (s.groups i).raft.log.lastIndex + 1 ∧ ∃ q ∈ ps, q.client = client) :
    Follows g s m (s.move i (n, []) ps []) := by
  obtain ⟨hr, hg, hlog, hhist⟩ := proposed h hi hrole command
  have hn := h.rel.node i hi
  rw [h.nodes i] at hn
  have hlast := hn.log.lastIndex_eq
  have hprop : n.raft = ((s.groups i).raft.withCommand command).advanceCommit := by
    rw [hraft, RaftNode.propose, if_neg (by simp [hrole])]
  have happlied : n.raft.lastApplied = (s.groups i).raft.lastApplied := by
    simp only [hprop, RaftNode.advanceCommit_fields]
    rfl
  have hsnap : n.raft.log.snapshotIndex = (s.groups i).raft.log.snapshotIndex := by
    simp only [hprop, RaftNode.advanceCommit_fields]
    rfl
  have hrep := (hr.node i hi).log
  rw [Cluster.put_nodes_self, ← hraft] at hrep
  have hsnap_le := hn.snapshot_le
  have hle := hn.applied_le.trans hn.commit_le
  have hold := h.rel.hist_eq_log hi (by rw [h.nodes i]; exact hrole)
  rw [h.nodes i] at hold
  have hlater : Later s.proposals m (s.proposals ++ ps) (m.propose i command) := by
    refine ⟨hg, fun q hq => (mem_append.1 hq).imp_right fun hq => ?_⟩
    rw [(hps q hq).2, hold, hlast]
    exact lt_succ_self _
  refine CpInv.follows (h.move hi hr hg (by rw [Cluster.put_nodes_self, hraft])
    (fun j hij => Cluster.put_nodes_of_ne _ _ hij)
    (fun p hp => by rw [Cluster.put_sent]; exact mem_append_left _ hp) ?_ ?_ ?_ ?_ ?_
    (fun q hq q' hq' _ _ => hone q hq q' hq') ?_ ?_ (by simp)) hlater
  · rw [append_nil, happlied, hlog, take_append_of_le_length hle]
    exact h.applied i hi
  · rw [hsm]
    rfl
  · intro idx client origin hlook
    rcases hpending idx client origin hlook with hold | ⟨rfl, q, hq, hclient⟩
    · obtain ⟨hlt, q, hq, hclient, hidx, hat⟩ := h.pending i hi idx client origin hold
      refine ⟨happlied ▸ hlt, q, mem_append_left _ hq, hclient, hidx, ?_⟩
      obtain ⟨hlive, hget⟩ := (entryAt_iff hn.log).1 hat
      refine (entryAt_iff hrep).2 ⟨hsnap ▸ hlive, ?_⟩
      rw [hlog, List.getElem?_append_left (List.getElem?_eq_some_iff.1 hget).1]
      exact hget
    · refine ⟨by rw [happlied]; omega, q, mem_append_right _ hq, hclient,
        by rw [(hps q hq).2], (entryAt_iff hrep).2 ⟨?_, ?_⟩⟩
      · rw [(hps q hq).2]
        dsimp only
        omega
      · rw [(hps q hq).2, hlog, hlast]
        simp
  · rw [hwaiting]
    exact h.waiting i hi
  · intro q hq
    obtain ⟨hsub, hentry⟩ := hps q hq
    rw [hentry]
    refine ⟨hsub, succ_pos _, ?_⟩
    rw [hhist, hlog, hlast]
    simp
  · intro q hq q' hq' hterm hindex
    obtain ⟨-, -, hget⟩ := h.proposals q hq
    rw [(hps q' hq').2] at hterm hindex
    have hlt := (List.getElem?_eq_some_iff.1 hget).1
    rw [← hterm, ← hindex, hold] at hlt
    dsimp only at hlt
    omega
  · rw [hcompletions]
    exact fun c hc => .inl hc

theorem CpInv.route (client : ClientId) (origin : NodeId)
    {command : Bytes} (hsub : (client, command) ∈ s.submitted) :
    Follows g s m (s.move i ((s.groups i).route client origin command)
      ((s.groups i).proposalsFor client command) []) := by
  unfold CpGroup.route CpGroup.proposalsFor
  split
  · rename_i hlead
    have hrole : (s.groups i).raft.role = .leader := by
      simpa [RaftNode.isLeader] using hlead
    have hprop : (s.groups i).raft.propose command =
        (((s.groups i).raft.withCommand command).advanceCommit,
          some ((s.groups i).raft.log.lastIndex + 1)) := by
      rw [RaftNode.propose, if_neg (by simp [hrole])]
    have hfor : (s.groups i).proposeFor client origin command =
        { s.groups i with
          raft := ((s.groups i).raft.withCommand command).advanceCommit
          pending := (s.groups i).pending.insert ((s.groups i).raft.log.lastIndex + 1)
            (client, origin) } := by
      simp only [proposeFor, hprop]
    rw [hfor]
    refine h.propose hi hrole command (by rw [hprop]) rfl rfl rfl ?_ ?_ ?_
    · intro q hq
      rw [mem_singleton] at hq
      subst hq
      exact ⟨hsub, rfl⟩
    · intro q hq q' hq'
      rw [mem_singleton] at hq hq'
      rw [hq, hq']
    · intro idx client' origin' hlook
      rcases Dict.lookup_insert_eq_some hlook with ⟨rfl, heq⟩ | hold
      · cases heq
        exact .inr ⟨rfl, _, mem_singleton_self _, rfl⟩
      · exact .inl hold
  · split
    · exact h.booked hi (h.waiting i hi) (fun _ => .inl) (forall_mem_singleton.2 hsub)
    · split
      · exact h.booked hi (forall_mem_concat (h.waiting i hi) hsub) (fun _ => .inl) (by simp)
      · exact h.stay hi

end

end Propose

section Apply

theorem CpInv.appliedNow_eq (h : CpInv g s w m) (hi : i ∈ g.members) :
    (s.groups i).appliedNow = number (s.groups i).raft.lastApplied
      (((m.log i).take (s.groups i).raft.commitIndex).drop (s.groups i).raft.lastApplied) := by
  have hn := h.rel.node i hi
  rw [h.nodes i] at hn
  have hle := hn.applied_le
  have hcommit := hn.commit_le
  have hnow := committedFrom_entries hn.log
    ((s.groups i).raft.commitIndex - (s.groups i).raft.lastApplied) _ hn.snapshot_le (by omega)
  rwa [Nat.add_sub_cancel' hle] at hnow

theorem CpInv.length_applied (h : CpInv g s w m) (hi : i ∈ g.members) :
    (s.applied i).length = (s.groups i).raft.lastApplied := by
  have hn := h.rel.node i hi
  rw [h.nodes i] at hn
  rw [h.applied i hi, length_number, length_take,
    min_eq_left (hn.applied_le.trans hn.commit_le)]

theorem map_index_appliedNow (n : CpGroup) :
    n.appliedNow.map Entry.index = n.raft.takeCommitted.2.map Prod.fst := by
  simp [appliedNow]

theorem map_command_appliedNow (n : CpGroup) :
    n.appliedNow.map Entry.command = n.raft.takeCommitted.2.map Prod.snd := by
  simp [appliedNow]

theorem CpInv.answered_of_delivers (h : CpInv g s w m) (hi : i ∈ g.members) {c : Completion}
    (hc : Delivers (s.groups i) (s.groups i).raft.takeCommitted.2 c) :
    Answered g (s.move i r [] (s.groups i).appliedNow) c := by
  obtain ⟨k, idx, command, origin, hk, hlook, hreply⟩ := hc
  obtain ⟨-, q, hq, hclient, hidx, hat⟩ := h.pending i hi idx c.client origin hlook
  obtain ⟨hsub, -, -⟩ := h.proposals q hq
  have hn := h.rel.node i hi
  rw [h.nodes i] at hn
  have hlen := h.length_applied hi
  -- the entry applied at position `k` is the one that was proposed
  have hes : (s.groups i).appliedNow[k]? = some q.entry := by
    have hnow : (s.groups i).appliedNow[k]? =
        some ⟨(s.groups i).raft.log.termAt idx, idx, command⟩ := by
      rw [appliedNow, getElem?_map, hk]
      rfl
    have hnum := hnow
    rw [h.appliedNow_eq hi, getElem?_number, map_eq_some_iff] at hnum
    obtain ⟨x, hx, heq⟩ := hnum
    have hpos : (s.groups i).raft.lastApplied + k + 1 = idx := congrArg Entry.index heq
    have hF : (m.log i)[idx - 1]? = some x := by
      rw [getElem?_drop] at hx
      have hlt := (List.getElem?_eq_some_iff.1 hx).1
      rw [length_take] at hlt
      rw [getElem?_take_of_lt (by omega)] at hx
      rw [← hpos]
      exact hx
    have hget := ((entryAt_iff hn.log).1 hat).2
    rw [hidx, hF] at hget
    have hxq : x = ⟨q.entry.term, q.entry.command⟩ := some.inj hget
    rw [hnow, ← heq, hxq, hpos, ← hidx]
  have hentry : q.entry.command = command := by
    have := congrArg (Option.map Entry.command) hes
    rw [← getElem?_map, map_command_appliedNow, getElem?_map, hk] at this
    exact (some.inj this).symm
  have hposition : q.entry.index = (s.groups i).raft.lastApplied + k + 1 := by
    have := congrArg (Option.map Entry.index) hes
    rw [h.appliedNow_eq hi, getElem?_number, Option.map_map, map_some,
      map_eq_some_iff] at this
    obtain ⟨x, -, hx⟩ := this
    exact hx.symm
  refine ⟨q, mem_append_left _ hq, hclient, hsub, ?_, i, hi,
    (s.groups i).raft.lastApplied + k, ?_, hposition, ?_⟩
  · intro q' hq' hterm hindex
    rcases mem_append.1 hq' with hq' | hq'
    · exact h.unique q hq q' hq' hterm hindex
    · cases hq'
  · rw [move_applied_self, ← hlen, getElem?_append_right (le_add_right _ _),
      Nat.add_sub_cancel_left]
    exact hes
  · rw [move_applied_self, ← hlen, take_length_add_append, map_append, hreply,
      hentry, h.sm i hi, CpSm.run, CpSm.run, CpSm.run, foldl_append, map_take,
      map_take, map_command_appliedNow]

theorem CpInv.applyCommitted [Crc32fast] (h : CpInv g s w m) (hi : i ∈ g.members) :
    Follows g s m (s.move i (s.groups i).applyCommitted [] (s.groups i).appliedNow) := by
  have ha := applies_all { s.groups i with raft := (s.groups i).raft.takeCommitted.1 }
    (s.groups i).raft.takeCommitted.2
  have hn := h.rel.node i hi
  rw [h.nodes i] at hn
  have hmax : max (s.groups i).raft.lastApplied (s.groups i).raft.commitIndex =
      (s.groups i).raft.commitIndex := max_eq_right hn.applied_le
  have hraft : (s.groups i).applyCommitted.1.raft = (s.groups i).raft.takeCommitted.1 := ha.raft
  have hlast : (s.groups i).applyCommitted.1.raft.lastApplied = (s.groups i).raft.commitIndex := by
    rw [hraft]
    exact hmax
  have hdelivers : ∀ c, Delivers { s.groups i with raft := (s.groups i).raft.takeCommitted.1 }
      (s.groups i).raft.takeCommitted.2 c →
      Delivers (s.groups i) (s.groups i).raft.takeCommitted.2 c := fun _ hc => hc
  refine CpInv.follows (h.move hi (h.rel.takeCommitted hi) (Grows.refl m) ?_ ?_ ?_ ?_ ?_ ?_ ?_
    (by simp) (by simp) (by simp) ?_ ?_) (.of_grows (.refl m))
  · rw [hraft, ← h.nodes i]
    exact Cluster.put_nodes_self _ _ _
  · exact fun j hij => Cluster.put_nodes_of_ne _ _ hij
  · intro p hp
    exact mem_append_left _ hp
  · rw [hlast, h.applied i hi, h.appliedNow_eq hi]
    have htake : (m.log i).take (s.groups i).raft.lastApplied =
        ((m.log i).take (s.groups i).raft.commitIndex).take (s.groups i).raft.lastApplied := by
      rw [take_take, min_eq_left hn.applied_le]
    have hlen : ((m.log i).take (s.groups i).raft.lastApplied).length =
        (s.groups i).raft.lastApplied := by
      rw [length_take, min_eq_left (hn.applied_le.trans hn.commit_le)]
    have happ := number_append 0 ((m.log i).take (s.groups i).raft.lastApplied)
      (((m.log i).take (s.groups i).raft.commitIndex).drop (s.groups i).raft.lastApplied)
    rw [hlen, zero_add] at happ
    rw [← happ, htake, take_append_drop]
  · rw [map_command_appliedNow]
    exact ha.sm
  · intro idx client origin hlook
    obtain ⟨hold, hnot⟩ := ha.pending idx _ hlook
    obtain ⟨hlt, q, hq, hclient, hidx, hat⟩ := h.pending i hi idx client origin hold
    refine ⟨?_, q, mem_append_left _ hq, hclient, hidx, by rw [hraft]; exact hat⟩
    rw [← map_index_appliedNow, h.appliedNow_eq hi, map_index_number, mem_range'_1,
      length_drop, length_take, min_eq_left hn.commit_le] at hnot
    omega
  · rw [show (s.groups i).applyCommitted.1.waiting = (s.groups i).waiting from ha.waiting]
    exact h.waiting i hi
  · intro c hc
    exact (ha.completions c hc).imp_right fun hc => h.answered_of_delivers hi (hdelivers c hc)
  · rintro ⟨dst, msg⟩ ho
    obtain ⟨c, hc, hd⟩ := ha.out _ ho
    cases hc
    exact h.answered_of_delivers hi (hdelivers c hd)

theorem CpInv.maybeCompact (h : CpInv g s w m) (hi : i ∈ g.members) (keep : ℕ) :
    Follows g s m (s.move i ({ s.groups i with raft := (s.groups i).raft.maybeCompact keep }, [])
      [] []) := by
  have hr := h.rel.maybeCompact hi keep
  rw [h.nodes i] at hr
  have hn := h.rel.node i hi
  have hn' := hr.node i hi
  rw [h.nodes i] at hn
  rw [Cluster.put_nodes_self] at hn'
  have hlast : ((s.groups i).raft.maybeCompact keep).lastApplied =
      (s.groups i).raft.lastApplied := by
    unfold RaftNode.maybeCompact
    split <;> rfl
  refine CpInv.follows (h.still hi hr (Grows.refl m) (by simp)
    (fun j hij => Cluster.put_nodes_of_ne _ _ hij)
    (fun p hp => by rw [Cluster.put_sent]; exact mem_append_left _ hp) hlast rfl rfl ?_
    (h.waiting i hi) (fun c hc => .inl hc) (by simp)) (.of_grows (.refl m))
  rintro idx - e rfl hlt hat
  refine (entryAt_iff hn'.log).2 ⟨?_, ((entryAt_iff hn.log).1 hat).2⟩
  exact (hn'.snapshot_le.trans_eq hlast).trans_lt hlt

end Apply

section Calls

variable [Crc32fast]

section

variable (h : CpInv g s w m) (hi : i ∈ g.members)

include h hi

theorem CpInv.routeAll (ops : List (ClientId × Bytes))
    (hops : ∀ o ∈ ops, o ∈ s.submitted) :
    Follows g s m (s.move i ((s.groups i).routeAll ops) ((s.groups i).routeAllProposals ops)
      []) := by
  induction ops generalizing s w m with
  | nil => exact h.stay hi
  | cons o ops ih =>
    have hrest := (h.route hi o.1 (s.groups i).id (hops o mem_cons_self)).bind
      fun _ _ h' => ih h' fun o' ho' => hops o' (mem_cons_of_mem _ ho')
    rw [move_groups_self, move_move] at hrest
    exact hrest

theorem CpInv.flush :
    Follows g s m (s.move i (s.groups i).flush (s.groups i).flushProposals []) := by
  unfold CpGroup.flush CpGroup.flushProposals
  split
  · have h' : Follows g s m (s.move i ({ s.groups i with waiting := [] }, []) [] []) :=
      h.booked hi (by simp) (fun _ => .inl) (by simp)
    have hall := h'.bind fun _ _ h' =>
      h'.routeAll hi (s.groups i).waiting (h.waiting i hi)
    rw [move_groups_self, move_move] at hall
    exact hall
  · exact h.stay hi

theorem CpInv.tickSessions :
    Follows g s m (s.move i ((s.groups i).tickSessions, []) [] []) := by
  unfold CpGroup.tickSessions
  split
  · rename_i hlead
    split
    · refine h.propose hi (by simpa [RaftNode.isLeader] using hlead) (sessCommand .tick) rfl rfl rfl
        rfl (by simp) (by simp) fun idx client origin hlook => .inl hlook
    · exact h.booked hi (h.waiting i hi) (fun _ => .inl) (by simp)
  · exact h.stay hi

theorem CpInv.tick
    (hserved : Served s.cluster (.tick i)) : Follows g s m (s.exec (.tick i)) := by
  have hserved' : Served w (.tick i) := by
    intro hrole
    rw [h.nodes i] at hrole ⊢
    exact hserved hrole
  have h₁ := h.raftCall hi (c := .tick i) hi hserved'
    (show w.exec g (.tick i) = w.put i ((s.groups i).raft.tick.1, (s.groups i).raft.tick.2) by
      rw [← h.nodes i]
      rfl) (@kept_tick _ 0).lastApplied fun _ _ _ _ => kept_tick
  have h₂ := h₁.bind fun _ _ h => h.flush hi
  rw [move_move] at h₂
  have h₃ := h₂.bind fun _ _ h => h.tickSessions hi
  rw [move_move] at h₃
  have h₄ := h₃.bind fun _ _ h => h.applyCommitted hi
  rw [move_move] at h₄
  have h₅ := h₄.bind fun _ _ h => h.maybeCompact hi compactKeep
  rw [move_move] at h₅
  simpa [exec, CpGroup.tick, CpGroup.tickProposals, CpGroup.tickApplied,
    append_assoc] using h₅

end

omit [Crc32fast] in
theorem CpInv.erase (h : CpInv g s w m) (k : ℕ) :
    CpInv g { s with flight := s.flight.eraseIdx k } w m := by
  have hmem : ∀ p ∈ s.flight.eraseIdx k, p ∈ s.flight := fun p hp => mem_of_mem_eraseIdx hp
  exact { h with
    sent := fun p hp => h.sent p (hmem p hp)
    forward := fun p hp => h.forward p (hmem p hp)
    replies := fun p hp => h.replies p (hmem p hp) }

section

variable (h : CpInv g s w m)

include h

theorem CpInv.handle {p : CpPacket} (hp : p ∈ s.flight)
    (hdst : p.dst ∈ g.members)
    (hok : ∀ msg ∈ p.raft?, ServedPacket s.cluster ⟨p.src, p.dst, msg⟩ ∧
      KeepsPending (s.groups p.dst) msg) (k : ℕ) :
    Follows g s m ({ s with flight := s.flight.eraseIdx k }.move p.dst
      ((s.groups p.dst).handle p.src p.msg) ((s.groups p.dst).handleProposals p.msg) []) := by
  have he := h.erase k
  cases hm : p.msg with
  | raft msg =>
    obtain ⟨hserved, hkeep⟩ := hok msg (by simp [CpPacket.raft?, hm])
    obtain ⟨idx, hidx⟩ := mem_iff_getElem?.1 (h.sent p hp msg hm)
    have hn := h.rel.node p.dst hdst
    rw [h.nodes p.dst] at hn
    have hserved' : Served w (.deliver idx) := by
      intro q hq
      rw [mem_def, hidx, some.injEq] at hq
      subst hq
      intro hrole hrefuses
      rw [h.nodes p.dst] at hrole hrefuses ⊢
      exact hserved hrole hrefuses
    refine he.raftCall hdst (c := .deliver idx) trivial hserved' ?_ ?_ ?_
    · simp only [Cluster.exec, hidx]
      rw [h.nodes p.dst]
    · exact step_lastApplied _ _ _
    · intro j hj _ hle
      refine kept_step p.src ?_ ?_ hj hkeep
      · rw [hn.log.entries, length_number, length_drop]
        exact Nat.sub_le_sub_right hle _
      · rw [hn.log.lastIndex_eq]
        exact hle
  | forward client origin command =>
    exact he.route hdst client origin (h.forward p hp client origin command hm)
  | reply client reply =>
    exact he.booked hdst (h.waiting _ hdst) (forall_mem_concat (fun _ => .inl)
      (.inr (h.replies p hp client reply hm))) (by simp [CpGroup.handle])

theorem CpInv.deliver {k : ℕ} (hvalid : s.Valid g (.deliver k))
    (hok : Undisturbed s (.deliver k)) : Follows g s m (s.exec (.deliver k)) := by
  simp only [exec]
  cases hk : s.flight[k]? with
  | none => exact h.follows (.refl _ m)
  | some p =>
    have h₁ := h.handle (mem_of_getElem? hk) (hvalid p hk) (hok p hk) k
    have h₂ := h₁.bind fun _ _ h => h.applyCommitted (hvalid p hk)
    rw [move_move] at h₂
    simpa [step] using h₂

theorem CpInv.submit (hi : i ∈ g.members) (client : ClientId)
    (command : Bytes) : Follows g s m (s.exec (.submit i client command)) := by
  have hmem : ∀ o ∈ s.submitted, o ∈ s.submitted ++ [(client, command)] := fun o ho =>
    mem_append_left _ ho
  have hans : ∀ c, Answered g s c →
      Answered g { s with submitted := s.submitted ++ [(client, command)] } c := by
    rintro c ⟨q, hq, hclient, hsub, hrest⟩
    exact ⟨q, hq, hclient, hmem _ hsub, hrest⟩
  have h' : CpInv g { s with submitted := s.submitted ++ [(client, command)] } w m :=
    { h with
      waiting := fun j hj o ho => hmem o (h.waiting j hj o ho)
      forward := fun p hp c o b hm => hmem _ (h.forward p hp c o b hm)
      proposals := fun q hq => ⟨hmem _ (h.proposals q hq).1, (h.proposals q hq).2⟩
      surfaced := fun c hc => hans c (h.surfaced c hc)
      completions := fun j hj c hc => hans c (h.completions j hj c hc)
      replies := fun p hp c b hm => hans _ (h.replies p hp c b hm) }
  exact h'.route hi client (s.groups i).id (mem_append_right _ (mem_singleton_self _))

theorem CpInv.takeCompletions (hi : i ∈ g.members) :
    CpInv g (s.exec (.takeCompletions i)) w m := by
  have hgroup : ∀ j, ∃ cs, (s.exec (.takeCompletions i)).groups j =
      { s.groups j with completions := cs } ∧ ∀ c ∈ cs, c ∈ (s.groups j).completions := by
    intro j
    by_cases hij : j = i
    · subst hij
      exact ⟨[], by simp [exec], by simp⟩
    · exact ⟨(s.groups j).completions, by simp [exec, hij], fun c hc => hc⟩
  have hans : ∀ c, Answered g s c → Answered g (s.exec (.takeCompletions i)) c := fun c hc => hc
  choose cs heq hsub using hgroup
  refine ⟨h.rel, fun j => ?_, h.sent, fun j hj => ?_, fun j hj => ?_, fun j hj => ?_, fun j hj => ?_,
    h.forward, h.proposals, h.unique, fun c hc => ?_, fun j hj c hc => ?_,
    fun p hp client reply hm => hans _ (h.replies p hp client reply hm)⟩
  · exact heq j ▸ h.nodes j
  · exact heq j ▸ h.applied j hj
  · exact heq j ▸ h.sm j hj
  · exact heq j ▸ h.pending j hj
  · exact heq j ▸ h.waiting j hj
  · exact (mem_append.1 hc).elim (fun hc => hans c (h.surfaced c hc)) fun hc =>
      hans c (h.completions i hi c hc)
  · rw [heq] at hc
    exact hans c (h.completions j hj c (hsub j c hc))

theorem CpInv.exec {c : CpCall} (hvalid : s.Valid g c) (hok : Undisturbed s c) :
    Follows g s m (s.exec c) := by
  cases c with
  | submit i client command => exact h.submit hvalid.1 client command
  | deliver k => exact h.deliver hvalid hok
  | tick i => exact h.tick hvalid hok
  | takeCompletions i => exact (h.takeCompletions hvalid).follows (.refl _ m)

end

end Calls

end Move

theorem cpInv_init (g : Group) : CpInv g (Members.init g) (Cluster.init g) Replog.init := by
  refine ⟨logRel_init g, fun i => rfl, by simp [Members.init], fun i _ => ?_, fun i _ => rfl,
    fun i _ idx client origin hlook => ?_, fun i _ o ho => ?_, by simp [Members.init],
    by simp [Members.init], by simp [Members.init], by simp [Members.init], fun i _ c hc => ?_,
    by simp [Members.init]⟩
  · simp [Members.init, new, number]
  · cases hlook
  · cases ho
  · cases hc

/-- In every state of a run in which leaders can serve the members they send to and
no pending entry is replaced, every reply is that of the client's own command. -/
theorem repliesCorrect_of_undisturbed [Crc32fast] (g : Group) (s : Members)
    (h : Members.Reachable g Undisturbed s) : RepliesCorrect g s := by
  have hinv : ∃ w m, CpInv g s w m := by
    induction h with
    | refl => exact ⟨_, _, cpInv_init g⟩
    | tail _ hstep ih =>
      obtain ⟨c, hvalid, hok, rfl⟩ := hstep
      obtain ⟨w, m, hs⟩ := ih
      obtain ⟨w', m', hs', -⟩ := hs.exec hvalid hok
      exact ⟨w', m', hs'⟩
  obtain ⟨w, m, hs⟩ := hinv
  exact hs.repliesCorrect

def counterName : Str := ⟨[99], by decide +kernel⟩

def firstSubmit : List CpCall :=
  replicate 10 (.tick 0) ++
  [.deliver 0, .deliver 1, .submit 0 7 (alCommand counterName (.addAndGet 5))]

def firstReply : List CpCall := firstSubmit ++ [.tick 0, .deliver 3, .deliver 4]

set_option maxRecDepth 100000 in
/-- The condition can be met by a run in which a client is answered. -/
theorem repliesCorrect_firstReply :
    let s := (init threeNodes).execAll firstReply
    (s.groups 0).completions = [⟨7, .long 5⟩] ∧ RepliesCorrect threeNodes s :=
  ⟨by decide +kernel,
    repliesCorrect_of_undisturbed _ _ (run_execAll firstReply (by decide +kernel))⟩

/-- The entry of client `7` reaches nobody. -/
def replaced : List CpCall :=
  firstSubmit ++ replicate 15 (.tick 1) ++
  [.deliver 4, .deliver 4, .submit 1 8 (alCommand counterName (.addAndGet 100)), .tick 1,
    .deliver 7, .deliver 7, .tick 1, .deliver 7]

set_option maxRecDepth 100000 in
/-- Client `7` gets the reply to the command of client `8`. -/
theorem not_repliesCorrect_replaced :
    let s := (init threeNodes).execAll replaced
    Members.Reachable threeNodes (fun _ _ => True) s ∧
      (s.groups 0).completions = [⟨7, .long 100⟩] ∧
      s.submitted = [(7, alCommand counterName (.addAndGet 5)),
        (8, alCommand counterName (.addAndGet 100))] ∧
      ¬ RepliesCorrect threeNodes s := by
  have hcompletions : (((init threeNodes).execAll replaced).groups 0).completions =
      [⟨7, .long 100⟩] := by decide +kernel
  have hnever : ∀ q ∈ ((init threeNodes).execAll replaced).proposals, q.client = 7 →
      ∀ i ∈ threeNodes.members,
        q.entry ∉ ((init threeNodes).execAll replaced).applied i := by decide +kernel
  refine ⟨run_execAll replaced (by decide +kernel), hcompletions, by decide +kernel, ?_⟩
  rintro ⟨-, hmembers⟩
  obtain ⟨q, hq, hclient, -, -, i, hi, k, hk, -⟩ :=
    hmembers 0 (by decide) ⟨7, .long 100⟩ (by rw [hcompletions]; exact mem_singleton_self _)
  exact hnever q hq hclient i hi (mem_of_getElem? hk)

end BonsaiGrid.Cp
