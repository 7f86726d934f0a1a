import BonsaiGrid.Cp.Group

/-!
# Pending entries

What happens to an entry between its proposal and its application. A call keeps the log up to an
index, unless it is an append that replaces entries; what is committed is applied in order.
-/

namespace BonsaiGrid.Cp

open Raft Consensus RaftNode List RaftLog

def EntryAt (log : RaftLog) (e : Entry) : Prop :=
  log.snapshotIndex < e.index ∧ log.entries[e.index - (log.snapshotIndex + 1)]? = some e

section Represents

variable {log : RaftLog} {F : List (Ent Bytes)} {e : Entry}

theorem entryAt_iff (h : Represents log F) :
    EntryAt log e ↔ log.snapshotIndex < e.index ∧ F[e.index - 1]? = some ⟨e.term, e.command⟩ := by
  refine and_congr_right fun hlt => ?_
  rw [h.entries, getElem?_number, getElem?_drop,
    show log.snapshotIndex + (e.index - (log.snapshotIndex + 1)) = e.index - 1 by omega,
    show e.index - 1 + 1 = e.index by omega, Option.map_eq_some_iff]
  constructor
  · rintro ⟨x, hx, heq⟩
    rw [hx, ← heq]
  · intro hx
    exact ⟨_, hx, rfl⟩

theorem committedFrom_entries (h : Represents log F) (todo k : ℕ) (hk : log.snapshotIndex ≤ k)
    (hle : k + todo ≤ F.length) :
    (committedFrom log todo k).map
        (fun a => ({ term := log.termAt a.1, index := a.1, command := a.2 } : Entry)) =
      number k ((F.take (k + todo)).drop k) := by
  induction todo generalizing k with
  | zero => simp [committedFrom, number]
  | succ todo ih =>
    have hlt : k < F.length := by omega
    have hcmd : log.commandAt (k + 1) = some F[k].val := by
      rw [h.commandAt_eq (show log.snapshotIndex < k + 1 by omega), Nat.add_sub_cancel,
        getElem?_eq_getElem hlt]
      rfl
    have hterm : log.termAt (k + 1) = F[k].term := by
      rw [h.termAt_eq (show 0 < k + 1 by omega) (by omega), termIn, Nat.add_sub_cancel,
        getElem?_eq_getElem hlt]
      rfl
    have hdrop : (F.take (k + (todo + 1))).drop k = F[k] :: (F.take (k + 1 + todo)).drop (k + 1) := by
      rw [show k + (todo + 1) = k + 1 + todo by omega,
        drop_eq_getElem_cons (by rw [length_take]; omega), getElem_take]
    rw [committedFrom, hcmd, hdrop, number]
    rw [map_cons, hterm, ih (k + 1) (by omega) (by omega)]

end Represents

/-- The live entries up to `idx`, and what has been applied, are as before. -/
structure Kept (n n' : RaftNode) (idx : ℕ) : Prop where
  snapshotIndex : n'.log.snapshotIndex = n.log.snapshotIndex
  lastApplied : n'.lastApplied = n.lastApplied
  entries : n'.log.entries.take (idx - n.log.snapshotIndex) =
    n.log.entries.take (idx - n.log.snapshotIndex)

section Kept

variable {n n' : RaftNode} {idx : ℕ}

theorem Kept.of_entries_eq (hs : n'.log.snapshotIndex = n.log.snapshotIndex)
    (hl : n'.lastApplied = n.lastApplied) (he : n'.log.entries = n.log.entries) :
    Kept n n' idx :=
  ⟨hs, hl, by rw [he]⟩

theorem Kept.trans {n'' : RaftNode} (h : Kept n n' idx) (h' : Kept n' n'' idx) :
    Kept n n'' idx := by
  have he := h'.entries
  rw [h.snapshotIndex] at he
  exact ⟨h'.snapshotIndex.trans h.snapshotIndex, h'.lastApplied.trans h.lastApplied,
    he.trans h.entries⟩

theorem EntryAt.kept {e : Entry} (he : EntryAt n.log e) (h : Kept n n' idx) (hle : e.index ≤ idx) :
    EntryAt n'.log e := by
  obtain ⟨hlt, hget⟩ := he
  have hpos : e.index - (n.log.snapshotIndex + 1) < idx - n.log.snapshotIndex := by omega
  refine ⟨h.snapshotIndex ▸ hlt, ?_⟩
  rw [h.snapshotIndex, ← getElem?_take_of_lt hpos, h.entries,
    getElem?_take_of_lt hpos]
  exact hget

theorem kept_tick : Kept n n.tick.1 idx := by
  unfold tick
  split
  · split <;> exact .of_entries_eq rfl rfl rfl
  · dsimp only
    split
    · unfold startElection maybeBecomeLeader
      split
      · exact .of_entries_eq (by simp [asCandidate]) (by simp [asCandidate])
          (by simp [asCandidate])
      · split <;>
          exact .of_entries_eq (by simp [asCandidate, asLeader])
            (by simp [asCandidate, asLeader])
            (by simp [asCandidate, asLeader])
    · exact .of_entries_eq rfl rfl rfl

theorem kept_observeTerm (term : ℕ) : Kept n (n.observeTerm term) idx := by
  unfold observeTerm
  split
  · exact .of_entries_eq (by simp [becomeFollower]) (by simp [becomeFollower])
      (by simp [becomeFollower])
  · exact .of_entries_eq rfl rfl rfl

theorem kept_maybeBecomeLeader : Kept n n.maybeBecomeLeader.1 idx := by
  unfold maybeBecomeLeader
  split
  · exact .of_entries_eq rfl rfl rfl
  · split <;> exact .of_entries_eq rfl rfl rfl

theorem kept_onRequestVote (term candidate lastLogIndex lastLogTerm : ℕ) :
    Kept n (n.onRequestVote term candidate lastLogIndex lastLogTerm).1 idx := by
  unfold onRequestVote
  split
  · exact .of_entries_eq (by simp [withVote]) (by simp [withVote])
      (by simp [withVote])
  · exact .of_entries_eq rfl rfl rfl

theorem kept_onVoteResp (src : NodeId) (term : ℕ) (granted : Bool) :
    Kept n (n.onVoteResp src term granted).1 idx := by
  unfold onVoteResp
  split
  · exact .of_entries_eq rfl rfl rfl
  · split
    · have hvotes : Kept n { n with votes := n.votes.set src true } idx :=
        .of_entries_eq rfl rfl rfl
      exact hvotes.trans kept_maybeBecomeLeader
    · exact .of_entries_eq rfl rfl rfl

theorem kept_onAppendResp (src : NodeId) (term : ℕ) (success : Bool) (matchIndex : ℕ) :
    Kept n (n.onAppendResp src term success matchIndex).1 idx := by
  unfold onAppendResp
  split
  · exact .of_entries_eq rfl rfl rfl
  · split
    · exact .of_entries_eq (by simp [withAck]) (by simp [withAck])
        (by simp [withAck])
    · exact .of_entries_eq rfl rfl rfl

end Kept

section AppendAll

theorem termAt_of_lt {log : RaftLog} {j : ℕ} (hj : log.snapshotIndex < j) :
    log.termAt j = (log.entries[j - log.snapshotIndex - 1]?.map Entry.term).getD 0 := by
  unfold termAt pos
  rw [if_neg (by omega), if_neg (by omega), if_neg (by omega)]
  dsimp only
  split
  · rfl
  · rename_i hge
    rw [getElem?_eq_none (Nat.not_lt.1 hge)]
    rfl

theorem termAt_eq_of_take_eq {log log' : RaftLog} {idx j : ℕ}
    (hs : log'.snapshotIndex = log.snapshotIndex)
    (he : log'.entries.take (idx - log.snapshotIndex) =
      log.entries.take (idx - log.snapshotIndex)) (hlt : log.snapshotIndex < j) (hj : j ≤ idx) :
    log'.termAt j = log.termAt j := by
  have hpos : j - log.snapshotIndex - 1 < idx - log.snapshotIndex := by omega
  rw [termAt_of_lt hlt, termAt_of_lt (hs ▸ hlt), hs, ← getElem?_take_of_lt hpos, he,
    getElem?_take_of_lt hpos]

variable [Crc32fast]

theorem appendAll_take (log : RaftLog) (p : ℕ) (es : List Entry) {idx : ℕ}
    (hlen : idx - log.snapshotIndex ≤ log.entries.length) (hlast : idx ≤ log.lastIndex)
    (hkeep : ∀ e ∈ es, log.snapshotIndex < e.index → e.index ≤ idx →
      log.termAt e.index = e.term) :
    (appendAll log p es).1.entries.take (idx - log.snapshotIndex) =
      log.entries.take (idx - log.snapshotIndex) := by
  induction es generalizing log p with
  | nil => rfl
  | cons e es ih =>
    have hrest : ∀ e' ∈ es, log.snapshotIndex < e'.index → e'.index ≤ idx →
        log.termAt e'.index = e'.term := fun e' he' => hkeep e' (mem_cons_of_mem _ he')
    unfold appendAll
    split
    · exact ih log _ hlen hlast hrest
    · rename_i hlive
      split
      · exact ih log _ hlen hlast hrest
      · rename_i hconflict
        have hgt : idx < e.index := by
          by_contra hle
          exact hconflict ⟨hkeep e mem_cons_self (Nat.not_le.1 hlive) (by omega),
            (Nat.not_lt.1 hle).trans hlast⟩
        have hcut : idx - log.snapshotIndex ≤
            (log.entries.take (e.index - (log.snapshotIndex + 1))).length := by
          rw [length_take]
          omega
        have htake : ((log.truncateFrom e.index).append e).entries.take
            (idx - log.snapshotIndex) = log.entries.take (idx - log.snapshotIndex) := by
          rw [append_entries, truncateFrom_entries,
            take_append_of_le_length hcut, take_take, Nat.min_eq_left (by omega)]
        have hlast' : idx ≤ ((log.truncateFrom e.index).append e).lastIndex := by
          rw [lastIndex, append_entries, getLast?_concat]
          exact hgt.le
        have hlen' : idx - log.snapshotIndex ≤
            ((log.truncateFrom e.index).append e).entries.length := by
          rw [append_entries, truncateFrom_entries, length_append]
          omega
        refine (ih _ e.index hlen' hlast' fun e' he' hs hle => ?_).trans htake
        rw [@termAt_eq_of_take_eq log ((log.truncateFrom e.index).append e) _ _ rfl htake hs hle]
        exact hrest e' he' hs hle

theorem kept_onAppend {n : RaftNode} {idx term leader prevLogIndex prevLogTerm leaderCommit : ℕ}
    {entries : List Entry} (hlen : idx - n.log.snapshotIndex ≤ n.log.entries.length)
    (hlast : idx ≤ n.log.lastIndex)
    (hkeep : n.currentTerm ≤ term → n.prevMatches prevLogIndex prevLogTerm →
      ∀ e ∈ entries, n.log.snapshotIndex < e.index → e.index ≤ idx →
        n.log.termAt e.index = e.term) :
    Kept n (n.onAppend term leader prevLogIndex prevLogTerm entries leaderCommit).1 idx := by
  unfold onAppend
  split
  · rename_i hterm
    split
    · rename_i hprev
      have hprev' : n.prevMatches prevLogIndex prevLogTerm := by
        rwa [prevMatches] at hprev
      refine ⟨(appendAll_fields _ _ _).2.2, by simp [withEntries, follow], ?_⟩
      exact appendAll_take n.log prevLogIndex entries hlen hlast (hkeep hterm hprev')
    · exact .of_entries_eq (by simp [follow]) (by simp [follow])
        (by simp [follow])
  · exact .of_entries_eq rfl rfl rfl

end AppendAll

theorem step_lastApplied [Crc32fast] (n : RaftNode) (src : NodeId) (msg : RaftMsg) :
    (n.step src msg).1.lastApplied = n.lastApplied := by
  refine Eq.trans ?_ (@kept_observeTerm n 0 (msgTerm msg)).lastApplied
  cases msg with
  | requestVote term candidate lastLogIndex lastLogTerm =>
    exact (@kept_onRequestVote _ 0 _ _ _ _).lastApplied
  | requestVoteResp term granted => exact (@kept_onVoteResp _ 0 _ _ _).lastApplied
  | appendEntriesResp term success matchIndex =>
    exact (@kept_onAppendResp _ 0 _ _ _ _).lastApplied
  | appendEntries term leader prevLogIndex prevLogTerm entries leaderCommit =>
    exact (@kept_onAppend _ _ 0 _ _ _ _ _ _ (by simp) (Nat.zero_le _) (by
      omega)).lastApplied

theorem kept_step [Crc32fast] {m : CpGroup} {idx : ℕ} {msg : RaftMsg} (src : NodeId)
    (hlen : idx - m.raft.log.snapshotIndex ≤ m.raft.log.entries.length)
    (hlast : idx ≤ m.raft.log.lastIndex) (hidx : idx ∈ m.pending.keys)
    (hkeep : KeepsPending m msg) : Kept m.raft (m.raft.step src msg).1 idx := by
  refine (kept_observeTerm (msgTerm msg)).trans ?_
  cases msg with
  | requestVote term candidate lastLogIndex lastLogTerm => exact kept_onRequestVote _ _ _ _
  | requestVoteResp term granted => exact kept_onVoteResp _ _ _
  | appendEntriesResp term success matchIndex => exact kept_onAppendResp _ _ _ _
  | appendEntries term leader prevLogIndex prevLogTerm entries leaderCommit =>
    have hlog : (m.raft.observeTerm term).log.entries = m.raft.log.entries ∧
        (m.raft.observeTerm term).log.snapshotIndex = m.raft.log.snapshotIndex ∧
        (m.raft.observeTerm term).log.lastIndex = m.raft.log.lastIndex ∧
        (∀ j, (m.raft.observeTerm term).log.termAt j = m.raft.log.termAt j) := by
      unfold observeTerm
      split
      · exact ⟨rfl, rfl, rfl, fun _ => rfl⟩
      · exact ⟨rfl, rfl, rfl, fun _ => rfl⟩
    obtain ⟨he, hs, hl, ht⟩ := hlog
    change Kept (m.raft.observeTerm term) ((m.raft.observeTerm term).onAppend term leader
      prevLogIndex prevLogTerm entries leaderCommit).1 idx
    refine kept_onAppend (by rw [he, hs]; exact hlen) (by rw [hl]; exact hlast) ?_
    intro hterm hprev e hmem hlive hle
    rw [ht]
    have hterm' : m.raft.currentTerm ≤ term := by
      by_contra hlt
      rw [observeTerm, if_neg (by omega)] at hterm
      exact hlt hterm
    refine hkeep hterm' ?_ e hmem idx hidx (hs ▸ hlive) hle
    rwa [prevMatches, hs, ht] at hprev

/-- Applying the commands `l` answers `c`: its client waits for the `k`-th of them,
and the reply is the one the state machine gives there. -/
def Delivers (m : CpGroup) (l : List (ℕ × Bytes)) (c : Completion) : Prop :=
  ∃ k idx command origin, l[k]? = some (idx, command) ∧
    m.pending.lookup idx = some (c.client, origin) ∧
    c.reply = ((m.sm.run ((l.take k).map Prod.snd)).apply command).2

structure Applies (m : CpGroup) (l : List (ℕ × Bytes)) (r : CpGroup × CpOut) : Prop where
  id : r.1.id = m.id
  raft : r.1.raft = m.raft
  waiting : r.1.waiting = m.waiting
  sm : r.1.sm = m.sm.run (l.map Prod.snd)
  pending : ∀ idx x, r.1.pending.lookup idx = some x →
    m.pending.lookup idx = some x ∧ idx ∉ l.map Prod.fst
  completions : ∀ c ∈ r.1.completions, c ∈ m.completions ∨ Delivers m l c
  out : ∀ o ∈ r.2, ∃ c : Completion, o.2 = .reply c.client c.reply ∧ Delivers m l c

theorem applies_one (m : CpGroup) (idx : ℕ) (command : Bytes) :
    Applies m [(idx, command)] (m.applyOne idx command) := by
  have hanswer : ∀ client origin, m.pending.lookup idx = some (client, origin) →
      Delivers m [(idx, command)] ⟨client, (m.sm.apply command).2⟩ :=
    fun client origin h => ⟨0, idx, command, origin, rfl, h, rfl⟩
  unfold CpGroup.applyOne
  dsimp only
  split
  · rename_i client origin hget
    have hpending : ∀ j x, (m.pending.erase idx).lookup j = some x →
        m.pending.lookup j = some x ∧ j ∉ [idx] := by
      intro j x hj
      obtain ⟨hne, hold⟩ := Dict.lookup_of_lookup_erase hj
      exact ⟨hold, by simpa using hne⟩
    split
    · refine ⟨rfl, rfl, rfl, rfl, hpending, fun c hc => ?_, by simp⟩
      rw [mem_append, mem_singleton] at hc
      rcases hc with hc | rfl
      · exact .inl hc
      · exact .inr (hanswer client origin hget)
    · refine ⟨rfl, rfl, rfl, rfl, hpending, fun c hc => .inl hc, fun o ho => ?_⟩
      rw [mem_singleton] at ho
      subst ho
      exact ⟨⟨client, (m.sm.apply command).2⟩, rfl, hanswer client origin hget⟩
  · rename_i hnone
    refine ⟨rfl, rfl, rfl, rfl, fun j x hj => ⟨hj, ?_⟩, fun c hc => .inl hc, by simp⟩
    simp only [map_cons, map_nil, mem_singleton]
    rintro rfl
    rw [hnone] at hj
    cases hj

theorem Applies.cons {m : CpGroup} {a : ℕ × Bytes} {l : List (ℕ × Bytes)} {r r' : CpGroup × CpOut}
    (h : Applies m [a] r) (h' : Applies r.1 l r') : Applies m (a :: l) (r'.1, r.2 ++ r'.2) := by
  -- what the first command answers, and what the others do
  have hfirst : ∀ c, Delivers m [a] c → Delivers m (a :: l) c := by
    rintro c ⟨k, idx, command, origin, hk, hp, hreply⟩
    cases k with
    | zero => exact ⟨0, idx, command, origin, hk, hp, hreply⟩
    | succ k => simp at hk
  have hlater : ∀ c, Delivers r.1 l c → Delivers m (a :: l) c := by
    rintro c ⟨k, idx, command, origin, hk, hp, hreply⟩
    refine ⟨k + 1, idx, command, origin, hk, (h.pending idx _ hp).1, ?_⟩
    rw [hreply, h.sm]
    rfl
  refine ⟨h'.id.trans h.id, h'.raft.trans h.raft, h'.waiting.trans h.waiting, ?_,
    fun idx x hx => ?_, fun c hc => ?_, fun o ho => ?_⟩
  · rw [h'.sm, h.sm]
    rfl
  · obtain ⟨hx', hnot⟩ := h'.pending idx x hx
    obtain ⟨hx'', hnot'⟩ := h.pending idx x hx'
    refine ⟨hx'', ?_⟩
    rw [map_cons, mem_cons, not_or]
    exact ⟨by simpa using hnot', hnot⟩
  · rcases h'.completions c hc with hc' | hd
    · rcases h.completions c hc' with hc'' | hd
      · exact .inl hc''
      · exact .inr (hfirst c hd)
    · exact .inr (hlater c hd)
  · rw [mem_append] at ho
    rcases ho with ho | ho
    · obtain ⟨c, hc, hd⟩ := h.out o ho
      exact ⟨c, hc, hfirst c hd⟩
    · obtain ⟨c, hc, hd⟩ := h'.out o ho
      exact ⟨c, hc, hlater c hd⟩

theorem applies_all (m : CpGroup) (l : List (ℕ × Bytes)) : Applies m l (m.applyAll l) := by
  induction l generalizing m with
  | nil => exact ⟨rfl, rfl, rfl, rfl, fun _ _ h => ⟨h, not_mem_nil⟩, fun _ h => .inl h, by
      simp [CpGroup.applyAll]⟩
  | cons a l ih => exact (applies_one m a.1 a.2).cons (ih _)

end BonsaiGrid.Cp
