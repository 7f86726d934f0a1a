import BonsaiGrid.Cp.Replies
import BonsaiGrid.Lib.Trace
import BonsaiGrid.Raft.Safety

/-!
# Members that are started again

`spawn` builds the default group, and `group_mut` a named one, over a log in memory that is empty.
A member that crashes and is started again by this code has lost its entries, its term and its
vote.
-/

namespace BonsaiGrid.Cp

open Function Raft Consensus Consensus.Replog List

section Server

variable (n : ℕ)

theorem nodup_peers (i : NodeId) (_ : i ∈ Finset.range n) : (range n).Nodup :=
  nodup_range

theorem mem_peers_iff (i : NodeId) (_ : i ∈ Finset.range n) (j : NodeId) :
    j ∈ range n ↔ j ∈ Finset.range n := by
  rw [mem_range, Finset.mem_range]

/-- The group that the server builds on each of `n` members: all of them are its peers, and its
log is in memory. -/
def serverGroup (seed : NodeId → UInt64) : Group where
  members := Finset.range n
  peers := fun _ => range n
  seed := seed
  heartbeat := fun _ => none
  durable := fun _ => false
  nodup := nodup_peers n
  mem_peers := mem_peers_iff n

end Server

/-- The members, those that are down at present, what the members that crashed had applied, and
which clients had been answered when each operation was submitted. -/
structure Lives where
  members : Members
  down : List NodeId := []
  past : List (List Entry) := []
  before : ClientId → List ClientId := fun _ => []

inductive Life where
  | call (c : CpCall)
  | crash (i : NodeId)
  | start (i : NodeId)

variable (g : Group)

def Members.reboot (s : Members) (i : NodeId) : Members :=
  { s with
    groups := update s.groups i (CpGroup.new (g.boot i (g.freshLog i) (g.seed i) (g.heartbeat i)))
    applied := update s.applied i [] }

namespace Lives

def init : Lives where
  members := Members.init g

/-- The call delivers a message to a member that is down. -/
def Lost (s : Lives) : CpCall → Prop
  | .deliver k => ∃ p ∈ s.members.flight[k]?, p.dst ∈ s.down
  | _ => False

instance (s : Lives) : ∀ c, Decidable (s.Lost c)
  | .deliver k => inferInstanceAs (Decidable (∃ p ∈ s.members.flight[k]?, p.dst ∈ s.down))
  | .submit .. | .tick _ | .takeCompletions _ => isFalse id

def callee : CpCall → Option NodeId
  | .submit i _ _ => some i
  | .deliver _ => none
  | .tick i => some i
  | .takeCompletions i => some i

def note (s : Lives) : CpCall → ClientId → List ClientId
  | .submit _ client _ => update s.before client (s.members.surfaced.map Completion.client)
  | _ => s.before

section Calls

variable [Crc32fast]

def exec (g : Group) (s : Lives) : Life → Lives
  | .call (.deliver k) =>
    if s.Lost (.deliver k) then
      { s with members := { s.members with flight := s.members.flight.eraseIdx k } }
    else { s with members := s.members.exec (.deliver k) }
  | .call c => { s with members := s.members.exec c, before := s.note c }
  | .crash i => { s with down := i :: s.down }
  | .start i =>
    { s with
      members := s.members.reboot g i
      down := s.down.erase i
      past := s.members.applied i :: s.past }

end Calls

/-- Calls are made on members that are up, and at no time is a majority down. -/
def Valid (s : Lives) : Life → Prop
  | .call c => s.members.Valid g c ∧ ∀ i ∈ callee c, i ∉ s.down
  | .crash i => i ∈ g.members ∧ i ∉ s.down ∧ 2 * (s.down.length + 1) ≤ g.members.card
  | .start i => i ∈ s.down

instance  (s : Lives) : ∀ e, Decidable (s.Valid g e)
  | .call c => inferInstanceAs (Decidable (_ ∧ ∀ _ ∈ callee c, _))
  | .crash _ => inferInstanceAs (Decidable (_ ∧ _ ∧ _ ≤ _))
  | .start i => inferInstanceAs (Decidable (i ∈ s.down))

/-- Leaders can serve the members they send to and keep pending entries, and a member is
started again only while it has nothing to lose: no entry, no term and no vote. -/
def Keeps (s : Lives) : Life → Prop
  | .call c => ¬ s.Lost c → Undisturbed s.members c
  | .crash _ => True
  | .start i =>
    (s.members.groups i).raft.log.SamePersisted (g.freshLog i) ∧
      (s.members.groups i).raft.log.term = 0 ∧ (s.members.groups i).raft.log.vote = none

instance  (s : Lives) : ∀ e, Decidable (s.Keeps g e)
  | .call c => inferInstanceAs (Decidable (¬ s.Lost c → Undisturbed s.members c))
  | .crash _ => isTrue trivial
  | .start _ => inferInstanceAs (Decidable (_ ∧ _ ∧ _))

/-- What a member has applied since it was started, at present or before it crashed. -/
def History (s : Lives) (h : List Entry) : Prop :=
  (∃ i ∈ g.members, h = s.members.applied i) ∨ h ∈ s.past

/-- The answer `c` was given by a member that had applied the operation of the client `x`
before. -/
def AnsweredAfter (s : Lives) (c : Completion) (x : ClientId) : Prop :=
  ∃ h, s.History g h ∧ ∃ k, ∃ q ∈ s.members.proposals,
    q.client = c.client ∧ h[k]? = some q.entry ∧
    c.reply = ((CpSm.run {} ((h.take k).map Entry.command)).apply q.entry.command).2 ∧
    ∃ q' ∈ s.members.proposals, q'.client = x ∧ q'.entry ∈ h.take k

/-- Every answer, surfaced or about to be, reflects the operations that had been answered when
its own was submitted. -/
def Reflects (s : Lives) : Prop :=
  ∀ c, (c ∈ s.members.surfaced ∨
      ∃ i ∈ g.members, i ∉ s.down ∧ c ∈ (s.members.groups i).completions) →
    ∀ x ∈ s.before c.client, s.AnsweredAfter g c x

end Lives

section Growth

variable [Crc32fast]

theorem Members.exec_record (s : Members) (c : CpCall) :
    (∀ j, s.applied j <+: (s.exec c).applied j) ∧ s.proposals ⊆ (s.exec c).proposals ∧
      s.surfaced ⊆ (s.exec c).surfaced := by
  cases c with
  | submit i client command =>
    exact ⟨s.applied_prefix_move i ((s.groups i).submit client command)
      ((s.groups i).proposalsFor client command) [], subset_append_left _ _,
      List.Subset.refl _⟩
  | deliver k =>
    rw [Members.exec]
    cases s.flight[k]? with
    | none => exact ⟨fun j => prefix_refl _, List.Subset.refl _, List.Subset.refl _⟩
    | some p =>
      exact ⟨Members.applied_prefix_move { s with flight := s.flight.eraseIdx k } p.dst _ _ _,
        subset_append_left _ _, List.Subset.refl _⟩
  | tick i =>
    exact ⟨fun j => Members.applied_prefix_move _ i _ _ _ j, subset_append_left _ _,
      List.Subset.refl _⟩
  | takeCompletions i =>
    exact ⟨fun j => prefix_refl _, List.Subset.refl _, subset_append_left _ _⟩

end Growth

/-- The operation of `x` has been applied, and the proposal `q` was not applied up to there. -/
def Precedes (s : Members) (x : ClientId) (q : Proposal) : Prop :=
  ∃ i ∈ g.members, ∃ k, ∃ p ∈ s.proposals,
    p.client = x ∧ (s.applied i)[k]? = some p.entry ∧ q.entry ∉ (s.applied i).take (k + 1)

section Order

variable {g : Group} {s s' : Members} {w : Cluster} {m : Record} {x : ClientId} {q : Proposal}

theorem Precedes.mono (h : Precedes g s x q) (happlied : ∀ j, s.applied j <+: s'.applied j)
    (hproposals : s.proposals ⊆ s'.proposals) : Precedes g s' x q := by
  obtain ⟨i, hi, k, p, hp, hclient, hk, hnot⟩ := h
  obtain ⟨t, ht⟩ := happlied i
  have hlt := (List.getElem?_eq_some_iff.1 hk).1
  refine ⟨i, hi, k, p, hproposals hp, hclient, ?_, ?_⟩
  · rw [← ht, List.getElem?_append_left hlt]
    exact hk
  · rw [← ht, take_append_of_le_length hlt]
    exact hnot

theorem CpInv.not_mem_applied (h : CpInv g s w m) {i : NodeId} (hi : i ∈ g.members)
    (hfresh : (m.hist q.entry.term).length < q.entry.index) : q.entry ∉ s.applied i := by
  intro hmem
  rw [h.applied i hi, mem_number] at hmem
  obtain ⟨hpos, hget⟩ := hmem
  have hlog : (m.log i)[q.entry.index - 1]? = some ⟨q.entry.term, q.entry.command⟩ := by
    have hlt := (List.getElem?_eq_some_iff.1 hget).1
    rw [length_take] at hlt
    rwa [List.getElem?_take_of_lt (by omega)] at hget
  obtain ⟨-, -, hprefix⟩ := h.rel.inv.chain_log i _ _ hlog
  have hle := hprefix.length_le
  have hlt := (List.getElem?_eq_some_iff.1 hlog).1
  rw [length_take] at hle
  dsimp only at hle
  omega

theorem CpInv.precedes_of_fresh (h : CpInv g s w m) {c : Completion} (hc : c ∈ s.surfaced)
    (hfresh : (m.hist q.entry.term).length < q.entry.index) : Precedes g s c.client q := by
  obtain ⟨p, hp, hclient, -, -, i, hi, k, hk, -, -⟩ := h.surfaced c hc
  exact ⟨i, hi, k, p, hp, hclient, hk,
    fun hmem => h.not_mem_applied hi hfresh (mem_of_mem_take hmem)⟩

theorem CpInv.applied_agree (h : CpInv g s w m) {i j : NodeId} (hi : i ∈ g.members)
    (hj : j ∈ g.members) {k : ℕ} {e f : Entry} (he : (s.applied i)[k]? = some e)
    (hf : (s.applied j)[k]? = some f) : e = f := by
  rw [h.applied i hi, getElem?_number, Option.map_eq_some_iff] at he
  rw [h.applied j hj, getElem?_number, Option.map_eq_some_iff] at hf
  obtain ⟨a, ha, rfl⟩ := he
  obtain ⟨b, hb, rfl⟩ := hf
  rw [← h.nodes] at ha hb
  rw [h.rel.applied_eq hi hj ha hb]

theorem CpInv.mem_take_of_precedes (h : CpInv g s w m) (hq : Precedes g s x q) {j : NodeId}
    (hj : j ∈ g.members) {k : ℕ} (hk : (s.applied j)[k]? = some q.entry) :
    ∃ p ∈ s.proposals, p.client = x ∧ p.entry ∈ (s.applied j).take k := by
  obtain ⟨i, hi, k', p, hp, hclient, hk', hnot⟩ := hq
  have hlt := (List.getElem?_eq_some_iff.1 hk).1
  have hlt' := (List.getElem?_eq_some_iff.1 hk').1
  refine ⟨p, hp, hclient, ?_⟩
  rcases Nat.lt_or_ge k' k with hbefore | hafter
  · have hget : (s.applied j)[k']? = some p.entry := by
      have hsome : (s.applied j)[k']? = some (s.applied j)[k'] := List.getElem?_eq_getElem _
      rw [hsome, h.applied_agree hj hi hsome hk']
    exact mem_of_getElem? ((List.getElem?_take_of_lt hbefore).trans hget)
  · have hget : (s.applied i)[k]? = some q.entry := by
      have hsome : (s.applied i)[k]? = some (s.applied i)[k] := List.getElem?_eq_getElem _
      rw [hsome, h.applied_agree hi hj hsome hk]
    refine absurd (mem_of_getElem? (i := k) ?_) hnot
    rw [List.getElem?_take_of_lt (by omega)]
    exact hget

end Order

theorem CpInv.reboot {g : Group} {s : Members} {w : Cluster} {m : Record} (h : CpInv g s w m)
    {i : NodeId} (hi : i ∈ g.members)
    (hsame : (s.groups i).raft.log.SamePersisted (g.freshLog i))
    (hterm : (s.groups i).raft.log.term = 0) (hvote : (s.groups i).raft.log.vote = none) :
    (s.reboot g i).applied = s.applied ∧ ∃ w', CpInv g (s.reboot g i) w' m := by
  have hn := h.rel.node i hi
  rw [h.nodes i] at hn
  have hlog : m.log i = [] := by
    have hentries := hn.log.entries
    rw [← hsame.1, hsame.2.1, drop_zero] at hentries
    rw [← length_eq_zero_iff, ← length_number (s := 0), ← hentries]
    rfl
  have happlied : s.applied i = [] := by
    rw [h.applied i hi, hlog, take_nil]
    rfl
  have hkeep : (s.reboot g i).applied = s.applied := by
    rw [Members.reboot, ← happlied]
    exact update_eq_self i s.applied
  have hanswered : ∀ {c}, Answered g s c → Answered g (s.reboot g i) c := by
    rintro c ⟨q, hq, hclient, hsub, huniq, j, hj, k, hrest⟩
    exact ⟨q, hq, hclient, hsub, huniq, j, hj, k, by rw [hkeep]; exact hrest⟩
  have hother : ∀ {j}, j ≠ i → (s.reboot g i).groups j = s.groups j := fun hj =>
    update_of_ne hj _ _
  have hself : (s.reboot g i).groups i =
      CpGroup.new (g.boot i (g.freshLog i) (g.seed i) (g.heartbeat i)) := update_self i _ _
  refine ⟨hkeep, _, LogRel.restart h.rel hi (?_ : (g.freshLog i).term = _) ?_ ?_ (g.seed i)
    (g.heartbeat i), fun j => ?_, fun p hp msg hm => ?_, fun j hj => ?_, fun j hj => ?_,
    fun j hj => ?_, fun j hj => ?_, h.forward, h.proposals, h.unique,
    fun c hc => hanswered (h.surfaced c hc), fun j hj => ?_,
    fun p hp client reply hm => hanswered (h.replies p hp client reply hm)⟩
  · rw [h.nodes i, hterm]
    rfl
  · rw [h.nodes i, hvote]
    rfl
  · rw [h.nodes i]
    exact hsame
  · by_cases hj : j = i
    · subst hj
      rw [hself]
      exact Cluster.put_nodes_self _ _ _
    · rw [hother hj, ← h.nodes j]
      exact Cluster.put_nodes_of_ne _ _ hj
  · exact mem_append_left _ (h.sent p hp msg hm)
  · by_cases hij : j = i
    · subst hij
      rw [hkeep, happlied, hlog, take_nil]
      rfl
    · rw [hkeep, hother hij]
      exact h.applied j hj
  · by_cases hij : j = i
    · subst hij
      rw [hkeep, happlied, hself]
      rfl
    · rw [hkeep, hother hij]
      exact h.sm j hj
  · by_cases hij : j = i
    · subst hij
      rw [hself]
      intro idx client origin hlook
      cases hlook
    · rw [hother hij]
      exact h.pending j hj
  · by_cases hij : j = i
    · subst hij
      rw [hself]
      intro o ho
      cases ho
    · rw [hother hij]
      exact h.waiting j hj
  · by_cases hij : j = i
    · subst hij
      rw [hself]
      intro c hc
      cases hc
    · rw [hother hij]
      exact fun c hc => hanswered (h.completions j hj c hc)

/-- What holds in every state of a run in which nothing is lost with a member. -/
structure LivesInv (g : Group) (s : Lives) (w : Cluster) (m : Record) : Prop where
  inv : CpInv g s.members w m
  down : ∀ i ∈ s.down, i ∈ g.members
  answered : ∀ y, ∀ x ∈ s.before y, ∃ c ∈ s.members.surfaced, c.client = x
  ordered : ∀ q ∈ s.members.proposals, ∀ x ∈ s.before q.client, Precedes g s.members x q

section Runs

variable {g : Group} {s : Lives} {w : Cluster} {m : Record}

theorem livesInv_init (g : Group) : LivesInv g (Lives.init g) (Cluster.init g) Replog.init where
  inv := cpInv_init g
  down := fun i hi => by cases hi
  answered := fun y x hx => by cases hx
  ordered := fun q hq => by cases hq

theorem LivesInv.reflects (h : LivesInv g s w m) : s.Reflects g := by
  intro c hc x hx
  have hanswered : Answered g s.members c := by
    rcases hc with hc | ⟨i, hi, -, hc⟩
    · exact h.inv.surfaced c hc
    · exact h.inv.completions i hi c hc
  obtain ⟨q, hq, hclient, -, -, i, hi, k, hk, -, hreply⟩ := hanswered
  rw [← hclient] at hx
  exact ⟨_, .inl ⟨i, hi, rfl⟩, k, q, hq, hclient, hk, hreply,
    h.inv.mem_take_of_precedes (h.ordered q hq x hx) hi hk⟩

theorem LivesInv.note_answered (h : LivesInv g s w m) (c : CpCall) {x y : ClientId}
    (hx : x ∈ s.note c y) : ∃ d ∈ s.members.surfaced, d.client = x := by
  cases c with
  | submit i client command =>
    by_cases hy : y = client
    · subst hy
      rw [Lives.note, update_self] at hx
      exact mem_map.1 hx
    · rw [Lives.note, update_of_ne hy] at hx
      exact h.answered y x hx
  | deliver k | tick i | takeCompletions i => exact h.answered y x hx

theorem LivesInv.note_of_mem (h : LivesInv g s w m) {c : CpCall} (hvalid : s.members.Valid g c)
    {q : Proposal} (hq : q ∈ s.members.proposals) : s.note c q.client = s.before q.client := by
  cases c with
  | submit i client command =>
    refine update_of_ne (fun heq => hvalid.2 ?_) _ _
    rw [← heq]
    exact mem_map_of_mem (f := Prod.fst) (h.inv.proposals q hq).1
  | deliver k | tick i | takeCompletions i => rfl

variable [Crc32fast]

theorem LivesInv.call (h : LivesInv g s w m) {c : CpCall} (hvalid : s.members.Valid g c)
    (hok : Undisturbed s.members c) :
    ∃ w' m', LivesInv g { s with members := s.members.exec c, before := s.note c } w' m' := by
  obtain ⟨w', m', h', hlater⟩ := h.inv.exec hvalid hok
  obtain ⟨happlied, hproposals, hsurfaced⟩ := s.members.exec_record c
  refine ⟨w', m', h', h.down, fun y x hx => ?_, fun q hq x hx => ?_⟩
  · obtain ⟨d, hd, hclient⟩ := h.note_answered c hx
    exact ⟨d, hsurfaced hd, hclient⟩
  · refine Precedes.mono ?_ happlied hproposals
    rcases hlater.fresh q hq with hold | hfresh
    · dsimp only at hx
      rw [h.note_of_mem hvalid hold] at hx
      exact h.ordered q hold x hx
    · obtain ⟨d, hd, rfl⟩ := h.note_answered c hx
      exact h.inv.precedes_of_fresh hd hfresh

theorem LivesInv.exec (h : LivesInv g s w m) {e : Life} (hvalid : s.Valid g e)
    (hkeeps : s.Keeps g e) : ∃ w' m', LivesInv g (s.exec g e) w' m' := by
  cases e with
  | crash i =>
    refine ⟨w, m, h.inv, fun j hj => ?_, h.answered, h.ordered⟩
    rcases mem_cons.1 hj with rfl | hj
    · exact hvalid.1
    · exact h.down j hj
  | start i =>
    obtain ⟨hsame, hterm, hvote⟩ := hkeeps
    obtain ⟨happlied, w', h'⟩ := h.inv.reboot (h.down i hvalid) hsame hterm hvote
    refine ⟨w', m, h', fun j hj => h.down j (mem_of_mem_erase hj), h.answered, ?_⟩
    exact fun q hq x hx => (h.ordered q hq x hx).mono
      (fun j => by rw [Lives.exec, happlied]) (List.Subset.refl _)
  | call c =>
    cases c with
    | deliver k =>
      by_cases hlost : s.Lost (.deliver k)
      · rw [Lives.exec, if_pos hlost]
        exact ⟨w, m, h.inv.erase k, h.down, h.answered, h.ordered⟩
      · rw [Lives.exec, if_neg hlost]
        exact h.call hvalid.1 (hkeeps hlost)
    | submit i client command | tick i | takeCompletions i => exact h.call hvalid.1 (hkeeps id)

end Runs

/-- A group as the server builds it, whose members crash and are started again: in every run in
which nothing is lost with a member, every answer reflects the operations that had been
answered when its own was submitted. -/
theorem answers_reflect [Crc32fast] (n : ℕ) (seed : NodeId → UInt64) (s : Lives)
    (h : Trace.Reaches (Lives.exec (serverGroup n seed))
      (fun s e => s.Valid (serverGroup n seed) e ∧ s.Keeps (serverGroup n seed) e)
      (Lives.init (serverGroup n seed)) s) : s.Reflects (serverGroup n seed) := by
  have hinv : ∃ w m, LivesInv (serverGroup n seed) s w m :=
    h.invariant (I := fun s => ∃ w m, LivesInv (serverGroup n seed) s w m)
      (fun s e ⟨_, _, hs⟩ he => hs.exec he.1 he.2) ⟨_, _, livesInv_init _⟩
  obtain ⟨w, m, hs⟩ := hinv
  exact hs.reflects

def threeMembers : Group := serverGroup 3 fun i => UInt64.ofNat (i + 1)

/-- Member `2` is started again before anything has happened. -/
def startedEarly : List Life :=
  [.crash 2, .start 2] ++ firstReply.map .call ++
    [.call (.takeCompletions 0), .call (.submit 0 8 (alCommand counterName (.addAndGet 1))),
      .call (.tick 0), .call (.deliver 4), .call (.deliver 5)]

set_option maxRecDepth 100000 in
theorem answers_reflect_startedEarly :
    let s := startedEarly.foldl (Lives.exec threeMembers) (Lives.init threeMembers)
    (s.members.groups 0).completions = [⟨8, .long 6⟩] ∧ s.before 8 = [7] ∧
      s.Reflects threeMembers :=
  ⟨by decide +kernel, by decide +kernel,
    answers_reflect 3 (fun i => UInt64.ofNat (i + 1)) _
      (Trace.Reaches.of_allowed startedEarly (by decide +kernel))⟩

/-- Client `7` is answered when the members `0` and `1` have its entry. -/
def startedLate : List Life :=
  firstReply.map .call ++ [.call (.takeCompletions 0), .crash 1, .start 1] ++
    replicate 15 (.call (.tick 1)) ++
    [.call (.deliver 5), .call (.deliver 5),
      .call (.submit 1 8 (alCommand counterName (.addAndGet 1))), .call (.tick 1),
      .call (.deliver 8), .call (.deliver 8)]

set_option maxRecDepth 100000 in
/-- Client `8` is answered with `1`: the `5` that client `7` has added is gone. -/
theorem answer_forgets_startedLate :
    let s := startedLate.foldl (Lives.exec threeMembers) (Lives.init threeMembers)
    Trace.Allowed (Lives.exec threeMembers) (Lives.Valid threeMembers) (Lives.init threeMembers)
        startedLate ∧
      s.members.surfaced = [⟨7, .long 5⟩] ∧ (s.members.groups 1).completions = [⟨8, .long 1⟩] ∧
      s.before 8 = [7] ∧ ¬ s.Reflects threeMembers := by
  set s := startedLate.foldl (Lives.exec threeMembers) (Lives.init threeMembers) with hs
  have hcompletions : (s.members.groups 1).completions = [⟨8, .long 1⟩] := by decide +kernel
  have hbefore : s.before 8 = [7] := by decide +kernel
  have hnever : ∀ q ∈ s.members.proposals, q.client = 8 → ∀ q' ∈ s.members.proposals,
      q'.client = 7 →
      (∀ i ∈ threeMembers.members,
        q.entry ∈ s.members.applied i → q'.entry ∉ s.members.applied i) ∧
      ∀ h ∈ s.past, q.entry ∈ h → q'.entry ∉ h := by decide +kernel
  refine ⟨by decide +kernel, by decide +kernel, hcompletions, hbefore, fun hreflects => ?_⟩
  obtain ⟨h, hhist, k, q, hq, hclient, hk, -, q', hq', hclient', hmem⟩ :=
    hreflects ⟨8, .long 1⟩ (.inr ⟨1, by decide, by decide +kernel, by
      rw [hcompletions]
      exact mem_singleton_self _⟩) 7 (by
      rw [hbefore]
      exact mem_singleton_self _)
  obtain ⟨hlive, hpast⟩ := hnever q hq hclient q' hq' hclient'
  rcases hhist with ⟨i, hi, rfl⟩ | hh
  · exact hlive i hi (mem_of_getElem? hk) (mem_of_mem_take hmem)
  · exact hpast h hh (mem_of_getElem? hk) (mem_of_mem_take hmem)

end BonsaiGrid.Cp
