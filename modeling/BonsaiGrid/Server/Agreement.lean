import BonsaiGrid.Server.Coordinator

/-!
# Views of one generation

A view is known by its generation. A member takes over a view only if its generation is higher than
that of its own, and every change that a member decides on itself counts the generation up.

If only members with the latest generation decide on changes, a generation stands for one view.
-/

namespace BonsaiGrid.Membership

open MemberRec List

abbrev Version := ℕ × List MemberInfo × List Bool

namespace Cluster

def version (c : Cluster) : Version := (c.generation, c.members, c.alive)

theorem owner_congr {c d : Cluster} (hm : c.members = d.members) (ha : c.alive = d.alive)
    (p : ℤ) : c.owner p = d.owner p := by
  simp only [owner, hm, ha]

theorem backupsOf_congr {c d : Cluster} (hm : c.members = d.members) (ha : c.alive = d.alive)
    (hb : c.backups = d.backups) (p : ℤ) : c.backupsOf p = d.backupsOf p := by
  have hlives : c.lives = d.lives := by
    funext i
    rw [lives, lives, ha]
  rw [backupsOf_eq, backupsOf_eq, owner_congr hm ha, hm, hlives, hb, liveCount, liveCount, ha]

structure Advances (c d : Cluster) : Prop where
  generation : c.generation < d.generation
  backups : d.backups = c.backups
  wellFormed : c.WellFormed → d.WellFormed

theorem addMember_advances (c : Cluster) (info : MemberInfo) :
    (c.addMember info).1 = c ∧ (∃ i, c.indexOfUuid info.uuid = some i ∧ c.lives i) ∨
      c.Advances (c.addMember info).1 := by
  rw [addMember]
  split
  next i hi =>
    split
    next hl => exact .inl ⟨rfl, i, hi, decide_eq_true hl⟩
    next =>
      exact .inr ⟨Nat.lt_succ_self _, rfl, fun h => (length_set).trans h⟩
  next =>
    refine .inr ⟨Nat.lt_succ_self _, rfl, fun h => ?_⟩
    simp only [WellFormed, bump, length_append, length_singleton] at h ⊢
    rw [h]

theorem removeMemberByUuid_advances (c : Cluster) (uuid : ℤ × ℤ) :
    (c.removeMemberByUuid uuid).1 = c ∨ c.Advances (c.removeMemberByUuid uuid).1 := by
  rw [removeMemberByUuid]
  split
  · split
    · exact .inr ⟨Nat.lt_succ_self _, rfl, fun h => (length_set).trans h⟩
    · exact .inl rfl
  · exact .inl rfl

theorem Advances.trans {a b c : Cluster} (h : a.Advances b) (h' : b.Advances c) : a.Advances c :=
  ⟨h.generation.trans h'.generation, h'.backups.trans h.backups,
    fun ha => h'.wellFormed (h.wellFormed ha)⟩

end Cluster

namespace Coordinator

theorem fst_removeAll (cluster : Cluster) (uuids : List (ℤ × ℤ)) :
    (removeAll cluster uuids).1 = cluster.removeMembers uuids := by
  rw [removeAll, Cluster.removeMembers]
  generalize false = flag
  induction uuids generalizing cluster flag with
  | nil => rfl
  | cons uuid uuids ih =>
    exact ih _ _

theorem removeMembers_advances (cluster : Cluster) (uuids : List (ℤ × ℤ)) :
    cluster.removeMembers uuids = cluster ∨ cluster.Advances (cluster.removeMembers uuids) := by
  induction uuids generalizing cluster with
  | nil => exact .inl rfl
  | cons uuid uuids ih =>
    have hrest : cluster.removeMembers (uuid :: uuids) =
      (cluster.removeMemberByUuid uuid).1.removeMembers uuids := rfl
    rw [hrest]
    rcases cluster.removeMemberByUuid_advances uuid with hone | hone
    · rw [hone]
      exact ih cluster
    · rcases ih (cluster.removeMemberByUuid uuid).1 with htwo | htwo
      · rw [htwo]
        exact .inr hone
      · exact .inr (hone.trans htwo)

variable (c : Coordinator)

/-- The next tick finds somebody to declare dead, and the member counts itself as the master
that is left. -/
def Declares : Prop :=
  let c := { c with tick := c.tick + 1 }
  c.hbTimeout < c.tick ∧ c.suspects ≠ [] ∧
    c.masterAfterRemoving c.suspects = some c.selfUuid

instance  : Decidable c.Declares :=
  inferInstanceAs (Decidable (_ ∧ _ ∧ _))

/-- The member counts itself as the master and does not know the other one as alive. -/
def Admits (uuid : ℤ × ℤ) : Prop :=
  c.isMaster ∧ ∀ i, c.cluster.indexOfUuid uuid = some i → ¬ c.cluster.lives i

instance  (uuid : ℤ × ℤ) : Decidable (c.Admits uuid) :=
  decidable_of_iff (c.isMaster ∧ (c.cluster.indexOfUuid uuid).all fun i => !c.cluster.lives i)
    (by simp [Admits, Option.all_eq_true])

/-- The views among the messages are the view that the member has. -/
def Publishes (out : List (ℕ × Msg)) : Prop :=
  ∀ i generation members, (i, .memberView generation members) ∈ out →
    generation = c.cluster.generation ∧ members = c.recs

theorem publishes_nil : c.Publishes [] := fun _ _ _ h => by simp at h

theorem publishes_broadcastView : c.Publishes c.broadcastView := by
  intro i generation members h
  obtain ⟨_, _, heq⟩ := mem_map.mp h
  cases heq
  exact ⟨rfl, rfl⟩

theorem onJoin_spec (info : MemberInfo) :
    ((c.onJoin info).1.cluster = c.cluster ∨
      c.Admits info.uuid ∧ c.cluster.Advances (c.onJoin info).1.cluster) ∧
    (c.onJoin info).1.Publishes (c.onJoin info).2 := by
  rw [onJoin]
  split
  next => exact ⟨.inl rfl, publishes_nil c⟩
  next hmaster =>
    refine ⟨?_, publishes_broadcastView _⟩
    rcases c.cluster.addMember_advances info with ⟨hsame, _⟩ | hadv
    · exact .inl hsame
    · by_cases hadmits : c.Admits info.uuid
      · exact .inr ⟨hadmits, hadv⟩
      · refine .inl ?_
        have hm : c.isMaster := by simpa using hmaster
        simp only [Admits, hm, true_and, not_forall, not_not] at hadmits
        obtain ⟨i, hi, hl⟩ := hadmits
        have hset : c.cluster.alive[i]? = some true := of_decide_eq_true hl
        simp only [Cluster.addMember, hi, hset, if_true]

theorem cluster_onView (generation : ℕ) (members : List MemberRec) :
    (c.onView generation members).cluster = c.cluster ∨
      c.cluster.generation < generation ∧
        (c.onView generation members).cluster.version =
          (generation, members.map info, members.map alive) ∧
        (c.onView generation members).cluster.backups = c.cluster.backups := by
  rw [onView, Cluster.setView]
  by_cases hle : generation ≤ c.cluster.generation
  · rw [if_pos hle]
    exact .inl rfl
  · rw [if_neg hle]
    refine .inr ⟨by omega, ?_⟩
    dsimp only
    split
    · exact ⟨rfl, rfl⟩
    · exact ⟨rfl, rfl⟩

theorem cluster_beat : c.beat.1.cluster = c.cluster := by
  rw [beat]
  split
  · rfl
  · rfl

theorem publishes_beat (c d : Coordinator) : d.Publishes c.beat.2 := by
  intro i generation members h
  rw [beat] at h
  split at h
  · rcases mem_append.mp h with h | h
    · obtain ⟨_, _, heq⟩ := mem_map.mp h
      cases heq
    · split at h
      · cases mem_singleton.mp h
      · simp at h
  · simp at h

theorem detect_beat :
    (c.beat.1.hbTimeout < c.beat.1.tick ∧ c.beat.1.suspects ≠ [] ∧
      c.beat.1.masterAfterRemoving c.beat.1.suspects = some c.beat.1.selfUuid) ↔
    (c.hbTimeout < c.tick ∧ c.suspects ≠ [] ∧
      c.masterAfterRemoving c.suspects = some c.selfUuid) := by
  rw [beat]
  split
  · rfl
  · rfl

theorem detect_spec :
    (c.detect.1.cluster = c.cluster ∨
      (c.hbTimeout < c.tick ∧ c.suspects ≠ [] ∧
        c.masterAfterRemoving c.suspects = some c.selfUuid) ∧
      c.cluster.Advances c.detect.1.cluster) ∧
    c.detect.1.Publishes c.detect.2 := by
  have hstay : (c.cluster = c.cluster ∨
      (c.hbTimeout < c.tick ∧ c.suspects ≠ [] ∧
        c.masterAfterRemoving c.suspects = some c.selfUuid) ∧
      c.cluster.Advances c.cluster) ∧ c.Publishes [] := ⟨.inl rfl, publishes_nil c⟩
  rw [detect]
  split
  · exact hstay
  next htime =>
    split
    · exact hstay
    next hsus =>
      split
      · exact hstay
      next hmaster =>
        dsimp only
        split
        · exact hstay
        next =>
          refine ⟨?_, publishes_broadcastView _⟩
          rw [fst_removeAll]
          rcases removeMembers_advances c.cluster c.suspects with hsame | hadv
          · exact .inl hsame
          · exact .inr ⟨⟨by omega, hsus, not_not.mp hmaster⟩, hadv⟩

theorem onTick_spec :
    (c.onTick.1.cluster = c.cluster ∨ c.Declares ∧ c.cluster.Advances c.onTick.1.cluster) ∧
    c.onTick.1.Publishes c.onTick.2 := by
  have hcluster := cluster_beat { c with tick := c.tick + 1 }
  obtain ⟨hmoves, hpub⟩ := detect_spec { c with tick := c.tick + 1 }.beat.1
  constructor
  · rcases hmoves with hsame | ⟨hdecl, hadv⟩
    · exact .inl (hsame.trans hcluster)
    · refine .inr ⟨(detect_beat _).mp hdecl, ?_⟩
      rw [hcluster] at hadv
      exact hadv
  · intro i generation members h
    rcases mem_append.mp h with h | h
    · exact publishes_beat _ _ i generation members h
    · exact hpub i generation members h

/-! ### What a change tells -/

end Coordinator

namespace Network

/-- The versions that the members have or that are on their way. -/
def Known (w : Network) (v : Version) : Prop :=
  (∃ i, v = (w.nodes i).cluster.version) ∨
    ∃ i generation members, (i, .memberView generation members) ∈ w.sent ∧
      v = (generation, members.map info, members.map alive)

/-- No member has a later generation than the member `i`. -/
def Latest (w : Network) (i : ℕ) : Prop :=
  ∀ j, (w.nodes j).cluster.generation ≤ (w.nodes i).cluster.generation

/-- A member that changes its view by its own decision has the latest generation. -/
def Led (w : Network) : NetworkEvent → Prop
  | .tick i => (w.nodes i).Declares → w.Latest i
  | .deliver k =>
    match w.sent[k]? with
    | some (i, .joinRequest uuid _ _ _) => (w.nodes i).Admits uuid → w.Latest i
    | _ => True

/-- Versions of one generation are the same, and no view on its way is later than all members. -/
structure Agreed (backups : ℕ) (w : Network) : Prop where
  wellFormed : ∀ i, (w.nodes i).cluster.WellFormed
  backups : ∀ i, (w.nodes i).cluster.backups = backups
  overtaken : ∀ v, w.Known v → ∃ i, v.1 ≤ (w.nodes i).cluster.generation
  agree : ∀ v v', w.Known v → w.Known v' → v.1 = v'.1 → v = v'

variable {w : Network} {backups : ℕ} {c : Coordinator}

theorem version_recs (hc : c.cluster.WellFormed) :
    (c.cluster.generation, c.recs.map info, c.recs.map alive) =
      c.cluster.version := by
  have hmembers : c.recs.map info = c.cluster.members := by
    rw [Coordinator.recs, map_map]
    exact map_fst_zip (ge_of_eq hc)
  have halive : c.recs.map alive = c.cluster.alive := by
    rw [Coordinator.recs, map_map]
    exact map_snd_zip (le_of_eq hc)
  rw [hmembers, halive, Cluster.version]

@[simp] theorem nodes_put_self (w : Network) (i : ℕ) (c : Coordinator) (out : List (ℕ × Msg)) :
    (w.put i c out).nodes i = c := Function.update_self _ _ _

theorem nodes_put_of_ne (w : Network) {i j : ℕ} (hj : j ≠ i) (c : Coordinator)
    (out : List (ℕ × Msg)) : (w.put i c out).nodes j = w.nodes j := Function.update_of_ne hj _ _

theorem Agreed.put (h : Agreed backups w) {i : ℕ} {out : List (ℕ × Msg)}
    (hwf : c.cluster.WellFormed) (hbackups : c.cluster.backups = backups)
    (hgen : (w.nodes i).cluster.generation ≤ c.cluster.generation)
    (hnew : w.Known c.cluster.version ∨ ∀ v, w.Known v → v.1 < c.cluster.generation)
    (hout : c.Publishes out) : Agreed backups (w.put i c out) := by
  have hknown : ∀ v, (w.put i c out).Known v → w.Known v ∨ v = c.cluster.version := by
    rintro v (⟨j, rfl⟩ | ⟨j, generation, members, hmem, rfl⟩)
    · by_cases hj : j = i
      · right
        rw [hj, nodes_put_self]
      · left
        rw [nodes_put_of_ne w hj]
        exact .inl ⟨j, rfl⟩
    · rcases mem_append.mp hmem with hmem | hmem
      · exact .inl (.inr ⟨j, generation, members, hmem, rfl⟩)
      · obtain ⟨rfl, rfl⟩ := hout j generation members hmem
        exact .inr (version_recs hwf)
  refine ⟨fun j => ?_, fun j => ?_, fun v hv => ?_, fun v v' hv hv' heq => ?_⟩
  · by_cases hj : j = i
    · rw [hj, nodes_put_self]
      exact hwf
    · rw [nodes_put_of_ne w hj]
      exact h.wellFormed j
  · by_cases hj : j = i
    · rw [hj, nodes_put_self]
      exact hbackups
    · rw [nodes_put_of_ne w hj]
      exact h.backups j
  · rcases hknown v hv with hv | rfl
    · obtain ⟨j, hj⟩ := h.overtaken v hv
      by_cases hji : j = i
      · refine ⟨i, ?_⟩
        rw [nodes_put_self]
        exact (hji ▸ hj).trans hgen
      · refine ⟨j, ?_⟩
        rw [nodes_put_of_ne w hji]
        exact hj
    · exact ⟨i, by rw [nodes_put_self]; exact le_refl _⟩
  · rcases hnew with hnew | hnew
    · refine h.agree v v' ?_ ?_ heq
      · rcases hknown v hv with hv | rfl
        · exact hv
        · exact hnew
      · rcases hknown v' hv' with hv' | rfl
        · exact hv'
        · exact hnew
    · rcases hknown v hv with hv | rfl
      · rcases hknown v' hv' with hv' | rfl
        · exact h.agree v v' hv hv' heq
        · exact absurd heq (hnew v hv).ne
      · rcases hknown v' hv' with hv' | rfl
        · exact absurd heq.symm (hnew v' hv').ne
        · rfl

theorem Agreed.advance (h : Agreed backups w) {i : ℕ} {out : List (ℕ × Msg)}
    (hmoves : c.cluster = (w.nodes i).cluster ∨
      w.Latest i ∧ (w.nodes i).cluster.Advances c.cluster)
    (hout : c.Publishes out) : Agreed backups (w.put i c out) := by
  rcases hmoves with hsame | ⟨hlatest, hadv⟩
  · refine h.put ?_ ?_ ?_ (.inl ?_) hout
    · exact hsame ▸ h.wellFormed i
    · exact hsame ▸ h.backups i
    · rw [hsame]
    · rw [hsame]
      exact .inl ⟨i, rfl⟩
  · refine h.put (hadv.wellFormed (h.wellFormed i)) (hadv.backups.trans (h.backups i))
      (le_of_lt hadv.generation) (.inr fun v hv => ?_) hout
    obtain ⟨j, hj⟩ := h.overtaken v hv
    exact (hj.trans (hlatest j)).trans_lt hadv.generation

theorem Agreed.exec (h : Agreed backups w) {e : NetworkEvent} (he : w.Led e) :
    Agreed backups (w.exec e) := by
  cases e with
  | tick i =>
    obtain ⟨hmoves, hout⟩ := (w.nodes i).onTick_spec
    refine h.advance ?_ hout
    rcases hmoves with hsame | ⟨hdecl, hadv⟩
    · exact .inl hsame
    · exact .inr ⟨he hdecl, hadv⟩
  | deliver k =>
    rw [Network.exec]
    split
    next i msg hk =>
      cases msg with
      | heartbeat fromJoinId generation =>
        exact h.advance (.inl rfl) (Coordinator.publishes_nil _)
      | joinRequest uuid host clientPort memberPort =>
        obtain ⟨hmoves, hout⟩ :=
          (w.nodes i).onJoin_spec ⟨uuid, host, clientPort, memberPort, 0⟩
        refine h.advance ?_ hout
        rcases hmoves with hsame | ⟨hadm, hadv⟩
        · exact .inl hsame
        · simp only [Led, hk] at he
          exact .inr ⟨he hadm, hadv⟩
      | memberView generation members =>
        rcases (w.nodes i).cluster_onView generation members with
          hsame | ⟨hlt, hversion, hbackups⟩
        · exact h.advance (.inl hsame) (Coordinator.publishes_nil _)
        · have hknown : w.Known
              (generation, members.map info, members.map alive) :=
            Or.inr ⟨i, generation, members, mem_of_getElem? hk, rfl⟩
          obtain ⟨hgen, hmembers, halive⟩ :
              ((w.nodes i).onView generation members).cluster.generation = generation ∧
              ((w.nodes i).onView generation members).cluster.members =
                members.map info ∧
              ((w.nodes i).onView generation members).cluster.alive =
                members.map alive := by
            simpa only [Cluster.version, Prod.mk.injEq] using hversion
          refine h.put ?_ (hbackups.trans (h.backups i)) ?_ (.inl ?_)
            (Coordinator.publishes_nil _)
          · change _ = _
            rw [halive, hmembers, length_map, length_map]
          · rw [hgen]
            exact le_of_lt hlt
          · exact hversion ▸ hknown
    next => exact h

theorem cluster_init (bootstrap : Cluster)
    (start : ℕ → (ℤ × ℤ) × ℕ × ℕ × Option MemberInfo) (i : ℕ) :
    ((init bootstrap start).nodes i).cluster = bootstrap := by
  simp only [init]
  split
  · rfl
  · rfl

theorem agreed_init {bootstrap : Cluster} (hb : bootstrap.WellFormed)
    (start : ℕ → (ℤ × ℤ) × ℕ × ℕ × Option MemberInfo) :
    Agreed bootstrap.backups (init bootstrap start) := by
  have hknown : ∀ v, (init bootstrap start).Known v → v = bootstrap.version := by
    rintro v (⟨i, rfl⟩ | ⟨i, generation, members, hmem, _⟩)
    · rw [cluster_init]
    · simp [init] at hmem
  refine ⟨fun i => ?_, fun i => ?_, fun v hv => ?_, fun v v' hv hv' _ => ?_⟩
  · rw [cluster_init]
    exact hb
  · rw [cluster_init]
  · refine ⟨0, ?_⟩
    rw [hknown v hv, cluster_init]
    exact le_refl _
  · rw [hknown v hv, hknown v' hv']

/-- In every run in which only members with the latest generation change their views by their
own decision, two members with the same generation have the same members with the same flags,
and so the same owners and backups. -/
theorem view_agreement (bootstrap : Cluster) (hb : bootstrap.WellFormed)
    (start : ℕ → (ℤ × ℤ) × ℕ × ℕ × Option MemberInfo) (w : Network)
    (h : Trace.Reaches exec Led (init bootstrap start) w) (i j : ℕ)
    (hij : (w.nodes i).cluster.generation = (w.nodes j).cluster.generation) :
    (w.nodes i).cluster.members = (w.nodes j).cluster.members ∧
      (w.nodes i).cluster.alive = (w.nodes j).cluster.alive ∧
      ∀ p, (w.nodes i).cluster.owner p = (w.nodes j).cluster.owner p ∧
        (w.nodes i).cluster.backupsOf p = (w.nodes j).cluster.backupsOf p := by
  have hw : Agreed bootstrap.backups w :=
    h.invariant (I := Agreed bootstrap.backups) (fun _ _ hw he => hw.exec he)
      (agreed_init hb start)
  have hversion := hw.agree _ _ (.inl ⟨i, rfl⟩) (.inl ⟨j, rfl⟩) hij
  obtain ⟨_, hmembers, halive⟩ :
      (w.nodes i).cluster.generation = (w.nodes j).cluster.generation ∧
      (w.nodes i).cluster.members = (w.nodes j).cluster.members ∧
      (w.nodes i).cluster.alive = (w.nodes j).cluster.alive := by
    simpa only [Cluster.version, Prod.mk.injEq] using hversion
  refine ⟨hmembers, halive, fun p => ⟨Cluster.owner_congr hmembers halive p, ?_⟩⟩
  exact Cluster.backupsOf_congr hmembers halive ((hw.backups i).trans (hw.backups j).symm) p

def trio : Network := init (.new (bootstrapMembers 3) 1 2) fun i => ((1, i + 1), 1, 1, none)

def oneMaster : List NetworkEvent := [.tick 2, .deliver 0, .tick 0, .tick 0, .deliver 6]

theorem view_agreement_oneMaster :
    ((oneMaster.foldl exec trio).nodes 0).cluster.alive = [true, true, false] ∧
      ((oneMaster.foldl exec trio).nodes 0).cluster.alive =
        ((oneMaster.foldl exec trio).nodes 1).cluster.alive := by
  refine ⟨by decide +kernel, (view_agreement (.new (bootstrapMembers 3) 1 2) (by decide)
    (fun i => ((1, i + 1), 1, 1, none)) _ (Trace.Reaches.of_allowed oneMaster ?_) 0 1
    (by decide +kernel)).2.1⟩
  refine ⟨fun h => absurd h (by decide +kernel), trivial, fun h => absurd h (by decide +kernel),
    fun _ j => ?_, trivial, trivial⟩
  rcases j with _ | _ | _ | j
  · decide +kernel
  · decide +kernel
  · decide +kernel
  · exact le_refl 1

/-- The first member hears the third one once and the second one hears the first one once; then
each takes the one it has heard for dead, and both count themselves as the master. -/
def twoMasters : List NetworkEvent :=
  [.tick 2, .deliver 0, .tick 0, .deliver 2, .tick 0, .tick 1, .tick 1]

theorem view_disagreement :
    Trace.Reaches exec (fun _ _ => True) trio (twoMasters.foldl exec trio) ∧
    ((twoMasters.foldl exec trio).nodes 0).cluster.generation = 2 ∧
    ((twoMasters.foldl exec trio).nodes 1).cluster.generation = 2 ∧
    ((twoMasters.foldl exec trio).nodes 0).cluster.alive = [true, true, false] ∧
    ((twoMasters.foldl exec trio).nodes 1).cluster.alive = [false, true, true] := by
  refine ⟨Trace.Reaches.of_allowed _ ?_, ?_⟩
  · exact ⟨trivial, trivial, trivial, trivial, trivial, trivial, trivial, trivial⟩
  · decide +kernel

end Network

end BonsaiGrid.Membership
