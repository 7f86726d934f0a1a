import BonsaiGrid.Lib.Trace
import BonsaiGrid.Server.Ownership
import Mathlib.Data.Finset.Card
import Mathlib.Data.Set.BooleanAlgebra
import Mathlib.Order.CompletePartialOrder

/-!
# Two halves of a cluster

A member takes writes while enough members are alive in its view. The number that is enough is a
majority of the members the cluster was started with, and it stays what it is when members join
later.
-/

namespace BonsaiGrid.Membership

open MemberInfo List

variable {c : Cluster}

namespace Cluster

/-- A view whose members are distinct and in the pool, with a quorum of at least `q`. -/
structure Within (pool : Finset (ℤ × ℤ)) (q : ℕ) (c : Cluster) : Prop where
  wellFormed : c.WellFormed
  nodup : (c.members.map uuid).Nodup
  mem_pool : ∀ m ∈ c.members, m.uuid ∈ pool
  quorum : q ≤ c.quorum

namespace Within

variable {pool : Finset (ℤ × ℤ)} {q : ℕ} {c : Cluster}

theorem new {ms : List MemberInfo} (hnodup : (ms.map uuid).Nodup)
    (hpool : ∀ m ∈ ms, m.uuid ∈ pool) (backups : ℕ) (hq : q ≤ defaultQuorum ms.length) :
    Within pool q (Cluster.new ms backups (defaultQuorum ms.length)) where
  wellFormed := length_map _
  nodup := hnodup
  mem_pool := hpool
  quorum := hq.trans (le_max_left _ _)

theorem removeMemberByUuid (h : Within pool q c) (uuid : ℤ × ℤ) :
    Within pool q (c.removeMemberByUuid uuid).1 := by
  rw [Cluster.removeMemberByUuid]
  split
  · split
    · exact { h with wellFormed := (length_set).trans h.wellFormed }
    · exact h
  · exact h

theorem addMember (h : Within pool q c) {info : MemberInfo} (hinfo : info.uuid ∈ pool) :
    Within pool q (c.addMember info).1 := by
  rw [Cluster.addMember]
  split
  · split
    · exact h
    · exact { h with wellFormed := (length_set).trans h.wellFormed }
  next hnew =>
    have hfresh : info.uuid ∉ c.members.map uuid := by
      rw [mem_map]
      rintro ⟨m, hm, heq⟩
      have := findIdx?_eq_none_iff.mp hnew m hm
      simp [heq] at this
    refine { h with
      wellFormed := ?_, nodup := ?_, mem_pool := forall_mem_concat h.mem_pool hinfo }
    · have := h.wellFormed
      simp only [WellFormed, bump, length_append, length_singleton] at this ⊢
      rw [this]
    · simp only [bump, map_append, map_cons, map_nil]
      exact Pairwise.concat h.nodup fun a ha heq => hfresh (heq ▸ ha)

theorem setView (h : Within pool q c) {v : Cluster} (hv : Within pool q v) :
    Within pool q (c.setView v.generation v.members v.alive).1 := by
  rw [Cluster.setView]
  split
  · exact h
  · exact { hv with quorum := h.quorum }

end Within

theorem length_living (hc : c.WellFormed) : c.living.length = c.liveCount := by
  have hsnd : (c.members.zip c.alive).map Prod.snd = c.alive :=
    map_snd_zip (le_of_eq hc)
  calc c.living.length = ((c.members.zip c.alive).filter Prod.snd).length := length_map _
    _ = ((c.members.zip c.alive).map Prod.snd).count true := by
        rw [count, countP_map, countP_eq_length_filter]
        simp [Function.comp_def]
    _ = c.liveCount := by rw [hsnd, liveCount]

theorem living_sublist (hc : c.WellFormed) : c.living.Sublist c.members := by
  have hfst : (c.members.zip c.alive).map Prod.fst = c.members :=
    map_fst_zip (ge_of_eq hc)
  have hsub : c.living.Sublist ((c.members.zip c.alive).map Prod.fst) :=
    filter_sublist.map _
  rwa [hfst] at hsub

end Cluster

/-- The views of the members that are running, and the views that were published. -/
structure Views where
  view : ℤ × ℤ → Option Cluster
  published : List Cluster

inductive ViewEvent
  | join (who : ℤ × ℤ) (info : MemberInfo)
  | death (who uuid : ℤ × ℤ)
  | adopt (who : ℤ × ℤ) (k : ℕ)
  | start (who : ℤ × ℤ) (members : List MemberInfo) (backups : ℕ)

namespace Views

def init (ms : List MemberInfo) (backups : ℕ) : Views where
  view u :=
    if u ∈ ms.map uuid then some (.new ms backups (defaultQuorum ms.length)) else none
  published := []

def put (w : Views) (who : ℤ × ℤ) (c : Cluster) : Views :=
  { w with view := Function.update w.view who (some c) }

def publish (w : Views) (who : ℤ × ℤ) (c : Cluster) : Views :=
  { w.put who c with published := w.published ++ [c] }

/-- A member admits another one, declares one dead, adopts one of the published views, or is
started with a list of its own: a newcomer counts itself and everybody it knows. -/
def exec (w : Views) : ViewEvent → Views
  | .join who info =>
    match w.view who with
    | some c => w.publish who (c.addMember info).1
    | none => w
  | .death who uuid =>
    match w.view who with
    | some c => w.publish who (c.removeMemberByUuid uuid).1
    | none => w
  | .adopt who k =>
    match w.view who, w.published[k]? with
    | some c, some v => w.put who (c.setView v.generation v.members v.alive).1
    | _, _ => w
  | .start who members backups => w.put who (.new members backups (defaultQuorum members.length))

/-- A newcomer knows at least as many members as the cluster was started with. -/
def Sound (n : ℕ) : ViewEvent → Prop
  | .start _ members _ => n ≤ members.length ∧ (members.map uuid).Nodup
  | _ => True

instance (n : ℕ) : ∀ e, Decidable (Sound n e)
  | .start .. => inferInstanceAs (Decidable (_ ≤ _ ∧ Nodup _))
  | .join .. | .death .. | .adopt .. => isTrue trivial

/-- The members that an event brings into play are in the pool. -/
def Names (pool : Finset (ℤ × ℤ)) : ViewEvent → Prop
  | .join _ info => info.uuid ∈ pool
  | .start _ members _ => ∀ m ∈ members, m.uuid ∈ pool
  | _ => True

instance (pool : Finset (ℤ × ℤ)) : ∀ e, Decidable (Names pool e)
  | .join _ info => inferInstanceAs (Decidable (info.uuid ∈ pool))
  | .start _ members _ => inferInstanceAs (Decidable (∀ m ∈ members, m.uuid ∈ pool))
  | .death .. | .adopt .. => isTrue trivial

structure Within (pool : Finset (ℤ × ℤ)) (q : ℕ) (w : Views) : Prop where
  view : ∀ who c, w.view who = some c → c.Within pool q
  published : ∀ c ∈ w.published, c.Within pool q

namespace Within

variable {pool : Finset (ℤ × ℤ)} {q : ℕ} {w : Views}

theorem put (h : Within pool q w) (who : ℤ × ℤ) (hc : c.Within pool q) :
    Within pool q (w.put who c) where
  view u d hd := by
    simp only [Views.put, Function.update_apply] at hd
    split at hd
    · exact Option.some.inj hd ▸ hc
    · exact h.view u d hd
  published := h.published

theorem publish (h : Within pool q w) (who : ℤ × ℤ) (hc : c.Within pool q) :
    Within pool q (w.publish who c) where
  view := (h.put who hc).view
  published := forall_mem_concat h.published hc

theorem exec {n : ℕ} (h : Within pool (defaultQuorum n) w) {e : ViewEvent} (hs : Sound n e)
    (he : Names pool e) : Within pool (defaultQuorum n) (w.exec e) := by
  cases e with
  | join who info =>
    rw [Views.exec]
    split
    next c hc => exact h.publish who ((h.view who c hc).addMember he)
    next => exact h
  | death who uuid =>
    rw [Views.exec]
    split
    next c hc => exact h.publish who ((h.view who c hc).removeMemberByUuid uuid)
    next => exact h
  | adopt who k =>
    rw [Views.exec]
    split
    next c v hc hv =>
      exact h.put who ((h.view who c hc).setView (h.published v (mem_of_getElem? hv)))
    next => exact h
  | start who members backups =>
    refine h.put who (Cluster.Within.new hs.2 he backups ?_)
    have := hs.1
    unfold defaultQuorum
    omega

end Within

theorem within_init {pool : Finset (ℤ × ℤ)} {ms : List MemberInfo}
    (hnodup : (ms.map uuid).Nodup) (hpool : ∀ m ∈ ms, m.uuid ∈ pool) (backups : ℕ) :
    Within pool (defaultQuorum ms.length) (init ms backups) where
  view who c hc := by
    simp only [init] at hc
    split at hc
    · exact Option.some.inj hc ▸ Cluster.Within.new hnodup hpool backups (le_refl _)
    · simp at hc
  published c hc := by simp [init] at hc

end Views

theorem Cluster.Within.not_both_hasQuorum {pool : Finset (ℤ × ℤ)} {q : ℕ} {c d : Cluster}
    (hpool : pool.card < 2 * q) (hc : c.Within pool q) (hd : d.Within pool q)
    (hdisj : ∀ m ∈ c.living, ∀ m' ∈ d.living, m.uuid ≠ m'.uuid) :
    ¬ (c.hasQuorum ∧ d.hasQuorum) := by
  rintro ⟨hqc, hqd⟩
  have hlc : q ≤ c.living.length := by
    rw [length_living hc.wellFormed]
    exact hc.quorum.trans ((le_max_left _ _).trans (of_decide_eq_true hqc))
  have hld : q ≤ d.living.length := by
    rw [length_living hd.wellFormed]
    exact hd.quorum.trans ((le_max_left _ _).trans (of_decide_eq_true hqd))
  have hall : (c.living.map uuid ++ d.living.map uuid).Nodup := by
    refine nodup_append.mpr ⟨hc.nodup.sublist ((living_sublist hc.wellFormed).map _),
      hd.nodup.sublist ((living_sublist hd.wellFormed).map _), ?_⟩
    intro a ha b hb
    obtain ⟨m, hm, rfl⟩ := mem_map.mp ha
    obtain ⟨m', hm', rfl⟩ := mem_map.mp hb
    exact hdisj m hm m' hm'
  have hsub : (c.living.map uuid ++ d.living.map uuid).toFinset ⊆ pool := by
    intro u hu
    rw [mem_toFinset, mem_append, mem_map, mem_map] at hu
    rcases hu with ⟨m, hm, rfl⟩ | ⟨m, hm, rfl⟩
    · exact hc.mem_pool m ((living_sublist hc.wellFormed).subset hm)
    · exact hd.mem_pool m ((living_sublist hd.wellFormed).subset hm)
  have hcard := Finset.card_le_card hsub
  rw [toFinset_card_of_nodup hall, length_append, length_map, length_map]
    at hcard
  omega

/-- In a cluster in which fewer members than twice the quorum are ever named, no two groups of
members that see only their own members alive have both a member with a quorum. -/
theorem no_split_brain (ms : List MemberInfo) (backups : ℕ) (pool : Finset (ℤ × ℤ))
    (hms : (ms.map uuid).Nodup) (hin : ∀ m ∈ ms, m.uuid ∈ pool)
    (hpool : pool.card < 2 * defaultQuorum ms.length) (w : Views)
    (h : Trace.Reaches Views.exec (fun _ e => Views.Sound ms.length e ∧ Views.Names pool e)
      (Views.init ms backups) w)
    (A B : Set (ℤ × ℤ)) (hdisj : Disjoint A B)
    (hA : ∀ i ∈ A, ∀ c, w.view i = some c → ∀ m ∈ c.living, m.uuid ∈ A)
    (hB : ∀ i ∈ B, ∀ c, w.view i = some c → ∀ m ∈ c.living, m.uuid ∈ B) :
    ¬ ((∃ i ∈ A, ∃ c, w.view i = some c ∧ c.hasQuorum) ∧
      ∃ j ∈ B, ∃ d, w.view j = some d ∧ d.hasQuorum) := by
  rintro ⟨⟨i, hi, c, hc, hqc⟩, j, hj, d, hd, hqd⟩
  have hw : w.Within pool (defaultQuorum ms.length) :=
    h.invariant (I := Views.Within pool (defaultQuorum ms.length))
      (fun _ _ hw he => hw.exec he.1 he.2) (Views.within_init hms hin backups)
  refine (hw.view i c hc).not_both_hasQuorum hpool (hw.view j d hd) ?_ ⟨hqc, hqd⟩
  intro m hm m' hm' heq
  exact Set.disjoint_left.mp hdisj (hA i hi c hc m hm) (heq ▸ hB j hj d hd m' hm')

/-- Two members are started and a third one joins; the views are adopted, and then the second
member is cut off from the two others. -/
def cutOff : List ViewEvent :=
  [.start (1, 3) (bootstrapMembers 3) 1, .join (1, 1) ⟨(1, 3), loopback, 5703, 7703, 0⟩,
    .adopt (1, 2) 0, .adopt (1, 3) 0, .death (1, 1) (1, 2), .adopt (1, 3) 1,
    .death (1, 2) (1, 1), .death (1, 2) (1, 3)]

def afterCutOff : Views := cutOff.foldl Views.exec (Views.init (bootstrapMembers 2) 1)

/-- The two keep a quorum, and the third has none. -/
theorem no_split_brain_pair :
    (afterCutOff.view (1, 1)).map Cluster.hasQuorum = some true ∧
    ¬ ((∃ i ∈ ({(1, 1), (1, 3)} : Set (ℤ × ℤ)), ∃ c,
        afterCutOff.view i = some c ∧ c.hasQuorum) ∧
      ∃ j ∈ ({(1, 2)} : Set (ℤ × ℤ)), ∃ d, afterCutOff.view j = some d ∧ d.hasQuorum) := by
  refine ⟨by decide +kernel, ?_⟩
  refine no_split_brain (bootstrapMembers 2) 1 {(1, 1), (1, 2), (1, 3)} (by decide) (by decide)
    (by decide) _ (Trace.Reaches.of_allowed _ (by decide)) {(1, 1), (1, 3)} {(1, 2)} (by simp) ?_ ?_
  · rintro _ (rfl | rfl) c hc m hm
    all_goals
      obtain rfl := Option.some.inj hc
      revert m
      decide
  · rintro _ rfl c hc m hm
    obtain rfl := Option.some.inj hc
    revert m
    decide

/-- Two members are started and two more join, the quorum being two all the time. -/
def halves : List ViewEvent :=
  [.start (1, 3) (bootstrapMembers 3) 1, .start (1, 4) (bootstrapMembers 4) 1,
    .join (1, 1) ⟨(1, 3), loopback, 5703, 7703, 0⟩, .join (1, 1) ⟨(1, 4), loopback, 5704, 7704, 0⟩,
    .adopt (1, 2) 1, .adopt (1, 3) 1, .adopt (1, 4) 1,
    .death (1, 1) (1, 2), .death (1, 1) (1, 4), .adopt (1, 3) 3,
    .death (1, 2) (1, 1), .death (1, 2) (1, 3), .adopt (1, 4) 5]

def seenAlive (who : ℤ × ℤ) : Option (List (ℤ × ℤ) × Bool) :=
  ((halves.foldl Views.exec (Views.init (bootstrapMembers 2) 1)).view who).map fun c =>
    (c.living.map uuid, c.hasQuorum)

theorem split_brain_of_joins :
    Trace.Reaches Views.exec (fun _ e => Views.Sound 2 e) (Views.init (bootstrapMembers 2) 1)
      (halves.foldl Views.exec (Views.init (bootstrapMembers 2) 1)) ∧
    seenAlive (1, 1) = some ([(1, 1), (1, 3)], true) ∧
    seenAlive (1, 3) = some ([(1, 1), (1, 3)], true) ∧
    seenAlive (1, 2) = some ([(1, 2), (1, 4)], true) ∧
    seenAlive (1, 4) = some ([(1, 2), (1, 4)], false) := by
  refine ⟨Trace.Reaches.of_allowed _ (by decide), ?_⟩
  decide +kernel

end BonsaiGrid.Membership
