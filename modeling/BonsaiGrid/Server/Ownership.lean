import BonsaiGrid.Lib.Ring
import BonsaiGrid.Server.Membership

/-!
# The holders of a partition

The owner of a partition and its backups are the first living members from the home of the
partition on, one more than the number of backups.
-/

variable (c : Cluster)

namespace BonsaiGrid.Membership.Cluster

open List

def WellFormed : Prop := c.alive.length = c.members.length

instance  : Decidable c.WellFormed :=
  inferInstanceAs (Decidable (c.alive.length = c.members.length))

def lives (i : ℕ) : Bool := c.alive[i]? = some true

def home (partition : ℤ) : ℕ := (partition % c.members.length).toNat

def row (partition : ℤ) : List ℕ :=
  (Ring.walk c.members.length (c.home partition)).filter c.lives

def holders (partition : ℤ) : List ℕ := c.owner partition :: c.backupsOf partition

variable {c c' : Cluster} {p : ℤ} {i : ℕ}

theorem WellFormed.lt_of_lives (hc : c.WellFormed) (h : c.lives i) :
    i < c.members.length := by
  rw [← hc]
  have hi : c.alive[i]? = some true := of_decide_eq_true h
  exact (List.getElem?_eq_some_iff.mp hi).1

theorem mem_row (hc : c.WellFormed) : i ∈ c.row p ↔ c.lives i := by
  rw [row, mem_filter, Ring.mem_walk]
  exact ⟨And.right, fun h => ⟨hc.lt_of_lives h, h⟩⟩

theorem nodup_row (c : Cluster) (p : ℤ) : (c.row p).Nodup := (Ring.nodup_walk _ _).filter _

theorem length_row (hc : c.WellFormed) (p : ℤ) : (c.row p).length = c.liveCount := by
  have hflags : c.alive = (range c.members.length).map c.lives := by
    apply ext_getElem
    · rw [length_map, length_range]
      exact hc
    · intro i hi _
      simp [lives, getElem?_eq_getElem hi]
  calc (c.row p).length = ((range c.members.length).filter c.lives).length :=
        ((Ring.walk_perm _ _).filter _).length_eq
    _ = ((range c.members.length).map c.lives).count true := by
        rw [count, countP_map, countP_eq_length_filter]
        simp [Function.comp_def]
    _ = c.liveCount := by rw [← hflags, liveCount]

theorem owner_eq (c : Cluster) (p : ℤ) :
    c.owner p = ((Ring.walk c.members.length (c.home p)).find? c.lives).getD (c.home p) := rfl

theorem backupsFrom_eq (c : Cluster) (owner want : ℕ) (js out : List ℕ) :
    c.backupsFrom owner want js out = out ++
      ((js.map fun j => (owner + j) % c.members.length).filter c.lives).take
        (want - out.length) := by
  induction js generalizing out with
  | nil => simp [backupsFrom]
  | cons j js ih =>
    rw [backupsFrom, map_cons]
    split
    next hlen =>
      rw [ih]
      cases hj : c.lives ((owner + j) % c.members.length) with
      | true =>
        have hset : c.alive[(owner + j) % c.members.length]? = some true :=
          of_decide_eq_true hj
        rw [if_pos hset, filter_cons_of_pos hj, length_append, length_singleton,
          append_assoc]
        obtain ⟨k, hk⟩ : ∃ k, want - out.length = k + 1 := ⟨want - out.length - 1, by omega⟩
        rw [hk, show want - (out.length + 1) = k by omega]
        rfl
      | false =>
        have hset : ¬ c.alive[(owner + j) % c.members.length]? = some true :=
          of_decide_eq_false hj
        rw [if_neg hset, filter_cons_of_neg (by simp [hj])]
    next hlen =>
      rw [show want - out.length = 0 by omega]
      simp

theorem backupsOf_eq (c : Cluster) (p : ℤ) :
    c.backupsOf p = ((Ring.after c.members.length (c.owner p)).filter c.lives).take
      (min c.backups (c.liveCount - 1)) := by
  rw [backupsOf, backupsFrom_eq]
  simp [Ring.after, Function.comp_def]

theorem nodup_backupsOf (c : Cluster) (p : ℤ) : (c.backupsOf p).Nodup := by
  rw [backupsOf_eq]
  exact ((Ring.nodup_after _ _).filter _).sublist (take_sublist _ _)

theorem backupsOf_eq_nil (h : c.backups = 0) (p : ℤ) : c.backupsOf p = [] := by
  rw [backupsOf_eq, h, Nat.zero_min, take_zero]

section

variable (hc : c.WellFormed) (hlive : 0 < c.liveCount)

include hc hlive

theorem row_eq_cons (p : ℤ) :
    c.row p = c.owner p :: (Ring.after c.members.length (c.owner p)).filter c.lives := by
  have hrow : c.row p ≠ [] := by
    rw [← length_pos_iff, length_row hc]
    exact hlive
  cases hfind : (Ring.walk c.members.length (c.home p)).find? c.lives with
  | none =>
    refine absurd ?_ hrow
    rw [row, filter_eq_nil_iff]
    exact find?_eq_none.mp hfind
  | some i =>
    rw [owner_eq, hfind]
    exact Ring.filter_walk hfind

theorem holders_eq (p : ℤ) :
    c.holders p = (c.row p).take (c.backups + 1) := by
  have hlen := length_row hc p
  rw [row_eq_cons hc hlive] at hlen ⊢
  rw [length_cons] at hlen
  rw [holders, backupsOf_eq, take_succ_cons, cons.injEq, take_eq_take_iff]
  exact ⟨rfl, by omega⟩

theorem nodup_holders (p : ℤ) :
    (c.holders p).Nodup := by
  rw [holders_eq hc hlive]
  exact (nodup_row c p).sublist (take_sublist _ _)

theorem lives_of_mem_holders (h : i ∈ c.holders p) : c.lives i := by
  rw [holders_eq hc hlive] at h
  exact (mem_row hc).mp (mem_of_mem_take h)

theorem length_backupsOf (p : ℤ) :
    (c.backupsOf p).length = min c.backups (c.liveCount - 1) := by
  have hlen := length_row hc p
  rw [row_eq_cons hc hlive, length_cons] at hlen
  rw [backupsOf_eq, length_take]
  omega

end

/-- At most `k` members of the first view are dead in the second, and nothing else happened to
the members. -/
structure Deaths (k : ℕ) (c c' : Cluster) : Prop where
  members : c'.members = c.members
  flags : c'.alive.length = c.alive.length
  alive_of : ∀ i, c'.lives i → c.lives i
  count : c.liveCount ≤ c'.liveCount + k

namespace Deaths

theorem refl (c : Cluster) : Deaths 0 c c := ⟨rfl, rfl, fun _ h => h, le_refl _⟩

theorem trans {k l : ℕ} {a b c : Cluster} (h : Deaths k a b) (h' : Deaths l b c) :
    Deaths (k + l) a c where
  members := h'.members.trans h.members
  flags := h'.flags.trans h.flags
  alive_of i hi := h.alive_of i (h'.alive_of i hi)
  count := by
    have := h.count
    have := h'.count
    omega

theorem mono {k l : ℕ} (hkl : k ≤ l) (h : Deaths k c c') : Deaths l c c' :=
  { h with count := h.count.trans (by omega) }

theorem removeMemberByUuid (c : Cluster) (uuid : ℤ × ℤ) :
    Deaths 1 c (c.removeMemberByUuid uuid).1 := by
  have hstay : Deaths 1 c c := (refl c).mono (Nat.zero_le 1)
  rw [Cluster.removeMemberByUuid]
  split
  next i _ =>
    split
    next hi =>
      obtain ⟨hlt, htrue⟩ := List.getElem?_eq_some_iff.mp hi
      refine ⟨rfl, by simp [bump], fun j hj => ?_, ?_⟩
      · have hset : (c.alive.set i false)[j]? = some true := of_decide_eq_true hj
        rw [getElem?_set] at hset
        split at hset
        · simp at hset
        · exact decide_eq_true hset
      · simp [bump, liveCount, count_set hlt, htrue]
        omega
    next => exact hstay
  next => exact hstay

end Deaths

def removeMembers (c : Cluster) (uuids : List (ℤ × ℤ)) : Cluster :=
  uuids.foldl (fun c uuid => (c.removeMemberByUuid uuid).1) c

theorem deaths_removeMembers (c : Cluster) (uuids : List (ℤ × ℤ)) :
    Deaths uuids.length c (c.removeMembers uuids) := by
  induction uuids generalizing c with
  | nil => exact Deaths.refl c
  | cons uuid uuids ih =>
    rw [length_cons, Nat.add_comm]
    exact (Deaths.removeMemberByUuid c uuid).trans (ih _)

theorem owner_mem_holders_of_deaths (hc : c.WellFormed)
    (h : Deaths c.backups c c') (hlive : 0 < c'.liveCount) (p : ℤ) : c'.owner p ∈ c.holders p := by
  have hc' : c'.WellFormed := by rw [WellFormed, h.flags, h.members, hc]
  have hrow : (Ring.walk c.members.length (c.home p)).filter c'.lives = c'.row p := by
    rw [row, home, home, h.members]
  have hfind : (Ring.walk c.members.length (c.home p)).find? c'.lives = some (c'.owner p) := by
    rw [← head?_filter, hrow, row_eq_cons hc' hlive, head?_cons]
  have hpos : 0 < c.liveCount := by
    rw [← length_row hc p, length_pos_iff_exists_mem]
    refine ⟨c'.owner p, (mem_row hc).mpr (h.alive_of _ ?_)⟩
    exact find?_some hfind
  rw [holders_eq hc hpos]
  refine Ring.mem_take_filter_of_find h.alive_of hfind ?_
  rw [hrow, length_row hc']
  exact (length_row hc p).trans_le h.count

theorem lives_removeMemberByUuid {uuid : ℤ × ℤ} (h : c.indexOfUuid uuid = some i) :
    (c.removeMemberByUuid uuid).1.lives i = false := by
  rw [removeMemberByUuid, h]
  dsimp only
  split
  next hlives =>
    obtain ⟨hlt, -⟩ := List.getElem?_eq_some_iff.mp hlives
    rw [lives, bump, getElem?_set_self hlt]
    rfl
  next hdead => exact decide_eq_false hdead

theorem owner_removeMemberByUuid_mem (hc : c.WellFormed) {uuid : ℤ × ℤ}
    (huuid : c.indexOfUuid uuid = some (c.owner p)) (hsome : c.backupsOf p ≠ []) :
    (c.removeMemberByUuid uuid).1.owner p ∈ c.backupsOf p := by
  have hdeath := Deaths.removeMemberByUuid c uuid
  have hwant : min c.backups (c.liveCount - 1) ≠ 0 := fun hzero => by
    rw [backupsOf_eq, hzero] at hsome
    exact hsome rfl
  have hlive : 0 < (c.removeMemberByUuid uuid).1.liveCount := by
    have := hdeath.count
    omega
  have hmem := owner_mem_holders_of_deaths hc (hdeath.mono (by omega)) hlive p
  rcases mem_cons.mp hmem with howner | hmem
  · have hc' : (c.removeMemberByUuid uuid).1.WellFormed := by
      rw [WellFormed, hdeath.flags, hdeath.members, hc]
    have hlives := lives_of_mem_holders hc' hlive (p := p) mem_cons_self
    rw [howner, lives_removeMemberByUuid huuid] at hlives
    cases hlives
  · exact hmem

/-- A partition of a cluster with somebody alive has a living owner and as many other living
members as backups as the cluster allows. After at most as many deaths as there are backups,
its owner is one of these. -/
theorem failover (c : Cluster) (hc : c.WellFormed) (hlive : 0 < c.liveCount) (p : ℤ) :
    c.lives (c.owner p) ∧
      (c.backupsOf p).length = min c.backups (c.liveCount - 1) ∧ (c.backupsOf p).Nodup ∧
      (∀ i ∈ c.backupsOf p, c.lives i ∧ i ≠ c.owner p) ∧
      ∀ c', Deaths c.backups c c' → 0 < c'.liveCount →
        c'.owner p = c.owner p ∨ c'.owner p ∈ c.backupsOf p := by
  have hnodup := nodup_cons.mp (nodup_holders hc hlive p)
  refine ⟨lives_of_mem_holders hc hlive mem_cons_self, length_backupsOf hc hlive p,
    hnodup.2, ?_, ?_⟩
  · intro i hi
    refine ⟨lives_of_mem_holders hc hlive (mem_cons_of_mem _ hi), ?_⟩
    rintro rfl
    exact hnodup.1 hi
  · intro c' h hlive'
    exact mem_cons.mp (owner_mem_holders_of_deaths hc h hlive' p)

def trio : Cluster := .new (bootstrapMembers 3) 1 (defaultQuorum 3)

theorem failover_trio : (trio.removeMembers [(1, 2)]).owner 1 = trio.owner 1 ∨
    (trio.removeMembers [(1, 2)]).owner 1 ∈ trio.backupsOf 1 :=
  (failover trio (by decide) (by decide) 1).2.2.2.2 _ (deaths_removeMembers trio [(1, 2)])
    (by decide)

end BonsaiGrid.Membership.Cluster
