import BonsaiGrid.Server.Ownership
import Mathlib.Algebra.BigOperators.Group.List.Basic
import Mathlib.Data.List.Count

/-!
# Which partitions a member sends

When the view of the cluster changes, every member works out alone which partitions it has to send
to whom: the first of the old holders that is still alive sends the partition to the new holders
that did not have it.
-/

namespace BonsaiGrid.Membership

open List

namespace Cluster

def uuidAt (c : Cluster) (i : ℕ) : Option (ℤ × ℤ) := c.members[i]?.map MemberInfo.uuid

def holderUuids (c : Cluster) (p : ℤ) : List (ℤ × ℤ) := (c.holders p).filterMap c.uuidAt

def aliveIn (c : Cluster) (uuid : ℤ × ℤ) : Bool :=
  (c.members.zip c.alive).any fun m => m.2 && m.1.uuid = uuid

end Cluster

def sender (old new : Cluster) (p : ℤ) : Option (ℤ × ℤ) := (old.holderUuids p).find? new.aliveIn

def planAt (old new : Cluster) (self : ℤ × ℤ) (p : ℤ) : List (ℤ × ℕ) :=
  match sender old new p with
  | none => []
  | some u =>
    if u ≠ self then []
    else
      ((new.holders p).filter fun h =>
        (new.uuidAt h).any fun v => v ≠ self && v ∉ old.holderUuids p).map fun h => (p, h)

def plan (old new : Cluster) (count : ℤ) (self : ℤ × ℤ) : List (ℤ × ℕ) :=
  if old.members.isEmpty || new.members.isEmpty then []
  else (range count.toNat).flatMap fun (p : ℕ) => planAt old new self p

def Gains (old new : Cluster) (p : ℤ) (h : ℕ) : Prop :=
  h ∈ new.holders p ∧ ∃ u, new.uuidAt h = some u ∧ u ∉ old.holderUuids p

instance (old new : Cluster) (p : ℤ) (h : ℕ) : Decidable (Gains old new p h) :=
  decidable_of_iff (h ∈ new.holders p ∧ (new.uuidAt h).any fun u => u ∉ old.holderUuids p)
    (by simp [Gains, Option.any_eq_true])

theorem count_flatMap_of_nodup {α β : Type*} [DecidableEq α] [BEq β] [LawfulBEq β]
    {l : List α} {f : α → List β} {a : α} {x : β} (hl : l.Nodup) (ha : a ∈ l)
    (h : ∀ b ∈ l, b ≠ a → x ∉ f b) : (l.flatMap f).count x = (f a).count x := by
  have hzero : ∀ b, b ≠ a → b ∈ l → (count x ∘ f) b = 0 := fun b hne hb =>
    count_eq_zero.mpr (h b hb hne)
  rw [count_flatMap, sum_map_eq_nsmul_single a _ hzero, count_eq_one_of_mem hl ha,
    one_nsmul]
  rfl

section

variable {old new : Cluster} {p : ℤ}

theorem liveCount_pos_of_aliveIn {c : Cluster} {u : ℤ × ℤ} (h : c.aliveIn u) :
    0 < c.liveCount := by
  obtain ⟨⟨m, a⟩, hm, ha⟩ := any_eq_true.mp h
  rw [Bool.and_eq_true] at ha
  have htrue : a = true := ha.1
  subst htrue
  exact count_pos_iff.mpr (of_mem_zip hm).2

theorem exists_mem_of_aliveIn {c : Cluster} {u : ℤ × ℤ} (h : c.aliveIn u) :
    ∃ m ∈ c.members, m.uuid = u := by
  obtain ⟨⟨m, a⟩, hm, ha⟩ := any_eq_true.mp h
  rw [Bool.and_eq_true] at ha
  exact ⟨m, (of_mem_zip hm).1, of_decide_eq_true ha.2⟩

variable {self : ℤ × ℤ} {x : ℤ × ℕ}

theorem fst_of_mem_planAt (h : x ∈ planAt old new self p) :
    x.1 = p := by
  rw [planAt] at h
  split at h
  · simp at h
  · split at h
    · simp at h
    · obtain ⟨_, _, rfl⟩ := mem_map.mp h
      rfl

theorem sender_of_mem_planAt (h : x ∈ planAt old new self p) :
    sender old new p = some self := by
  rw [planAt] at h
  split at h
  · simp at h
  next u hu =>
    split at h
    · simp at h
    next hself => rw [hu, not_not.mp hself]

theorem count_planAt (hnew : new.WellFormed) (hs : sender old new p = some self)
    (h : ℕ) : (planAt old new self p).count (p, h) = if Gains old new p h then 1 else 0 := by
  have hlive := liveCount_pos_of_aliveIn (find?_some hs)
  have hself : self ∈ old.holderUuids p := mem_of_find?_eq_some hs
  have hinj : Function.Injective fun h : ℕ => (p, h) := fun _ _ e => (Prod.mk.inj e).2
  have hplan : planAt old new self p =
      ((new.holders p).filter fun h => decide (Gains old new p h)).map fun h => (p, h) := by
    rw [planAt, hs]
    simp only [ne_eq, not_true_eq_false, if_false]
    congr 1
    refine filter_congr fun h hh => ?_
    rw [Bool.eq_iff_iff, decide_eq_true_iff, Option.any_eq_true]
    constructor
    · rintro ⟨v, hv, hcond⟩
      rw [Bool.and_eq_true] at hcond
      exact ⟨hh, v, hv, of_decide_eq_true hcond.2⟩
    · rintro ⟨_, v, hv, hnot⟩
      refine ⟨v, hv, ?_⟩
      have hne : v ≠ self := fun e => hnot (e ▸ hself)
      simp [hne, hnot]
  rw [hplan, count_map_of_injective _ _ hinj]
  split
  next hg =>
    exact count_eq_one_of_mem ((Cluster.nodup_holders hnew hlive p).filter _)
      (mem_filter.mpr ⟨hg.1, decide_eq_true hg⟩)
  next hg =>
    rw [count_eq_zero]
    intro hmem
    exact hg (of_decide_eq_true (mem_filter.mp hmem).2)

theorem mem_plan {count : ℤ} (h : x ∈ plan old new count self) :
    x ∈ planAt old new self x.1 := by
  rw [plan] at h
  split at h
  · simp at h
  · obtain ⟨q, _, hq⟩ := mem_flatMap.mp h
    rw [fst_of_mem_planAt hq]
    exact hq

theorem count_plan {count : ℤ} (hp : 0 ≤ p) (hcount : p < count)
    (hmembers : old.members ≠ [] ∧ new.members ≠ []) (self : ℤ × ℤ) (h : ℕ) :
    (plan old new count self).count (p, h) = (planAt old new self p).count (p, h) := by
  have hround : p.toNat ∈ range count.toNat := by
    rw [mem_range]
    omega
  rw [plan, if_neg (by simp [hmembers]), count_flatMap_of_nodup nodup_range hround]
  · rw [Int.toNat_of_nonneg hp]
  · intro q _ hne hmem
    have : p = q := fst_of_mem_planAt hmem
    omega

end

/-- When the members plan a change of the view, a partition of which some old holder is still
alive is sent exactly once to every new holder that did not hold it, to nobody else, and by a
member that held it and is alive. -/
theorem plan_complete (old new : Cluster) (hnew : new.WellFormed) (count p : ℤ) (hp : 0 ≤ p)
    (hcount : p < count) (hsurvivor : ∃ u ∈ old.holderUuids p, new.aliveIn u) :
    (∀ us : List (ℤ × ℤ), us.Nodup → (∀ m ∈ new.members, m.uuid ∈ us) → ∀ h,
      (us.flatMap (plan old new count)).count (p, h) = if Gains old new p h then 1 else 0) ∧
    ∀ u h, (p, h) ∈ plan old new count u → u ∈ old.holderUuids p ∧ new.aliveIn u := by
  obtain ⟨s, hs⟩ : ∃ s, sender old new p = some s := by
    obtain ⟨u, hu, halive⟩ := hsurvivor
    exact Option.isSome_iff_exists.mp (find?_isSome.mpr ⟨u, hu, halive⟩)
  have hold : s ∈ old.holderUuids p := mem_of_find?_eq_some hs
  have halive : new.aliveIn s := find?_some hs
  obtain ⟨m, hm, hms⟩ := exists_mem_of_aliveIn halive
  have hmembers : old.members ≠ [] ∧ new.members ≠ [] := by
    constructor
    · intro hnil
      rw [Cluster.holderUuids, mem_filterMap] at hold
      obtain ⟨i, _, hi⟩ := hold
      simp [Cluster.uuidAt, hnil] at hi
    · exact ne_nil_of_mem hm
  constructor
  · intro us hus hall h
    have hmem : s ∈ us := hms ▸ hall m hm
    rw [count_flatMap_of_nodup hus hmem, count_plan hp hcount hmembers, count_planAt hnew hs]
    intro u _ hne hu
    have := (sender_of_mem_planAt (mem_plan hu)).symm.trans hs
    exact hne (Option.some.inj this)
  · intro u h hu
    have := (sender_of_mem_planAt (mem_plan hu)).symm.trans hs
    rw [Option.some.inj this]
    exact ⟨hold, halive⟩

/-- A third member joins two others; they plan what it is sent of the third partition. -/
theorem plan_complete_join :
    ([(1, 1), (1, 2), (1, 3)].flatMap
      (plan (.new (bootstrapMembers 2) 1 2) (.new (bootstrapMembers 3) 1 2) 271)).count (2, 2) =
      1 := by
  have h := (plan_complete (.new (bootstrapMembers 2) 1 2) (.new (bootstrapMembers 3) 1 2)
    (by decide) 271 2 (by decide) (by decide) (by decide)).1
    [(1, 1), (1, 2), (1, 3)] (by decide) (by decide) 2
  rw [h, if_pos (by decide)]

end BonsaiGrid.Membership
