import BonsaiGrid.Store.Reference

/-!
# The counters of a shard

In every configuration, and with keys and values of any length, the counters of a shard are those
of its table. So the table keeps an empty slot, every probe comes to an end, and nothing is taken
from a counter that is zero.
-/

namespace BonsaiGrid.Store.Inner

open Probing List Inner

section Evict

variable {s : Inner} {id i : ℕ} {e : Entry}

theorem scan_eq_some {start : ℕ} (h : s.scan id start = some (i, e)) :
    slotAt s.table i = .full e ∧ e.mapId = id := by
  obtain ⟨idx, -, h⟩ := exists_of_findSome?_eq_some h
  split at h
  next e' he =>
    split at h
    next hid =>
      cases h
      exact ⟨he, hid⟩
    next => cases h
  next => cases h

theorem sampleMin_eq_some {seed bound : ℕ} {weight : Entry → ℕ}
    (h : s.sampleMin seed id weight bound = some (i, e)) :
    slotAt s.table i = .full e ∧ e.mapId = id := by
  revert h
  refine foldlRecOn (motive := fun best : ℕ × Option (ℕ × Entry) => best.2 = some (i, e) →
    slotAt s.table i = .full e ∧ e.mapId = id) _ _ (by simp) fun best hbest k _ h => ?_
  split at h
  next idx e' hscan =>
    split at h
    · cases h
      exact scan_eq_some hscan
    · exact hbest h
  next => exact hbest h

theorem evictOne_cases (s : Inner) (env : Env) (id : ℕ) (policy : EvictionPolicy) :
    s.evictOne env id policy = s ∨ ∃ i e, slotAt s.table i = .full e ∧ e.mapId = id ∧
      s.evictOne env id policy = s.bury i e := by
  rw [evictOne.eq_def]
  dsimp only
  split
  next i e hcandidate =>
    have he : slotAt s.table i = .full e ∧ e.mapId = id := by
      cases policy with
      | none => cases hcandidate
      | random => exact scan_eq_some hcandidate
      | lru | lfu => exact sampleMin_eq_some hcandidate
    exact .inr ⟨i, e, he.1, he.2, rfl⟩
  next => exact .inl rfl

end Evict

namespace Tally

variable {s : Inner} (h : s.Tally) (env : Env) (map : Str) (key val : Bytes)

include h

theorem trimmed (id : ℕ) : (s.trimmed env map id).Tally := by
  rw [Inner.trimmed]
  split
  next cfg _ =>
    split
    · rcases evictOne_cases s env id cfg.evictionPolicy with heq | ⟨i, e, hi, -, heq⟩
      · rw [heq]
        exact h
      · rw [heq]
        exact h.bury hi
    · exact h
  next => exact h

theorem put (ttlMs stamp : ℕ) : (s.put env map key val ttlMs stamp).1.Tally := by
  obtain ⟨h₁, hname⟩ := h.intern map
  obtain ⟨⟨t, id⟩, ht⟩ : ∃ r, s.intern map = r := ⟨_, rfl⟩
  rw [ht] at h₁ hname
  obtain ⟨h₂, -, hload⟩ := h₁.maybeGrow
  rcases h₂.probeFor_cases id key with ⟨i, e, hi, hmap, hp⟩ | ⟨j, hj, hfree, hp⟩
  · rw [put_found env ttlMs stamp ht hp]
    exact h₂.refilled hi hmap.symm
  · rw [put_vacant env ttlMs stamp ht hp]
    have hnames : t.maybeGrow.mapNames = t.mapNames := by
      rw [Inner.maybeGrow]
      split <;> rfl
    have hid : id < t.maybeGrow.mapNames.length := by
      rw [hnames]
      exact (List.getElem?_eq_some_iff.1 hname).1
    exact (h₂.filled hid hj hfree hload).trimmed env map id

theorem find : (∃ t, s.find env map key = (t, none) ∧ t.Tally) ∨
    ∃ t i e, s.find env map key = (t, some (i, e)) ∧ t.Tally ∧ slotAt t.table i = .full e := by
  rw [Inner.find]
  split
  next => exact .inl ⟨s, rfl, h⟩
  next id _ =>
    rcases h.probeFor_cases id key with ⟨i, e, hi, -, hp⟩ | ⟨j, -, -, hp⟩
    · rw [hp]
      dsimp only
      split
      · exact .inl ⟨_, rfl, h.bury hi⟩
      · exact .inr ⟨_, i, _, rfl, h.refilled hi rfl,
          slotAt_set_self (lt_length_of_full hi)⟩
    · rw [hp]
      exact .inl ⟨s, rfl, h⟩

theorem call (c : ShardCall) : (s.call env c).1.Tally := by
  cases c with
  | put map key val ttlMs stamp => exact h.put env map key val ttlMs stamp
  | get map key | containsKey map key =>
    change (s.find env map key).1.Tally
    rcases h.find env map key with ⟨t, hfind, ht⟩ | ⟨t, i, e, hfind, ht, -⟩
    all_goals exact hfind ▸ ht
  | remove map key =>
    change (s.remove env map key).1.Tally
    rcases h.find env map key with ⟨t, hfind, ht⟩ | ⟨t, i, e, hfind, ht, hi⟩
    all_goals rw [remove, hfind]
    · exact ht
    · exact ht.bury hi
  | putIfAbsent map key val ttlMs stamp =>
    change (s.putIfAbsent env map key val ttlMs stamp).1.Tally
    rcases h.find env map key with ⟨t, hfind, ht⟩ | ⟨t, i, e, hfind, ht, hi⟩
    all_goals rw [putIfAbsent, hfind]
    · exact ht.put env map key val ttlMs stamp
    · exact ht
  | replace map key val =>
    change (s.replace env map key val).1.Tally
    rcases h.find env map key with ⟨t, hfind, ht⟩ | ⟨t, i, e, hfind, ht, hi⟩
    all_goals rw [replace, hfind]
    · exact ht
    · exact ht.refilled hi rfl
  | putMerge map key val ttlMs stamp latestUpdate =>
    change (s.putMerge env map key val ttlMs stamp latestUpdate).Tally
    rcases h.find env map key with ⟨t, hfind, ht⟩ | ⟨t, i, e, hfind, ht, hi⟩
    all_goals rw [putMerge, hfind]
    · exact ht.put env map key val ttlMs stamp
    · dsimp only
      split
      · exact ht.put env map key val ttlMs stamp
      · exact ht
  | clear map =>
    change (s.clear map).Tally
    rw [clear_eq]
    cases s.mapIds.lookup map with
    | none => exact h
    | some id => exact h.wiped id

end Tally

/-- The counters are exact, a slot is empty, every probe ends, and what is taken from a counter is
there. -/
structure Exact (s : Inner) : Prop where
  len : s.len = s.table.countP Slot.occupied
  tombstones : s.tombstones = s.table.countP Slot.deleted
  counts : ∀ map id, s.mapIds.lookup map = some id →
    s.counts.getD id 0 = (items s.table).countP fun e => e.mapId == id
  empty : ∃ i < s.table.length, slotAt s.table i = .empty
  probes : ∀ id key, s.probeFor id key ≠ .spins
  full : ∀ i e, slotAt s.table i = .full e → 0 < s.len ∧ 0 < s.counts.getD e.mapId 0
  deleted : ∀ i, slotAt s.table i = .tombstone → 0 < s.tombstones
  dropped : ∀ id, ((items s.table).filter fun e => e.mapId == id).length ≤ s.len

theorem Tally.exact {s : Inner} (h : s.Tally) : s.Exact where
  len := by
    rw [h.len, items, length_filterMap_eq_countP]
    congr 1
    funext x
    cases x <;> rfl
  tombstones := h.tombstones
  counts map id hid :=
    h.counts id (List.getElem?_eq_some_iff.1 ((h.names map id).1 hid)).1
  empty := exists_empty h.room
  probes id key := by
    rcases h.probeFor_cases id key with ⟨i, e, -, -, hp⟩ | ⟨j, -, -, hp⟩
    all_goals rw [hp]; simp
  full i e hi := by
    have he : e ∈ items s.table := mem_items.2 ⟨i, hi⟩
    rw [h.len, h.counts _ (h.ids e he), entriesOf, countP_pos_iff]
    exact ⟨length_pos_of_mem he, e, he, beq_self_eq_true _⟩
  deleted i hi := by
    have hlt := lt_length_of_slotAt (t := s.table) (i := i) (by rw [hi]; simp)
    rw [h.tombstones, deletedSlots, countP_pos_iff]
    exact ⟨_, ((perm_eraseIdx hlt).mem_iff).2 mem_cons_self, hi ▸ rfl⟩
  dropped id := h.len ▸ length_filter_le _ _

/-- A call, with the configuration it meets. -/
def configured (s : Inner) (c : Dict Str MapConfig × Env × ShardCall) : Inner :=
  (call { s with configs := c.1 } c.2.1 c.2.2).1

/-- **Every probe ends**: in every state that calls of a shard lead to, also in the one in which
`put` looks for a slot, the counters are exact and a slot is empty. -/
theorem counters_exact (calls : List (Dict Str MapConfig × Env × ShardCall)) :
    (calls.foldl configured new).Exact ∧
      ∀ map, ((calls.foldl configured new).intern map).1.maybeGrow.Exact := by
  have h : (calls.foldl configured new).Tally :=
    foldlRecOn calls configured inv_new.1.toTally fun s hs c _ =>
      Tally.call (s := { s with configs := c.1 }) { hs with } c.2.1 c.2.2
  exact ⟨h.exact, fun map => (h.intern map).1.maybeGrow.1.exact⟩

end BonsaiGrid.Store.Inner
