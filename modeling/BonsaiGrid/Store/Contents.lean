import BonsaiGrid.Store.Shard
import BonsaiGrid.Store.Store

/-!
# The contents of a store

The cells of a store are those of its shards, each key in the shard that its hash chooses.
-/

namespace BonsaiGrid.Store

open Function List Inner Store Option

def contents (s : Store) : Contents := fun mk => (s.shard mk.1 mk.2).contents mk

/-- The shards are in order, without bounds on idle time and size, and hold the keys that
are theirs. -/
structure Inv (s : Store) : Prop where
  pos : 0 < s.shards.length
  shards : ∀ inner ∈ s.shards, inner.Inv ∧ inner.Plain
  placed : ∀ i inner, s.shards[i]? = some inner → ∀ mk, inner.contents mk ≠ none →
    shardOf mk.1 mk.2 s.shards.length = i

section Shards

variable {s t : Store} {map : Str} {key val : Bytes} {inner : Inner} {c : Option Cell}

theorem shardOf_lt (map : Str) (key : Bytes) {n : ℕ} (h : 0 < n) : shardOf map key n < n :=
  Nat.mod_lt _ h

theorem getElem?_shard (h : 0 < s.shards.length) (map : Str) (key : Bytes) :
    s.shards[shardOf map key s.shards.length]? = some (s.shard map key) := by
  rw [shard, getD_eq_getElem?_getD, getElem?_eq_getElem (shardOf_lt map key h)]
  rfl

theorem Inv.shard (h : s.Inv) (map : Str) (key : Bytes) :
    (s.shard map key).Inv ∧ (s.shard map key).Plain :=
  h.shards _ (mem_of_getElem? (getElem?_shard h.pos map key))

theorem Inv.congr (h : s.Inv) (hshards : t.shards = s.shards) : t.Inv where
  pos := hshards ▸ h.pos
  shards := hshards ▸ h.shards
  placed := hshards ▸ h.placed

theorem contents_congr (hshards : t.shards = s.shards) : t.contents = s.contents := by
  funext mk
  rw [contents, contents, shard, shard, hshards]

theorem Inv.setShard (h : s.Inv) (hs : (s.shard map key).Sets map key c inner)
    (ht : t.shards = (s.setShard map key inner).shards) :
    t.Inv ∧ t.contents = update s.contents (map, key) c := by
  have hlen : t.shards.length = s.shards.length := by rw [ht]; exact length_set
  have hget := getElem?_shard h.pos map key
  refine ⟨⟨hlen ▸ h.pos, fun x hx => ?_, fun i x hx mk hmk => ?_⟩, ?_⟩
  · rw [ht] at hx
    rcases mem_or_eq_of_mem_set hx with hx | rfl
    · exact h.shards x hx
    · exact hs.ok
  · rw [hlen]
    rw [ht, Store.setShard] at hx
    by_cases heq : shardOf map key s.shards.length = i
    · rw [← heq, getElem?_set_self (shardOf_lt map key h.pos)] at hx
      cases hx
      by_cases hkey : mk = (map, key)
      · rw [hkey]
        exact heq
      · rw [hs.contents, update_of_ne hkey] at hmk
        rw [← heq]
        exact h.placed _ _ hget mk hmk
    · rw [getElem?_set_ne heq] at hx
      exact h.placed i x hx mk hmk
  · funext mk
    rw [contents, Store.shard, hlen, ht, Store.setShard, getD_eq_getElem?_getD]
    by_cases heq : shardOf map key s.shards.length = shardOf mk.1 mk.2 s.shards.length
    · rw [← heq, getElem?_set_self (shardOf_lt map key h.pos), getD_some, hs.contents]
      by_cases hkey : mk = (map, key)
      · rw [hkey, update_self, update_self]
      · rw [update_of_ne hkey, update_of_ne hkey, Store.shard, heq]
        rfl
    · rw [getElem?_set_ne heq,
        update_of_ne fun hkey => heq (by rw [hkey])]
      rfl

theorem inv_withShardsSeed {n : ℕ} (hn : 0 < n) (memberId : ℕ) :
    (withShardsSeed n memberId).Inv ∧ (withShardsSeed n memberId).contents = fun _ => none := by
  obtain ⟨hinv, hplain, hempty⟩ := inv_new
  have hshards : (withShardsSeed n memberId).shards = replicate n .new := rfl
  have hnew : ∀ i inner, (withShardsSeed n memberId).shards[i]? = some inner → inner = new :=
    fun i inner hi => eq_of_mem_replicate (mem_of_getElem? hi)
  refine ⟨⟨?_, fun x hx => ?_, fun i x hx mk hmk => ?_⟩, ?_⟩
  · rw [hshards, length_replicate]
    exact hn
  · rw [eq_of_mem_replicate hx]
    exact ⟨hinv, hplain⟩
  · rw [hnew i x hx] at hmk
    exact absurd rfl hmk
  · funext mk
    rw [contents, shard, getD_eq_getElem?_getD]
    cases hi : (withShardsSeed n memberId).shards[shardOf mk.1 mk.2
        (withShardsSeed n memberId).shards.length]? with
    | none => rw [getD_none, hempty]
    | some inner => rw [getD_some, hnew _ inner hi, hempty]

/-- What a shard holds, the store holds. -/
theorem Inv.shard_eq (h : s.Inv) (hinner : inner ∈ s.shards) (mk : Str × Bytes)
    (hmk : inner.contents mk ≠ none) : s.shard mk.1 mk.2 = inner := by
  obtain ⟨i, hi⟩ := getElem?_of_mem hinner
  have hget := getElem?_shard h.pos mk.1 mk.2
  rw [h.placed i inner hi mk hmk, hi] at hget
  exact (some.inj hget).symm

/-- A list that is gathered from the shards has what the store shows, if each shard gives what the
shard shows. -/
theorem Inv.mem_flatMap_shards {α : Type} (h : s.Inv) {now : ℕ} {f : Inner → List α} {x : α}
    {P : Cell → Prop} (hf : ∀ inner ∈ s.shards,
      x ∈ f inner ↔ ∃ c, Inner.seen now (inner.contents (map, key)) = some c ∧ P c) :
    x ∈ s.shards.flatMap f ↔ ∃ c, Inner.seen now (s.contents (map, key)) = some c ∧ P c := by
  have hmem := mem_of_getElem? (getElem?_shard h.pos map key)
  refine ⟨fun hx => ?_, fun hseen => mem_flatMap.2 ⟨_, hmem, (hf _ hmem).2 hseen⟩⟩
  obtain ⟨inner, hinner, hx⟩ := mem_flatMap.1 hx
  obtain ⟨c, hc, -⟩ := (hf inner hinner).1 hx
  rw [← h.shard_eq hinner (map, key) (by simp [contents_of_seen hc])] at hx
  exact (hf _ hmem).1 hx

theorem Inv.mem_allEntriesStamped (h : s.Inv) {now stamp : ℕ} :
    (map, key, val, stamp) ∈ s.allEntriesStamped now ↔
      ∃ c, Inner.seen now (s.contents (map, key)) = some c ∧ c.val = val ∧ c.stamp = stamp :=
  h.mem_flatMap_shards fun inner hinner =>
    (h.shards inner hinner).1.mem_collectAllStamped (h.shards inner hinner).2

theorem Inv.nodup_entries (h : s.Inv) (now : ℕ) (map : Str) :
    ((s.entries now map).map Prod.fst).Nodup := by
  have hplace : ∀ i (hi : i < s.shards.length), ∀ key ∈ (s.shards[i].collectEntries now map).map
      Prod.fst, shardOf map key s.shards.length = i := by
    intro i hi key hkey
    obtain ⟨⟨k, val⟩, hmem, rfl⟩ := mem_map.1 hkey
    have hinner := h.shards _ (getElem_mem hi)
    obtain ⟨c, hc, -⟩ := (hinner.1.mem_collectEntries hinner.2).1 hmem
    exact h.placed i _ (getElem?_eq_getElem hi) (map, k) (by simp [Inner.contents_of_seen hc])
  rw [entries, map_flatMap, nodup_flatMap]
  refine ⟨fun inner hinner => (h.shards inner hinner).1.nodup_collectEntries now map, ?_⟩
  rw [pairwise_iff_getElem]
  intro i j hi hj hij key hkey hkey'
  have := (hplace i hi key hkey).symm.trans (hplace j hj key hkey')
  omega

theorem Inv.mem_entries_iff (h : s.Inv) {now : ℕ} :
    (key, val) ∈ s.entries now map ↔
      ∃ c, Inner.seen now (s.contents (map, key)) = some c ∧ c.val = val :=
  h.mem_flatMap_shards fun inner hinner =>
    (h.shards inner hinner).1.mem_collectEntries (h.shards inner hinner).2

theorem Inv.mem_entries (h : s.Inv) {now : ℕ} {c : Cell}
    (hc : Inner.seen now (s.contents (map, key)) = some c) : (key, c.val) ∈ s.entries now map :=
  h.mem_entries_iff.2 ⟨c, hc, rfl⟩

theorem Inv.size_eq (h : s.Inv) {now : ℕ}
    (hlive : ∀ key c, s.contents (map, key) = some c → c.live now = true) :
    s.size map = (s.entries now map).length := by
  rw [size, entries, length_flatMap]
  refine congrArg sum (map_congr_left fun inner hinner => ?_)
  obtain ⟨hinv, hplain⟩ := h.shards inner hinner
  refine hinv.size_eq hplain fun key c hc => hlive key c ?_
  rw [contents, h.shard_eq hinner (map, key) (by simp [hc])]
  exact hc

end Shards

section Mutators

variable {s : Store} (h : s.Inv) (env : StoreEnv) (map : Str) (key val : Bytes) (ttlMs stamp : ℕ)

include h

theorem Inv.putStamped (hfit : key.length + val.length < 2 ^ 32) :
    (s.putStamped env map key val ttlMs stamp).1.Inv ∧
      (s.putStamped env map key val ttlMs stamp).1.contents =
        update s.contents (map, key)
          (some ⟨val, Inner.deadline env.now ttlMs, stamp⟩) := by
  exact h.setShard (put_sets (h.shard map key) env.toEnv map key val ttlMs stamp hfit).1 rfl

theorem Inv.putTtl (hfit : key.length + val.length < 2 ^ 32) :
    (s.putTtl env map key val ttlMs).1.Inv ∧
      (s.putTtl env map key val ttlMs).1.contents = update s.contents (map, key)
        (some ⟨val, Inner.deadline env.now ttlMs,
          nextStampAt s.memberId s.stampSeq env.wallMs⟩) := by
  have hstamp : (s.nextStamp env).1.Inv := h.congr rfl
  obtain ⟨hinv, hcont⟩ := hstamp.putStamped env map key val ttlMs
    (nextStampAt s.memberId s.stampSeq env.wallMs) hfit
  exact ⟨hinv.congr rfl, (contents_congr rfl).trans hcont⟩

theorem Inv.putMerge (latestUpdate : Bool) (hfit : key.length + val.length < 2 ^ 32) :
    (s.putMerge env map key val ttlMs stamp latestUpdate).Inv ∧
      (s.putMerge env map key val ttlMs stamp latestUpdate).contents =
        update s.contents (map, key) (some (Inner.mergeCell
          (Inner.seen env.now (s.contents (map, key)))
          ⟨val, Inner.deadline env.now ttlMs, stamp⟩ latestUpdate)) := by
  exact h.setShard (putMerge_sets (h.shard map key) env.toEnv map key val ttlMs stamp
    latestUpdate hfit) rfl

theorem Inv.get :
    (s.get env map key).1.Inv ∧
      (s.get env map key).1.contents =
        update s.contents (map, key) (Inner.seen env.now (s.contents (map, key))) ∧
      (s.get env map key).2 = (Inner.seen env.now (s.contents (map, key))).map Cell.val := by
  obtain ⟨hs, hret⟩ := get_sets (h.shard map key) env.toEnv map key
  obtain ⟨hinv, hcont⟩ := h.setShard hs rfl
  exact ⟨hinv, hcont, hret⟩

theorem Inv.remove :
    (s.remove env map key).1.Inv ∧
      (s.remove env map key).1.contents = update s.contents (map, key) none := by
  exact h.setShard (remove_sets (h.shard map key) env.toEnv map key).1 rfl

section

variable (hfit : key.length + val.length < 2 ^ 32)

include hfit

theorem Inv.putIfAbsent :
    (s.putIfAbsent env map key val ttlMs).1.Inv ∧
      (s.putIfAbsent env map key val ttlMs).1.contents = update s.contents (map, key)
        ((Inner.seen env.now (s.contents (map, key))).or (some ⟨val, Inner.deadline env.now ttlMs,
          nextStampAt s.memberId s.stampSeq env.wallMs⟩)) := by
  exact h.setShard (putIfAbsent_sets (h.shard map key) env.toEnv map key val ttlMs
    (nextStampAt s.memberId s.stampSeq env.wallMs) hfit).1 rfl

theorem Inv.putIfAbsent_reply :
    (s.putIfAbsent env map key val ttlMs).2 =
      (Inner.seen env.now (s.contents (map, key))).map Cell.val :=
  (putIfAbsent_sets (h.shard map key) env.toEnv map key val ttlMs
    (nextStampAt s.memberId s.stampSeq env.wallMs) hfit).2

theorem Inv.replace :
    (s.replace env map key val).1.Inv ∧
      (s.replace env map key val).1.contents = update s.contents (map, key)
        ((Inner.seen env.now (s.contents (map, key))).map fun c => { c with val := val }) := by
  exact h.setShard (replace_sets (h.shard map key) env.toEnv map key val hfit).1 rfl

theorem Inv.replace_reply :
    (s.replace env map key val).2 = (Inner.seen env.now (s.contents (map, key))).map Cell.val :=
  (replace_sets (h.shard map key) env.toEnv map key val hfit).2

theorem Inv.applyWan_put :
    (s.applyWan env true map key val ttlMs stamp).Inv ∧
      (s.applyWan env true map key val ttlMs stamp).contents =
        update s.contents (map, key) (some (Inner.mergeCell
          (Inner.seen env.now (s.contents (map, key)))
          ⟨val, Inner.deadline env.now ttlMs, stamp⟩ true)) := by
  exact h.setShard (putMerge_sets (h.shard map key) env.toEnv map key val ttlMs stamp true
    hfit) rfl

end

theorem Inv.applyWan_remove :
    (s.applyWan env false map key val ttlMs stamp).Inv ∧
      (s.applyWan env false map key val ttlMs stamp).contents =
        update s.contents (map, key) none := by
  exact h.setShard (remove_sets (h.shard map key) env.toEnv map key).1 rfl

theorem Inv.mcUpdate {R : Type} (f : Option Bytes → McAction × R)
    (hfit : ∀ new ttl, (f ((Inner.seen env.now (s.contents (map, key))).map Cell.val)).1 =
      .store new ttl → key.length + new.length < 2 ^ 32) :
    (s.mcUpdate env map key f).1.Inv ∧
      (s.mcUpdate env map key f).1.contents = update s.contents (map, key)
        (match (f ((Inner.seen env.now (s.contents (map, key))).map Cell.val)).1 with
        | .store new ttl => some ⟨new, Inner.deadline env.now ttl,
            nextStampAt s.memberId s.stampSeq env.wallMs⟩
        | .remove => none
        | .keep => Inner.seen env.now (s.contents (map, key))) := by
  obtain ⟨hs, hret⟩ := get_sets (h.shard map key) env.toEnv map key
  have hnow : (s.shard map key).contents (map, key) = s.contents (map, key) := rfl
  rw [hnow] at hs hret
  rw [Store.mcUpdate]
  dsimp only
  rw [show ((s.nextStamp env).1.shard map key) = s.shard map key from rfl, hret]
  cases hact : (f ((seen env.now (s.contents (map, key))).map Cell.val)).1 with
  | store new ttl =>
    exact h.setShard (hs.trans (put_sets hs.ok env.toEnv map key new ttl
      (nextStampAt s.memberId s.stampSeq env.wallMs) (hfit new ttl hact)).1) rfl
  | remove => exact h.setShard (hs.trans (remove_sets hs.ok env.toEnv map key).1) rfl
  | keep => exact h.setShard hs rfl

theorem Inv.mcUpdate_reply {R : Type} (f : Option Bytes → McAction × R) :
    (s.mcUpdate env map key f).2 =
      (f ((Inner.seen env.now (s.contents (map, key))).map Cell.val)).2 := by
  exact congrArg (fun v => (f v).2) (get_sets (h.shard map key) env.toEnv map key).2

theorem Inv.clear :
    (s.clear map).Inv ∧
      (s.clear map).contents = fun mk => if mk.1 = map then none else s.contents mk := by
  have hlen : (s.clear map).shards.length = s.shards.length := length_map _
  refine ⟨⟨hlen ▸ h.pos, fun x hx => ?_, fun i x hx mk hmk => ?_⟩, ?_⟩
  · obtain ⟨inner, hinner, rfl⟩ := mem_map.1 hx
    exact (clear_spec (h.shards inner hinner) map).1
  · rw [Store.clear, getElem?_map, map_eq_some_iff] at hx
    obtain ⟨inner, hinner, rfl⟩ := hx
    rw [(clear_spec (h.shards inner (mem_of_getElem? hinner)) map).2] at hmk
    rw [hlen]
    refine h.placed i inner hinner mk fun hnone => hmk ?_
    dsimp only
    rw [hnone, ite_self]
  · funext mk
    have hshard : (s.clear map).shard mk.1 mk.2 = (s.shard mk.1 mk.2).clear map := by
      rw [Store.shard, hlen, Store.clear, getD_eq_getElem?_getD, getElem?_map,
        getElem?_shard h.pos]
      rfl
    rw [contents, hshard, (clear_spec (h.shard mk.1 mk.2) map).2]
    rfl

end Mutators

end BonsaiGrid.Store
