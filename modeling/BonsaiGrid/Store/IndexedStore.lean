import BonsaiGrid.Store.Contents
import BonsaiGrid.Store.Indexed

/-!
# A store with indexes

The shards of a store with their indexes, the schemas by which fields are read, and the queries,
which go through all shards. The store below changes with every mutator as it does without
indexes.
-/

namespace BonsaiGrid.Store

open Query Serialization Protocol List Inner

/-- A store, the indexes of its shards and the schemas that it knows. -/
structure IndexedStore where
  base : Store
  tables : List Tables
  schemas : SchemaService

inductive IndexCall where
  | put (map : Str) (key val : Bytes) (ttlMs : ℕ)
  | putIfAbsent (map : Str) (key val : Bytes) (ttlMs : ℕ)
  | putMerge (map : Str) (key val : Bytes) (ttlMs stamp : ℕ) (latestUpdate : Bool)
  | replace (map : Str) (key val : Bytes)
  | remove (map : Str) (key : Bytes)
  | get (map : Str) (key : Bytes)
  | clear (map : Str)
  | addIndex (map : Str) (config : IndexConfig)
  | putSchema (schema : Schema)

namespace IndexCall

def isAddIndex : IndexCall → Bool
  | addIndex _ _ => true
  | _ => false

def Fits : IndexCall → Prop
  | put _ key val _ => key.length + val.length < 2 ^ 32
  | putIfAbsent _ key val _ => key.length + val.length < 2 ^ 32
  | putMerge _ key val _ _ _ => key.length + val.length < 2 ^ 32
  | replace _ key val => key.length + val.length < 2 ^ 32
  | _ => True

def onStore (s : Store) (env : StoreEnv) : IndexCall → Store
  | put map key val ttlMs => (s.putTtl env map key val ttlMs).1
  | putIfAbsent map key val ttlMs => (s.putIfAbsent env map key val ttlMs).1
  | putMerge map key val ttlMs stamp latestUpdate =>
    s.putMerge env map key val ttlMs stamp latestUpdate
  | replace map key val => (s.replace env map key val).1
  | remove map key => (s.remove env map key).1
  | get map key => (s.get env map key).1
  | clear map => s.clear map
  | addIndex _ _ => s
  | putSchema _ => s

def onSchemas (s : SchemaService) : IndexCall → SchemaService
  | putSchema schema => s.put schema
  | _ => s

end IndexCall

namespace IndexedStore

def withShardsSeed (n memberId : ℕ) : IndexedStore where
  base := Store.withShardsSeed n memberId
  tables := replicate n .empty
  schemas := ∅

variable (s : IndexedStore)

def extract (value : Bytes) (field : Str) : FieldValue :=
  autoExtract value s.schemas field

def place (map : Str) (key : Bytes) : ℕ := shardOf map key s.base.shards.length

def shard (map : Str) (key : Bytes) : Indexed :=
  ⟨s.base.shard map key, s.tables.getD (s.place map key) .empty⟩

def setShard (map : Str) (key : Bytes) (x : Indexed) : IndexedStore :=
  { s with
    base := s.base.setShard map key x.inner
    tables := s.tables.set (s.place map key) x.tables }

def shards : List Indexed :=
  (s.base.shards.zip s.tables).map fun x => ⟨x.1, x.2⟩

def withShards (xs : List Indexed) : IndexedStore :=
  { s with
    base := { s.base with shards := xs.map Indexed.inner }
    tables := xs.map Indexed.tables }

def putTtl (env : StoreEnv) (map : Str) (key val : Bytes) (ttlMs : ℕ) :
    IndexedStore × Option Bytes :=
  let (base, stamp) := s.base.nextStamp env
  let s := { s with base }
  let r := (s.shard map key).put s.extract env.toEnv map key val ttlMs stamp
  let s := s.setShard map key r.1
  ({ s with base := s.base.emit (.mapPut stamp ttlMs map key val) }, r.2)

def putIfAbsent (env : StoreEnv) (map : Str) (key val : Bytes) (ttlMs : ℕ) :
    IndexedStore × Option Bytes :=
  let (base, stamp) := s.base.nextStamp env
  let s := { s with base }
  let r := (s.shard map key).putIfAbsent s.extract env.toEnv map key val ttlMs stamp
  (s.setShard map key r.1, r.2)

def putMerge (env : StoreEnv) (map : Str) (key val : Bytes) (ttlMs stamp : ℕ)
    (latestUpdate : Bool) : IndexedStore :=
  let s := { s with base := s.base.observe stamp }
  let x := (s.shard map key).putMerge s.extract env.toEnv map key val ttlMs stamp latestUpdate
  let s := s.setShard map key x
  { s with base := s.base.emit (.mapPut stamp ttlMs map key val) }

def replace (env : StoreEnv) (map : Str) (key val : Bytes) :
    IndexedStore × Option Bytes :=
  let r := (s.shard map key).replace s.extract env.toEnv map key val
  (s.setShard map key r.1, r.2)

def remove (env : StoreEnv) (map : Str) (key : Bytes) :
    IndexedStore × Option Bytes :=
  let r := (s.shard map key).remove s.extract env.toEnv map key
  let s := s.setShard map key r.1
  let (base, stamp) := s.base.nextStamp env
  ({ s with base := base.emit (.mapRemove stamp map key) }, r.2)

def get (env : StoreEnv) (map : Str) (key : Bytes) :
    IndexedStore × Option Bytes :=
  let r := (s.shard map key).get env.toEnv map key
  (s.setShard map key r.1, r.2)

def clear (map : Str) : IndexedStore := { s with base := s.base.clear map }

def addIndex (env : StoreEnv) (map : Str) (config : IndexConfig) :
    IndexedStore :=
  s.withShards (s.shards.map fun x => x.addIndex s.extract env.toEnv map config)

def putSchema (schema : Schema) : IndexedStore :=
  { s with schemas := s.schemas.put schema }

def exec (env : StoreEnv) : IndexCall → IndexedStore
  | .put map key val ttlMs => (s.putTtl env map key val ttlMs).1
  | .putIfAbsent map key val ttlMs => (s.putIfAbsent env map key val ttlMs).1
  | .putMerge map key val ttlMs stamp latestUpdate =>
    s.putMerge env map key val ttlMs stamp latestUpdate
  | .replace map key val => (s.replace env map key val).1
  | .remove map key => (s.remove env map key).1
  | .get map key => (s.get env map key).1
  | .clear map => s.clear map
  | .addIndex map config => s.addIndex env map config
  | .putSchema schema => s.putSchema schema

/-! ## Queries -/

def pageOf (page pageSize : Int32) (matched : List (Bytes × Bytes)) :
    Except Fault (List (Bytes × Bytes)) :=
  let matched := matched.insertionSort fun a b => a.1 ≤ b.1
  let size := asUsize pageSize.toInt
  let start := min (asUsize page.toInt * size % 2 ^ 64) matched.length
  let stop := min ((start + size) % 2 ^ 64) matched.length
  Fault.slice matched start stop

section Query

variable (patterns : Patterns)

def queryShards (ex : Bytes → Str → FieldValue) (env : Env) (map : Str) (p : Predicate) :
    List Indexed → Except Fault (List Indexed × List (Bytes × Bytes))
  | [] => .ok ([], [])
  | x :: xs => do
      let (x, out) ← x.query patterns ex env map p
      let (xs, rest) ← queryShards ex env map p xs
      .ok (x :: xs, out ++ rest)

def query (s : IndexedStore) (env : StoreEnv) (map : Str) :
    Predicate → Except Fault (IndexedStore × List (Bytes × Bytes))
  | .paging (some inner) page pageSize _ => do
      let (s, matched) ← query s env map inner
      let out ← pageOf page pageSize matched
      .ok (s, out)
  | .paging none page pageSize _ => do
      let out ← pageOf page pageSize (s.base.entries env.now map)
      .ok (s, out)
  | .partition pid target => do
      let (s, results) ← query s env map target
      .ok (s, results.filter fun e => partitionId e.1 271 = pid)
  | p => do
      let (xs, out) ← queryShards patterns s.extract env.toEnv map p s.shards
      .ok (s.withShards xs, out)

end Query

/-! ## The store below -/

section Below

variable {s : IndexedStore} {env : StoreEnv} {map : Str} {key val : Bytes} {x : Indexed}

@[simp] theorem base_setShard : (s.setShard map key x).base = s.base.setShard map key x.inner := rfl

theorem map_inner_shards (hlen : s.tables.length = s.base.shards.length) :
    s.shards.map Indexed.inner = s.base.shards := by
  rw [shards, map_map]
  exact map_fst_zip hlen.ge

theorem getElem?_shards {i : ℕ} : s.shards[i]? = some x ↔
    s.base.shards[i]? = some x.inner ∧ s.tables[i]? = some x.tables := by
  rw [shards, getElem?_map, Option.map_eq_some_iff]
  constructor
  · rintro ⟨z, hz, rfl⟩
    exact getElem?_zip_eq_some.1 hz
  · intro h
    exact ⟨(x.inner, x.tables), getElem?_zip_eq_some.2 h, rfl⟩

theorem shards_withShards (xs : List Indexed) : (s.withShards xs).shards = xs := by
  rw [shards, withShards, zip_map', map_map]
  exact map_id xs

theorem base_exec (hlen : s.tables.length = s.base.shards.length) (c : IndexCall) :
    (s.exec env c).base = c.onStore s.base env := by
  cases c with
  | put map key val ttlMs => rfl
  | putIfAbsent map key val ttlMs =>
    rw [exec, putIfAbsent, IndexCall.onStore]
    rw [base_setShard, Indexed.inner_putIfAbsent]
    rfl
  | putMerge map key val ttlMs stamp latestUpdate =>
    rw [exec, putMerge, IndexCall.onStore]
    rw [base_setShard, Indexed.inner_putMerge]
    rfl
  | replace map key val =>
    rw [exec, replace, IndexCall.onStore]
    rw [base_setShard, Indexed.inner_replace]
    rfl
  | remove map key =>
    rw [exec, remove, IndexCall.onStore]
    rw [base_setShard, Indexed.inner_remove]
    rfl
  | get map key | clear map => rfl
  | addIndex map config =>
    have hinner : (s.shards.map fun x => x.addIndex s.extract env.toEnv map config).map
        Indexed.inner = s.base.shards := by
      rw [map_map]
      exact map_inner_shards hlen
    rw [exec, addIndex, withShards, hinner]
    rfl
  | putSchema schema => rfl

theorem schemas_exec (c : IndexCall) : (s.exec env c).schemas = c.onSchemas s.schemas := by
  cases c <;> rfl

end Below

/-! ## Indexes that cover -/

/-- Some configuration of some shard names the attribute. -/
def Configured (map attr : Str) : Prop := ∃ t ∈ s.tables, t.Configured map attr

/-- The store below is in order and the indexes of every shard cover it. -/
structure Inv (s : IndexedStore) (now : ℕ) : Prop where
  base : s.base.Inv
  length : s.tables.length = s.base.shards.length
  covers : ∀ x ∈ s.shards, x.tables.Covers s.extract now x.inner.contents

section Covering

variable {s : IndexedStore} {now : ℕ} {env : StoreEnv} {map : Str} {key val : Bytes} {x : Indexed}

theorem Inv.inner_mem (h : s.Inv now) (hx : x ∈ s.shards) : x.inner ∈ s.base.shards := by
  rw [← map_inner_shards h.length]
  exact mem_map_of_mem hx

theorem Inv.good (h : s.Inv now) (hx : x ∈ s.shards) : x.Good s.extract now :=
  ⟨(h.base.shards _ (h.inner_mem hx)).1, (h.base.shards _ (h.inner_mem hx)).2, h.covers x hx⟩

theorem Inv.shard_mem (h : s.Inv now) (map : Str) (key : Bytes) : s.shard map key ∈ s.shards := by
  have hlt : s.place map key < s.tables.length := h.length ▸ shardOf_lt map key h.base.pos
  refine mem_iff_getElem?.2 ⟨s.place map key, getElem?_shards.2
    ⟨getElem?_shard h.base.pos map key, ?_⟩⟩
  rw [shard, getD_eq_getElem?_getD, getElem?_eq_getElem hlt]
  rfl

theorem Inv.contents_eq (h : s.Inv now) (hx : x ∈ s.shards) {c : Cell} {mk : Str × Bytes}
    (hc : x.inner.contents mk = some c) : s.base.contents mk = some c := by
  obtain ⟨i, hi⟩ := mem_iff_getElem?.1 hx
  have hi := (getElem?_shards.1 hi).1
  have hplace := h.base.placed i x.inner hi mk (by simp [hc])
  have hget := getElem?_shard h.base.pos mk.1 mk.2
  rw [hplace, hi] at hget
  rw [contents, ← Option.some.inj hget, hc]

theorem Inv.seen_eq (h : s.Inv now) (hx : x ∈ s.shards) {c : Cell} {mk : Str × Bytes}
    (hc : Inner.seen now (x.inner.contents mk) = some c) :
    Inner.seen now (s.base.contents mk) = some c := by
  have hcell := contents_of_seen hc
  rw [h.contents_eq hx hcell]
  rwa [hcell] at hc

theorem Inv.mono (h : s.Inv now) {now' : ℕ} (hle : now ≤ now') : s.Inv now' where
  base := h.base
  length := h.length
  covers := fun x hx => (h.covers x hx).mono fun mk c hc => by
    simp only [seen, Option.filter_eq_some_iff, Cell.live, Bool.or_eq_true, beq_iff_eq,
      decide_eq_true_eq] at hc ⊢
    exact ⟨hc.1, hc.2.imp_right hle.trans_lt⟩

theorem Inv.setShard (h : s.Inv now) (hgood : x.Good s.extract now) {c : Option Cell}
    (hs : (s.base.shard map key).Sets map key c x.inner) :
    (s.setShard map key x).Inv now where
  base := (h.base.setShard hs rfl).1
  length := by simp [IndexedStore.setShard, Store.setShard, h.length]
  covers := by
    intro y hy
    obtain ⟨i, hi⟩ := mem_iff_getElem?.1 hy
    obtain ⟨hinner, htables⟩ := getElem?_shards.1 hi
    change (s.base.shards.set (s.place map key) x.inner)[i]? = some y.inner at hinner
    change (s.tables.set (s.place map key) x.tables)[i]? = some y.tables at htables
    have hlt : s.place map key < s.base.shards.length := shardOf_lt map key h.base.pos
    by_cases heq : s.place map key = i
    · rw [← heq, getElem?_set_self hlt] at hinner
      rw [← heq, getElem?_set_self (h.length ▸ hlt)] at htables
      rw [← Option.some.inj hinner, ← Option.some.inj htables]
      exact hgood.covers
    · rw [getElem?_set_ne heq] at hinner
      rw [getElem?_set_ne heq] at htables
      exact h.covers y (mem_iff_getElem?.2 ⟨i, getElem?_shards.2 ⟨hinner, htables⟩⟩)

theorem Inv.withBase (h : s.Inv now) {base : Store} (hshards : base.shards = s.base.shards) :
    Inv { s with base } now where
  base := h.base.congr hshards
  length := h.length.trans (congrArg List.length hshards.symm)
  covers := by
    intro x hx
    rw [shards, hshards] at hx
    exact h.covers x hx

theorem inv_withShardsSeed {n : ℕ} (hn : 0 < n) (memberId now : ℕ) :
    (withShardsSeed n memberId).Inv now where
  base := (Store.inv_withShardsSeed hn memberId).1
  length := by simp [withShardsSeed, Store.withShardsSeed]
  covers := by
    intro x hx
    obtain ⟨i, hi⟩ := mem_iff_getElem?.1 hx
    have hempty := eq_of_mem_replicate (mem_of_getElem? (getElem?_shards.1 hi).2)
    rw [hempty]
    exact Tables.covers_empty _ _ _

theorem Inv.clear (h : s.Inv env.now) (map : Str) : (s.clear map).Inv env.now where
  base := (h.base.clear map).1
  length := h.length.trans (length_map _).symm
  covers := by
    intro y hy
    obtain ⟨i, hi⟩ := mem_iff_getElem?.1 hy
    obtain ⟨hinner, htables⟩ := getElem?_shards.1 hi
    change (s.base.shards.map fun inner => inner.clear map)[i]? = some y.inner at hinner
    rw [getElem?_map, Option.map_eq_some_iff] at hinner
    obtain ⟨inner, hinner, hclear⟩ := hinner
    have hmem : ⟨inner, y.tables⟩ ∈ s.shards :=
      mem_iff_getElem?.2 ⟨i, getElem?_shards.2 ⟨hinner, htables⟩⟩
    rw [← hclear]
    exact ((h.good hmem).clear map).covers

theorem Inv.addIndex (h : s.Inv env.now) (map : Str) (config : IndexConfig) :
    (s.addIndex env map config).Inv env.now := by
  have hlen : (s.addIndex env map config).tables.length =
      (s.addIndex env map config).base.shards.length := by
    simp [IndexedStore.addIndex, withShards]
  refine ⟨?_, hlen, ?_⟩
  · have hbase : (s.addIndex env map config).base = s.base :=
      base_exec h.length (.addIndex map config)
    rw [hbase]
    exact h.base
  · intro y hy
    rw [IndexedStore.addIndex, shards_withShards, mem_map] at hy
    obtain ⟨x, hx, rfl⟩ := hy
    exact ((h.good hx).addIndex map config).covers

theorem Inv.putSchema (h : s.Inv env.now) {schema : Schema}
    (hread : ∀ map attr, s.Configured map attr → ∀ key c,
      Inner.seen env.now (s.base.contents (map, key)) = some c →
      autoExtract c.val (s.schemas.put schema) attr = autoExtract c.val s.schemas attr) :
    (s.putSchema schema).Inv env.now where
  base := h.base
  length := h.length
  covers := by
    intro x hx
    obtain ⟨i, hi⟩ := mem_iff_getElem?.1 hx
    refine (h.covers x hx).congr_extract fun map attr hconf key c hc => ?_
    exact hread map attr ⟨x.tables, mem_of_getElem? (getElem?_shards.1 hi).2, hconf⟩ key c
      (h.seen_eq hx hc)

/-- What a call needs: lengths that fit, and no schema under which an attribute with an index
is read in another way. -/
structure Allows (s : IndexedStore) (env : StoreEnv) (c : IndexCall) : Prop where
  fits : c.Fits
  reads : ∀ schema, c = .putSchema schema → ∀ map attr, s.Configured map attr → ∀ key cell,
    Inner.seen env.now (s.base.contents (map, key)) = some cell →
    autoExtract cell.val (s.schemas.put schema) attr = autoExtract cell.val s.schemas attr

theorem Inv.exec (h : s.Inv env.now) {c : IndexCall} (hc : s.Allows env c) :
    (s.exec env c).Inv env.now := by
  have hstamp : Inv { s with base := (s.base.nextStamp env).1 } env.now := h.withBase rfl
  cases c with
  | put map key val ttlMs =>
    obtain ⟨hs, -⟩ := put_sets (h.base.shard map key) env.toEnv map key val ttlMs
      (s.base.nextStamp env).2 hc.fits
    have hgood := hstamp.good (hstamp.shard_mem map key)
    exact (hstamp.setShard (hgood.put hc.fits) hs).withBase rfl
  | putIfAbsent map key val ttlMs =>
    obtain ⟨hs, -⟩ := putIfAbsent_sets (h.base.shard map key) env.toEnv map key val ttlMs
      (s.base.nextStamp env).2 hc.fits
    have hgood := hstamp.good (hstamp.shard_mem map key)
    exact hstamp.setShard (hgood.putIfAbsent hc.fits) (by rwa [Indexed.inner_putIfAbsent])
  | putMerge map key val ttlMs stamp latestUpdate =>
    have hobs : Inv { s with base := s.base.observe stamp } env.now := h.withBase rfl
    have hs := putMerge_sets (h.base.shard map key) env.toEnv map key val ttlMs stamp
      latestUpdate hc.fits
    have hgood := hobs.good (hobs.shard_mem map key)
    exact (hobs.setShard (hgood.putMerge latestUpdate hc.fits)
      (by rwa [Indexed.inner_putMerge])).withBase rfl
  | replace map key val =>
    obtain ⟨hs, -⟩ := replace_sets (h.base.shard map key) env.toEnv map key val hc.fits
    have hgood := h.good (h.shard_mem map key)
    exact h.setShard (hgood.replace hc.fits) (by rwa [Indexed.inner_replace])
  | remove map key =>
    obtain ⟨hs, -⟩ := remove_sets (h.base.shard map key) env.toEnv map key
    have hgood := h.good (h.shard_mem map key)
    exact (h.setShard hgood.remove (by rwa [Indexed.inner_remove])).withBase rfl
  | get map key =>
    obtain ⟨hs, -⟩ := get_sets (h.base.shard map key) env.toEnv map key
    have hgood := h.good (h.shard_mem map key)
    exact h.setShard hgood.get hs
  | clear map => exact h.clear map
  | addIndex map config => exact h.addIndex map config
  | putSchema schema => exact h.putSchema (hc.reads schema rfl)

end Covering

end IndexedStore

end BonsaiGrid.Store
