import BonsaiGrid.Store.Pages

/-!
# Indexes do not change answers

A query on a store with indexes is compared with the scan of the store below. Both give the same
entries, in an order of their own.
-/

namespace BonsaiGrid.Store

open Query Serialization Protocol IndexedStore List

def core : Predicate → Option Predicate
  | .paging (some inner) _ _ _ => core inner
  | .paging none _ _ _ => none
  | .partition _ target => core target
  | p => some p

def PagesFit : Predicate → Prop
  | .paging (some inner) page pageSize _ => (0 ≤ pageSize.toInt ∨ page.toInt = 0) ∧ PagesFit inner
  | .paging none page pageSize _ => 0 ≤ pageSize.toInt ∨ page.toInt = 0
  | .partition _ target => PagesFit target
  | _ => True

def scan (patterns : Patterns) (s : Store) (schemas : SchemaService) (now : ℕ) (map : Str) :
    Predicate → Except Fault (List (Bytes × Bytes))
  | .paging (some inner) page pageSize _ => do
      let matched ← scan patterns s schemas now map inner
      pageOf page pageSize matched
  | .paging none page pageSize _ => pageOf page pageSize (s.entries now map)
  | .partition pid target => do
      let results ← scan patterns s schemas now map target
      .ok (results.filter fun e => partitionId e.1 271 = pid)
  | p => .ok ((s.entries now map).filter fun e =>
    eval patterns (autoExtract e.2 schemas) p)

/-! ## Pages -/

section Pages

variable {l l' : List (Bytes × Bytes)} {page pageSize : Int32}

theorem insertionSort_eq (hperm : l.Perm l') (hnodup : (l'.map Prod.fst).Nodup) :
    l.insertionSort (fun a b => a.1 ≤ b.1) = l'.insertionSort fun a b => a.1 ≤ b.1 := by
  refine List.Perm.eq_of_pairwise ?_ (pairwise_insertionSort _ l)
    (pairwise_insertionSort _ l')
    ((perm_insertionSort _ l).trans (hperm.trans (perm_insertionSort _ l').symm))
  intro a b ha hb hab hba
  rw [(perm_insertionSort _ l).mem_iff, hperm.mem_iff] at ha
  rw [(perm_insertionSort _ l').mem_iff] at hb
  exact inj_on_of_nodup_map hnodup ha hb (List.le_antisymm hab hba)

theorem pageOf_congr (hperm : l.Perm l') (hnodup : (l'.map Prod.fst).Nodup) :
    pageOf page pageSize l = pageOf page pageSize l' := by
  rw [pageOf, pageOf, insertionSort_eq hperm hnodup]

theorem pageOf_returns (hfit : 0 ≤ pageSize.toInt ∨ page.toInt = 0) (hlen : l.length < 2 ^ 63) :
    ∃ r, pageOf page pageSize l = .ok r ∧ r.Subperm l := by
  obtain ⟨r, hr⟩ : Fault.Returns (pageOf page pageSize l) :=
    (pageOf_returns_iff hlen).2 (hfit.imp_right Or.inl)
  refine ⟨r, hr, ?_⟩
  rw [pageOf, Fault.slice] at hr
  split at hr
  next =>
    cases hr
    have hperm := perm_insertionSort (fun a b : Bytes × Bytes => a.1 ≤ b.1) l
    refine List.Subperm.trans (List.Sublist.subperm ?_) hperm.subperm
    exact (drop_sublist _ _).trans (take_sublist _ _)
  next => cases hr

theorem nodup_keys_of_subperm (h : l.Subperm l') (hnodup : (l'.map Prod.fst).Nodup) :
    (l.map Prod.fst).Nodup := by
  obtain ⟨k, hperm, hsub⟩ := h
  exact (hperm.map Prod.fst).nodup_iff.1 (hnodup.sublist (hsub.map Prod.fst))

end Pages

/-! ## Queries and scans -/

variable {p : Predicate}

namespace IndexedStore

variable {patterns : Patterns} {ex : Bytes → Str → FieldValue} {env : StoreEnv} {map : Str}
  (s : IndexedStore)

def Fields (now : ℕ) (map field : Str) (fv : FieldValue) : Prop :=
  ∃ key c, Inner.seen now (s.base.contents (map, key)) = some c ∧ s.extract c.val field = fv

/-- No value that can be seen has a floating point number where there is an index. -/
def NoFloats (now : ℕ) (map : Str) : Prop :=
  ∀ x ∈ s.shards, x.NoFloats map (s.Fields now map)

/-- The index from which a shard answers the predicate can do so. -/
def Answers (now : ℕ) (map : Str) (p : Predicate) : Prop :=
  ∀ q, core p = some q → ∀ x ∈ s.shards, x.Answers map (s.Fields now map) q

theorem queryShards_perm {xs : List Indexed}
    (h : ∀ x ∈ xs, ∃ y r, x.query patterns ex env.toEnv map p = .ok (y, r) ∧
      r.Perm ((x.inner.collectEntries env.now map).filter fun e => eval patterns (ex e.2) p)) :
    ∃ ys r, queryShards patterns ex env.toEnv map p xs = .ok (ys, r) ∧
      r.Perm (((xs.map Indexed.inner).flatMap fun inner => inner.collectEntries env.now map).filter
        fun e => eval patterns (ex e.2) p) := by
  induction xs with
  | nil => exact ⟨[], [], rfl, List.Perm.refl _⟩
  | cons x xs ih =>
    obtain ⟨y, r, hy, hperm⟩ := h x mem_cons_self
    obtain ⟨ys, rest, hys, hrest⟩ := ih fun x hx => h x (mem_cons_of_mem _ hx)
    refine ⟨y :: ys, r ++ rest, ?_, ?_⟩
    · rw [queryShards, hy, hys]
      rfl
    · rw [map_cons, flatMap_cons, filter_append]
      exact hperm.append hrest

section Queries

variable {s : IndexedStore} (h : s.Inv env.now) (hfloats : s.NoFloats env.now map)
include h hfloats

theorem Inv.query_flat (patterns : Patterns)
    (hans : ∀ x ∈ s.shards, x.Answers map (s.Fields env.now map) p) :
    ∃ ys r, queryShards patterns s.extract env.toEnv map p s.shards = .ok (ys, r) ∧
      r.Perm ((s.base.entries env.now map).filter fun e => eval patterns (s.extract e.2) p) := by
  rw [Store.entries, ← map_inner_shards h.length]
  refine queryShards_perm fun x hx => ?_
  exact (h.good hx).query (hfloats x hx)
    (fun key c attr hc => ⟨key, c, h.seen_eq hx hc, rfl⟩) (hans x hx)

theorem Inv.query (patterns : Patterns) (hlen : (s.base.entries env.now map).length < 2 ^ 63)
    (hans : s.Answers env.now map p) (hfit : PagesFit p) :
    ∃ s' r r', s.query patterns env map p = .ok (s', r) ∧
      scan patterns s.base s.schemas env.now map p = .ok r' ∧ r.Perm r' ∧
      r'.Subperm (s.base.entries env.now map) := by
  have hnodup := h.base.nodup_entries env.now map
  induction p using core.induct with
  | case1 inner page pageSize ty ih =>
    obtain ⟨s', r, r', hq, hscan, hperm, hsub⟩ := ih hans hfit.2
    obtain ⟨out, hout, hpart⟩ := pageOf_returns hfit.1 (hsub.length_le.trans_lt hlen)
    have hkeys := nodup_keys_of_subperm hsub hnodup
    refine ⟨s', out, out, ?_, ?_, List.Perm.refl _, hpart.trans hsub⟩
    · rw [IndexedStore.query, hq, Fault.ok_bind]
      dsimp only
      rw [pageOf_congr hperm hkeys, hout]
      rfl
    · rw [scan, hscan, Fault.ok_bind, hout]
  | case2 page pageSize ty =>
    obtain ⟨out, hout, hpart⟩ := pageOf_returns hfit hlen
    refine ⟨s, out, out, ?_, hout, List.Perm.refl _, hpart⟩
    rw [IndexedStore.query, hout]
    rfl
  | case3 pid target ih =>
    obtain ⟨s', r, r', hq, hscan, hperm, hsub⟩ := ih hans hfit
    refine ⟨s', r.filter fun e => partitionId e.1 271 = pid,
      r'.filter fun e => partitionId e.1 271 = pid, ?_, ?_, hperm.filter _,
      filter_sublist.subperm.trans hsub⟩
    · rw [IndexedStore.query, hq]
      rfl
    · rw [scan, hscan]
      rfl
  | case4 p hpage hall hpart =>
    have hcore : core p = some p := by rw [core] <;> assumption
    obtain ⟨ys, r, hq, hperm⟩ := h.query_flat hfloats patterns (hans p hcore)
    refine ⟨s.withShards ys, r, _, ?_, ?_, hperm, filter_sublist.subperm⟩
    · rw [IndexedStore.query, hq]
      · rfl
      all_goals assumption
    · rw [scan]
      · rfl
      all_goals assumption

end Queries

/-! ## Histories -/

def Bare : Prop := ∀ t ∈ s.tables, t.configs = ∅

section Bare

variable {s : IndexedStore} {now : ℕ}

theorem Bare.not_configured (h : s.Bare) (map attr : Str) : ¬ s.Configured map attr := by
  rintro ⟨t, ht, hconf⟩
  rw [Tables.Configured, Tables.mapConfigs, h t ht] at hconf
  cases hconf

theorem Bare.index_eq_none (h : s.Bare) (hinv : s.Inv now) {x : Indexed} (hx : x ∈ s.shards)
    (map attr : Str) : x.tables.index map attr = none := by
  by_contra hne
  obtain ⟨i, hi⟩ := mem_iff_getElem?.1 hx
  exact h.not_configured map attr ⟨x.tables, mem_of_getElem? (getElem?_shards.1 hi).2,
    (hinv.covers x hx).known map attr hne⟩

theorem Bare.noFloats (h : s.Bare) (hinv : s.Inv now) (map : Str) : s.NoFloats now map :=
  fun _ hx attr hne => absurd (h.index_eq_none hinv hx map attr) hne

theorem Bare.answers (h : s.Bare) (hinv : s.Inv now) (map : Str) (p : Predicate) :
    s.Answers now map p := by
  intro q hq x hx ix hix field a y hpick
  have hlook := (of_pick ⟨fun _ _ _ => false, fun _ _ => false⟩ (fun _ => .null) q hpick).1.1
  have hindex := h.index_eq_none hinv hx map field
  rw [Tables.index, hix, Option.bind_some, hlook] at hindex
  cases hindex

theorem Bare.exec (h : s.Bare) (env : StoreEnv) {c : IndexCall} (hc : c.isAddIndex = false) :
    (s.exec env c).Bare := by
  have hshard : ∀ base map key, (shard { s with base } map key).tables.configs = ∅ := by
    intro base map key
    rw [shard, getD_eq_getElem?_getD]
    cases hget : s.tables[place { s with base } map key]? with
    | none => rfl
    | some t => exact h t (mem_of_getElem? hget)
  have hset : ∀ i (t : Tables), t.configs = ∅ → ∀ t' ∈ s.tables.set i t, t'.configs = ∅ := by
    intro i t ht t' ht'
    rcases mem_or_eq_of_mem_set ht' with ht' | rfl
    · exact h t' ht'
    · exact ht
  cases c with
  | put map key val ttlMs => exact hset _ _ (Indexed.configs_put.trans (hshard _ map key))
  | putIfAbsent map key val ttlMs =>
    exact hset _ _ (Indexed.configs_putIfAbsent.trans (hshard _ map key))
  | putMerge map key val ttlMs stamp latestUpdate =>
    exact hset _ _ ((Indexed.configs_putMerge latestUpdate).trans (hshard _ map key))
  | replace map key val => exact hset _ _ (Indexed.configs_replace.trans (hshard s.base map key))
  | remove map key => exact hset _ _ (Indexed.configs_remove.trans (hshard s.base map key))
  | get map key => exact hset _ _ (hshard s.base map key)
  | clear map => exact h
  | addIndex map config => cases hc
  | putSchema schema => exact h

end Bare

end IndexedStore

structure Timed where
  clock : ℕ
  store : IndexedStore

namespace Timed

def init (n memberId : ℕ) : Timed := ⟨0, IndexedStore.withShardsSeed n memberId⟩

def exec (m : Timed) (c : StoreEnv × IndexCall) : Timed := ⟨c.1.now, m.store.exec c.1 c.2⟩

/-- The clock does not go back, and the store allows the call. -/
def Allows (m : Timed) (c : StoreEnv × IndexCall) : Prop :=
  m.clock ≤ c.1.now ∧ m.store.Allows c.1 c.2

def run (m : Timed) (calls : List (StoreEnv × IndexCall)) : Timed := calls.foldl exec m

def unindexed (calls : List (StoreEnv × IndexCall)) : List (StoreEnv × IndexCall) :=
  calls.filter fun c => !c.2.isAddIndex

structure Twins (m m' : Timed) : Prop where
  inv : m.store.Inv m.clock
  inv' : m'.store.Inv m'.clock
  clock : m'.clock ≤ m.clock
  base : m'.store.base = m.store.base
  schemas : m'.store.schemas = m.store.schemas
  bare : m'.store.Bare

variable {m m' : Timed}

theorem Twins.exec (h : Twins m m') {c : StoreEnv × IndexCall} (hc : m.Allows c) :
    Twins (m.exec c) (if c.2.isAddIndex then m' else m'.exec c) := by
  have hinv := h.inv.mono hc.1
  have hinv' := h.inv'.mono (h.clock.trans hc.1)
  cases hadd : c.2.isAddIndex with
  | true =>
    obtain ⟨env, call⟩ := c
    cases call with
    | addIndex map config =>
      have hbase : (m.store.exec env (.addIndex map config)).base = m.store.base :=
        base_exec hinv.length _
      exact ⟨hinv.exec hc.2, h.inv', h.clock.trans hc.1, h.base.trans hbase.symm, h.schemas,
        h.bare⟩
    | _ => cases hadd
  | false =>
    have hallows : m'.store.Allows c.1 c.2 :=
      ⟨hc.2.fits, fun _ _ map attr hconf => absurd hconf (h.bare.not_configured map attr)⟩
    have hbase : (m'.store.exec c.1 c.2).base = (m.store.exec c.1 c.2).base := by
      rw [base_exec hinv'.length, base_exec hinv.length, h.base]
    have hschemas : (m'.store.exec c.1 c.2).schemas = (m.store.exec c.1 c.2).schemas := by
      rw [schemas_exec, schemas_exec, h.schemas]
    exact ⟨hinv.exec hc.2, hinv'.exec hallows, le_rfl, hbase, hschemas, h.bare.exec c.1 hadd⟩

theorem Twins.run (h : Twins m m') {calls : List (StoreEnv × IndexCall)}
    (hcalls : Trace.Allowed Timed.exec Allows m calls) :
    Twins (m.run calls) (m'.run (unindexed calls)) := by
  induction calls generalizing m m' with
  | nil => exact h
  | cons c calls ih =>
    have hstep := ih (h.exec hcalls.1) hcalls.2
    cases hadd : c.2.isAddIndex with
    | true | false => simpa [hadd, Timed.run, unindexed] using hstep

theorem twins_init {n : ℕ} (hn : 0 < n) (memberId : ℕ) :
    Twins (init n memberId) (init n memberId) where
  inv := IndexedStore.inv_withShardsSeed hn memberId 0
  inv' := IndexedStore.inv_withShardsSeed hn memberId 0
  clock := le_rfl
  base := rfl
  schemas := rfl
  bare := by
    intro t ht
    rw [eq_of_mem_replicate ht]
    rfl

end Timed

/-- A query after a history returns the same entries as after the history without its indexes. -/
theorem indexes_keep_answers (patterns : Patterns) {n : ℕ} (hn : 0 < n) (memberId : ℕ)
    (calls : List (StoreEnv × IndexCall))
    (hcalls : Trace.Allowed Timed.exec Timed.Allows (Timed.init n memberId) calls)
    (env : StoreEnv) (hnow : ((Timed.init n memberId).run calls).clock ≤ env.now) (map : Str)
    (hlen : (((Timed.init n memberId).run calls).store.base.entries env.now map).length < 2 ^ 63)
    (hfloats : ((Timed.init n memberId).run calls).store.NoFloats env.now map) (p : Predicate)
    (hans : ((Timed.init n memberId).run calls).store.Answers env.now map p) (hfit : PagesFit p) :
    ∃ s r s' r',
      ((Timed.init n memberId).run calls).store.query patterns env map p = .ok (s, r) ∧
      ((Timed.init n memberId).run (Timed.unindexed calls)).store.query patterns env map p =
        .ok (s', r') ∧ ∀ e, e ∈ r ↔ e ∈ r' := by
  have htwins := (Timed.twins_init hn memberId).run hcalls
  have hinv := htwins.inv.mono hnow
  have hinv' := htwins.inv'.mono (htwins.clock.trans hnow)
  obtain ⟨s, r, q, hquery, hscan, hperm, -⟩ :=
    hinv.query hfloats patterns hlen hans hfit
  obtain ⟨s', r', q', hquery', hscan', hperm', -⟩ := hinv'.query
    (htwins.bare.noFloats hinv' map) patterns (htwins.base ▸ hlen) (htwins.bare.answers hinv' map p) hfit
  rw [htwins.base, htwins.schemas, hscan] at hscan'
  cases hscan'
  exact ⟨s, r, s', r', hquery, hquery', fun e => (hperm.trans hperm'.symm).mem_iff⟩

/-! ## A map of ages -/

theorem valid_people : Utf8.valid [0x70] = true := by decide

theorem valid_age : Utf8.valid [0x61, 0x67, 0x65] = true := by decide

def people : Str := ⟨[0x70], valid_people⟩

def age : Str := ⟨[0x61, 0x67, 0x65], valid_age⟩

def atStart : StoreEnv := ⟨⟨0, 0⟩, 0⟩

def portableAge : Bytes :=
  [0, 0, 0, 0, 0xff, 0xff, 0xff, 0xff] ++ replicate 16 0 ++
    [0, 0, 0, 1, 0, 0, 0, 24, 0, 3, 0x61, 0x67, 0x65, 5, 0, 0, 0, 5]

def ageSchema : Schema := .new people [{ name := age, kind := FieldKind.int32 }]

def compactAge : Bytes :=
  [0, 0, 0, 0, 0xff, 0xff, 0xff, 0xc9] ++
    (LittleEndian.encode 8 ageSchema.id.toUInt64.toNat).reverse ++ [0, 0, 0, 5]

def addAges (ty : IndexType) : StoreEnv × IndexCall := (atStart, .addIndex people ⟨ty, [age]⟩)

def putAge (value : Bytes) : StoreEnv × IndexCall := (atStart, .put people [1] value 0)

def noPatterns : Patterns := ⟨fun _ _ _ => false, fun _ _ => false⟩

theorem fits_putAge : (putAge portableAge).2.Fits := by
  change [1].length + portableAge.length < 2 ^ 32
  decide +kernel

def answer (calls : List (StoreEnv × IndexCall)) (p : Predicate) :
    Except Fault (List (Bytes × Bytes)) :=
  (((Timed.init 1 0).run calls).store.query noPatterns atStart people p).map Prod.snd

def Indexed.answersOrdered (x : Indexed) (map : Str) (p : Predicate) : Bool :=
  ((x.tables.indexes.lookup map).bind fun ix => pick ix p).all fun r =>
    r.2.2.isSorted && match r.2.1 with
      | .between low high => low.cmp high != .gt
      | _ => true

variable {map : Str}

theorem Indexed.answers_of_ordered {x : Indexed}
    (h : x.answersOrdered map p = true) (fields : Str → FieldValue → Prop) :
    x.Answers map fields p := by
  intro ix hix field a y hpick
  simp only [answersOrdered, hix, Option.bind_some, hpick, Option.all_some, Bool.and_eq_true] at h
  refine ⟨?_, fun hhash => ?_⟩
  · rintro low high rfl
    simpa using h.2
  · rw [h.1] at hhash
    cases hhash

theorem IndexedStore.Inv.noFloats {s : IndexedStore} {now : ℕ} (h : s.Inv now)
    (hcheck : ∀ t ∈ s.tables, ∀ f ∈ Tables.fields (t.mapConfigs map),
      ∀ e ∈ s.base.entries now map, (s.extract e.2 f.2).isFloat = false) : s.NoFloats now map := by
  intro x hx attr hne fv hfv
  obtain ⟨key, c, hc, rfl⟩ := hfv
  obtain ⟨i, hi⟩ := mem_iff_getElem?.1 hx
  obtain ⟨f, hf, rfl⟩ := mem_map.1 ((h.covers x hx).known map attr hne)
  exact hcheck x.tables (mem_of_getElem? (getElem?_shards.1 hi).2) f hf (key, c.val)
    (h.base.mem_entries hc)

theorem indexes_keep_answers_age :
    ∃ s r s' r',
      ((Timed.init 1 0).run [addAges .sorted, putAge portableAge]).store.query noPatterns atStart
        people (.compare age .ge (.i64 3)) = .ok (s, r) ∧
      ((Timed.init 1 0).run (Timed.unindexed [addAges .sorted, putAge portableAge])).store.query
        noPatterns atStart people (.compare age .ge (.i64 3)) = .ok (s', r') ∧
      ∀ e, e ∈ r ↔ e ∈ r' := by
  have hallowed : Trace.Allowed Timed.exec Timed.Allows (Timed.init 1 0)
      [addAges .sorted, putAge portableAge] :=
    ⟨⟨le_rfl, trivial, fun _ h => by cases h⟩, ⟨le_rfl, fits_putAge, fun _ h => by cases h⟩,
      trivial⟩
  have hinv := ((Timed.twins_init Nat.one_pos 0).run hallowed).inv
  have hordered : ∀ x ∈ ((Timed.init 1 0).run [addAges .sorted, putAge portableAge]).store.shards,
      x.answersOrdered people (.compare age .ge (.i64 3)) = true := by decide +kernel
  refine indexes_keep_answers noPatterns Nat.one_pos 0 _ hallowed atStart le_rfl people
    (by decide +kernel) (hinv.noFloats (by decide +kernel)) _ (fun q hq x hx => ?_) trivial
  cases hq
  exact Indexed.answers_of_ordered (hordered x hx) _

/-- A hashed index does not find the age as an integer of 64 bits. A reversed range stops the
thread in a sorted index. A record that is put before its schema is known is not found in an
index. A page of a negative size stops the thread without an index. -/
theorem indexes_change_answers :
    (answer [addAges .hash, putAge portableAge] (.compare age .eq (.i64 5)) = .ok [] ∧
      answer [putAge portableAge] (.compare age .eq (.i64 5)) = .ok [([1], portableAge)]) ∧
    (answer [addAges .sorted, putAge portableAge] (.between age (.i32 10) (.i32 1)) =
        .error .outOfRange ∧
      answer [putAge portableAge] (.between age (.i32 10) (.i32 1)) = .ok []) ∧
    (answer [addAges .sorted, putAge compactAge, (atStart, .putSchema ageSchema)]
        (.compare age .eq (.i32 5)) = .ok [] ∧
      answer [putAge compactAge, (atStart, .putSchema ageSchema)] (.compare age .eq (.i32 5)) =
        .ok [([1], compactAge)]) ∧
    answer [putAge portableAge] (.paging none 1 (-1) age) = .error .outOfRange := by
  refine ⟨⟨?_, ?_⟩, ⟨?_, ?_⟩, ⟨?_, ?_⟩, ?_⟩ <;> decide +kernel

end BonsaiGrid.Store
