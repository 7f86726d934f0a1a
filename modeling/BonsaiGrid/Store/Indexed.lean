import BonsaiGrid.Store.Indexes

/-!
# Queries on a shard with indexes

The mutators of a shard with the upkeep of its indexes, and the query.
-/

namespace BonsaiGrid.Store

open Query Serialization Inner Option Function

structure Indexed where
  inner : Inner
  tables : Tables

namespace Indexed

section Mutators

variable (s : Indexed) (ex : Bytes → Str → FieldValue) (env : Env) (map : Str) (key val : Bytes)
  (ttlMs stamp : ℕ)

def put : Indexed × Option Bytes :=
  let r := s.inner.put env map key val ttlMs stamp
  (⟨r.1, s.tables.updateIndexes ex map key r.2 (some val)⟩, r.2)

def get : Indexed × Option Bytes :=
  let r := s.inner.get env map key
  ({ s with inner := r.1 }, r.2)

def remove : Indexed × Option Bytes :=
  let r := s.inner.remove env map key
  match r.2 with
  | none => ({ s with inner := r.1 }, none)
  | some old => (⟨r.1, s.tables.updateIndexes ex map key (some old) none⟩, some old)

def putIfAbsent : Indexed × Option Bytes :=
  match s.inner.find env map key with
  | (inner, some (_, e)) => ({ s with inner }, some (inner.valBytes e))
  | (inner, none) => ((put { s with inner } ex env map key val ttlMs stamp).1, none)

def putMerge (latestUpdate : Bool) : Indexed :=
  match s.inner.find env map key with
  | (inner, none) => (put { s with inner } ex env map key val ttlMs stamp).1
  | (inner, some (_, e)) =>
    if latestUpdate ∧ e.stamp < stamp then (put { s with inner } ex env map key val ttlMs stamp).1
    else { s with inner }

def replace : Indexed × Option Bytes :=
  let r := s.inner.replace env map key val
  match r.2 with
  | none => ({ s with inner := r.1 }, none)
  | some old => (⟨r.1, s.tables.updateIndexes ex map key (some old) (some val)⟩, some old)

def clear : Indexed := { s with inner := s.inner.clear map }

def addIndex (config : IndexConfig) : Indexed :=
  { s with tables := s.tables.addIndex ex map config (s.inner.collectEntries env.now map) }

end Mutators

def fetch (env : Env) (map : Str) (passes : Bytes → Bool) :
    Inner → List Bytes → Inner × List (Bytes × Bytes)
  | inner, [] => (inner, [])
  | inner, key :: keys =>
    let (inner, val) := inner.get env map key
    let (inner, rest) := fetch env map passes inner keys
    (inner, ((val.filter passes).map fun v => (key, v)).toList ++ rest)

def query (patterns : Patterns) (s : Indexed) (ex : Bytes → Str → FieldValue) (env : Env)
    (map : Str) (p : Predicate) : Except Fault (Indexed × List (Bytes × Bytes)) :=
  let passes (val : Bytes) : Bool := eval patterns (ex val) p
  let scanned := (s.inner.collectEntries env.now map).filter fun e => passes e.2
  match s.inner.mapIds.lookup map with
  | none => .ok (s, [])
  | some _ =>
    match s.tables.indexes.lookup map with
    | none => .ok (s, scanned)
    | some ix => do
        match ← planAndResolve ix p with
        | some keys =>
          let (inner, found) := fetch env map passes s.inner keys
          .ok ({ s with inner }, found)
        | none => .ok (s, scanned)

/-! ## Indexes that cover -/

structure Good (s : Indexed) (ex : Bytes → Str → FieldValue) (now : ℕ) : Prop where
  inv : s.inner.Inv
  plain : s.inner.Plain
  covers : s.tables.Covers ex now s.inner.contents

section Upkeep

variable {s : Indexed} {ex : Bytes → Str → FieldValue} {env : Env} {map : Str} {key val : Bytes}
  {ttlMs stamp : ℕ} {c : Option Cell}

theorem seen_idem (now : ℕ) (o : Option Cell) :
    Inner.seen now (Inner.seen now o) = Inner.seen now o := by
  simp [seen]

section

variable (h : s.Good ex env.now)

include h

theorem Good.ok : s.inner.Inv ∧ s.inner.Plain := ⟨h.inv, h.plain⟩

theorem Good.unseen
    (hc : Inner.seen env.now c = none ∨ Inner.seen env.now c =
      Inner.seen env.now (s.inner.contents (map, key))) :
    s.tables.Covers ex env.now (update s.inner.contents (map, key) c) := by
  refine h.covers.mono fun mk d hd => ?_
  by_cases hmk : mk = (map, key)
  · rw [hmk, update_self] at hd
    rcases hc with hc | hc
    · rw [hc] at hd
      cases hd
    · rwa [hmk, ← hc]
  · rwa [update_of_ne hmk] at hd

theorem Good.get : (s.get env map key).1.Good ex env.now := by
  obtain ⟨⟨⟨hinv, hplain⟩, hcont⟩, -⟩ := get_sets h.ok env map key
  refine ⟨hinv, hplain, ?_⟩
  change s.tables.Covers ex env.now (s.inner.get env map key).1.contents
  rw [hcont]
  exact h.unseen (.inr (seen_idem _ _))

theorem Good.put (hfit : key.length + val.length < 2 ^ 32) :
    (s.put ex env map key val ttlMs stamp).1.Good ex env.now := by
  obtain ⟨⟨⟨hinv, hplain⟩, hcont⟩, -⟩ := put_sets h.ok env map key val ttlMs stamp hfit
  refine ⟨hinv, hplain, ?_⟩
  change Tables.Covers _ ex env.now (s.inner.put env map key val ttlMs stamp).1.contents
  rw [hcont]
  refine h.covers.updateIndexes fun d hd => ?_
  rw [← some.inj (contents_of_seen hd)]

theorem Good.remove : (s.remove ex env map key).1.Good ex env.now := by
  obtain ⟨⟨⟨hinv, hplain⟩, hcont⟩, -⟩ := remove_sets h.ok env map key
  rw [Indexed.remove]
  cases (s.inner.remove env map key).2 with
  | none =>
    refine ⟨hinv, hplain, ?_⟩
    rw [hcont]
    exact h.unseen (.inl rfl)
  | some old =>
    refine ⟨hinv, hplain, ?_⟩
    rw [hcont]
    exact h.covers.updateIndexes fun d hd => by cases hd

theorem Good.replace (hfit : key.length + val.length < 2 ^ 32) :
    (s.replace ex env map key val).1.Good ex env.now := by
  obtain ⟨⟨⟨hinv, hplain⟩, hcont⟩, hret⟩ := replace_sets h.ok env map key val hfit
  rw [Indexed.replace]
  cases hold : (s.inner.replace env map key val).2 with
  | none =>
    rw [hret, map_eq_none_iff] at hold
    refine ⟨hinv, hplain, ?_⟩
    rw [hcont, hold]
    exact h.unseen (.inl rfl)
  | some old =>
    refine ⟨hinv, hplain, ?_⟩
    rw [hcont]
    refine h.covers.updateIndexes fun d hd => ?_
    obtain ⟨d', -, hd'⟩ := map_eq_some_iff.1 (contents_of_seen hd)
    rw [← hd']

theorem Good.find (map : Str) (key : Bytes) :
    Good { s with inner := (s.inner.find env map key).1 } ex env.now := h.get

theorem Good.putIfAbsent (hfit : key.length + val.length < 2 ^ 32) :
    (s.putIfAbsent ex env map key val ttlMs stamp).1.Good ex env.now := by
  have hfind := h.find map key
  rw [Indexed.putIfAbsent]
  revert hfind
  obtain ⟨inner, found⟩ := s.inner.find env map key
  intro hfind
  cases found with
  | none => exact hfind.put hfit
  | some ie => exact hfind

theorem Good.putMerge (latestUpdate : Bool)
    (hfit : key.length + val.length < 2 ^ 32) :
    (s.putMerge ex env map key val ttlMs stamp latestUpdate).Good ex env.now := by
  have hfind := h.find map key
  rw [Indexed.putMerge]
  revert hfind
  obtain ⟨inner, found⟩ := s.inner.find env map key
  intro hfind
  cases found with
  | none => exact hfind.put hfit
  | some ie =>
    dsimp only
    split
    · exact hfind.put hfit
    · exact hfind

theorem Good.clear (map : Str) : (s.clear map).Good ex env.now := by
  obtain ⟨⟨hinv, hplain⟩, hcont⟩ := clear_spec h.ok map
  refine ⟨hinv, hplain, ?_⟩
  change s.tables.Covers ex env.now (s.inner.clear map).contents
  rw [hcont]
  refine h.covers.mono fun mk d hd => ?_
  split at hd
  · cases hd
  · exact hd

theorem Good.addIndex (map : Str) (config : IndexConfig) :
    (s.addIndex ex env map config).Good ex env.now :=
  ⟨h.inv, h.plain, h.covers.addIndex config fun _ c hc =>
    (h.inv.mem_collectEntries h.plain).2 ⟨c, hc, rfl⟩⟩

end

/-! The shard below changes as without indexes. -/

theorem inner_remove : (s.remove ex env map key).1.inner = (s.inner.remove env map key).1 := by
  rw [remove]
  cases (s.inner.remove env map key).2 <;> rfl

theorem inner_replace :
    (s.replace ex env map key val).1.inner = (s.inner.replace env map key val).1 := by
  rw [replace]
  cases (s.inner.replace env map key val).2 <;> rfl

theorem inner_putIfAbsent : (s.putIfAbsent ex env map key val ttlMs stamp).1.inner =
    (s.inner.putIfAbsent env map key val ttlMs stamp).1 := by
  rw [putIfAbsent, Inner.putIfAbsent]
  obtain ⟨inner, found⟩ := s.inner.find env map key
  cases found <;> rfl

theorem inner_putMerge (latestUpdate : Bool) :
    (s.putMerge ex env map key val ttlMs stamp latestUpdate).inner =
      s.inner.putMerge env map key val ttlMs stamp latestUpdate := by
  rw [putMerge, Inner.putMerge]
  obtain ⟨inner, found⟩ := s.inner.find env map key
  cases found with
  | none => rfl
  | some ie =>
    dsimp only
    split <;> rfl

/-! Mutators leave the configurations. -/

theorem configs_put : (s.put ex env map key val ttlMs stamp).1.tables.configs = s.tables.configs :=
  Tables.configs_updateIndexes

theorem configs_remove : (s.remove ex env map key).1.tables.configs = s.tables.configs := by
  rw [remove]
  cases (s.inner.remove env map key).2 with
  | none => rfl
  | some old => exact Tables.configs_updateIndexes

theorem configs_replace : (s.replace ex env map key val).1.tables.configs = s.tables.configs := by
  rw [replace]
  cases (s.inner.replace env map key val).2 with
  | none => rfl
  | some old => exact Tables.configs_updateIndexes

theorem configs_putIfAbsent :
    (s.putIfAbsent ex env map key val ttlMs stamp).1.tables.configs = s.tables.configs := by
  rw [putIfAbsent]
  obtain ⟨inner, found⟩ := s.inner.find env map key
  cases found with
  | none => exact configs_put
  | some ie => rfl

theorem configs_putMerge (latestUpdate : Bool) :
    (s.putMerge ex env map key val ttlMs stamp latestUpdate).tables.configs = s.tables.configs := by
  rw [putMerge]
  obtain ⟨inner, found⟩ := s.inner.find env map key
  cases found with
  | none => exact configs_put
  | some ie =>
    dsimp only
    split
    · exact configs_put
    · rfl

end Upkeep

/-! ## The two ways of a query -/

/-- No value has a floating point number where there is an index. -/
def NoFloats (s : Indexed) (map : Str) (fields : Str → FieldValue → Prop) : Prop :=
  ∀ attr, s.tables.index map attr ≠ none → ∀ fv, fields attr fv → fv.isFloat = false

/-- The index from which the planner answers the predicate can do so, for the given fields. -/
def Answers (s : Indexed) (map : Str) (fields : Str → FieldValue → Prop) (p : Predicate) : Prop :=
  ∀ ix, s.tables.indexes.lookup map = some ix → ∀ field a x, pick ix p = some (field, a, x) →
    a.Answerable x (fields field)

section Query

variable {s : Indexed} {ex : Bytes → Str → FieldValue} {env : Env} {map : Str}
  {fields : Str → FieldValue → Prop} {patterns : Patterns} {p : Predicate} {inner : Inner}

theorem fetch_eq (hinv : inner.Inv) (hplain : inner.Plain)
    (passes : Bytes → Bool) (keys : List Bytes) :
    (fetch env map passes inner keys).2 = keys.filterMap fun key =>
      (((Inner.seen env.now (inner.contents (map, key))).map Cell.val).filter passes).map
        fun v => (key, v) := by
  induction keys generalizing inner with
  | nil => rfl
  | cons key keys ih =>
    obtain ⟨⟨⟨hinv', hplain'⟩, hcont⟩, hret⟩ := get_sets ⟨hinv, hplain⟩ env map key
    have hsame : ∀ k, seen env.now ((inner.get env map key).1.contents (map, k)) =
        seen env.now (inner.contents (map, k)) := by
      intro k
      by_cases hk : k = key
      · rw [hcont, hk, update_self, seen_idem]
      · rw [hcont, update_of_ne fun h => hk (Prod.mk.inj h).2]
    rw [fetch]
    dsimp only
    rw [ih hinv' hplain', hret, List.filterMap_cons]
    simp only [hsame]
    cases ((seen env.now (inner.contents (map, key))).map Cell.val).filter passes <;> rfl

variable {keys : List Bytes}

theorem mem_fetch (hinv : inner.Inv) (hplain : inner.Plain)
    {passes : Bytes → Bool} {key val : Bytes} :
    (key, val) ∈ (fetch env map passes inner keys).2 ↔
      key ∈ keys ∧ (∃ c, Inner.seen env.now (inner.contents (map, key)) = some c ∧ c.val = val) ∧
        passes val = true := by
  rw [fetch_eq hinv hplain, List.mem_filterMap]
  simp only [map_eq_some_iff, filter_eq_some_iff, Prod.mk.injEq]
  constructor
  · rintro ⟨k, hk, v, ⟨hseen, hpass⟩, rfl, rfl⟩
    exact ⟨hk, hseen, hpass⟩
  · rintro ⟨hk, hseen, hpass⟩
    exact ⟨key, hk, val, ⟨hseen, hpass⟩, rfl, rfl⟩

theorem nodup_fetch (hinv : inner.Inv) (hplain : inner.Plain)
    {passes : Bytes → Bool} (hkeys : keys.Nodup) :
    (fetch env map passes inner keys).2.Nodup := by
  rw [fetch_eq hinv hplain]
  refine hkeys.filterMap fun k k' kv hk hk' => ?_
  obtain ⟨v, -, rfl⟩ := map_eq_some_iff.1 hk
  obtain ⟨v', -, heq⟩ := map_eq_some_iff.1 hk'
  exact (Prod.mk.inj heq).1.symm

/-- The keys that the index gives are found among the entries, and no entry that satisfies the
predicate is missing. -/
theorem Good.perm_fetch (h : s.Good ex env.now) (hfloats : s.NoFloats map fields)
    (hfields : ∀ key c attr, Inner.seen env.now (s.inner.contents (map, key)) = some c →
      fields attr (ex c.val attr))
    {ix : Dict Str Index} (hix : s.tables.indexes.lookup map = some ix) {field : Str} {a : Atom}
    {x : Index} (hpick : pick ix p = some (field, a, x)) (hans : a.Answerable x (fields field))
    (hkeys : a.resolve x = .ok keys) :
    (fetch env map (fun v => eval patterns (ex v) p) s.inner keys).2.Perm
      ((s.inner.collectEntries env.now map).filter fun e => eval patterns (ex e.2) p) := by
  have hnodup : (s.inner.collectEntries env.now map).Nodup :=
    .of_map Prod.fst (h.inv.nodup_collectEntries env.now map)
  refine (List.perm_ext_iff_of_nodup (nodup_fetch h.inv h.plain (Atom.nodup_resolve hkeys))
    (hnodup.filter _)).2 ?_
  rintro ⟨key, val⟩
  rw [mem_fetch h.inv h.plain, List.mem_filter, h.inv.mem_collectEntries h.plain]
  refine ⟨fun hmem => hmem.2, fun hmem => ⟨?_, hmem⟩⟩
  obtain ⟨⟨c, hseen, rfl⟩, heval⟩ := hmem
  obtain ⟨⟨hlook, hfits⟩, htest⟩ := of_pick patterns (ex c.val) p hpick
  have hindex : s.tables.index map field = some x := by simp [Tables.index, hix, hlook]
  have hnull : ex c.val field ≠ .null := by
    intro hnull
    have := htest heval
    rw [hnull, Atom.test_null] at this
    cases this
  have hne : s.tables.index map field ≠ none := by simp [hindex]
  obtain ⟨y, hy, hholds⟩ :=
    h.covers.listed map field (h.covers.known map field hne) key c hseen hnull
  rw [hindex] at hy
  cases hy
  have hmem := hfields key c field hseen
  exact hans.mem_resolve hfits hmem (hfloats field hne _ hmem) hholds (htest heval) hkeys

theorem Good.query (h : s.Good ex env.now) (hfloats : s.NoFloats map fields)
    (hfields : ∀ key c attr, Inner.seen env.now (s.inner.contents (map, key)) = some c →
      fields attr (ex c.val attr))
    (hans : s.Answers map fields p) :
    ∃ s' r, s.query patterns ex env map p = .ok (s', r) ∧
      r.Perm ((s.inner.collectEntries env.now map).filter fun e => eval patterns (ex e.2) p) := by
  rw [Indexed.query]
  cases hid : s.inner.mapIds.lookup map with
  | none =>
    refine ⟨s, [], rfl, ?_⟩
    rw [collectEntries, hid]
    exact List.Perm.refl _
  | some id =>
    cases hix : s.tables.indexes.lookup map with
    | none => exact ⟨s, _, rfl, List.Perm.refl _⟩
    | some ix =>
      dsimp only
      rw [planAndResolve_eq]
      cases hpick : pick ix p with
      | none => exact ⟨s, _, rfl, List.Perm.refl _⟩
      | some r =>
        obtain ⟨field, a, x⟩ := r
        have ha := hans ix hix field a x hpick
        obtain ⟨keys, hkeys⟩ := ha.returns
        rw [resolvePick, hkeys]
        exact ⟨_, _, rfl, h.perm_fetch hfloats hfields hix hpick ha hkeys⟩

end Query

end Indexed

end BonsaiGrid.Store
