import BonsaiGrid.Store.Reference
import BonsaiGrid.Store.Contents

/-!
# Map stores

A map may have a map store behind it, an external table that `put` and `remove` also write to and
from which `get` loads what the map does not hold.
-/

namespace BonsaiGrid.Store

open Function Option Inner List

/-- The calls of a map store on its state, each of which may fail. -/
structure MapStore (σ ε : Type) where
  load : σ → Bytes → Except ε (Option Bytes)
  store : σ → Bytes → Bytes → σ × Except ε Unit
  delete : σ → Bytes → σ × Except ε Unit

/-- No call fails, and the calls read and write the table `holds`. -/
structure MapStore.Succeeds {σ ε : Type} (api : MapStore σ ε) (holds : σ → Bytes → Option Bytes) :
    Prop where
  load : ∀ m key, api.load m key = .ok (holds m key)
  stored : ∀ m key val, (api.store m key val).2 = .ok ()
  store : ∀ m key val, holds (api.store m key val).1 = update (holds m) key (some val)
  deleted : ∀ m key, (api.delete m key).2 = .ok ()
  delete : ∀ m key, holds (api.delete m key).1 = update (holds m) key none

structure BackedStore (σ : Type) where
  base : Store
  mapStores : Str → Option σ

namespace BackedStore

variable {σ ε : Type} (api : MapStore σ ε) (s : BackedStore σ)

def through (map : Str) (f : σ → σ) : BackedStore σ :=
  { s with mapStores := update s.mapStores map ((s.mapStores map).map f) }

def putTtl (env : StoreEnv) (map : Str) (key val : Bytes) (ttlMs : ℕ) :
    BackedStore σ × Option Bytes :=
  let s := s.through map fun m => (api.store m key val).1
  let r := s.base.putTtl env map key val ttlMs
  ({ s with base := r.1 }, r.2)

def put (env : StoreEnv) (map : Str) (key val : Bytes) :
    BackedStore σ × Option Bytes :=
  s.putTtl api env map key val 0

def putAll (map : Str) (entries : List (StoreEnv × Bytes × Bytes)) :
    BackedStore σ :=
  entries.foldl (fun s e => (s.put api e.1 map e.2.1 e.2.2).1) s

def get (env : StoreEnv) (map : Str) (key : Bytes) :
    BackedStore σ × Option Bytes :=
  let r := s.base.get env map key
  match r.2, (s.mapStores map).map fun m => api.load m key with
  | none, some (.ok (some loaded)) =>
    let (base, stamp) := r.1.nextStamp env
    ({ s with base := (base.putStamped env map key loaded 0 stamp).1 }, some loaded)
  | val, _ => ({ s with base := r.1 }, val)

def remove (env : StoreEnv) (map : Str) (key : Bytes) :
    BackedStore σ × Option Bytes :=
  let s := s.through map fun m => (api.delete m key).1
  let r := s.base.remove env map key
  ({ s with base := r.1 }, r.2)

def putIfAbsent (env : StoreEnv) (map : Str) (key val : Bytes) (ttlMs : ℕ) :
    BackedStore σ × Option Bytes :=
  let r := s.base.putIfAbsent env map key val ttlMs
  ({ s with base := r.1 }, r.2)

def replace (env : StoreEnv) (map : Str) (key val : Bytes) :
    BackedStore σ × Option Bytes :=
  let r := s.base.replace env map key val
  ({ s with base := r.1 }, r.2)

def clear (map : Str) : BackedStore σ := { s with base := s.base.clear map }

def mcUpdate {R : Type} (s : BackedStore σ) (env : StoreEnv) (map : Str) (key : Bytes)
    (f : Option Bytes → McAction × R) : BackedStore σ × R :=
  let r := s.base.mcUpdate env map key f
  ({ s with base := r.1 }, r.2)

end BackedStore

inductive BackedCall where
  | put (key val : Bytes)
  | putTtlZero (key val : Bytes)
  | putAll (entries : List (StoreEnv × Bytes × Bytes))
  | remove (key : Bytes)
  | putIfAbsent (key val : Bytes) (ttlMs : ℕ)
  | replace (key val : Bytes)
  | clear
  | mcUpdate (key : Bytes) (f : Option Bytes → McAction)
  | get (key : Bytes)

structure BackedWorld (σ : Type) where
  store : BackedStore σ
  now : ℕ

namespace BackedWorld

variable {σ ε : Type} (api : MapStore σ ε) (holds : σ → Bytes → Option Bytes) (map : Str)

def put (w : BackedWorld σ) (e : StoreEnv × Bytes × Bytes) : BackedWorld σ :=
  ⟨(w.store.put api e.1 map e.2.1 e.2.2).1, e.1.now⟩

variable (w : BackedWorld σ)

def exec (c : StoreEnv × BackedCall) : BackedWorld σ :=
  match c.2 with
  | .put key val => w.put api map (c.1, key, val)
  | .putTtlZero key val => ⟨(w.store.putTtl api c.1 map key val 0).1, c.1.now⟩
  | .putAll entries => entries.foldl (put api map) w
  | .remove key => ⟨(w.store.remove api c.1 map key).1, c.1.now⟩
  | .putIfAbsent key val ttlMs => ⟨(w.store.putIfAbsent c.1 map key val ttlMs).1, c.1.now⟩
  | .replace key val => ⟨(w.store.replace c.1 map key val).1, c.1.now⟩
  | .clear => ⟨w.store.clear map, c.1.now⟩
  | .mcUpdate key f => ⟨(w.store.mcUpdate c.1 map key fun v => (f v, ())).1, c.1.now⟩
  | .get key => ⟨(w.store.get api c.1 map key).1, c.1.now⟩

/-- The puts of a `put_all`, one at a time with the clock of each, are `put_all`. -/
theorem store_exec_putAll (env : StoreEnv) (entries : List (StoreEnv × Bytes × Bytes)) :
    (w.exec api map (env, .putAll entries)).store = w.store.putAll api map entries := by
  rw [exec, BackedStore.putAll]
  induction entries generalizing w with
  | nil => rfl
  | cons e entries ih => exact ih (w.put api map e)

def held (key : Bytes) : Option Bytes :=
  (w.store.mapStores map).bind fun m => holds m key

def cached (env : StoreEnv) (key : Bytes) : Option Bytes :=
  (w.store.base.get env map key).2

/-- There is a map store, and from now on `get` returns what it has. -/
structure Coherent (w : BackedWorld σ) : Prop where
  configured : (w.store.mapStores map).isSome = true
  get : ∀ env : StoreEnv, w.now ≤ env.now → ∀ key,
    (w.store.get api env map key).2 = w.held holds map key

def MayPut (e : StoreEnv × Bytes × Bytes) : Prop :=
  w.now ≤ e.1.now ∧ e.2.1.length + e.2.2.length < 2 ^ 32

/-- The clock does not go back, what is written fits its record, and the calls that write
to the map alone write nothing but what the map store has already. -/
def Allows (c : StoreEnv × BackedCall) : Prop :=
  match c.2 with
  | .put key val => w.MayPut (c.1, key, val)
  | .putTtlZero key val => w.MayPut (c.1, key, val)
  | .putAll entries => Trace.Allowed (put api map) MayPut w entries
  | .remove _ => w.now ≤ c.1.now
  | .putIfAbsent key val _ => w.MayPut (c.1, key, val) ∧ w.cached map c.1 key ≠ none
  | .replace key val => w.MayPut (c.1, key, val) ∧
      match w.cached map c.1 key with
      | none => w.held holds map key = none
      | some _ => w.held holds map key = some val
  | .clear => w.now ≤ c.1.now
  | .mcUpdate key f => w.now ≤ c.1.now ∧ ∀ new ttlMs, f (w.cached map c.1 key) = .store new ttlMs →
      w.held holds map key = some new ∧ key.length + new.length < 2 ^ 32
  | .get key => w.now ≤ c.1.now ∧ ∀ val, w.held holds map key = some val →
      key.length + val.length < 2 ^ 32

structure Inv (w : BackedWorld σ) : Prop where
  base : w.store.base.Inv
  configured : (w.store.mapStores map).isSome = true
  held : ∀ key, ∀ c ∈ Inner.seen w.now (w.store.base.contents (map, key)),
    w.held holds map key = some c.val

section Steps

variable {api holds map}
variable {w : BackedWorld σ} {s : BackedStore σ} {env : StoreEnv} {key val : Bytes} {now : ℕ}

theorem held_through (hcfg : (w.store.mapStores map).isSome = true) {f : σ → σ} {v : Option Bytes}
    (hf : ∀ m, holds (f m) = update (holds m) key v) (base : Store) (now : ℕ) :
    ((w.store.through map f).mapStores map).isSome = true ∧
      held holds map ⟨⟨base, (w.store.through map f).mapStores⟩, now⟩ =
        update (w.held holds map) key v := by
  obtain ⟨m, hm⟩ := isSome_iff_exists.1 hcfg
  have hsome : (w.store.through map f).mapStores map = some (f m) := by
    simp [BackedStore.through, hm]
  refine ⟨by rw [hsome]; rfl, funext fun k => ?_⟩
  by_cases hk : k = key
  · simp [held, hsome, hf, hk]
  · simp [held, hsome, hf, hm, update_of_ne hk]

theorem get_reply (hapi : api.Succeeds holds) (w : BackedWorld σ) (env : StoreEnv) (key : Bytes) :
    (w.store.get api env map key).2 = (w.cached map env key).or (w.held holds map key) := by
  rw [BackedStore.get, cached, held]
  cases (w.store.base.get env map key).2 with
  | some v => rfl
  | none =>
    cases w.store.mapStores map with
    | none => rfl
    | some m =>
      simp only [map_some, hapi.load, bind_some, none_or]
      cases holds m key with
      | none | some v => rfl

section

variable (h : w.Inv holds map)

include h

theorem Inv.cached (env : StoreEnv) (key : Bytes) :
    w.cached map env key =
      (Inner.seen env.now (w.store.base.contents (map, key))).map Cell.val :=
  (h.base.get env map key).2.2

theorem Inv.held_later (hclock : w.now ≤ now) :
    ∀ c ∈ Inner.seen now (w.store.base.contents (map, key)),
      w.held holds map key = some c.val := by
  intro c hc
  have hseen := Agrees.seen_seen hclock (w.store.base.contents (map, key))
  rw [mem_def.1 hc] at hseen
  exact h.held key c (contents_of_seen hseen)

theorem Inv.cached_later (hclock : w.now ≤ env.now)
    (hval : w.cached map env key = some val) : w.held holds map key = some val := by
  rw [h.cached, map_eq_some_iff] at hval
  obtain ⟨c, hc, rfl⟩ := hval
  exact h.held_later hclock c hc

theorem Inv.coherent (hapi : api.Succeeds holds) :
    w.Coherent api holds map := by
  refine ⟨h.configured, fun env hclock key => ?_⟩
  rw [get_reply hapi]
  cases hval : w.cached map env key with
  | none => rfl
  | some val => rw [h.cached_later hclock hval, some_or]

end

theorem Coherent.inv (h : w.Coherent api holds map) (hapi : api.Succeeds holds)
    (hbase : w.store.base.Inv) : w.Inv holds map := by
  refine ⟨hbase, h.configured, fun key c hc => ?_⟩
  have hget := h.get ⟨⟨w.now, 0⟩, 0⟩ (Nat.le_refl _) key
  have hval := (hbase.get ⟨⟨w.now, 0⟩, 0⟩ map key).2.2
  rw [get_reply hapi, BackedWorld.cached, hval, mem_def.1 hc] at hget
  exact hget.symm

section

variable (h : w.Inv holds map)

include h

theorem Inv.change (hclock : w.now ≤ now) (hbase : s.base.Inv)
    (hcfg : (s.mapStores map).isSome = true) {c : Option Cell} {v : Option Bytes}
    (hcont : s.base.contents = update w.store.base.contents (map, key) c)
    (hheld : BackedWorld.held holds map ⟨s, now⟩ = update (w.held holds map) key v)
    (hc : ∀ x ∈ Inner.seen now c, v = some x.val) : Inv holds map ⟨s, now⟩ := by
  refine ⟨hbase, hcfg, fun k x hx => ?_⟩
  rw [hcont] at hx
  rw [hheld]
  by_cases hk : k = key
  · rw [hk, update_self] at hx ⊢
    exact hc x hx
  · rw [update_of_ne fun heq => hk (Prod.mk.inj heq).2] at hx
    rw [update_of_ne hk]
    exact h.held_later hclock x hx

theorem Inv.changeBase (hclock : w.now ≤ now) {base : Store}
    (hbase : base.Inv) {c : Option Cell}
    (hcont : base.contents = update w.store.base.contents (map, key) c)
    (hc : ∀ x ∈ Inner.seen now c, w.held holds map key = some x.val) :
    Inv holds map ⟨{ w.store with base := base }, now⟩ :=
  h.change hclock hbase h.configured hcont (update_eq_self key _).symm hc

theorem Inv.putZero (hapi : api.Succeeds holds)
    (hok : w.MayPut (env, key, val)) :
    Inv holds map ⟨(w.store.putTtl api env map key val 0).1, env.now⟩ := by
  obtain ⟨hbase, hcont⟩ := h.base.putTtl env map key val 0 hok.2
  obtain ⟨hcfg, hheld⟩ := held_through h.configured (fun m => hapi.store m key val) _ env.now
  refine h.change hok.1 hbase hcfg hcont hheld fun x hx => ?_
  cases contents_of_seen hx
  rfl

theorem Inv.putAll (hapi : api.Succeeds holds)
    {entries : List (StoreEnv × Bytes × Bytes)}
    (hok : Trace.Allowed (BackedWorld.put api map) MayPut w entries) :
    Inv holds map (entries.foldl (BackedWorld.put api map) w) :=
  (Trace.Reaches.of_allowed entries hok).invariant (fun _ _ hw hput => hw.putZero hapi hput) h

theorem Inv.remove (hapi : api.Succeeds holds) (hclock : w.now ≤ env.now) :
    Inv holds map ⟨(w.store.remove api env map key).1, env.now⟩ := by
  obtain ⟨hbase, hcont⟩ := h.base.remove env map key
  obtain ⟨hcfg, hheld⟩ := held_through h.configured (fun m => hapi.delete m key) _ env.now
  exact h.change hclock hbase hcfg hcont hheld fun x hx => by cases hx

theorem Inv.putIfAbsent {ttlMs : ℕ} (hok : w.MayPut (env, key, val))
    (hcached : w.cached map env key ≠ none) :
    Inv holds map ⟨(w.store.putIfAbsent env map key val ttlMs).1, env.now⟩ := by
  obtain ⟨hbase, hcont⟩ := h.base.putIfAbsent env map key val ttlMs hok.2
  rw [h.cached, Ne, map_eq_none_iff] at hcached
  obtain ⟨c, hc⟩ := ne_none_iff_exists'.1 hcached
  rw [hc] at hcont
  refine h.changeBase hok.1 hbase hcont fun x hx => ?_
  cases contents_of_seen hx
  exact h.held_later hok.1 c hc

theorem Inv.replace (hok : w.MayPut (env, key, val))
    (hval : match w.cached map env key with
      | none => w.held holds map key = none
      | some _ => w.held holds map key = some val) :
    Inv holds map ⟨(w.store.replace env map key val).1, env.now⟩ := by
  obtain ⟨hbase, hcont⟩ := h.base.replace env map key val hok.2
  refine h.changeBase hok.1 hbase hcont fun x hx => ?_
  obtain ⟨c, hc, rfl⟩ := map_eq_some_iff.1 (contents_of_seen hx)
  rw [h.cached, hc] at hval
  exact hval

theorem Inv.clear (now : ℕ) :
    Inv holds map ⟨w.store.clear map, now⟩ := by
  obtain ⟨hbase, hcont⟩ := h.base.clear map
  refine ⟨hbase, h.configured, fun k x hx => ?_⟩
  rw [show (w.store.clear map).base.contents = _ from hcont] at hx
  simp [seen] at hx

theorem Inv.mcUpdate {f : Option Bytes → McAction}
    (hclock : w.now ≤ env.now)
    (hok : ∀ new ttlMs, f (w.cached map env key) = .store new ttlMs →
      w.held holds map key = some new ∧ key.length + new.length < 2 ^ 32) :
    Inv holds map ⟨(w.store.mcUpdate env map key fun v => (f v, ())).1, env.now⟩ := by
  rw [h.cached] at hok
  obtain ⟨hbase, hcont⟩ := h.base.mcUpdate env map key (fun v => (f v, ()))
    fun new ttlMs hact => (hok new ttlMs hact).2
  refine h.changeBase hclock hbase hcont fun x hx => ?_
  have hx' := contents_of_seen hx
  cases hact : f ((seen env.now (w.store.base.contents (map, key))).map Cell.val) with
  | store new ttlMs =>
    simp only [hact] at hx'
    cases hx'
    exact (hok new ttlMs hact).1
  | remove =>
    simp only [hact] at hx'
    cases hx'
  | keep =>
    simp only [hact] at hx'
    exact h.held_later hclock x hx'

theorem Inv.get (hapi : api.Succeeds holds) (hclock : w.now ≤ env.now)
    (hfit : ∀ val, w.held holds map key = some val → key.length + val.length < 2 ^ 32) :
    Inv holds map ⟨(w.store.get api env map key).1, env.now⟩ := by
  obtain ⟨hbase, hcont, -⟩ := h.base.get env map key
  have hread : Inv holds map ⟨{ w.store with base := (w.store.base.get env map key).1 },
      env.now⟩ := by
    refine h.changeBase hclock hbase hcont fun x hx => ?_
    exact h.held_later hclock x (contents_of_seen hx)
  obtain ⟨m, hm⟩ := isSome_iff_exists.1 h.configured
  rw [BackedStore.get, hm, map_some, hapi.load]
  cases (w.store.base.get env map key).2 with
  | some val => exact hread
  | none =>
    cases hloaded : holds m key with
    | none => exact hread
    | some val =>
      have hheld : w.held holds map key = some val := by
        rw [BackedWorld.held, hm, bind_some, hloaded]
      have hstamp : ((w.store.base.get env map key).1.nextStamp env).1.Inv := hbase.congr rfl
      obtain ⟨hput, hcont'⟩ := hstamp.putStamped env map key val 0
        ((w.store.base.get env map key).1.nextStamp env).2 (hfit val hheld)
      refine hread.changeBase (Nat.le_refl _) hput hcont' fun x hx => ?_
      cases contents_of_seen hx
      exact hheld

theorem Inv.exec (hapi : api.Succeeds holds) {c : StoreEnv × BackedCall}
    (hok : w.Allows api holds map c) : Inv holds map (w.exec api map c) := by
  obtain ⟨env, call⟩ := c
  cases call with
  | put key val | putTtlZero key val => exact h.putZero hapi hok
  | putAll entries => exact h.putAll hapi hok
  | remove key => exact h.remove hapi hok
  | putIfAbsent key val ttlMs => exact h.putIfAbsent hok.1 hok.2
  | replace key val => exact h.replace hok.1 hok.2
  | clear => exact h.clear env.now
  | mcUpdate key f => exact h.mcUpdate hok.1 hok.2
  | get key => exact h.get hapi hok.1 hok.2

theorem Inv.putIfAbsent_reply {ttlMs : ℕ}
    (hok : w.Allows api holds map (env, .putIfAbsent key val ttlMs)) :
    (w.store.putIfAbsent env map key val ttlMs).2 = w.held holds map key := by
  have hreply : (w.store.putIfAbsent env map key val ttlMs).2 = w.cached map env key :=
    (h.base.putIfAbsent_reply env map key val ttlMs hok.1.2).trans (h.cached env key).symm
  obtain ⟨v, hv⟩ := ne_none_iff_exists'.1 hok.2
  rw [hreply, hv, h.cached_later hok.1.1 hv]

theorem Inv.replace_reply
    (hok : w.Allows api holds map (env, .replace key val)) :
    (w.store.replace env map key val).2 = w.held holds map key := by
  have hreply : (w.store.replace env map key val).2 = w.cached map env key :=
    (h.base.replace_reply env map key val hok.1.2).trans (h.cached env key).symm
  have hval := hok.2
  rw [hreply]
  cases hv : w.cached map env key with
  | none =>
    simp only [hv] at hval
    exact hval.symm
  | some v => exact (h.cached_later hok.1.1 hv).symm

end

end Steps

end BackedWorld

section Coherence

variable {σ ε : Type} {api : MapStore σ ε} {holds : σ → Bytes → Option Bytes} {map : Str}

/-- In every run in which the calls that look at the map alone write to it only what the
map store has, `get` returns at all times what the map store has, and the conditional
calls take a key as present exactly if the map store has it. -/
theorem mapStore_coherent (hapi : api.Succeeds holds) (start : BackedWorld σ)
    (hbase : start.store.base.Inv) (hstart : start.Coherent api holds map) (w : BackedWorld σ)
    (h : Trace.Reaches (BackedWorld.exec api map) (BackedWorld.Allows api holds map) start w) :
    w.Coherent api holds map ∧
      (∀ env key val ttlMs, w.Allows api holds map (env, .putIfAbsent key val ttlMs) →
        (w.store.putIfAbsent env map key val ttlMs).2 = w.held holds map key) ∧
      ∀ env key val, w.Allows api holds map (env, .replace key val) →
        (w.store.replace env map key val).2 = w.held holds map key := by
  have hw : w.Inv holds map :=
    h.invariant (fun _ _ hw hok => hw.exec hapi hok) (hstart.inv hapi hbase)
  exact ⟨hw.coherent hapi, fun _ _ _ _ hok => hw.putIfAbsent_reply hok,
    fun _ _ _ hok => hw.replace_reply hok⟩

end Coherence

def tableStore : MapStore (Bytes → Option Bytes) Unit where
  load m key := .ok (m key)
  store m key val := (update m key (some val), .ok ())
  delete m key := (update m key none, .ok ())

theorem tableStore_succeeds : tableStore.Succeeds fun m => m :=
  ⟨fun _ _ => rfl, fun _ _ _ => rfl, fun _ _ _ => rfl, fun _ _ => rfl, fun _ _ => rfl⟩

theorem valid_stock : Utf8.valid [115] = true := by decide

def stock : Str := ⟨[115], valid_stock⟩

def stocked : BackedWorld (Bytes → Option Bytes) where
  store :=
    { base := withShardsSeed 1 0
      mapStores := update (fun _ => none) stock
        (some (update (fun _ => none) [9] (some [1]))) }
  now := 0

theorem coherent_stocked : stocked.Coherent tableStore (fun m => m) stock := by
  have hinv : BackedWorld.Inv (fun m => m) stock stocked := by
    refine ⟨(inv_withShardsSeed Nat.one_pos 0).1, rfl, fun key c hc => ?_⟩
    rw [show stocked.store.base.contents = _ from (inv_withShardsSeed Nat.one_pos 0).2] at hc
    cases hc
  exact hinv.coherent tableStore_succeeds

def atMs (n : ℕ) : StoreEnv := ⟨⟨n, 0⟩, n⟩

def worldOf (calls : List (StoreEnv × BackedCall)) : BackedWorld (Bytes → Option Bytes) :=
  calls.foldl (BackedWorld.exec tableStore stock) stocked

def touched : Option Bytes → McAction
  | some val => .store val 10
  | none => .keep

/-- An entry is loaded and found by a conditional put; another one is put, touched and
expires; the first one is removed. -/
def loadedCalls : List (StoreEnv × BackedCall) :=
  [(atMs 1, .get [9]), (atMs 2, .putIfAbsent [9] [5] 0), (atMs 3, .put [7] [2]),
    (atMs 4, .mcUpdate [7] touched), (atMs 20, .get [7]), (atMs 21, .remove [9])]

theorem allowed_loadedCalls :
    Trace.Allowed (BackedWorld.exec tableStore stock)
      (BackedWorld.Allows tableStore (fun m => m) stock) stocked loadedCalls := by
  refine ⟨⟨by decide +kernel, fun val hval => ?_⟩, ⟨⟨by decide +kernel, by decide +kernel⟩,
    by decide +kernel⟩, ⟨by decide +kernel, by decide +kernel⟩,
    ⟨by decide +kernel, fun new ttlMs hact => ?_⟩, ⟨by decide +kernel, fun val hval => ?_⟩,
    (by decide : 20 ≤ 21), trivial⟩
  · cases hval.symm.trans (show _ = some [1] by decide +kernel)
    decide
  · have hcached : BackedWorld.cached stock (worldOf (loadedCalls.take 3)) (atMs 4) [7] =
        some [2] := by decide +kernel
    have hstore : touched (BackedWorld.cached stock (worldOf (loadedCalls.take 3)) (atMs 4) [7]) =
        .store new ttlMs := hact
    cases hstore
    exact ⟨by decide +kernel, by decide⟩
  · cases hval.symm.trans (show _ = some [2] by decide +kernel)
    decide

theorem mapStore_coherent_loaded :
    (worldOf loadedCalls).Coherent tableStore (fun m => m) stock ∧
      ((worldOf loadedCalls).store.get tableStore (atMs 22) stock [7]).2 = some [2] ∧
      ((worldOf loadedCalls).store.get tableStore (atMs 22) stock [9]).2 = none :=
  ⟨(mapStore_coherent tableStore_succeeds stocked (inv_withShardsSeed Nat.one_pos 0).1
    coherent_stocked _ (.of_allowed loadedCalls allowed_loadedCalls)).1,
    by decide +kernel, by decide +kernel⟩

/-- A conditional put of a new key, a replaced value and an updated one do not reach the
map store, and the conditional calls do not see the key that only the map store has. -/
theorem mapStore_incoherent :
    stocked.Coherent tableStore (fun m => m) stock ∧
      (∀ calls ∈ ([[(atMs 1, .putIfAbsent [7] [2] 0)],
          [(atMs 1, .get [9]), (atMs 2, .replace [9] [2])],
          [(atMs 1, .mcUpdate [7] fun _ => .store [2] 0)]] : List (List (StoreEnv × BackedCall))),
        ∃ key ∈ [[7], [9]], ((worldOf calls).store.get tableStore (atMs 3) stock key).2 ≠
          (worldOf calls).held (fun m => m) stock key) ∧
      stocked.held (fun m => m) stock [9] = some [1] ∧
      (stocked.store.putIfAbsent (atMs 1) stock [9] [2] 0).2 = none ∧
      (stocked.store.replace (atMs 1) stock [9] [2]).2 = none := by
  refine ⟨coherent_stocked, ?_, by decide +kernel, by decide +kernel, by decide +kernel⟩
  intro calls hcalls
  simp only [mem_cons, not_mem_nil, or_false] at hcalls
  rcases hcalls with rfl | rfl | rfl
  · exact ⟨[7], mem_cons_self, by decide +kernel⟩
  · exact ⟨[9], mem_cons_of_mem _ mem_cons_self, by decide +kernel⟩
  · exact ⟨[7], mem_cons_self, by decide +kernel⟩

end BonsaiGrid.Store
