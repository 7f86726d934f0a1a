import BonsaiGrid.Query.Index
import BonsaiGrid.Store.Shard

/-!
# Indexes of a shard

Each shard keeps the indexes of its own entries: one for each attribute that some configuration of
the map names, made when the first value with that attribute is put or found.
-/

namespace BonsaiGrid.Store

open Query Serialization List AList

/-- The configurations and the indexes of the maps, by the names of the maps and, for the
indexes, of the attributes. -/
structure Tables where
  configs : Dict Str (List IndexConfig)
  indexes : Dict Str (Dict Str Index)

namespace Tables

def empty : Tables := ⟨∅, ∅⟩

variable (t : Tables)

def mapConfigs (map : Str) : List IndexConfig := (t.configs.lookup map).getD []

def index (map attr : Str) : Option Index :=
  (t.indexes.lookup map).bind fun ix => ix.lookup attr

def alter (map attr : Str) (ty : IndexType) (f : Index → Index) : Tables :=
  let ix := (t.indexes.lookup map).getD ∅
  { t with indexes := t.indexes.insert map (ix.insert attr (f ((ix.lookup attr).getD (.new ty)))) }

def fields (configs : List IndexConfig) : List (IndexType × Str) :=
  configs.flatMap fun c => c.attributes.map fun attr => (c.ty, attr)

def enlist (fv : FieldValue) (key : Bytes) (x : Index) : Index :=
  if fv = .null then x else x.insert fv key

def unlist (fv : FieldValue) (key : Bytes) (x : Index) : Index :=
  if fv = .null then x else x.remove fv key

def reindex (ex : Bytes → FieldValue) (key : Bytes) (old new : Option Bytes) (x : Index) : Index :=
  let x := old.elim x fun v => unlist (ex v) key x
  new.elim x fun v => enlist (ex v) key x

def moveKey (ex : Bytes → Str → FieldValue) (map : Str) (key : Bytes) (old new : Option Bytes)
    (t : Tables) (f : IndexType × Str) : Tables :=
  t.alter map f.2 f.1 (reindex (fun v => ex v f.2) key old new)

def updateIndexes (ex : Bytes → Str → FieldValue) (map : Str) (key : Bytes)
    (old new : Option Bytes) : Tables :=
  (fields (t.mapConfigs map)).foldl (moveKey ex map key old new) t

def addEntry (ex : Bytes → Str → FieldValue) (map : Str) (ty : IndexType) (t : Tables)
    (e : Str × Bytes × Bytes) : Tables :=
  if ex e.2.2 e.1 = .null then t else t.alter map e.1 ty fun x => x.insert (ex e.2.2 e.1) e.2.1

def addConfig (map : Str) (config : IndexConfig) : Tables :=
  { t with configs := t.configs.insert map (t.mapConfigs map ++ [config]) }

/-- Add a configuration, unless there is one with the same attributes, and list the entries
that are there. -/
def addIndex (ex : Bytes → Str → FieldValue) (map : Str) (config : IndexConfig)
    (entries : List (Bytes × Bytes)) : Tables :=
  if (t.mapConfigs map).any fun c => c.attributes = config.attributes then t
  else
    (config.attributes.flatMap fun attr => entries.map fun e => (attr, e)).foldl
      (addEntry ex map config.ty) (t.addConfig map config)

/-! ## What is listed -/

/-- The key is listed in the index of the attribute under the value. -/
def Lists (map attr : Str) (fv : FieldValue) (key : Bytes) : Prop :=
  ∃ x, t.index map attr = some x ∧ x.Holds fv key

def Configured (map attr : Str) : Prop :=
  attr ∈ (fields (t.mapConfigs map)).map Prod.snd

section Listing

variable {t : Tables} {map map' attr attr' : Str} {ty : IndexType} {f : Index → Index}
  {fv : FieldValue} {key key' : Bytes} {old new : Option Bytes} {x : Index}
  {ex : Bytes → Str → FieldValue}

@[simp] theorem configs_alter : (t.alter map attr ty f).configs = t.configs := rfl

theorem index_alter_self :
    (t.alter map attr ty f).index map attr = some (f ((t.index map attr).getD (.new ty))) := by
  have hnow : ((t.indexes.lookup map).getD ∅).lookup attr = t.index map attr := by
    cases h : t.indexes.lookup map <;> simp [index, h]
  rw [index, alter]
  rw [lookup_insert, Option.bind_some, lookup_insert, hnow]

theorem index_alter_of_ne (hne : ¬ (map' = map ∧ attr' = attr)) :
    (t.alter map attr ty f).index map' attr' = t.index map' attr' := by
  by_cases hmap : map' = map
  · subst hmap
    have hattr : attr' ≠ attr := fun h => hne ⟨rfl, h⟩
    rw [index, alter]
    rw [lookup_insert, Option.bind_some, lookup_insert_ne hattr, index]
    cases t.indexes.lookup map' <;> rfl
  · simp [index, alter, lookup_insert_ne hmap]

theorem Lists.alter (h : t.Lists map' attr' fv key)
    (hf : ∀ x : Index, x.Holds fv key → (f x).Holds fv key) :
    (t.alter map attr ty f).Lists map' attr' fv key := by
  obtain ⟨x, hx, hholds⟩ := h
  by_cases heq : map' = map ∧ attr' = attr
  · obtain ⟨rfl, rfl⟩ := heq
    exact ⟨_, index_alter_self, hf _ (by simpa [hx] using hholds)⟩
  · exact ⟨x, (index_alter_of_ne heq).trans hx, hholds⟩

theorem holds_enlist (h : x.Holds fv key) (fv' : FieldValue) (key' : Bytes) :
    (enlist fv' key' x).Holds fv key := by
  rw [enlist]
  split
  · exact h
  · exact h.insert fv' key'

theorem holds_enlist_self (hnull : fv ≠ .null) : (enlist fv key x).Holds fv key := by
  rw [enlist, if_neg hnull]
  exact Index.holds_insert_self

theorem holds_reindex {ex : Bytes → FieldValue} (h : x.Holds fv key) (hne : key ≠ key') :
    (reindex ex key' old new x).Holds fv key := by
  have hold : (old.elim x fun v => unlist (ex v) key' x).Holds fv key := by
    cases old with
    | none => exact h
    | some v =>
      rw [Option.elim_some, unlist]
      split
      · exact h
      · exact h.remove _ hne
  cases new with
  | none => exact hold
  | some v => exact holds_enlist hold _ _

variable {v : Bytes}

theorem holds_reindex_self {ex : Bytes → FieldValue} (hnull : ex v ≠ .null) :
    (reindex ex key old (some v) x).Holds (ex v) key := holds_enlist_self hnull

theorem configs_foldl_moveKey (fs : List (IndexType × Str)) (t : Tables) :
    (fs.foldl (moveKey ex map key old new) t).configs = t.configs := by
  induction fs generalizing t with
  | nil => rfl
  | cons f fs ih => rw [foldl_cons, ih, moveKey, configs_alter]

@[simp] theorem configs_updateIndexes :
    (t.updateIndexes ex map key old new).configs = t.configs := configs_foldl_moveKey _ t

theorem Lists.moveKey (h : t.Lists map' attr' fv key') (hne : ¬ (map' = map ∧ key' = key))
    (f : IndexType × Str) : (moveKey ex map key old new t f).Lists map' attr' fv key' := by
  by_cases hmap : map' = map
  · exact h.alter fun x hx => holds_reindex hx fun hkey => hne ⟨hmap, hkey⟩
  · obtain ⟨x, hx, hholds⟩ := h
    exact ⟨x, (index_alter_of_ne fun heq => hmap heq.1).trans hx, hholds⟩

theorem Lists.updateIndexes (h : t.Lists map' attr' fv key')
    (hne : ¬ (map' = map ∧ key' = key)) :
    (t.updateIndexes ex map key old new).Lists map' attr' fv key' := by
  rw [Tables.updateIndexes]
  generalize fields (t.mapConfigs map) = fs
  induction fs generalizing t with
  | nil => exact h
  | cons f fs ih => exact ih (h.moveKey hne f)

/-- The key is listed under an attribute of the new value as soon as the attribute is met, and
stays so when it is met again. -/
theorem lists_foldl_moveKey (hnull : ex v attr ≠ .null) (fs : List (IndexType × Str))
    (t : Tables) (h : t.Lists map attr (ex v attr) key ∨ attr ∈ fs.map Prod.snd) :
    (fs.foldl (moveKey ex map key old (some v)) t).Lists map attr (ex v attr) key := by
  induction fs generalizing t with
  | nil => simpa using h
  | cons f fs ih =>
    refine ih _ ?_
    by_cases hattr : attr = f.2
    · subst hattr
      exact .inl ⟨_, index_alter_self, holds_reindex_self hnull⟩
    · rcases h with ⟨x, hx, hholds⟩ | hmem
      · exact .inl ⟨x, (index_alter_of_ne fun heq => hattr heq.2).trans hx, hholds⟩
      · exact .inr (by simpa [hattr] using hmem)

theorem lists_updateIndexes_self (hconf : t.Configured map attr)
    (hnull : ex v attr ≠ .null) :
    (t.updateIndexes ex map key old (some v)).Lists map attr (ex v attr) key :=
  lists_foldl_moveKey hnull _ t (.inr hconf)

theorem of_index_foldl_moveKey (fs : List (IndexType × Str)) (t : Tables)
    (h : (fs.foldl (moveKey ex map key old new) t).index map' attr' ≠ none) :
    t.index map' attr' ≠ none ∨ map' = map ∧ attr' ∈ fs.map Prod.snd := by
  induction fs generalizing t with
  | nil => exact .inl h
  | cons f fs ih =>
    by_cases heq : map' = map ∧ attr' = f.2
    · simp [heq]
    · rcases ih _ h with hpre | ⟨hmap, hmem⟩
      · rw [moveKey, index_alter_of_ne heq] at hpre
        exact .inl hpre
      · exact .inr ⟨hmap, mem_cons_of_mem _ hmem⟩

theorem of_index_updateIndexes (h : (t.updateIndexes ex map key old new).index map' attr' ≠ none) :
    t.index map' attr' ≠ none ∨ t.Configured map' attr' := by
  rcases of_index_foldl_moveKey _ t h with hpre | ⟨rfl, hmem⟩
  · exact .inl hpre
  · exact .inr hmem

theorem configs_foldl_addEntry (es : List (Str × Bytes × Bytes)) (t : Tables) :
    (es.foldl (addEntry ex map ty) t).configs = t.configs := by
  induction es generalizing t with
  | nil => rfl
  | cons e es ih =>
    rw [foldl_cons, ih, addEntry]
    split <;> rfl

theorem Lists.addEntry (h : t.Lists map' attr' fv key) (e : Str × Bytes × Bytes) :
    (addEntry ex map ty t e).Lists map' attr' fv key := by
  rw [Tables.addEntry]
  split
  · exact h
  · exact h.alter fun x hx => hx.insert _ _

theorem lists_foldl_addEntry (hnull : ex v attr ≠ .null)
    (es : List (Str × Bytes × Bytes)) (t : Tables)
    (h : t.Lists map attr (ex v attr) key ∨ (attr, key, v) ∈ es) :
    (es.foldl (addEntry ex map ty) t).Lists map attr (ex v attr) key := by
  induction es generalizing t with
  | nil => simpa using h
  | cons e es ih =>
    refine ih _ ?_
    rcases h with h | hmem
    · exact .inl (h.addEntry e)
    · rcases mem_cons.1 hmem with rfl | hmem
      · rw [addEntry, if_neg hnull]
        exact .inl ⟨_, index_alter_self, Index.holds_insert_self⟩
      · exact .inr hmem

theorem Lists.foldl_addEntry (h : t.Lists map' attr' fv key) (es : List (Str × Bytes × Bytes)) :
    (es.foldl (Tables.addEntry ex map ty) t).Lists map' attr' fv key := by
  induction es generalizing t with
  | nil => exact h
  | cons e es ih => exact ih (h.addEntry e)

theorem of_index_foldl_addEntry (es : List (Str × Bytes × Bytes)) (t : Tables)
    (h : (es.foldl (addEntry ex map ty) t).index map' attr' ≠ none) :
    t.index map' attr' ≠ none ∨ map' = map ∧ attr' ∈ es.map Prod.fst := by
  induction es generalizing t with
  | nil => exact .inl h
  | cons e es ih =>
    by_cases heq : map' = map ∧ attr' = e.1
    · simp [heq]
    · rcases ih _ h with hpre | ⟨hmap, hmem⟩
      · rw [addEntry] at hpre
        split at hpre
        · exact .inl hpre
        · rw [index_alter_of_ne heq] at hpre
          exact .inl hpre
      · exact .inr ⟨hmap, mem_cons_of_mem _ hmem⟩

end Listing

/-- What can be seen at a time is listed under its attributes; only attributes that are
configured have an index. -/
structure Covers (t : Tables) (ex : Bytes → Str → FieldValue) (now : ℕ) (cells : Contents) :
    Prop where
  listed : ∀ map attr, t.Configured map attr → ∀ key c, Inner.seen now (cells (map, key)) = some c →
    ex c.val attr ≠ .null → t.Lists map attr (ex c.val attr) key
  known : ∀ map attr, t.index map attr ≠ none → t.Configured map attr

section Covering

variable {t : Tables} {ex ex' : Bytes → Str → FieldValue} {now now' : ℕ} {cells cells' : Contents}
  {map : Str} {key : Bytes} {old new : Option Bytes} {c' : Option Cell}

theorem covers_empty (ex : Bytes → Str → FieldValue) (now : ℕ) (cells : Contents) :
    empty.Covers ex now cells where
  listed := by
    intro map attr hconf
    cases hconf
  known := fun map attr hidx => absurd rfl hidx

theorem Covers.mono (h : t.Covers ex now cells)
    (hcells : ∀ mk c, Inner.seen now' (cells' mk) = some c → Inner.seen now (cells mk) = some c) :
    t.Covers ex now' cells' where
  listed := fun map attr hconf key c hc => h.listed map attr hconf key c (hcells _ c hc)
  known := h.known

theorem Covers.congr_extract (h : t.Covers ex now cells)
    (hex : ∀ map attr, t.Configured map attr → ∀ key c, Inner.seen now (cells (map, key)) = some c →
      ex' c.val attr = ex c.val attr) : t.Covers ex' now cells where
  listed := by
    intro map attr hconf key c hc hnull
    rw [hex map attr hconf key c hc] at hnull ⊢
    exact h.listed map attr hconf key c hc hnull
  known := h.known

theorem configured_congr {t t' : Tables} (h : t'.configs = t.configs) (map attr : Str) :
    t'.Configured map attr ↔ t.Configured map attr := by
  rw [Configured, Configured, mapConfigs, mapConfigs, h]

theorem configured_addConfig (config : IndexConfig) (map' attr : Str) :
    (t.addConfig map config).Configured map' attr ↔
      t.Configured map' attr ∨ map' = map ∧ attr ∈ config.attributes := by
  by_cases hmap : map' = map
  · subst hmap
    have hconfigs : (t.addConfig map' config).mapConfigs map' = t.mapConfigs map' ++ [config] := by
      rw [mapConfigs, addConfig, lookup_insert, Option.getD_some]
    simp [Configured, hconfigs, fields]
  · have hconfigs : (t.addConfig map config).mapConfigs map' = t.mapConfigs map' := by
      rw [mapConfigs, addConfig, lookup_insert_ne hmap, mapConfigs]
    simp [Configured, hconfigs, hmap]

theorem Covers.updateIndexes (h : t.Covers ex now cells)
    (hnew : ∀ c, Inner.seen now c' = some c → new = some c.val) :
    (t.updateIndexes ex map key old new).Covers ex now (Function.update cells (map, key) c') where
  listed := by
    intro map' attr hconf key' c hc hnull
    rw [configured_congr configs_updateIndexes] at hconf
    by_cases heq : (map', key') = (map, key)
    · rw [heq, Function.update_self] at hc
      cases heq
      rw [hnew c hc]
      exact lists_updateIndexes_self hconf hnull
    · rw [Function.update_of_ne heq] at hc
      exact (h.listed map' attr hconf key' c hc hnull).updateIndexes
        fun hk => heq (by rw [hk.1, hk.2])
  known := by
    intro map' attr hidx
    rw [configured_congr configs_updateIndexes]
    exact (of_index_updateIndexes hidx).elim (h.known map' attr) id

theorem Covers.addIndex (h : t.Covers ex now cells) (config : IndexConfig)
    {entries : List (Bytes × Bytes)}
    (hentries : ∀ key c, Inner.seen now (cells (map, key)) = some c → (key, c.val) ∈ entries) :
    (t.addIndex ex map config entries).Covers ex now cells := by
  rw [Tables.addIndex]
  split
  · exact h
  · generalize hpairs : (config.attributes.flatMap fun attr => entries.map fun e => (attr, e)) = es
    refine ⟨fun map' attr hc key c hseen hnull => ?_, fun map' attr hidx => ?_⟩
    · rw [configured_congr (configs_foldl_addEntry es _), configured_addConfig] at hc
      rcases hc with hc | ⟨rfl, hattr⟩
      · have hlists : (t.addConfig map config).Lists map' attr (ex c.val attr) key :=
          h.listed map' attr hc key c hseen hnull
        exact hlists.foldl_addEntry es
      · refine lists_foldl_addEntry hnull es _ (.inr ?_)
        rw [← hpairs, mem_flatMap]
        exact ⟨attr, hattr, mem_map_of_mem (hentries key c hseen)⟩
    · rw [configured_congr (configs_foldl_addEntry es _), configured_addConfig]
      rcases of_index_foldl_addEntry es _ hidx with hpre | ⟨hmap, hmem⟩
      · exact .inl (h.known map' attr hpre)
      · rw [← hpairs] at hmem
        simp only [mem_map, mem_flatMap] at hmem
        obtain ⟨-, ⟨a, ha, e, -, rfl⟩, rfl⟩ := hmem
        exact .inr ⟨hmap, ha⟩

end Covering

end Tables

end BonsaiGrid.Store
