import Mathlib.Data.List.AList

/-!
# Dictionaries

Hash maps up to the order of iteration: association lists without repeated
keys. Nothing here says in which order the entries are visited, except that it
is the same for every use of one dictionary.
-/

abbrev Dict (K V : Type) := AList fun _ : K => V

namespace Dict

open List AList

variable {K V : Type}

def retain (p : K → V → Bool) (d : Dict K V) : Dict K V :=
  ⟨d.entries.filter fun e => p e.1 e.2, d.nodupKeys.sublist filter_sublist⟩

def len (d : Dict K V) : ℕ := d.entries.length

theorem mem_entries_retain {p : K → V → Bool} {d : Dict K V} {e : Sigma fun _ : K => V} :
    e ∈ (d.retain p).entries ↔ e ∈ d.entries ∧ p e.1 e.2 = true := mem_filter

theorem nodupKeys_map {W : Type} (f : V → W) (d : Dict K V) :
    (d.entries.map fun e => (⟨e.1, f e.2⟩ : Sigma fun _ : K => W)).NodupKeys := by
  have hkeys : (d.entries.map fun e => (⟨e.1, f e.2⟩ : Sigma fun _ : K => W)).keys =
      d.entries.keys := by
    rw [List.keys, map_map]
    rfl
  rw [List.NodupKeys, hkeys]
  exact d.nodupKeys

def mapVal {W : Type} (f : V → W) (d : Dict K V) : Dict K W :=
  ⟨d.entries.map fun e => ⟨e.1, f e.2⟩, nodupKeys_map f d⟩

variable [DecidableEq K] {d : Dict K V} {a : K} {b : V}

theorem lookup_eq_some :
    d.lookup a = some b ↔ (⟨a, b⟩ : Sigma fun _ : K => V) ∈ d.entries :=
  mem_lookup_iff

theorem lookup_retain {p : K → V → Bool} {d : Dict K V} :
    (d.retain p).lookup a = some b ↔ d.lookup a = some b ∧ p a b = true := by
  rw [lookup_eq_some, lookup_eq_some, mem_entries_retain]

theorem lookup_retain_eq (p : K → V → Bool) (d : Dict K V) (a : K) :
    (d.retain p).lookup a = (d.lookup a).filter (p a) := by
  refine Option.ext fun b => ?_
  rw [lookup_retain, Option.filter_eq_some_iff]

theorem lookup_mapVal {W : Type} (f : V → W) (d : Dict K V) (a : K) :
    (d.mapVal f).lookup a = (d.lookup a).map f := by
  refine Option.ext fun b => ?_
  rw [lookup_eq_some, Option.map_eq_some_iff]
  constructor
  · intro h
    obtain ⟨e, he, heq⟩ := mem_map.mp h
    cases heq
    exact ⟨e.2, lookup_eq_some.mpr he, rfl⟩
  · rintro ⟨v, hv, rfl⟩
    exact mem_map.mpr ⟨⟨a, v⟩, lookup_eq_some.mp hv, rfl⟩

theorem lookup_insert_eq_some {a a' : K} {b b' : V}
    (h : (d.insert a' b').lookup a = some b) : a = a' ∧ b = b' ∨ d.lookup a = some b := by
  by_cases haa : a = a'
  · subst haa
    rw [lookup_insert] at h
    exact .inl ⟨rfl, (Option.some.inj h).symm⟩
  · rw [lookup_insert_ne haa] at h
    exact .inr h

theorem lookup_of_lookup_erase {a a' : K}
    (h : (d.erase a').lookup a = some b) : a ≠ a' ∧ d.lookup a = some b := by
  have hne : a ≠ a' := by
    rintro rfl
    rw [lookup_erase] at h
    cases h
  rw [lookup_erase_ne hne] at h
  exact ⟨hne, h⟩

theorem lookup_foldl_insert_of_notMem {l : List (K × V)} (h : a ∉ l.map Prod.fst)
    (d : Dict K V) : (l.foldl (fun d e => AList.insert e.1 e.2 d) d).lookup a = d.lookup a := by
  induction l generalizing d with
  | nil => rfl
  | cons e l ih =>
    rw [map_cons, mem_cons, not_or] at h
    rw [foldl_cons, ih h.2, lookup_insert_ne h.1]

theorem lookup_foldl_insert {l : List (K × V)} (hnodup : (l.map Prod.fst).Nodup)
    (h : (a, b) ∈ l) (d : Dict K V) :
    (l.foldl (fun d e => AList.insert e.1 e.2 d) d).lookup a = some b := by
  induction l generalizing d with
  | nil => cases h
  | cons e l ih =>
    rw [map_cons, nodup_cons] at hnodup
    rw [foldl_cons]
    rcases mem_cons.1 h with rfl | h
    · rw [lookup_foldl_insert_of_notMem hnodup.1, lookup_insert]
    · exact ih hnodup.2 h _

def pairs (d : Dict K V) : List (K × V) := d.entries.map fun e => (e.1, e.2)

omit [DecidableEq K] in
theorem map_fst_pairs (d : Dict K V) : d.pairs.map Prod.fst = d.keys := by
  rw [pairs, map_map]
  rfl

omit [DecidableEq K] in
theorem nodup_pairs (d : Dict K V) : d.pairs.Nodup := by
  refine Nodup.of_map Prod.fst ?_
  rw [map_fst_pairs]
  exact d.keys_nodup

/-- The table that lists these pairs in their order. -/
def ofPairs (l : List (K × V)) (h : (l.map Prod.fst).Nodup) : Dict K V where
  entries := l.map fun e => ⟨e.1, e.2⟩
  nodupKeys := by
    rw [NodupKeys, List.keys, map_map]
    exact h

omit [DecidableEq K] in
theorem pairs_ofPairs (l : List (K × V)) (h : (l.map Prod.fst).Nodup) :
    (ofPairs l h).pairs = l := by
  rw [pairs, ofPairs, map_map]
  exact map_id l

theorem lookup_eq_none_iff : d.lookup a = none ↔ a ∉ d.keys :=
  lookup_eq_none

theorem mem_pairs : (a, b) ∈ d.pairs ↔ d.lookup a = some b := by
  rw [lookup_eq_some, pairs, mem_map]
  constructor
  · rintro ⟨⟨a', b'⟩, he, heq⟩
    cases heq
    exact he
  · exact fun h => ⟨⟨a, b⟩, h, rfl⟩

theorem lookup_foldl_pairs (d : Dict K V) (a : K) :
    (d.pairs.foldl (fun d e => AList.insert e.1 e.2 d) (∅ : Dict K V)).lookup a = d.lookup a := by
  have hnodup : (d.pairs.map Prod.fst).Nodup := by
    rw [map_fst_pairs]
    exact d.keys_nodup
  cases ha : d.lookup a with
  | none =>
    rw [lookup_foldl_insert_of_notMem]
    · rfl
    · rwa [map_fst_pairs, ← lookup_eq_none_iff]
  | some b => exact lookup_foldl_insert hnodup (mem_pairs.2 ha) ∅

theorem entries_perm {d e : Dict K V} (h : ∀ a, d.lookup a = e.lookup a) :
    d.entries.Perm e.entries := by
  refine lookup_ext d.nodupKeys e.nodupKeys fun a b => ?_
  rw [show d.entries.dlookup a = e.entries.dlookup a from h a]

end Dict
