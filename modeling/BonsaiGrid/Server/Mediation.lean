import BonsaiGrid.Server.Dispatch

/-!
# What a request does to the maps

The check of a request looks at its message type and at the text of its second frame, while the
maps that the request touches are decided by decoding it: for SQL by the statement, for a commit by
what the transaction has buffered.

This module says what a request touches. `Request.accesses` lists the maps and actions that its arm
may perform. `Request.writes` are the mutations that it carries out in a state, and what it leaves
at a key is told by the last of them that is about the key. `Request.Reads` says on which maps the
reply depends. `Request.Makes` joins the two: an action on a map that makes a difference.
-/

namespace BonsaiGrid.Server

open Fault Protocol Security Store Shown List

/-! ## Accesses -/

def MapCall.actions : MapCall → List Action
  | put _ _ _ .returned => [.put, .read]
  | put _ _ _ .nulled => [.put]
  | put _ _ _ .dropped => [.put]
  | putIfAbsent _ _ _ => [.put, .read]
  | replace _ _ => [.put, .read]
  | putAll _ => [.put]
  | remove _ .returned => [.remove, .read]
  | remove _ .nulled => [.remove]
  | remove _ .dropped => [.remove]
  | removeIf _ _ => [.remove]
  | clear => [.remove]
  | get _ => [.read]
  | getAll _ => [.read]
  | containsKey _ => []
  | containsValue _ => []
  | size => []
  | isEmpty => []
  | list _ _ => [.read]
  | project _ _ => [.read]
  | aggregate _ _ => [.read]
  | executeOnKey => []

abbrev Access := Str × Action

def Mutation.access : Mutation → Access
  | put map _ _ => (map, .put)
  | remove map _ => (map, .remove)

section Accesses

variable (e : Engine) {σ : Type} (s : State e σ)

def Statement.accesses : Statement e.Select e.Mapping e.Row e.Job → List Access
  | select map join _ _ => (map, .read) :: join.toList.map fun right => (right, .read)
  | createMapping _ _ => []
  | insert mapping _ => if (s.catalog.lookup mapping).isSome then [(mapping, .put)] else []
  | createJob _ => []

def Request.accesses : Request → List Access
  | .map name c => c.actions.map fun a => (name, a)
  | .commit txn => (s.txns.mutations txn).map Mutation.access
  | .transactionalPut _ name _ _ => [(name, .read)]
  | .sql text =>
    match e.parse text with
    | .ok (some statement) => statement.accesses e s
    | _ => []
  | _ => []

end Accesses

/-! ## Mutations -/

/-- What the mutation leaves at the key of the map, if it is about that key. -/
def Mutation.leaves (m : Str) (k : Bytes) : Mutation → Option (Option Bytes)
  | put map key value => if map = m ∧ key = k then some (some value) else none
  | remove map key => if map = m ∧ key = k then some none else none

/-- What the mutations leave there, carried out in this order: the last one about the key counts. -/
def lastAt (m : Str) (k : Bytes) : List Mutation → Option (Option Bytes)
  | [] => none
  | x :: l => (lastAt m k l).or (x.leaves m k)

section Store

variable {s : Shown} {map m : Str} {k : Bytes} {d : Dict Bytes Bytes}

theorem maps_setMap_of_ne (h : m ≠ map) : (s.setMap map d).maps m = s.maps m :=
  Function.update_of_ne h _ _

theorem maps_setMap_self : (s.setMap map d).maps map = d := Function.update_self _ _ _

theorem lookup_setMap {t : Shown} {name m : Str} {d : Dict Bytes Bytes} {key k : Bytes}
    (hd : ∀ k' ≠ key, d.lookup k' = (t.maps name).lookup k')
    (h : ((t.setMap name d).maps m).lookup k ≠ (t.maps m).lookup k) :
    m = name ∧ k = key ∧ ((t.setMap name d).maps m).lookup k = d.lookup key := by
  by_cases hm : m = name
  · subst hm
    rw [maps_setMap_self] at h ⊢
    by_cases hk : k = key
    · subst hk
      exact ⟨rfl, rfl, rfl⟩
    · exact absurd (hd k hk) h
  · rw [maps_setMap_of_ne hm] at h
    exact absurd rfl h

theorem fst_getAll (keys : List Bytes) : (ops.getAll s map keys).1 = s := by
  induction keys with
  | nil => rfl
  | cons key keys ih => exact ih

theorem lookup_apply (x : Mutation) (s : Shown) (m : Str) (k : Bytes) :
    ((x.apply ops s).maps m).lookup k = (x.leaves m k).getD ((s.maps m).lookup k) := by
  cases x with
  | put map key value | remove map key =>
    rw [Mutation.leaves]
    by_cases hm : map = m
    · subst hm
      refine (congrArg (AList.lookup k) maps_setMap_self).trans ?_
      by_cases hk : key = k
      · subst hk
        simp
      · simp [hk, Ne.symm hk]
    · refine (congrArg (AList.lookup k) (maps_setMap_of_ne (Ne.symm hm))).trans ?_
      simp [hm]

theorem lookup_mutations (l : List Mutation) (s : Shown) (m : Str) (k : Bytes) :
    ((l.foldl (Mutation.apply ops) s).maps m).lookup k =
      (lastAt m k l).getD ((s.maps m).lookup k) := by
  induction l generalizing s with
  | nil => rfl
  | cons x l ih =>
    rw [foldl_cons, ih, lookup_apply, lastAt]
    cases lastAt m k l with
    | none | some v => rfl

theorem structures_mutations (l : List Mutation) (s : Shown) :
    (l.foldl (Mutation.apply ops) s).structures = s.structures := by
  induction l generalizing s with
  | nil => rfl
  | cons x l ih =>
    rw [foldl_cons, ih]
    cases x with
    | put map key value | remove map key => rfl

/-- What is left at a key is left there by one of the mutations. -/
theorem exists_of_lastAt {l : List Mutation} {v : Option Bytes} (h : lastAt m k l = some v) :
    ∃ x ∈ l, x.leaves m k = some v := by
  induction l with
  | nil => cases h
  | cons x l ih =>
    rw [lastAt] at h
    cases hlast : lastAt m k l with
    | none =>
      rw [hlast, Option.none_or] at h
      exact ⟨x, mem_cons_self, h⟩
    | some w =>
      rw [hlast, Option.some_or] at h
      obtain ⟨y, hy, hleaves⟩ := ih (hlast.trans h)
      exact ⟨y, mem_cons_of_mem x hy, hleaves⟩

theorem Mutation.access_of_leaves {x : Mutation} {v : Option Bytes}
    (h : x.leaves m k = some v) : x.access = (m, if v.isSome then .put else .remove) := by
  cases x with
  | put map key value | remove map key =>
    rw [leaves] at h
    split at h
    next hplace =>
      cases h
      rw [← hplace.1]
      rfl
    next => cases h

theorem lastAt_clear (m : Str) (k : Bytes) (map : Str) (keys : List Bytes) :
    lastAt m k (keys.map (.remove map)) = if map = m ∧ k ∈ keys then some none else none := by
  induction keys with
  | nil => simp [lastAt]
  | cons key keys ih =>
    rw [map_cons, lastAt, ih, Mutation.leaves]
    by_cases hm : map = m
    · by_cases hmem : k ∈ keys
      · simp [hm, hmem]
      · simp [hm, hmem, eq_comm]
    · simp [hm]

end Store

/-! ## What a request writes -/

/-- The mutations of the map that the call carries out, where the map holds `d`. -/
def MapCall.writes (map : Str) (d : Dict Bytes Bytes) : MapCall → List Mutation
  | put key value _ _ => [.put map key value]
  | putIfAbsent key value _ => if (d.lookup key).isSome then [] else [.put map key value]
  | replace key value => if (d.lookup key).isSome then [.put map key value] else []
  | putAll entries => entries.map fun x => .put map x.1 x.2
  | remove key _ => [.remove map key]
  | removeIf key none => [.remove map key]
  | removeIf key (some expected) => if d.lookup key = some expected then [.remove map key] else []
  | clear => d.keys.map (.remove map)
  | _ => []

section Writes

variable (e : Engine) (s : State e Shown)

def Statement.writes : Statement e.Select e.Mapping e.Row e.Job → List Mutation
  | insert mapping rows =>
    match s.catalog.lookup mapping with
    | some m => (rows.filterMap (e.insertEntry m)).map fun x => .put mapping x.1 x.2
    | none => []
  | _ => []

def Request.writes : Request → List Mutation
  | .map name c => c.writes name (s.store.maps name)
  | .commit txn => s.txns.mutations txn
  | .sql text =>
    match e.parse text with
    | .ok (some statement) => statement.writes e s
    | _ => []
  | _ => []

end Writes

/-- A put is among the accesses of a call that puts, and a removal among those of one that removes. -/
theorem MapCall.access_of_writes {c : MapCall} {map : Str} {d : Dict Bytes Bytes} {x : Mutation}
    (h : x ∈ c.writes map d) : x.access ∈ c.actions.map fun a => (map, a) := by
  cases c with
  | put key value ttlMs old | remove key old =>
    rw [mem_singleton.mp h]
    cases old
    all_goals exact mem_cons_self
  | putIfAbsent key value ttlMs | replace key value =>
    rw [writes] at h
    split at h
    all_goals first
      | cases h
        done
      | rw [mem_singleton.mp h]
        exact mem_cons_self
  | putAll entries =>
    obtain ⟨y, -, rfl⟩ := mem_map.mp h
    exact mem_cons_self
  | removeIf key expected =>
    cases expected with
    | none =>
      rw [mem_singleton.mp h]
      exact mem_cons_self
    | some value =>
      rw [writes] at h
      split at h
      · rw [mem_singleton.mp h]
        exact mem_cons_self
      · cases h
  | clear =>
    obtain ⟨key, -, rfl⟩ := mem_map.mp h
    exact mem_cons_self
  | _ => cases h

section Run

variable {e : Engine} {schemas : Dict ℤ e.Schema} {s s' : Shown} {map : Str} {reply : Reply e}

theorem foldl_put (entries : List (Bytes × Bytes)) (s : Shown) :
    ops.putAll s map entries =
      (entries.map fun x => Mutation.put map x.1 x.2).foldl (Mutation.apply ops) s := by
  rw [foldl_map]
  rfl

/-- A call changes the maps by its writes, and nothing else. -/
theorem MapCall.run_spec {c : MapCall} (h : c.run e ops schemas s map = .ok (s', reply)) :
    (∀ m k, (s'.maps m).lookup k =
      (lastAt m k (c.writes map (s.maps map))).getD ((s.maps m).lookup k)) ∧
      s'.structures = s.structures := by
  have hstay : (∀ m k, (s.maps m).lookup k = (none : Option (Option Bytes)).getD
      ((s.maps m).lookup k)) ∧ s.structures = s.structures := ⟨fun _ _ => rfl, rfl⟩
  cases c with
  | put key value ttlMs old =>
    cases h
    exact ⟨lookup_mutations [.put map key value] s, rfl⟩
  | remove key old =>
    cases h
    exact ⟨lookup_mutations [.remove map key] s, rfl⟩
  | putIfAbsent key value ttlMs | replace key value =>
    cases h
    dsimp only [Shown.ops, writes]
    cases (s.maps map).lookup key with
    | none | some old =>
      first
      | exact hstay
      | exact ⟨lookup_mutations [.put map key value] s, rfl⟩
  | putAll entries =>
    cases h
    rw [foldl_put]
    exact ⟨lookup_mutations _ s, structures_mutations _ s⟩
  | removeIf key expected =>
    cases expected with
    | none =>
      cases h
      exact ⟨lookup_mutations [.remove map key] s, rfl⟩
    | some value =>
      rw [writes]
      by_cases hvalue : (s.maps map).lookup key = some value
      · have hget : (ops.get s map key).2 = some value := hvalue
        rw [run, if_pos hget] at h
        cases h
        rw [if_pos hvalue]
        exact ⟨lookup_mutations [.remove map key] s, rfl⟩
      · have hget : ¬ (ops.get s map key).2 = some value := hvalue
        rw [run, if_neg hget] at h
        cases h
        rw [if_neg hvalue]
        exact hstay
  | clear =>
    cases h
    refine ⟨fun m k => ?_, rfl⟩
    rw [writes, lastAt_clear]
    by_cases hm : map = m
    · subst hm
      refine (congrArg (AList.lookup k) maps_setMap_self).trans ?_
      by_cases hk : k ∈ (s.maps map).keys
      · simp [hk]
      · rw [if_neg fun h => hk h.2, Option.getD_none, Dict.lookup_eq_none_iff.mpr hk]
        rfl
    · rw [if_neg fun h => hm h.1]
      exact congrArg (AList.lookup k) (maps_setMap_of_ne (Ne.symm hm))
  | getAll keys =>
    cases h
    rw [fst_getAll]
    exact hstay
  | list part predicate =>
    obtain ⟨entries, -, h⟩ := bind_eq_ok.mp h
    cases h
    exact hstay
  | project data predicate | aggregate data predicate =>
    obtain ⟨found, -, h⟩ := bind_eq_ok.mp h
    cases found with
    | none =>
      cases h
      exact hstay
    | some found =>
      obtain ⟨entries, -, h⟩ := bind_eq_ok.mp h
      obtain ⟨result, -, h⟩ := bind_eq_ok.mp h
      cases h
      exact hstay
  | _ =>
    cases h
    exact hstay

end Run

section Request

variable {e : Engine} {s s' : State e Shown} {replies : List (Reply e)}

theorem Statement.access_of_writes {st : Statement e.Select e.Mapping e.Row e.Job} {x : Mutation}
    (h : x ∈ st.writes e s) : x.access ∈ st.accesses e s := by
  cases st with
  | insert mapping rows =>
    rw [writes] at h
    rw [accesses]
    cases hlook : s.catalog.lookup mapping with
    | none =>
      rw [hlook] at h
      cases h
    | some m =>
      rw [hlook] at h
      obtain ⟨y, -, rfl⟩ := mem_map.mp h
      exact mem_cons_self
  | _ => cases h

theorem Request.access_of_writes {r : Request} {x : Mutation} (h : x ∈ r.writes e s) :
    x.access ∈ r.accesses e s := by
  cases r with
  | map name c => exact MapCall.access_of_writes h
  | commit txn => exact mem_map_of_mem h
  | sql text =>
    rw [writes] at h
    rw [accesses]
    split at h
    next => exact Statement.access_of_writes h
    next => cases h
  | _ => cases h

theorem Statement.run_spec {st : Statement e.Select e.Mapping e.Row e.Job}
    (h : st.run e ops s = .ok (s', replies)) :
    (∀ m k, (s'.store.maps m).lookup k =
      (lastAt m k (st.writes e s)).getD ((s.store.maps m).lookup k)) ∧
      s'.store.structures = s.store.structures ∧ s'.cluster = s.cluster := by
  cases st with
  | select map join star sel =>
    cases join with
    | some right | none =>
      obtain ⟨table, -, h⟩ := bind_eq_ok.mp h
      cases h
      exact ⟨fun _ _ => rfl, rfl, rfl⟩
  | insert mapping rows =>
    rw [run] at h
    rw [writes]
    cases hlook : s.catalog.lookup mapping with
    | none =>
      rw [hlook] at h
      cases h
      exact ⟨fun _ _ => rfl, rfl, rfl⟩
    | some x =>
      rw [hlook] at h
      cases h
      dsimp only [insertRows]
      rw [foldl_put]
      exact ⟨lookup_mutations _ _, structures_mutations _ _, rfl⟩
  | _ =>
    cases h
    exact ⟨fun _ _ => rfl, rfl, rfl⟩

/-- What a request does: the maps change by its writes, the structures stay unless it is a call
on one of them, and so does the view of the cluster. -/
theorem Request.run_spec [Pbkdf2] {cfg : Cfg} {r : Request}
    (h : r.run e ops s cfg = .ok (s', replies)) :
    (∀ m k, (s'.store.maps m).lookup k =
      (lastAt m k (r.writes e s)).getD ((s.store.maps m).lookup k)) ∧
      (s'.store.structures = s.store.structures ∨
        ∃ c, r = .call c ∧ s'.store = (ops.call s.store c).1) ∧
      s'.cluster = s.cluster := by
  cases r with
  | map name c =>
    obtain ⟨⟨t, reply⟩, hrun, h⟩ := bind_eq_ok.mp h
    cases h
    obtain ⟨hmaps, hstructures⟩ := MapCall.run_spec hrun
    exact ⟨hmaps, .inl hstructures, rfl⟩
  | call c =>
    cases h
    exact ⟨fun _ _ => rfl, .inr ⟨c, rfl, rfl⟩, rfl⟩
  | commit txn =>
    cases h
    exact ⟨lookup_mutations _ _, .inl (structures_mutations _ _), rfl⟩
  | sql text =>
    obtain ⟨parsed, hparse, h⟩ := bind_eq_ok.mp h
    rw [writes, hparse]
    cases parsed with
    | none =>
      cases h
      exact ⟨fun _ _ => rfl, .inl rfl, rfl⟩
    | some statement =>
      obtain ⟨hmaps, hstructures, hcluster⟩ := statement.run_spec h
      exact ⟨hmaps, .inl hstructures, hcluster⟩
  | sendSchema c | authentication c | service c =>
    obtain ⟨x, -, h⟩ := bind_eq_ok.mp h
    cases h
    exact ⟨fun _ _ => rfl, .inl rfl, rfl⟩
  | _ =>
    cases h
    exact ⟨fun _ _ => rfl, .inl rfl, rfl⟩

/-- A request leaves a map that it neither puts to nor removes from. -/
theorem Request.lookup_eq [Pbkdf2] {cfg : Cfg} {r : Request}
    (h : r.run e ops s cfg = .ok (s', replies)) {m : Str}
    (hput : (m, .put) ∉ r.accesses e s) (hremove : (m, .remove) ∉ r.accesses e s) (k : Bytes) :
    (s'.store.maps m).lookup k = (s.store.maps m).lookup k := by
  rw [(Request.run_spec h).1]
  cases hlast : lastAt m k (r.writes e s) with
  | none => rfl
  | some v =>
    obtain ⟨x, hx, hleaves⟩ := exists_of_lastAt hlast
    have haccess := Request.access_of_writes hx
    rw [Mutation.access_of_leaves hleaves] at haccess
    cases v with
    | none => exact absurd haccess hremove
    | some v => exact absurd haccess hput

/-- A request that writes is carried out. -/
theorem Request.returns_of_writes [Pbkdf2] (cfg : Cfg) {r : Request} (h : r.writes e s ≠ []) :
    Returns (r.run e ops s cfg) := by
  cases r with
  | map name c =>
    cases c with
    | removeIf key expected =>
      cases expected with
      | none => exact returns_ok _
      | some value =>
        rw [run, MapCall.run]
        split
        all_goals exact returns_ok _
    | list part predicate | project projection predicate
    | aggregate aggregator predicate => exact absurd rfl h
    | _ => exact returns_ok _
  | commit txn => exact returns_ok _
  | sql text =>
    rw [writes] at h
    rw [run]
    split at h
    next statement hparse =>
      rw [hparse, ok_bind]
      cases statement with
      | insert mapping rows =>
        dsimp only [Statement.run]
        split
        all_goals exact returns_ok _
      | _ => exact absurd rfl h
    next => exact absurd rfl h
  | _ => exact absurd rfl h

end Request

/-! ## What a reply depends on -/

def Reply.entryData {e : Engine} : Reply e → Option (Reply e)
  | .data v => some (.data v)
  | .dataList items => some (.dataList items)
  | .entryList entries => some (.entryList entries)
  | .table t => some (.table t)
  | _ => none

def entryData {e : Engine} {α : Type} : Except Fault (α × List (Reply e)) → Option (List (Reply e))
  | .ok r => some (r.2.filterMap Reply.entryData)
  | .error _ => none

def State.setMap {e : Engine} (s : State e Shown) (map : Str) (d : Dict Bytes Bytes) :
    State e Shown := { s with store := s.store.setMap map d }

section Reads

variable {e : Engine} {schemas : Dict ℤ e.Schema} {s : Shown} {map m : Str} {d : Dict Bytes Bytes}

theorem setMap_comm (h : map ≠ m) (d' : Dict Bytes Bytes) :
    (s.setMap m d).setMap map d' = (s.setMap map d').setMap m d := by
  rw [setMap, setMap, setMap, setMap]
  rw [Function.update_comm h]

theorem putAll_setMap (h : map ≠ m) (entries : List (Bytes × Bytes)) :
    ops.putAll (s.setMap m d) map entries =
      (ops.putAll s map entries).setMap m d := by
  induction entries generalizing s with
  | nil => rfl
  | cons x entries ih =>
    have hput : (ops.put (s.setMap m d) map x.1 x.2).1 =
        (ops.put s map x.1 x.2).1.setMap m d := by
      refine Eq.trans ?_ (setMap_comm h _)
      rw [StoreOps.put, Shown.ops]
      dsimp only
      rw [maps_setMap_of_ne h]
    exact (congrArg (fun t => ops.putAll t map entries) hput).trans ih

theorem getAll_setMap (h : map ≠ m) (keys : List Bytes) :
    ops.getAll (s.setMap m d) map keys =
      (s.setMap m d, (ops.getAll s map keys).2) := by
  induction keys with
  | nil => rfl
  | cons key keys ih =>
    rw [StoreOps.getAll]
    have hget : ops.get (s.setMap m d) map key =
        (s.setMap m d, (ops.get s map key).2) := by
      rw [Shown.ops]
      dsimp only
      rw [maps_setMap_of_ne h]
    rw [hget]
    rw [ih]
    rfl

theorem matching_setMap (h : map ≠ m) (predicate : Option Bytes) :
    matching e ops schemas (s.setMap m d) map predicate =
      matching e ops schemas s map predicate := by
  have hmap : (s.setMap m d).maps map = s.maps map := maps_setMap_of_ne h
  cases predicate with
  | none | some predicate => simp only [matching, Shown.ops, hmap]

theorem MapCall.run_setMap (h : map ≠ m) (c : MapCall) :
    c.run e ops schemas (s.setMap m d) map =
      (c.run e ops schemas s map).map fun r => (r.1.setMap m d, r.2) := by
  have hmap : (s.setMap m d).maps map = s.maps map := maps_setMap_of_ne h
  cases c with
  | putAll entries =>
    rw [run, putAll_setMap h]
    rfl
  | getAll keys =>
    rw [run, run, getAll_setMap h, fst_getAll]
    rfl
  | put key value ttlMs old =>
    simp only [run, Shown.ops, hmap, setMap_comm h, Except.map]
  | putIfAbsent key value ttlMs =>
    simp only [run, Shown.ops, hmap, Except.map]
    split
    · rfl
    · rw [setMap_comm h]
  | replace key value =>
    simp only [run, Shown.ops, hmap, Except.map]
    split
    · rw [setMap_comm h]
    · rfl
  | remove key old =>
    simp only [run, Shown.ops, hmap, setMap_comm h, Except.map]
  | removeIf key expected =>
    cases expected with
    | none => simp only [run, Shown.ops, hmap, setMap_comm h, Except.map]
    | some value =>
      by_cases hv : (s.maps map).lookup key = some value
      · simp only [run, Shown.ops, hmap, hv, if_true, setMap_comm h, Except.map]
      · simp only [run, Shown.ops, hmap, hv, if_false, Except.map]
  | clear => simp only [run, Shown.ops, setMap_comm h, Except.map]
  | get key | containsKey key | containsValue value
  | size => simp only [run, Shown.ops, hmap, Except.map]
  | isEmpty =>
    have hsize : Shown.ops.size (s.setMap m d) map = Shown.ops.size s map := by
      simp only [Shown.ops, hmap]
    simp only [run, StoreOps.isEmpty, hsize, Except.map]
  | list part predicate =>
    rw [run, run, matching_setMap h]
    cases matching e ops schemas s map predicate with
    | error f | ok entries => rfl
  | project data predicate | aggregate data predicate =>
    rw [run, run, matching_setMap h, map_bind]
    refine bind_congr fun found => ?_
    cases found with
    | none => rfl
    | some found =>
      simp only [map_bind]
      rfl
  | executeOnKey => rfl

theorem MapCall.entryData_of_not_read {c : MapCall} (h : .read ∉ c.actions) :
    ∃ x, ∀ s : Shown,
      (c.run e ops schemas s map).map (fun r => r.2.entryData) = .ok x := by
  cases c with
  | put key value ttlMs old | remove key old =>
    cases old with
    | returned => simp [actions] at h
    | nulled | dropped => exact ⟨_, fun _ => rfl⟩
  | removeIf key expected =>
    cases expected with
    | none => exact ⟨_, fun _ => rfl⟩
    | some value =>
      refine ⟨none, fun s => ?_⟩
      rw [run]
      split
      · rfl
      · rfl
  | putIfAbsent key value ttlMs | replace key value | get key | getAll keys
  | list part predicate | project projection predicate
  | aggregate aggregator predicate => simp [actions] at h
  | _ => exact ⟨_, fun _ => rfl⟩

/-- The calls that reply with an entry or with all of them, whatever the engine does with
predicates and aggregates. -/
def MapCall.tells : MapCall → Bool
  | put _ _ _ .returned => true
  | putIfAbsent _ _ _ => true
  | replace _ _ => true
  | remove _ .returned => true
  | get _ => true
  | list _ none => true
  | _ => false

theorem exists_lookup_ne (d : Dict Bytes Bytes) (key : Bytes) :
    ∃ d' : Dict Bytes Bytes, d'.lookup key ≠ d.lookup key := by
  cases h : d.lookup key with
  | none => exact ⟨AList.insert key [] ∅, by rw [AList.lookup_insert]; simp⟩
  | some v => exact ⟨∅, by simp⟩

theorem exists_length_ne (d : Dict Bytes Bytes) :
    ∃ d' : Dict Bytes Bytes, d'.pairs.length ≠ d.pairs.length := by
  cases h : d.pairs with
  | nil => exact ⟨AList.insert [] [] ∅, by decide⟩
  | cons x l => exact ⟨∅, by simp [Dict.pairs]⟩

end Reads

section Requests

variable {e : Engine} {s : State e Shown} {m : Str} {d : Dict Bytes Bytes}

/-- The table of the statement is another one for some other contents of the map. -/
def Statement.Reads (e : Engine) (s : State e Shown) (m : Str) :
    Statement e.Select e.Mapping e.Row e.Job → Prop
  | select map (some right) _ sel =>
    ∃ d, (joinedRows e ops (s.setMap m d) map right sel).toOption ≠
      (joinedRows e ops s map right sel).toOption
  | select map none star sel =>
    ∃ d, (selectRows e ops (s.setMap m d) map star sel).toOption ≠
      (selectRows e ops s map star sel).toOption
  | _ => False

/-- The request gets data of the entries of the map. -/
def Request.Reads (e : Engine) (s : State e Shown) (m : Str) : Request → Prop
  | .map name c => m = name ∧ .read ∈ c.actions
  | .transactionalPut _ name _ _ => m = name
  | .sql text =>
    match e.parse text with
    | .ok (some statement) => statement.Reads e s m
    | _ => False
  | _ => False

/-- The action on the map is performed and makes a difference: data of its entries is got, a value
is stored that a key did not have, or a key that was there is removed. -/
def Request.Makes (e : Engine) (s : State e Shown) (r : Request) (m : Str) : Action → Prop
  | .read => r.Reads e s m
  | .put => ∃ k v, lastAt m k (r.writes e s) = some (some v) ∧ (s.store.maps m).lookup k ≠ some v
  | .remove => ∃ k, lastAt m k (r.writes e s) = some none ∧ (s.store.maps m).lookup k ≠ none
  | _ => False

section Change

variable [Pbkdf2] {cfg : Cfg} {s' : State e Shown} {r : Request} {replies : List (Reply e)}

/-- A key has a new value after the request exactly if the request makes a put. -/
theorem Request.makes_put_iff (h : r.run e ops s cfg = .ok (s', replies)) (m : Str) :
    (∃ k v, (s'.store.maps m).lookup k = some v ∧ (s.store.maps m).lookup k ≠ some v) ↔
      r.Makes e s m .put := by
  refine exists_congr fun k => exists_congr fun v => and_congr_left fun hold => ?_
  rw [(Request.run_spec h).1]
  cases lastAt m k (r.writes e s) with
  | none => simp [hold]
  | some w => simp

/-- A key is gone after the request exactly if the request makes a removal. -/
theorem Request.makes_remove_iff (h : r.run e ops s cfg = .ok (s', replies)) (m : Str) :
    (∃ k, (s'.store.maps m).lookup k = none ∧ (s.store.maps m).lookup k ≠ none) ↔
      r.Makes e s m .remove := by
  refine exists_congr fun k => and_congr_left fun hold => ?_
  rw [(Request.run_spec h).1]
  cases lastAt m k (r.writes e s) with
  | none => simp [hold]
  | some w => simp

omit [Pbkdf2] in
theorem Request.writes_ne_nil {m : Str} {k : Bytes} {v : Option Bytes}
    (h : lastAt m k (r.writes e s) = some v) : r.writes e s ≠ [] := by
  intro hnil
  rw [hnil] at h
  cases h

end Change

theorem entryData_table (s : State e Shown) (rows : Except Fault Table) :
    entryData (rows >>= fun table => pure (s, [(.table table : Reply e)])) =
      rows.toOption.map fun table => [.table table] := by
  cases rows with
  | error f | ok table => rfl

theorem Statement.reads_iff {st : Statement e.Select e.Mapping e.Row e.Job} :
    st.Reads e s m ↔
      ∃ d, entryData (st.run e ops (s.setMap m d)) ≠ entryData (st.run e ops s) := by
  have hinj : Function.Injective (Option.map fun table => [(.table table : Reply e)]) :=
    Option.map_injective fun t t' heq => by
      cases heq
      rfl
  cases st with
  | select map join star sel =>
    cases join with
    | some right | none =>
      refine exists_congr fun d => ?_
      rw [run, run]
      rw [entryData_table, entryData_table, hinj.ne_iff]
  | insert mapping rows =>
    refine iff_of_false id (not_exists_not.mpr fun d => ?_)
    have hcatalog : (s.setMap m d).catalog = s.catalog := rfl
    rw [run, run, hcatalog]
    cases s.catalog.lookup mapping with
    | none | some x => rfl
  | createMapping name mapping | createJob job =>
    exact iff_of_false id (not_exists_not.mpr fun d => rfl)

variable [Pbkdf2] {cfg : Cfg}

theorem entryData_map (s : State e Shown) (name : Str) (c : MapCall) :
    entryData ((Request.map name c).run e ops s cfg) =
      ((c.run e ops s.schemas s.store name).map fun r => r.2.entryData).toOption.map
        Option.toList := by
  rw [Request.run]
  cases c.run e ops s.schemas s.store name with
  | error f => rfl
  | ok r =>
    change some ([r.2].filterMap Reply.entryData) = some r.2.entryData.toList
    cases hr : r.2.entryData with
    | none | some x => simp [hr]

/-- The data that a request gets does not depend on a map that it does not read. -/
theorem Request.entryData_setMap {r : Request} (h : ¬ r.Reads e s m) (d : Dict Bytes Bytes) :
    entryData (r.run e ops (s.setMap m d) cfg) = entryData (r.run e ops s cfg) := by
  cases r with
  | map name c =>
    rw [entryData_map, entryData_map]
    congr 2
    change (c.run e ops s.schemas (s.store.setMap m d) name).map _ = _
    by_cases hm : name = m
    · have hread : .read ∉ c.actions := fun hc => h ⟨hm.symm, hc⟩
      obtain ⟨x, hx⟩ := MapCall.entryData_of_not_read hread
      rw [hx, hx]
    · rw [MapCall.run_setMap hm]
      cases c.run e ops s.schemas s.store name with
      | error f | ok r => rfl
  | transactionalPut txn name key value =>
    have hm : name ≠ m := fun heq => h heq.symm
    have hget : (ops.get (s.setMap m d).store name key).2 =
        (ops.get s.store name key).2 := by
      change ((s.store.setMap m d).maps name).lookup key = _
      rw [maps_setMap_of_ne hm]
      rfl
    rw [run, run]
    dsimp only [entryData]
    rw [hget]
  | sql text =>
    rw [Reads] at h
    rw [run, run]
    cases hparse : e.parse text with
    | error f => rfl
    | ok parsed =>
      rw [hparse] at h
      cases parsed with
      | none => rfl
      | some statement =>
        have hsame := not_exists_not.mp (mt statement.reads_iff.mpr h)
        exact hsame d
  | sendSchema frames =>
    rw [run, run]
    cases e.decodeSchema frames with
    | error f | ok schema => rfl
  | authentication req =>
    rw [run, run]
    change entryData (authResponse e s cfg (cfg.authStatus req) >>= _) = _
    cases authResponse e s cfg (cfg.authStatus req) with
    | error f | ok reply => rfl
  | service c =>
    rw [run, run]
    change entryData (e.serve c s.rest >>= _) = _
    cases e.serve c s.rest with
    | error f | ok r => rfl
  | _ => rfl

/-- The reply of a call that tells the entries is another one for other contents of the map. -/
theorem MapCall.exists_entryData_ne {c : MapCall} (h : c.tells = true) (s : State e Shown)
    (map : Str) : ∃ d, entryData ((Request.map map c).run e ops (s.setMap map d) cfg) ≠
      entryData ((Request.map map c).run e ops s cfg) := by
  have hvalue : ∀ key, ∃ d,
      ((s.setMap map d).store.maps map).lookup key ≠ (s.store.maps map).lookup key := by
    intro key
    obtain ⟨d, hd⟩ := exists_lookup_ne (s.store.maps map) key
    exact ⟨d, by rwa [State.setMap, maps_setMap_self]⟩
  have hdata : ∀ {v w : Option Bytes}, v ≠ w → some [(.data v : Reply e)] ≠ some [.data w] := by
    intro v w hne heq
    cases heq
    exact hne rfl
  cases c with
  | put key value ttlMs old | remove key old =>
    cases old with
    | returned =>
      obtain ⟨d, hd⟩ := hvalue key
      exact ⟨d, hdata hd⟩
    | nulled | dropped => cases h
  | putIfAbsent key value ttlMs =>
    have hreply : ∀ t : State e Shown, entryData
        ((Request.map map (.putIfAbsent key value ttlMs)).run e ops t cfg) =
          some [.data ((t.store.maps map).lookup key)] := by
      intro t
      rw [entryData_map]
      simp only [run, Shown.ops]
      cases (t.store.maps map).lookup key with
      | none | some old => rfl
    obtain ⟨d, hd⟩ := hvalue key
    exact ⟨d, by rw [hreply, hreply]; exact hdata hd⟩
  | replace key value =>
    have hreply : ∀ t : State e Shown, entryData
        ((Request.map map (.replace key value)).run e ops t cfg) =
          some [.data ((t.store.maps map).lookup key)] := by
      intro t
      rw [entryData_map]
      simp only [run, Shown.ops]
      cases (t.store.maps map).lookup key with
      | none | some old => rfl
    obtain ⟨d, hd⟩ := hvalue key
    exact ⟨d, by rw [hreply, hreply]; exact hdata hd⟩
  | get key =>
    obtain ⟨d, hd⟩ := hvalue key
    exact ⟨d, hdata hd⟩
  | list part predicate =>
    cases predicate with
    | some predicate => cases h
    | none =>
      obtain ⟨d, hd⟩ := exists_length_ne (s.store.maps map)
      have hentries : ops.entries (s.setMap map d).store map = d.pairs := by
        simp only [Shown.ops, State.setMap, maps_setMap_self]
      refine ⟨d, fun heq => hd ?_⟩
      rw [entryData_map, entryData_map, run, run, matching, matching, hentries] at heq
      cases part with
      | keys | values | entries =>
        have hitems := (cons.inj (Option.some.inj heq)).1
        injection hitems with hitems
        simpa [Shown.ops] using congrArg length hitems
  | _ => cases h

/-- A request that reads a map gets other data for other contents of it, where a call that leaves
its reply to the engine is not counted. -/
theorem Request.exists_entryData_ne {r : Request} (h : r.Reads e s m)
    (htells : ∀ name c, r = .map name c → c.tells = true) :
    ∃ d, entryData (r.run e ops (s.setMap m d) cfg) ≠ entryData (r.run e ops s cfg) := by
  cases r with
  | map name c =>
    obtain ⟨rfl, -⟩ := h
    exact MapCall.exists_entryData_ne (htells _ _ rfl) s _
  | transactionalPut txn name key value =>
    cases h
    obtain ⟨d, hd⟩ := exists_lookup_ne (s.store.maps m) key
    refine ⟨d, fun heq => hd ?_⟩
    have hitem := (cons.inj (Option.some.inj heq)).1
    injection hitem with hitem
    simpa [Shown.ops, State.setMap, maps_setMap_self] using hitem
  | sql text =>
    rw [Reads] at h
    split at h
    next statement hparse =>
      obtain ⟨d, hd⟩ := statement.reads_iff.mp h
      refine ⟨d, ?_⟩
      rw [run, run, hparse]
      exact hd
    next => cases h
  | _ => cases h

end Requests

end BonsaiGrid.Server
