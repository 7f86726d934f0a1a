import BonsaiGrid.Store.Calls
import BonsaiGrid.Store.Contents

/-!
# The store as its callers see it

The handlers of the protocols call the store; they do not look into it. What they call is gathered
in `StoreOps`, for a store of any type.
-/

namespace BonsaiGrid.Store

open Function Option Inner AList

def Structures.call (s : Structures) : StructureCall → Structures × Structures.Answer
  | .queueOffer q v => ((s.queueOffer q v).1, .flag (s.queueOffer q v).2)
  | .queuePoll q => ((s.queuePoll q).1, .item (s.queuePoll q).2)
  | .queueRemove q v => ((s.queueRemove q v).1, .flag (s.queueRemove q v).2)
  | .queueClear q => (s.queueClear q, .items [])
  | .listAdd name v => ((s.listAdd name v).1, .flag (s.listAdd name v).2)
  | .listRemove name v => ((s.listRemove name v).1, .flag (s.listRemove name v).2)
  | .listClear name => (s.listClear name, .items [])
  | .setAdd name v => ((s.setAdd name v).1, .flag (s.setAdd name v).2)
  | .setRemove name v => ((s.setRemove name v).1, .flag (s.setRemove name v).2)
  | .setClear name => (s.setClear name, .items [])
  | .mmPut name key value => ((s.mmPut name key value).1, .flag (s.mmPut name key value).2)
  | .mmRemove name key => ((s.mmRemove name key).1, .items (s.mmRemove name key).2)
  | .rbAdd name v => ((s.rbAdd name v).1, .number (s.rbAdd name v).2)
  | .pnAdd name delta getBefore =>
    ((s.pnAdd name delta getBefore).1, .number (s.pnAdd name delta getBefore).2)
  | .hllAdd name hash => (s.hllAdd name hash, .items [])
  | .flakeBatch name batch =>
    ((s.flakeBatch name batch).1, .number (s.flakeBatch name batch).2.1)

theorem callStructure_eq (s : Store) (c : StructureCall) :
    (s.callStructure c).shards = s.shards ∧ (s.callStructure c).aux = (s.aux.call c).1 := by
  cases c with
  | queuePoll | queueRemove | listRemove | setRemove =>
    rw [callStructure.eq_def]
    dsimp only [Store.queuePoll, Store.queueRemove, Store.listRemove, Store.setRemove]
    split
    all_goals exact ⟨rfl, rfl⟩
  | _ => exact ⟨rfl, rfl⟩

structure StoreOps (σ : Type) where
  get : σ → Str → Bytes → σ × Option Bytes
  putTtl : σ → Str → Bytes → Bytes → ℕ → σ × Option Bytes
  remove : σ → Str → Bytes → σ × Option Bytes
  putIfAbsent : σ → Str → Bytes → Bytes → ℕ → σ × Option Bytes
  replace : σ → Str → Bytes → Bytes → σ × Option Bytes
  containsKey : σ → Str → Bytes → σ × Bool
  containsValue : σ → Str → Bytes → Bool
  size : σ → Str → ℕ
  clear : σ → Str → σ
  entries : σ → Str → List (Bytes × Bytes)
  mcUpdate : {R : Type} → σ → Str → Bytes → (Option Bytes → McAction × R) → σ × R
  call : σ → StructureCall → σ × Structures.Answer
  ask : σ → Structures.Query → Structures.Answer

namespace StoreOps

variable {σ : Type} (ops : StoreOps σ)

def put (s : σ) (map : Str) (key val : Bytes) : σ × Option Bytes := ops.putTtl s map key val 0

def putAll (s : σ) (map : Str) (entries : List (Bytes × Bytes)) : σ :=
  entries.foldl (fun s e => (ops.put s map e.1 e.2).1) s

def getAll (s : σ) (map : Str) : List Bytes → σ × List (Bytes × Bytes)
  | [] => (s, [])
  | key :: keys =>
    let r := ops.get s map key
    let rest := getAll r.1 map keys
    (rest.1, (r.2.map fun val => (key, val)).toList ++ rest.2)

def isEmpty (s : σ) (map : Str) : Bool := ops.size s map = 0

end StoreOps

def ops (env : StoreEnv) : StoreOps Store where
  get s := s.get env
  putTtl s := s.putTtl env
  remove s := s.remove env
  putIfAbsent s := s.putIfAbsent env
  replace s := s.replace env
  containsKey s := s.containsKey env
  containsValue s map val := s.shards.any fun inner => inner.containsValue env.now map val
  size s := s.size
  clear s := s.clear
  entries s := s.entries env.now
  mcUpdate s := s.mcUpdate env
  call s c := (s.callStructure c, (s.aux.call c).2)
  ask s := s.aux.ask

structure Shown where
  maps : Str → Dict Bytes Bytes
  structures : Structures

namespace Shown

def setMap (s : Shown) (map : Str) (d : Dict Bytes Bytes) : Shown :=
  { s with maps := update s.maps map d }

def ops : StoreOps Shown where
  get s map key := (s, (s.maps map).lookup key)
  putTtl s map key val _ := (s.setMap map ((s.maps map).insert key val), (s.maps map).lookup key)
  remove s map key := (s.setMap map ((s.maps map).erase key), (s.maps map).lookup key)
  putIfAbsent s map key val _ :=
    match (s.maps map).lookup key with
    | some old => (s, some old)
    | none => (s.setMap map ((s.maps map).insert key val), none)
  replace s map key val :=
    match (s.maps map).lookup key with
    | some old => (s.setMap map ((s.maps map).insert key val), some old)
    | none => (s, none)
  containsKey s map key := (s, ((s.maps map).lookup key).isSome)
  containsValue s map val := (s.maps map).pairs.any fun e => e.2 == val
  size s map := (s.maps map).len
  clear s map := s.setMap map ∅
  entries s map := (s.maps map).pairs
  mcUpdate s map key f :=
    let r := f ((s.maps map).lookup key)
    match r.1 with
    | .store val _ => (s.setMap map ((s.maps map).insert key val), r.2)
    | .remove => (s.setMap map ((s.maps map).erase key), r.2)
    | .keep => (s, r.2)
  call s c := ({ s with structures := (s.structures.call c).1 }, (s.structures.call c).2)
  ask s := s.structures.ask

end Shown

/-! ## The store shows its contents -/

/-- The store shows, at the time `now`, the entries that have not expired and its structures. -/
structure Shows (now : ℕ) (s : Store) (t : Shown) : Prop where
  inv : s.Inv
  maps : ∀ map key, (t.maps map).lookup key = (Inner.seen now (s.contents (map, key))).map Cell.val
  structures : t.structures = s.aux

namespace Shows

variable {env : StoreEnv} {s s' : Store} {t : Shown} {map : Str} {key val : Bytes} {ttlMs : ℕ}

theorem seen_idem (now : ℕ) (c : Option Cell) :
    Inner.seen now (Inner.seen now c) = Inner.seen now c := by
  rw [seen, seen, filter_filter]
  simp only [Bool.and_self]

theorem seen_put (now : ℕ) (val : Bytes) {ttlMs : ℕ} (stamp : ℕ)
    (h : 0 < ttlMs → now + ttlMs < 2 ^ 64) :
    Inner.seen now (some ⟨val, Inner.deadline now ttlMs, stamp⟩) =
      some ⟨val, Inner.deadline now ttlMs, stamp⟩ := by
  rw [seen, filter_some, if_pos]
  rw [Cell.live, deadline]
  split
  next hpos =>
    rw [Nat.mod_eq_of_lt (h hpos), Bool.or_eq_true, decide_eq_true_eq]
    exact .inr (Nat.lt_add_of_pos_right hpos)
  next => rfl

section

variable (h : Shows env.now s t)

include h

theorem update (hinv : s'.Inv) (haux : s'.aux = s.aux) {c : Option Cell}
    (hcont : s'.contents = update s.contents (map, key) c) {d : Dict Bytes Bytes}
    (hkey : d.lookup key = (Inner.seen env.now c).map Cell.val)
    (hother : ∀ k, k ≠ key → d.lookup k = (t.maps map).lookup k) :
    Shows env.now s' (t.setMap map d) := by
  refine ⟨hinv, fun m k => ?_, h.structures.trans haux.symm⟩
  rw [hcont, Shown.setMap]
  dsimp only
  by_cases hm : m = map
  · subst hm
    rw [update_self]
    by_cases hk : k = key
    · subst hk
      rw [update_self, hkey]
    · rw [update_of_ne fun heq => hk (congrArg Prod.snd heq), hother k hk, h.maps]
  · rw [update_of_ne hm, update_of_ne fun heq => hm (congrArg Prod.fst heq),
      h.maps]

theorem reap (hinv : s'.Inv) (haux : s'.aux = s.aux)
    (hcont : s'.contents = Function.update s.contents (map, key)
      (Inner.seen env.now (s.contents (map, key)))) : Shows env.now s' t := by
  have hupdate := h.update hinv haux hcont (d := t.maps map)
    (by rw [seen_idem, h.maps]) fun _ _ => rfl
  rwa [Shown.setMap, update_eq_self] at hupdate

theorem get (map : Str) (key : Bytes) :
    Shows env.now ((ops env).get s map key).1 t ∧
      ((ops env).get s map key).2 = (Shown.ops.get t map key).2 := by
  obtain ⟨hinv, hcont, hret⟩ := h.inv.get env map key
  exact ⟨h.reap hinv rfl hcont, hret.trans (h.maps map key).symm⟩

theorem containsKey (map : Str) (key : Bytes) :
    Shows env.now ((ops env).containsKey s map key).1 t ∧
      ((ops env).containsKey s map key).2 = (Shown.ops.containsKey t map key).2 := by
  obtain ⟨hs, hret⟩ := containsKey_sets (h.inv.shard map key) env.toEnv map key
  obtain ⟨hinv, hcont⟩ := h.inv.setShard hs rfl
  refine ⟨h.reap hinv rfl hcont, hret.trans ?_⟩
  rw [show (Shown.ops.containsKey t map key).2 = ((t.maps map).lookup key).isSome from rfl, h.maps,
    isSome_map]
  rfl

theorem putTtl (map : Str) (hfit : key.length + val.length < 2 ^ 32)
    (httl : 0 < ttlMs → env.now + ttlMs < 2 ^ 64) :
    Shows env.now ((ops env).putTtl s map key val ttlMs).1
        (Shown.ops.putTtl t map key val ttlMs).1 ∧
      ((ops env).putTtl s map key val ttlMs).2 = (Shown.ops.putTtl t map key val ttlMs).2 := by
  obtain ⟨hinv, hcont⟩ := h.inv.putTtl env map key val ttlMs hfit
  obtain ⟨-, hret⟩ := put_sets (h.inv.shard map key) env.toEnv map key val ttlMs
    (nextStampAt s.memberId s.stampSeq env.wallMs) hfit
  refine ⟨h.update hinv rfl hcont ?_ fun k hk => lookup_insert_ne hk, ?_⟩
  · rw [lookup_insert, seen_put _ _ _ httl]
    rfl
  · exact hret.trans (h.maps map key).symm

theorem remove (map : Str) (key : Bytes) :
    Shows env.now ((ops env).remove s map key).1 (Shown.ops.remove t map key).1 ∧
      ((ops env).remove s map key).2 = (Shown.ops.remove t map key).2 := by
  obtain ⟨hinv, hcont⟩ := h.inv.remove env map key
  obtain ⟨-, hret⟩ := remove_sets (h.inv.shard map key) env.toEnv map key
  refine ⟨h.update hinv rfl hcont (lookup_erase _ _) fun k hk => lookup_erase_ne hk, ?_⟩
  exact hret.trans (h.maps map key).symm

theorem putIfAbsent (map : Str) (hfit : key.length + val.length < 2 ^ 32)
    (httl : 0 < ttlMs → env.now + ttlMs < 2 ^ 64) :
    Shows env.now ((ops env).putIfAbsent s map key val ttlMs).1
        (Shown.ops.putIfAbsent t map key val ttlMs).1 ∧
      ((ops env).putIfAbsent s map key val ttlMs).2 =
        (Shown.ops.putIfAbsent t map key val ttlMs).2 := by
  obtain ⟨hinv, hcont⟩ := h.inv.putIfAbsent env map key val ttlMs hfit
  have hret' : ((ops env).putIfAbsent s map key val ttlMs).2 = (t.maps map).lookup key :=
    (h.inv.putIfAbsent_reply env map key val ttlMs hfit).trans (h.maps map key).symm
  have hmaps := h.maps map key
  rw [show Shown.ops.putIfAbsent t map key val ttlMs = match (t.maps map).lookup key with
    | some old => (t, some old)
    | none => (t.setMap map ((t.maps map).insert key val), none) from rfl, hret']
  cases hlook : (t.maps map).lookup key with
  | some old =>
    rw [hlook] at hmaps
    refine ⟨?_, rfl⟩
    obtain ⟨c, hc, -⟩ := map_eq_some_iff.1 hmaps.symm
    rw [hc, some_or, ← hc] at hcont
    exact h.reap hinv rfl hcont
  | none =>
    rw [hlook] at hmaps
    rw [map_eq_none_iff.1 hmaps.symm, none_or] at hcont
    refine ⟨h.update hinv rfl hcont ?_ fun k hk => lookup_insert_ne hk, rfl⟩
    rw [lookup_insert, seen_put _ _ _ httl]
    rfl

theorem replace (map : Str) (hfit : key.length + val.length < 2 ^ 32) :
    Shows env.now ((ops env).replace s map key val).1 (Shown.ops.replace t map key val).1 ∧
      ((ops env).replace s map key val).2 = (Shown.ops.replace t map key val).2 := by
  obtain ⟨hinv, hcont⟩ := h.inv.replace env map key val hfit
  have hret' : ((ops env).replace s map key val).2 = (t.maps map).lookup key :=
    (h.inv.replace_reply env map key val hfit).trans (h.maps map key).symm
  have hmaps := h.maps map key
  rw [show Shown.ops.replace t map key val = match (t.maps map).lookup key with
    | some old => (t.setMap map ((t.maps map).insert key val), some old)
    | none => (t, none) from rfl, hret']
  cases hlook : (t.maps map).lookup key with
  | some old =>
    rw [hlook] at hmaps
    obtain ⟨c, hc, -⟩ := map_eq_some_iff.1 hmaps.symm
    refine ⟨h.update hinv rfl hcont ?_ fun k hk => lookup_insert_ne hk, rfl⟩
    -- the expiry is that of the cell, which is seen
    have hlive : Cell.live { c with val := val } env.now = true := by
      rw [seen, filter_eq_some_iff] at hc
      exact hc.2
    rw [lookup_insert, hc, map_some, seen, filter_some,
      if_pos hlive]
    rfl
  | none =>
    rw [hlook] at hmaps
    have hnone := map_eq_none_iff.1 hmaps.symm
    rw [hnone, map_none] at hcont
    exact ⟨h.reap hinv rfl (hnone ▸ hcont), rfl⟩

theorem mcUpdate {R : Type} (f : Option Bytes → McAction × R)
    (hfit : ∀ new ttlMs, (f ((t.maps map).lookup key)).1 = .store new ttlMs →
      key.length + new.length < 2 ^ 32 ∧ (0 < ttlMs → env.now + ttlMs < 2 ^ 64)) :
    Shows env.now ((ops env).mcUpdate s map key f).1 (Shown.ops.mcUpdate t map key f).1 ∧
      ((ops env).mcUpdate s map key f).2 = (Shown.ops.mcUpdate t map key f).2 := by
  rw [h.maps] at hfit
  obtain ⟨hinv, hcont⟩ := h.inv.mcUpdate env map key f fun new ttlMs hact => (hfit new ttlMs hact).1
  have hreply := h.inv.mcUpdate_reply env map key f
  rw [show Shown.ops.mcUpdate t map key f =
    match (f ((t.maps map).lookup key)).1 with
    | .store new _ => (t.setMap map ((t.maps map).insert key new), (f ((t.maps map).lookup key)).2)
    | .remove => (t.setMap map ((t.maps map).erase key), (f ((t.maps map).lookup key)).2)
    | .keep => (t, (f ((t.maps map).lookup key)).2) from rfl, h.maps]
  cases hact : (f ((seen env.now (s.contents (map, key))).map Cell.val)).1 with
  | store new ttlMs =>
    rw [hact] at hcont
    refine ⟨h.update hinv rfl hcont ?_ fun k hk => lookup_insert_ne hk, hreply⟩
    rw [lookup_insert, seen_put _ _ _ (hfit new ttlMs hact).2]
    rfl
  | remove =>
    rw [hact] at hcont
    exact ⟨h.update hinv rfl hcont (lookup_erase _ _) fun k hk => lookup_erase_ne hk, hreply⟩
  | keep =>
    rw [hact] at hcont
    exact ⟨h.reap hinv rfl hcont, hreply⟩

/-- The maps list the same entries, in an order of their own. -/
theorem entries_perm : (Shown.ops.entries t map).Perm ((ops env).entries s map) := by
  have hnodup := h.inv.nodup_entries env.now map
  refine (List.perm_ext_iff_of_nodup (Dict.nodup_pairs _) (.of_map _ hnodup)).2 fun ⟨key, val⟩ => ?_
  rw [Dict.mem_pairs, h.maps, map_eq_some_iff]
  exact h.inv.mem_entries_iff.symm

theorem containsValue :
    (ops env).containsValue s map val = Shown.ops.containsValue t map val := by
  have hentries : (ops env).containsValue s map val =
      ((ops env).entries s map).any fun e => e.2 == val :=
    (List.any_flatMap).symm
  rw [hentries]
  exact h.entries_perm.symm.any_eq

/-- The counter of a map also counts the entries that have expired and are still there. -/
theorem size (hlive : ∀ key c, s.contents (map, key) = some c → c.live env.now = true) :
    (ops env).size s map = Shown.ops.size t map := by
  have hlen : Shown.ops.size t map = (Shown.ops.entries t map).length := (List.length_map _).symm
  rw [hlen, h.entries_perm.length_eq]
  exact h.inv.size_eq hlive

theorem clear :
    Shows env.now ((ops env).clear s map) (Shown.ops.clear t map) := by
  obtain ⟨hinv, hcont⟩ := h.inv.clear map
  refine ⟨hinv, fun m k => ?_, h.structures⟩
  rw [show ((ops env).clear s map).contents = _ from hcont,
    show (Shown.ops.clear t map).maps = Function.update t.maps map ∅ from rfl]
  by_cases hm : m = map
  · subst hm
    rw [update_self]
    dsimp only
    rw [if_pos rfl]
    rfl
  · rw [update_of_ne hm, h.maps]
    dsimp only
    rw [if_neg hm]

theorem call (c : StructureCall) :
    Shows env.now ((ops env).call s c).1 (Shown.ops.call t c).1 ∧
      ((ops env).call s c).2 = (Shown.ops.call t c).2 := by
  obtain ⟨hshards, haux⟩ := callStructure_eq s c
  have hcont : ((ops env).call s c).1.contents = s.contents := contents_congr hshards
  refine ⟨⟨h.inv.congr hshards, fun m k => ?_, ?_⟩, ?_⟩
  · rw [hcont]
    exact h.maps m k
  · rw [show ((ops env).call s c).1.aux = _ from haux, ← h.structures]
    rfl
  · rw [show ((ops env).call s c).2 = (s.aux.call c).2 from rfl, ← h.structures]
    rfl

end

end Shows

/-- Besides, the entries of a map are listed in the order of the store, as they are for one
request. -/
structure Lists (env : StoreEnv) (s : Store) (t : Shown) : Prop extends Shows env.now s t where
  entries : ∀ map, Shown.ops.entries t map = (ops env).entries s map

theorem Inv.exists_lists {s : Store} (h : s.Inv) (env : StoreEnv) : ∃ t, Lists env s t := by
  let maps : Str → Dict Bytes Bytes := fun map =>
    Dict.ofPairs (s.entries env.now map) (h.nodup_entries env.now map)
  have hpairs : ∀ map, (maps map).pairs = s.entries env.now map := fun map => Dict.pairs_ofPairs _ _
  refine ⟨⟨maps, s.aux⟩, ⟨h, fun map key => ?_, rfl⟩, hpairs⟩
  refine Option.ext fun val => ?_
  rw [map_eq_some_iff, ← h.mem_entries_iff, ← hpairs map, Dict.mem_pairs]

end BonsaiGrid.Store
