import BonsaiGrid.Store.Table

/-!
# The operations of a shard on its contents

Every operation of a shard keeps its invariant, changes the contents as the operation of the same
name changes a finite map, and returns what that map shows: a cell is seen until it expires.
-/

namespace BonsaiGrid.Store

open Probing List Inner

namespace Inner

section Operations

variable {s : Inner} {map : Str} {key val : Bytes} {now ttlMs stamp : ℕ}

theorem Plain.isExpired (hp : s.Plain) (id : ℕ) (e : Entry) (now : ℕ) :
    s.isExpired id e now = !(s.cellOf e).live now := by
  rw [Inner.isExpired, Cell.live]
  split
  next hexp =>
    have hdead : (e.expireAt == 0 || decide (now < e.expireAt)) = false := by
      simp only [Bool.or_eq_false_iff, beq_eq_false_iff_ne, decide_eq_false_iff_not]
      omega
    rw [show (s.cellOf e).expireAt = e.expireAt from rfl, hdead]
    rfl
  next hexp =>
    have hlive : (e.expireAt == 0 || decide (now < e.expireAt)) = true := by
      simp only [Bool.or_eq_true, beq_iff_eq, decide_eq_true_eq]
      omega
    rw [show (s.cellOf e).expireAt = e.expireAt from rfl, hlive]
    cases hcfg : s.mapNames[id]?.bind s.configs.lookup with
    | none => rfl
    | some cfg =>
      obtain ⟨m, -, hm⟩ := Option.bind_eq_some_iff.1 hcfg
      dsimp only
      rw [(hp m cfg hm).1]
      rfl

def seen (now : ℕ) (c : Option Cell) : Option Cell := c.filter fun c => c.live now

/-- The cell of a key unless its entry has expired or has been idle for too long. -/
def shown (s : Inner) (now : ℕ) (mk : Str × Bytes) : Option Cell :=
  (s.mapIds.lookup mk.1).bind fun id =>
    (((items s.table).find? fun e => s.keyOf e == (id, mk.2)).filter fun e =>
      !s.isExpired id e now).map s.cellOf

theorem shown_of_plain (hp : s.Plain) (now : ℕ) (mk : Str × Bytes) :
    s.shown now mk = seen now (s.contents mk) := by
  rw [shown, contents]
  cases s.mapIds.lookup mk.1 with
  | none => rfl
  | some id =>
    dsimp only [Option.bind_some]
    cases (items s.table).find? fun e => s.keyOf e == (id, mk.2) with
    | none => rfl
    | some e =>
      rw [Option.filter_some, hp.isExpired, Bool.not_not, seen, Option.map_some, Option.filter_some]
      split <;> rfl

theorem shown_of_contents {now : ℕ} {mk : Str × Bytes} (h : s.contents mk = none) :
    s.shown now mk = none := by
  rw [shown]
  rw [contents] at h
  cases hlook : s.mapIds.lookup mk.1 with
  | none => rfl
  | some id =>
    rw [hlook, Option.bind_some, Option.map_eq_none_iff] at h
    rw [Option.bind_some, h]
    rfl

variable {e : Entry} {i id : ℕ}

theorem Inv.of_slot (h : s.Inv) (hi : slotAt s.table i = .full e)
    (hid : s.mapNames[id]? = some map) (hkey : s.keyOf e = (id, key)) :
    s.contents (map, key) = some (s.cellOf e) ∧ ∀ now, s.shown now (map, key) =
      if s.isExpired id e now then none else some (s.cellOf e) := by
  have hfind := h.find?_eq (mem_items.2 ⟨i, hi⟩)
  rw [hkey] at hfind
  simp only [contents, shown, (h.names map id).2 hid, Option.bind_some, hfind, Option.filter_some]
  refine ⟨rfl, fun now => ?_⟩
  cases s.isExpired id e now with
  | true | false => rfl

theorem Inv.contents_eq_none (h : s.Inv) {id : ℕ} (hid : s.mapNames[id]? = some map)
    (habs : ∀ e ∈ items s.table, s.keyOf e ≠ (id, key)) : s.contents (map, key) = none := by
  cases hc : s.contents (map, key) with
  | none => rfl
  | some c =>
    obtain ⟨e, he, hname, hkey, -⟩ := h.contents_eq_some.1 hc
    have hlook := (h.names map _).2 hname
    rw [(h.names map id).2 hid] at hlook
    exact absurd (by rw [keyOf, hkey, Option.some.inj hlook]) (habs e he)

theorem Inv.keyOf_ne (h : s.Inv) {i : ℕ} (hi : slotAt s.table i = .full e) :
    ∀ x ∈ items (s.table.set i .tombstone), s.keyOf x ≠ s.keyOf e := by
  intro x hx hkey
  have hnodup := (((items_set_tombstone hi).map s.keyOf).nodup_iff).1 h.table.nodup
  rw [map_cons, nodup_cons] at hnodup
  exact hnodup.1 (hkey ▸ mem_map_of_mem hx)

/-- The shard with one cell set. -/
structure Sets (s : Inner) (map : Str) (key : Bytes) (c : Option Cell) (s' : Inner) : Prop where
  ok : s'.Inv ∧ s'.Plain
  contents : s'.contents = Function.update s.contents (map, key) c

/-- The same in any configuration. -/
structure Moves (s : Inner) (map : Str) (key : Bytes) (c : Option Cell) (s' : Inner) : Prop where
  inv : s'.Inv
  configs : s'.configs = s.configs
  contents : s'.contents = Function.update s.contents (map, key) c

theorem Moves.sets {s' : Inner} {c : Option Cell} (h : s.Moves map key c s') (hp : s.Plain) :
    s.Sets map key c s' :=
  ⟨⟨h.inv, fun m cfg hm => hp m cfg (h.configs ▸ hm)⟩, h.contents⟩

theorem Moves.refl (h : s.Inv) {c : Option Cell} (hc : s.contents (map, key) = c) :
    s.Moves map key c s :=
  ⟨h, rfl, by rw [← hc, Function.update_eq_self]⟩

theorem Sets.trans {s' s'' : Inner} {c c' : Option Cell} (h : s.Sets map key c s')
    (h' : s'.Sets map key c' s'') : s.Sets map key c' s'' :=
  ⟨h'.ok, by rw [h'.contents, h.contents, Function.update_idem]⟩

theorem bury_moves (h : s.Inv) (hi : slotAt s.table i = .full e)
    (hid : s.mapNames[id]? = some map) (hkey : s.keyOf e = (id, key)) :
    s.Moves map key none (s.bury i e) := by
  obtain ⟨hinv, hperm, hblobs⟩ := h.bury hi
  refine ⟨hinv, rfl, ?_⟩
  exact h.contents_update hinv (some e) none hperm (List.Perm.refl _) rfl hblobs
    hid (fun x hx => Option.some.inj hx ▸ hkey) (fun x hx => absurd hx (by simp))
    (hkey ▸ h.keyOf_ne hi)

/-- Looking a key up finds the entry that can be seen and nothing changes, or it finds
none, and what had expired is gone. -/
theorem find_cases (h : s.Inv) (env : Env) (map : Str) (key : Bytes) :
    (∃ s', s.find env map key = (s', none) ∧ s.shown env.now (map, key) = none ∧
      s.Moves map key none s') ∨
    ∃ s' i e id, s.find env map key = (s', some (i, e)) ∧
      s.shown env.now (map, key) = some (s'.cellOf e) ∧
      s.Moves map key (some (s'.cellOf e)) s' ∧
      slotAt s'.table i = .full e ∧ s'.mapNames[id]? = some map ∧ s'.keyOf e = (id, key) := by
  rw [find]
  cases hlook : s.mapIds.lookup map with
  | none =>
    have hnone : s.contents (map, key) = none := by rw [contents, hlook]; rfl
    exact .inl ⟨s, rfl, shown_of_contents hnone, .refl h hnone⟩
  | some id =>
    have hid := (h.names map id).1 hlook
    dsimp only
    rcases h.probeFor_cases id key with ⟨i, e, hi, hkey, hprobe⟩ | ⟨j, habs, hprobe, -⟩
    · rw [hprobe, (h.of_slot hi hid hkey).2]
      dsimp only
      split
      · exact .inl ⟨_, rfl, rfl, bury_moves h hi hid hkey⟩
      · obtain ⟨hinv, hblob⟩ := h.touch
          { e with lastAccessMs := env.now, hits := min (e.hits + 1) (2 ^ 32 - 1) } hi
          rfl rfl rfl rfl rfl
        have hlt : i < s.table.length := lt_length_of_full hi
        refine .inr ⟨_, i, _, id, rfl, rfl, ⟨hinv, rfl, ?_⟩, slotAt_set_self hlt, hid, hkey⟩
        exact h.contents_update hinv (some e) (some _) (items_set_tombstone hi)
          (items_set_replace hi) rfl (fun _ _ => rfl) hid
          (fun x hx => Option.some.inj hx ▸ hkey) (fun x hx => Option.some.inj hx ▸ hkey)
          (hkey ▸ h.keyOf_ne hi)
    · have hnone := h.contents_eq_none hid habs
      rw [hprobe]
      exact .inl ⟨s, rfl, shown_of_contents hnone, .refl h hnone⟩

theorem contents_of_seen {now : ℕ} {o : Option Cell} {c : Cell} (h : seen now o = some c) :
    o = some c := by
  rw [seen, Option.filter_eq_some_iff] at h
  exact h.1

theorem refill_moves (h : s.Inv) {e e' : Entry}
    (hi : slotAt s.table i = .full e) (hid : s.mapNames[id]? = some map)
    (hkey : s.keyOf e = (id, key)) (hfit : key.length + val.length < 2 ^ 32)
    (hr : RecordOf e' id key val ((s.slab.free e.handle).store key val).2) :
    s.Moves map key (some ⟨val, e'.expireAt, e'.stamp⟩)
      (s.refilled ((s.slab.free e.handle).store key val).1 i e') := by
  obtain ⟨hinv, hblob, hblobs⟩ := h.refill hi hkey hfit hr
  refine ⟨hinv, rfl, ?_⟩
  rw [h.contents_update hinv (some e) (some e') (items_set_tombstone hi) (items_set_replace hi)
    rfl hblobs hid (fun x hx => Option.some.inj hx ▸ hkey)
    (fun x hx => Option.some.inj hx ▸ hr.keyOf hblob) (hkey ▸ h.keyOf_ne hi),
    Option.map_some, hr.cellOf hblob]

theorem fill_moves (h : s.Inv) {j id : ℕ}
    (hid : s.mapNames[id]? = some map) (hfit : key.length + val.length < 2 ^ 32)
    (habs : ∀ x ∈ items s.table, s.keyOf x ≠ (id, key)) (hj : j < s.table.length)
    (hfree : (slotAt s.table j).occupied = false)
    (hreach : Reached s.table (hash id key).toNat j)
    (hload : (s.len + s.tombstones + 1) * 8 < s.table.length * 7)
    (hr : RecordOf e id key val (s.slab.store key val).2) :
    s.Moves map key (some ⟨val, e.expireAt, e.stamp⟩)
      (s.filled (s.slab.store key val).1 j e) := by
  have hlt : id < s.mapNames.length := (List.getElem?_eq_some_iff.1 hid).1
  obtain ⟨hinv, hperm, hblob, hblobs⟩ := h.fill hlt hfit habs hj hfree hreach hload hr
  refine ⟨hinv, rfl, ?_⟩
  rw [h.contents_update hinv none (some e) (List.Perm.refl _) hperm rfl hblobs hid
    (fun x hx => absurd hx (by simp)) (fun x hx => Option.some.inj hx ▸ hr.keyOf hblob) habs,
    Option.map_some, hr.cellOf hblob]

/-- What is left of a shard whose map has one entry more than it may have. -/
def trimmed (s : Inner) (env : Env) (map : Str) (id : ℕ) : Inner :=
  match s.configs.lookup map with
  | some cfg =>
    if 0 < cfg.maxSize ∧ cfg.maxSize < s.counts.getD id 0 then s.evictOne env id cfg.evictionPolicy
    else s
  | none => s

theorem trimmed_of_plain (hp : s.Plain) (env : Env) (map : Str) (id : ℕ) :
    s.trimmed env map id = s := by
  rw [trimmed]
  split
  next cfg hlook =>
    split
    next hmax =>
      rw [(hp map cfg hlook).2.resolve_left (by omega)]
      rfl
    next => rfl
  next => rfl

/-- The record that `put` makes. -/
def record (id : ℕ) (key val : Bytes) (now ttlMs stamp : ℕ) (handle : Handle) (hits : ℕ) : Entry :=
  { hash := hash id key, mapId := id, handle, keyLen := key.length % 2 ^ 32,
    valLen := val.length % 2 ^ 32, expireAt := deadline now ttlMs, stamp, lastAccessMs := now, hits }

section Put

variable (env : Env) (ttlMs stamp : ℕ) {t : Inner} {id i j : ℕ} {e : Entry}

theorem put_found (ht : s.intern map = (t, id)) (hp : t.maybeGrow.probeFor id key = .found i e) :
    s.put env map key val ttlMs stamp =
      (t.maybeGrow.refilled ((t.maybeGrow.slab.free e.handle).store key val).1 i
        (record id key val env.now ttlMs stamp
          ((t.maybeGrow.slab.free e.handle).store key val).2 (min (e.hits + 1) (2 ^ 32 - 1))),
        if t.maybeGrow.isExpired id e env.now then none else some (t.maybeGrow.valBytes e)) := by
  rw [put, ht]
  dsimp only
  rw [hp]
  rfl

theorem put_vacant (ht : s.intern map = (t, id)) (hp : t.maybeGrow.probeFor id key = .vacant j) :
    s.put env map key val ttlMs stamp =
      ((t.maybeGrow.filled (t.maybeGrow.slab.store key val).1 j
        (record id key val env.now ttlMs stamp (t.maybeGrow.slab.store key val).2 1)).trimmed
          env map id, none) := by
  rw [put, ht]
  dsimp only
  rw [hp, trimmed, show (t.maybeGrow.filled _ j _).configs = t.maybeGrow.configs from rfl]
  dsimp only
  cases t.maybeGrow.configs.lookup map with
  | none => rfl
  | some cfg => exact (apply_ite (fun u => (u, none)) _ _ _).symm

theorem put_cases (map : Str) (h : s.Inv) (hfit : key.length + val.length < 2 ^ 32) :
    ∃ t id, s.Moves map key (some ⟨val, deadline env.now ttlMs, stamp⟩) t ∧
      t.mapNames[id]? = some map ∧ ((s.put env map key val ttlMs stamp).1 = t ∨
        (s.put env map key val ttlMs stamp).1 = t.trimmed env map id) ∧
      (s.Plain → (s.put env map key val ttlMs stamp).2 =
        (seen env.now (s.contents (map, key))).map Cell.val) := by
  obtain ⟨hinv₁, hcont₁, hcfg₁⟩ := h.intern map
  have hname₁ := (h.toTally.intern map).2
  obtain ⟨⟨t, id⟩, ht⟩ : ∃ r, s.intern map = r := ⟨_, rfl⟩
  rw [ht] at hinv₁ hcont₁ hname₁ hcfg₁
  obtain ⟨hinv₂, hcont₂, hnames₂, hcfg₂⟩ := hinv₁.maybeGrow
  have hid : t.maybeGrow.mapNames[id]? = some map := by rw [hnames₂]; exact hname₁
  have hcfg : t.maybeGrow.configs = s.configs := hcfg₂.trans hcfg₁
  have hsame : t.maybeGrow.contents = s.contents := hcont₂.trans hcont₁
  have hr : ∀ handle hits, RecordOf (record id key val env.now ttlMs stamp handle hits) id key val
      handle := fun handle hits =>
    ⟨rfl, rfl, rfl, Nat.mod_eq_of_lt (by omega), Nat.mod_eq_of_lt (by omega)⟩
  have hmoves : ∀ {u c}, t.maybeGrow.Moves map key c u → s.Moves map key c u := fun hm =>
    ⟨hm.inv, hm.configs.trans hcfg, hsame ▸ hm.contents⟩
  rcases hinv₂.probeFor_cases id key with ⟨i, e, hi, hkey, hp⟩ | ⟨j, habs, hp, hj, hfree, hreach⟩
  · rw [put_found env ttlMs stamp ht hp]
    refine ⟨_, id, hmoves (refill_moves hinv₂ hi hid hkey hfit (hr _ _)), hid, .inl rfl,
      fun hplain => ?_⟩
    have hplain₂ : t.maybeGrow.Plain := fun m cfg hm => hplain m cfg (hcfg ▸ hm)
    rw [hplain₂.isExpired, ← hsame, (hinv₂.of_slot hi hid hkey).1, seen, Option.filter_some]
    cases (t.maybeGrow.cellOf e).live env.now with
    | true | false => rfl
  · rw [put_vacant env ttlMs stamp ht hp]
    refine ⟨_, id, hmoves (fill_moves hinv₂ hid hfit habs hj hfree hreach
      hinv₁.toTally.maybeGrow.2.2 (hr _ 1)), hid, .inr rfl, fun _ => ?_⟩
    rw [← hsame, hinv₂.contents_eq_none hid habs]
    rfl

end Put

section

variable (h : s.Inv ∧ s.Plain)

include h

variable (env : Env)

theorem put_sets (map : Str) (key val : Bytes)
    (ttlMs stamp : ℕ) (hfit : key.length + val.length < 2 ^ 32) :
    s.Sets map key (some ⟨val, deadline env.now ttlMs, stamp⟩)
        (s.put env map key val ttlMs stamp).1 ∧
      (s.put env map key val ttlMs stamp).2 =
        (seen env.now (s.contents (map, key))).map Cell.val := by
  obtain ⟨t, id, hmoves, -, hput, hreply⟩ := put_cases env ttlMs stamp map h.1 hfit
  have hsets := hmoves.sets h.2
  rw [trimmed_of_plain hsets.ok.2, or_self] at hput
  exact ⟨hput ▸ hsets, hreply h.2⟩

theorem get_sets (map : Str) (key : Bytes) :
    s.Sets map key (seen env.now (s.contents (map, key))) (s.get env map key).1 ∧
      (s.get env map key).2 = (seen env.now (s.contents (map, key))).map Cell.val := by
  rw [get, ← shown_of_plain h.2]
  rcases find_cases h.1 env map key with ⟨s', hfind, hseen, hs⟩ | ⟨s', i, e, id, hfind, hseen, hs, -⟩
  · rw [hfind, hseen]
    exact ⟨hs.sets h.2, rfl⟩
  · rw [hfind, hseen]
    exact ⟨hs.sets h.2, rfl⟩

theorem containsKey_sets (map : Str) (key : Bytes) :
    s.Sets map key (seen env.now (s.contents (map, key))) (s.containsKey env map key).1 ∧
      (s.containsKey env map key).2 = (seen env.now (s.contents (map, key))).isSome := by
  obtain ⟨hs, hret⟩ := get_sets h env map key
  refine ⟨hs, ?_⟩
  rw [← Option.isSome_map (f := Cell.val), ← hret, get, Option.isSome_map]
  rfl

theorem remove_sets (map : Str) (key : Bytes) :
    s.Sets map key none (s.remove env map key).1 ∧
      (s.remove env map key).2 = (seen env.now (s.contents (map, key))).map Cell.val := by
  rw [remove, ← shown_of_plain h.2]
  rcases find_cases h.1 env map key with ⟨s', hfind, hseen, hs⟩ |
    ⟨s', i, e, id, hfind, hseen, hs, hi, hid, hkey⟩
  · rw [hfind, hseen]
    exact ⟨hs.sets h.2, rfl⟩
  · rw [hfind, hseen]
    have hsets := hs.sets h.2
    exact ⟨hsets.trans ((bury_moves hs.inv hi hid hkey).sets hsets.ok.2), rfl⟩

theorem putIfAbsent_sets (map : Str) (key val : Bytes)
    (ttlMs stamp : ℕ) (hfit : key.length + val.length < 2 ^ 32) :
    s.Sets map key ((seen env.now (s.contents (map, key))).or
        (some ⟨val, deadline env.now ttlMs, stamp⟩))
        (s.putIfAbsent env map key val ttlMs stamp).1 ∧
      (s.putIfAbsent env map key val ttlMs stamp).2 =
        (seen env.now (s.contents (map, key))).map Cell.val := by
  rw [putIfAbsent, ← shown_of_plain h.2]
  rcases find_cases h.1 env map key with ⟨s', hfind, hseen, hs⟩ | ⟨s', i, e, id, hfind, hseen, hs, -⟩
  all_goals
    have hsets := hs.sets h.2
    rw [hfind, hseen]
  · exact ⟨hsets.trans (put_sets hsets.ok env map key val ttlMs stamp hfit).1, rfl⟩
  · exact ⟨hsets, rfl⟩

end

def mergeCell (c : Option Cell) (new : Cell) (latestUpdate : Bool) : Cell :=
  match c with
  | none => new
  | some c => if latestUpdate = true ∧ c.stamp < new.stamp then new else c

theorem putMerge_sets (h : s.Inv ∧ s.Plain) (env : Env) (map : Str) (key val : Bytes)
    (ttlMs stamp : ℕ) (latestUpdate : Bool) (hfit : key.length + val.length < 2 ^ 32) :
    s.Sets map key (some (mergeCell (seen env.now (s.contents (map, key)))
        ⟨val, deadline env.now ttlMs, stamp⟩ latestUpdate))
      (s.putMerge env map key val ttlMs stamp latestUpdate) := by
  rw [putMerge, ← shown_of_plain h.2]
  rcases find_cases h.1 env map key with ⟨s', hfind, hseen, hm⟩ | ⟨s', i, e, id, hfind, hseen, hm, -⟩
  all_goals
    have hs := hm.sets h.2
    obtain ⟨hput, -⟩ := put_sets hs.ok env map key val ttlMs stamp hfit
    rw [hfind, hseen]
  · exact hs.trans hput
  · dsimp only
    have hmerge : mergeCell (some (s'.cellOf e)) ⟨val, deadline env.now ttlMs, stamp⟩ latestUpdate =
        if latestUpdate = true ∧ e.stamp < stamp then ⟨val, deadline env.now ttlMs, stamp⟩
        else s'.cellOf e := rfl
    rw [hmerge]
    by_cases hnew : latestUpdate = true ∧ e.stamp < stamp
    · rw [if_pos hnew, if_pos hnew]
      exact hs.trans hput
    · rw [if_neg hnew, if_neg hnew]
      exact hs

theorem replace_sets (h : s.Inv ∧ s.Plain) (env : Env) (map : Str) (key val : Bytes)
    (hfit : key.length + val.length < 2 ^ 32) :
    s.Sets map key ((seen env.now (s.contents (map, key))).map fun c => { c with val := val })
        (s.replace env map key val).1 ∧
      (s.replace env map key val).2 = (seen env.now (s.contents (map, key))).map Cell.val := by
  rw [replace, ← shown_of_plain h.2]
  rcases find_cases h.1 env map key with ⟨s', hfind, hseen, hs⟩ |
    ⟨s', i, e, id, hfind, hseen, hs, hi, hid, hkey⟩
  · rw [hfind, hseen]
    exact ⟨hs.sets h.2, rfl⟩
  · have he := mem_items.2 ⟨i, hi⟩
    have hr : RecordOf { e with
        handle := ((s'.slab.free e.handle).store key val).2
        keyLen := key.length % 2 ^ 32
        valLen := val.length % 2 ^ 32 } id key val ((s'.slab.free e.handle).store key val).2 := by
      refine ⟨?_, congrArg Prod.fst hkey, rfl, Nat.mod_eq_of_lt (by omega),
        Nat.mod_eq_of_lt (by omega)⟩
      rw [show id = e.mapId from (congrArg Prod.fst hkey).symm,
        show key = s'.keyBytes e from (congrArg Prod.snd hkey).symm]
      exact hs.inv.hashes e he
    have hsets := hs.sets h.2
    rw [hfind, hseen]
    exact ⟨hsets.trans ((refill_moves hs.inv hi hid hkey hfit hr).sets hsets.ok.2), rfl⟩

/-- The shard without the entries of a map. -/
def wiped (s : Inner) (id : ℕ) : Inner :=
  let dropped := (items s.table).filter fun e => e.mapId == id
  { s with
    slab := dropped.foldl (fun slab e => slab.free e.handle) s.slab
    table := wipe (fun e => e.mapId == id) s.table
    len := s.len - dropped.length
    tombstones := s.tombstones + dropped.length
    counts := s.counts.set id 0 }

theorem clear_eq (s : Inner) (map : Str) :
    s.clear map = (s.mapIds.lookup map).elim s s.wiped := by
  rw [clear]
  cases s.mapIds.lookup map with
  | none | some id => rfl

theorem perm_wiped (s : Inner) (id : ℕ) : (items s.table).Perm
    (((items s.table).filter fun e => e.mapId == id) ++ items (s.wiped id).table) := by
  rw [show items (s.wiped id).table = _ from items_wipe _ s.table]
  exact (filter_append_perm _ _).symm

theorem mem_wiped {id : ℕ} :
    e ∈ items (s.wiped id).table ↔ e ∈ items s.table ∧ e.mapId ≠ id := by
  rw [show items (s.wiped id).table = _ from items_wipe _ s.table]
  simp

theorem Tally.wiped (h : s.Tally) (id : ℕ) : (s.wiped id).Tally := by
  have hwidth : (s.wiped id).table.length = s.table.length := length_map _
  have hperm := (s.perm_wiped id).length_eq
  rw [length_append] at hperm
  have hused : usedSlots (s.wiped id).table = usedSlots s.table := usedSlots_wipe _ s.table
  rw [usedSlots_eq, usedSlots_eq] at hused
  have hlen := h.len
  have htomb := h.tombstones
  have hload := h.load
  have hlen' : (s.wiped id).len =
    s.len - ((items s.table).filter fun e => e.mapId == id).length := rfl
  have htomb' : (s.wiped id).tombstones =
    s.tombstones + ((items s.table).filter fun e => e.mapId == id).length := rfl
  refine ⟨hwidth ▸ h.cap, hwidth ▸ h.mask, by omega, by omega, by omega, h.names,
    fun e he => h.ids e (mem_wiped.1 he).1, length_set.trans h.counted, fun k hk => ?_⟩
  change (s.counts.set id 0).getD k 0 = _
  rw [entriesOf, getD_eq_getElem?_getD, List.getElem?_set]
  split
  next heq =>
    subst heq
    rw [if_pos (h.counted ▸ hk), Option.getD_some, eq_comm, countP_eq_zero]
    intro e he
    simpa using (mem_wiped.1 he).2
  next hne =>
    rw [← getD_eq_getElem?_getD, h.counts k hk, entriesOf, (s.perm_wiped id).countP_eq,
      countP_append, Nat.add_eq_right, countP_eq_zero]
    intro e he
    rw [mem_filter, beq_iff_eq] at he
    simpa [he.2] using hne

theorem Inv.clear (h : s.Inv) (map : Str) :
    (s.clear map).Inv ∧ (s.clear map).configs = s.configs ∧
      (s.clear map).contents = fun mk => if mk.1 = map then none else s.contents mk := by
  rw [clear_eq]
  cases hlook : s.mapIds.lookup map with
  | none =>
    refine ⟨h, rfl, funext fun mk => ?_⟩
    dsimp only [Option.elim_none]
    split
    next hmk =>
      rw [contents, hmk, hlook]
      rfl
    next => rfl
  | some id =>
    have hid := (h.names map id).1 hlook
    obtain ⟨hbacked, hblobs⟩ := (h.backed.perm (s.perm_wiped id)).free_all
    have hkeys : ∀ e ∈ items (s.wiped id).table, (s.wiped id).keyOf e = s.keyOf e := fun e he =>
      keyOf_congr (hblobs e he)
    have hcells : ∀ e ∈ items (s.wiped id).table, (s.wiped id).cellOf e = s.cellOf e :=
      fun e he => by
        rw [cellOf, valBytes, show (s.wiped id).blob e = s.blob e from hblobs e he]
        rfl
    have hinv : (s.wiped id).Inv := ⟨h.toTally.wiped id, hbacked, (h.table.wipe _).congr hkeys,
      fun e he => (h.hashes e (mem_wiped.1 he).1).trans
        (congrArg (hash e.mapId) (congrArg Prod.snd (hkeys e he)).symm)⟩
    refine ⟨hinv, rfl, funext fun mk => Option.ext fun c => ?_⟩
    change (s.wiped id).contents mk = some c ↔ _
    have hname : ∀ e : Entry, e.mapId ≠ id ↔ s.mapNames[e.mapId]? ≠ some map := fun e => by
      rw [Ne, Ne, not_iff_not, ← h.names, hlook, Option.some.injEq, eq_comm]
    rw [hinv.contents_eq_some]
    split
    next hm =>
      subst hm
      constructor
      · rintro ⟨e, he, hmap, -⟩
        exact absurd hmap ((hname e).1 (mem_wiped.1 he).2)
      · intro hc
        cases hc
    next hm =>
      rw [h.contents_eq_some]
      refine exists_congr fun e => ⟨?_, ?_⟩
      · rintro ⟨he, hmap, hkey, hc⟩
        exact ⟨(mem_wiped.1 he).1, hmap, (congrArg Prod.snd (hkeys e he)).symm.trans hkey,
          (hcells e he).symm.trans hc⟩
      · rintro ⟨he, hmap, hkey, hc⟩
        have hkept : e ∈ items (s.wiped id).table := mem_wiped.2 ⟨he, (hname e).2 fun heq =>
          hm (Option.some.inj (hmap.symm.trans heq))⟩
        exact ⟨hkept, hmap, (congrArg Prod.snd (hkeys e hkept)).trans hkey,
          (hcells e hkept).trans hc⟩

theorem clear_spec (hok : s.Inv ∧ s.Plain) (map : Str) :
    ((s.clear map).Inv ∧ (s.clear map).Plain) ∧
      (s.clear map).contents = fun mk => if mk.1 = map then none else s.contents mk := by
  obtain ⟨hinv, hconfigs, hcontents⟩ := hok.1.clear map
  exact ⟨⟨hinv, fun m cfg hm => hok.2 m cfg (hconfigs ▸ hm)⟩, hcontents⟩

theorem inv_new : new.Inv ∧ new.Plain ∧ new.contents = fun _ => none := by
  have hitems : items new.table = [] := items_replicate 1024
  have hdel : deletedSlots new.table = 0 := deletedSlots_replicate 1024
  have hlength : new.table.length = 1024 := length_replicate
  refine ⟨⟨⟨⟨10, hlength⟩, hlength.symm, ?_, hdel.symm, ?_, ?_, ?_, rfl, ?_⟩,
    ⟨⟨_, Slab.holds_new, ?_⟩, ?_, ?_⟩, wellFormed_replicate (by decide), ?_⟩, ?_, rfl⟩
  · rw [hitems]
    rfl
  · rw [hlength]
    decide
  · intro map id
    rw [show new.mapIds = ∅ from rfl, show new.mapNames = [] from rfl]
    simp
  · rw [hitems]
    simp
  · intro id hid
    exact absurd hid (Nat.not_lt_zero id)
  · rw [hitems]
    simp
  · rw [hitems]
    simp
  · rw [hitems]
    exact nodup_nil
  · rw [hitems]
    simp
  · intro map cfg hcfg
    cases hcfg

theorem Inv.mem_collectAllStamped (h : s.Inv) (hp : s.Plain) {now stamp : ℕ} :
    (map, key, val, stamp) ∈ s.collectAllStamped now ↔
      ∃ c, seen now (s.contents (map, key)) = some c ∧ c.val = val ∧ c.stamp = stamp := by
  simp only [collectAllStamped, mem_filterMap, hp.isExpired, seen, Option.filter_eq_some_iff,
    h.contents_eq_some]
  constructor
  · rintro ⟨e, he, hout⟩
    cases hlive : (s.cellOf e).live now with
    | false =>
      rw [hlive] at hout
      cases hout
    | true =>
      rw [hlive, Bool.not_true, if_neg Bool.false_ne_true, Option.map_eq_some_iff] at hout
      obtain ⟨m, hm, heq⟩ := hout
      cases heq
      exact ⟨s.cellOf e, ⟨⟨e, he, hm, rfl, rfl⟩, hlive⟩, rfl, rfl⟩
  · rintro ⟨c, ⟨⟨e, he, hm, hkey, rfl⟩, hlive⟩, hval, hstamp⟩
    refine ⟨e, he, ?_⟩
    rw [hlive, Bool.not_true, if_neg Bool.false_ne_true, hm, Option.map_some, hkey,
      show s.valBytes e = val from hval, show e.stamp = stamp from hstamp]

theorem Inv.nodup_collectAllStamped (h : s.Inv) (now : ℕ) :
    ((s.collectAllStamped now).map fun r => (r.1, r.2.1)).Nodup := by
  rw [collectAllStamped, map_filterMap]
  refine List.Pairwise.filterMap _ ?_ (pairwise_map.1 h.table.nodup)
  intro e e' hne r hr r' hr' heq
  rw [Option.map_eq_some_iff] at hr hr'
  obtain ⟨x, hx, rfl⟩ := hr
  obtain ⟨x', hx', rfl⟩ := hr'
  split at hx
  · cases hx
  · split at hx'
    · cases hx'
    · rw [Option.map_eq_some_iff] at hx hx'
      obtain ⟨m, hm, rfl⟩ := hx
      obtain ⟨m', hm', rfl⟩ := hx'
      obtain ⟨rfl, hkey⟩ := Prod.mk.inj heq
      have hid := (h.names m _).2 hm
      rw [(h.names m _).2 hm'] at hid
      exact hne (by rw [keyOf, keyOf, Option.some.inj hid, show s.keyBytes e = s.keyBytes e' from hkey])

theorem Inv.mem_collectEntries (h : s.Inv) (hp : s.Plain) {now : ℕ} :
    (key, val) ∈ s.collectEntries now map ↔
      ∃ c, seen now (s.contents (map, key)) = some c ∧ c.val = val := by
  simp only [seen, Option.filter_eq_some_iff, h.contents_eq_some]
  rw [collectEntries]
  cases hlook : s.mapIds.lookup map with
  | none =>
    constructor
    · intro hmem
      cases hmem
    · rintro ⟨c, ⟨⟨e, -, hm, -⟩, -⟩, -⟩
      rw [(h.names map _).2 hm] at hlook
      cases hlook
  | some id =>
    simp only [mem_map, mem_filter, hp.isExpired, Bool.not_not, Bool.and_eq_true,
      beq_iff_eq, Prod.mk.injEq]
    constructor
    · rintro ⟨e, ⟨he, rfl, hlive⟩, hkey, hval⟩
      exact ⟨s.cellOf e, ⟨⟨e, he, (h.names map _).1 hlook, hkey, rfl⟩, hlive⟩, hval⟩
    · rintro ⟨c, ⟨⟨e, he, hm, hkey, rfl⟩, hlive⟩, hval⟩
      have hid := (h.names map _).2 hm
      rw [hlook] at hid
      exact ⟨e, ⟨he, (Option.some.inj hid).symm, hlive⟩, hkey, hval⟩

theorem Inv.nodup_collectEntries (h : s.Inv) (now : ℕ) (map : Str) :
    ((s.collectEntries now map).map Prod.fst).Nodup := by
  rw [collectEntries]
  cases s.mapIds.lookup map with
  | none => exact nodup_nil
  | some id =>
    rw [map_map]
    have hnodup := h.table.nodup.sublist ((filter_sublist (l := items s.table)
      (p := fun e => e.mapId == id && !s.isExpired id e now)).map s.keyOf)
    refine List.Nodup.of_map (fun key => (id, key)) ?_
    rw [map_map]
    refine (map_congr_left fun e he => ?_) ▸ hnodup
    rw [mem_filter, Bool.and_eq_true, beq_iff_eq] at he
    rw [keyOf, he.2.1]
    rfl

/-- A map of which nothing has expired has as many entries as are listed; the counter also counts
those that have. -/
theorem Inv.size_eq (h : s.Inv) (hp : s.Plain) {now : ℕ}
    (hlive : ∀ key c, s.contents (map, key) = some c → c.live now = true) :
    s.size map = (s.collectEntries now map).length := by
  rw [size, collectEntries]
  cases hlook : s.mapIds.lookup map with
  | none => rfl
  | some id =>
    have hname := (h.names map id).1 hlook
    have hid : id < s.mapNames.length := (List.getElem?_eq_some_iff.1 hname).1
    dsimp only
    rw [h.counts id hid, entriesOf, countP_eq_length_filter, length_map]
    refine congrArg length (filter_congr fun e he => ?_)
    by_cases hmap : e.mapId = id
    · have hcell := hlive _ _ (h.contents_eq_some.2 ⟨e, he, hmap ▸ hname, rfl, rfl⟩)
      rw [hp.isExpired, hcell]
      simp
    · simp [hmap]

end Operations

end Inner

end BonsaiGrid.Store
