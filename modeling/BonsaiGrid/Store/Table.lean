import BonsaiGrid.Store.Inner

/-!
# The shard table stands for a finite map

The contents of a shard are a finite map from names and keys to cells: a value, the time it
expires and its stamp.
-/

namespace BonsaiGrid.Store

open Probing Function List Option Nat Prod Inner

structure Backed (slab : Slab) (es : List Entry) : Prop where
  live : ∃ live, slab.Holds live ∧
    ∀ e ∈ es, ∃ d, live e.handle = some d ∧ d.length = e.keyLen + e.valLen
  fits : ∀ e ∈ es, e.keyLen + e.valLen < 2 ^ 32
  handles : (es.map Entry.handle).Nodup

namespace Backed

variable {slab : Slab} {e : Entry} {es es' : List Entry} {key val : Bytes}

theorem perm (h : Backed slab es) (hp : es.Perm es') : Backed slab es' := by
  obtain ⟨live, hholds, hlive⟩ := h.live
  exact ⟨⟨live, hholds, fun e he => hlive e (hp.mem_iff.2 he)⟩,
    fun e he => h.fits e (hp.mem_iff.2 he), (hp.map _).nodup_iff.1 h.handles⟩

theorem total_eq (h : Backed slab es) (he : e ∈ es) : e.total = e.keyLen + e.valLen :=
  mod_eq_of_lt (h.fits e he)

theorem store (h : Backed slab es) (hfit : key.length + val.length < 2 ^ 32)
    (hhandle : e.handle = (slab.store key val).2) (hkey : e.keyLen = key.length)
    (hval : e.valLen = val.length) :
    Backed (slab.store key val).1 (e :: es) ∧
      (slab.store key val).1.get e.handle e.total = key ++ val ∧
      ∀ c ∈ es, (slab.store key val).1.get c.handle c.total = slab.get c.handle c.total := by
  obtain ⟨live, hholds, hlive⟩ := h.live
  obtain ⟨hdead, hholds'⟩ := hholds.store (a := key) (b := val)
  rw [← hhandle] at hdead hholds'
  have hlen : (key ++ val).length = e.keyLen + e.valLen := by rw [length_append, hkey, hval]
  have hne : ∀ c ∈ es, c.handle ≠ e.handle := by
    intro c hc heq
    obtain ⟨d, hd, -⟩ := hlive c hc
    rw [heq, hdead] at hd
    cases hd
  have hlive' : ∀ c ∈ es, ∃ d, update live e.handle (some (key ++ val)) c.handle = some d ∧
      live c.handle = some d ∧ d.length = c.keyLen + c.valLen := by
    intro c hc
    obtain ⟨d, hd, hdlen⟩ := hlive c hc
    exact ⟨d, by rw [update_of_ne (hne c hc)]; exact hd, hd, hdlen⟩
  have hfits : ∀ c ∈ e :: es, c.keyLen + c.valLen < 2 ^ 32 := by
    intro c hc
    rcases mem_cons.1 hc with rfl | hc
    · rw [hkey, hval]
      exact hfit
    · exact h.fits c hc
  refine ⟨⟨⟨_, hholds', fun c hc => ?_⟩, hfits, ?_⟩, ?_, fun c hc => ?_⟩
  · rcases mem_cons.1 hc with rfl | hc
    · exact ⟨key ++ val, update_self _ _ _, hlen⟩
    · obtain ⟨d, hd, -, hdlen⟩ := hlive' c hc
      exact ⟨d, hd, hdlen⟩
  · rw [map_cons, nodup_cons]
    refine ⟨fun hmem => ?_, h.handles⟩
    obtain ⟨c, hc, heq⟩ := mem_map.1 hmem
    exact hne c hc heq
  · rw [Entry.total, mod_eq_of_lt (hfits e mem_cons_self), ← hlen]
    exact hholds'.get (update_self _ _ _)
  · obtain ⟨d, hd', hd, hdlen⟩ := hlive' c hc
    rw [h.total_eq hc, ← hdlen, hholds'.get hd', hholds.get hd]

theorem free (h : Backed slab (e :: es)) :
    Backed (slab.free e.handle) es ∧
      ∀ c ∈ es, (slab.free e.handle).get c.handle c.total = slab.get c.handle c.total := by
  obtain ⟨live, hholds, hlive⟩ := h.live
  obtain ⟨d, hd, -⟩ := hlive e mem_cons_self
  have hholds' := hholds.free hd
  have hhandles := h.handles
  rw [map_cons, nodup_cons] at hhandles
  have hne : ∀ c ∈ es, c.handle ≠ e.handle := by
    intro c hc heq
    exact hhandles.1 (heq ▸ mem_map_of_mem hc)
  have hlive' : ∀ c ∈ es, ∃ d, update live e.handle none c.handle = some d ∧
      live c.handle = some d ∧ d.length = c.keyLen + c.valLen := by
    intro c hc
    obtain ⟨d, hd, hdlen⟩ := hlive c (mem_cons_of_mem e hc)
    exact ⟨d, by rw [update_of_ne (hne c hc)]; exact hd, hd, hdlen⟩
  refine ⟨⟨⟨_, hholds', fun c hc => ?_⟩, fun c hc => h.fits c (mem_cons_of_mem e hc),
    hhandles.2⟩, fun c hc => ?_⟩
  · obtain ⟨d, hd, -, hdlen⟩ := hlive' c hc
    exact ⟨d, hd, hdlen⟩
  · obtain ⟨d, hd', hd, hdlen⟩ := hlive' c hc
    rw [h.total_eq (mem_cons_of_mem e hc), ← hdlen, hholds'.get hd', hholds.get hd]

theorem congr_head {e' : Entry} (h : Backed slab (e :: es)) (hhandle : e'.handle = e.handle)
    (hkey : e'.keyLen = e.keyLen) (hval : e'.valLen = e.valLen) : Backed slab (e' :: es) := by
  obtain ⟨live, hholds, hlive⟩ := h.live
  have hhandles := h.handles
  refine ⟨⟨live, hholds, fun c hc => ?_⟩, fun c hc => ?_, ?_⟩
  · rcases mem_cons.1 hc with rfl | hc
    · rw [hhandle, hkey, hval]
      exact hlive e mem_cons_self
    · exact hlive c (mem_cons_of_mem e hc)
  · rcases mem_cons.1 hc with rfl | hc
    · rw [hkey, hval]
      exact h.fits e mem_cons_self
    · exact h.fits c (mem_cons_of_mem e hc)
  · rwa [map_cons, hhandle]

theorem free_all {dropped rest : List Entry} (h : Backed slab (dropped ++ rest)) :
    Backed (dropped.foldl (fun slab e => slab.free e.handle) slab) rest ∧
      ∀ c ∈ rest, (dropped.foldl (fun slab e => slab.free e.handle) slab).get c.handle c.total =
        slab.get c.handle c.total := by
  induction dropped generalizing slab with
  | nil => exact ⟨h, fun c _ => rfl⟩
  | cons e dropped ih =>
    obtain ⟨hfree, hget⟩ := h.free
    obtain ⟨hrest, hgetrest⟩ := ih hfree
    exact ⟨hrest, fun c hc => (hgetrest c hc).trans (hget c (mem_append_right _ hc))⟩

end Backed

/-- What a key of a map stands for: a value, the time it expires (`0` for never) and
the stamp of the update that wrote it. -/
structure Cell where
  val : Bytes
  expireAt : ℕ
  stamp : ℕ
deriving DecidableEq, Repr

def Cell.live (c : Cell) (now : ℕ) : Bool := c.expireAt == 0 || now < c.expireAt

abbrev Contents := Str × Bytes → Option Cell

namespace Inner

variable (s : Inner)

def keyOf (e : Entry) : ℕ × Bytes := (e.mapId, s.keyBytes e)

def cellOf (e : Entry) : Cell := ⟨s.valBytes e, e.expireAt, e.stamp⟩

def contents : Contents := fun mk =>
  (s.mapIds.lookup mk.1).bind fun id =>
    ((items s.table).find? fun e => s.keyOf e == (id, mk.2)).map s.cellOf

def entriesOf (mapId : ℕ) : ℕ := (items s.table).countP fun e => e.mapId == mapId

/-- The counters of a shard are those of its table, and the table has room. -/
structure Tally (s : Inner) : Prop where
  cap : ∃ p, s.table.length = 2 ^ p
  mask : s.mask + 1 = s.table.length
  len : s.len = (items s.table).length
  tombstones : s.tombstones = deletedSlots s.table
  load : (s.len + s.tombstones) * 8 < s.table.length * 7
  names : ∀ map id, s.mapIds.lookup map = some id ↔ s.mapNames[id]? = some map
  ids : ∀ e ∈ items s.table, e.mapId < s.mapNames.length
  counted : s.counts.length = s.mapNames.length
  counts : ∀ id < s.mapNames.length, s.counts.getD id 0 = s.entriesOf id

/-- Besides, the entries of the table are backed by the slab and are found under the hashes of
their keys. -/
structure Inv (s : Inner) : Prop extends s.Tally where
  backed : Backed s.slab (items s.table)
  table : WellFormed (fun k => (hash k.1 k.2).toNat) s.keyOf s.table
  hashes : ∀ e ∈ items s.table, e.hash = hash e.mapId (s.keyBytes e)

def Plain : Prop :=
  ∀ map cfg, s.configs.lookup map = some cfg →
    cfg.maxIdleMs = 0 ∧ (cfg.maxSize = 0 ∨ cfg.evictionPolicy = .none)

section Tally

variable {s : Inner} (h : s.Tally)

include h

theorem Tally.land_mask (x : ℕ) : x &&& s.mask = x % s.table.length := by
  obtain ⟨p, hp⟩ := h.cap
  have hmask : s.mask = 2 ^ p - 1 := by
    have := h.mask
    omega
  rw [hmask, hp]
  exact and_two_pow_sub_one_eq_mod x p

theorem Tally.probeFor_eq (id : ℕ) (key : Bytes) :
    s.probeFor id key = probe s.table
      (fun e => e.hash == hash id key && e.mapId == id && s.keyBytes e == key)
      (fun i => (i + 1) % s.table.length) s.table.length
      (walkSlot s.table (hash id key).toNat 0) none := by
  have hnext : s.next = fun i => (i + 1) % s.table.length := funext fun i => h.land_mask (i + 1)
  rw [probeFor, hnext, h.mask, h.land_mask]
  rfl

theorem Tally.room : usedSlots s.table < s.table.length := by
  have hload := h.load
  rw [usedSlots_eq, ← h.len, ← h.tombstones]
  omega

theorem Tally.probeFor_cases (id : ℕ) (key : Bytes) :
    (∃ i e, slotAt s.table i = .full e ∧ e.mapId = id ∧ s.probeFor id key = .found i e) ∨
    ∃ j < s.table.length, (slotAt s.table j).occupied = false ∧ s.probeFor id key = .vacant j := by
  rw [h.probeFor_eq]
  have hend := probe_started s.table
    (fun e => e.hash == hash id key && e.mapId == id && s.keyBytes e == key)
    (hash id key).toNat s.table.length
  cases hprobe : probe s.table _ _ s.table.length (walkSlot s.table (hash id key).toNat 0) none with
  | found i e =>
    rw [hprobe] at hend
    simp only [Ended, Bool.and_eq_true, beq_iff_eq] at hend
    exact .inl ⟨i, e, hend.1, hend.2.1.2, rfl⟩
  | vacant j =>
    rw [hprobe] at hend
    obtain ⟨d, -, -, x, -, rfl, hfree⟩ := hend
    exact .inr ⟨_, mod_lt _ (zero_lt_of_lt h.room), hfree, rfl⟩
  | spins => exact absurd hprobe (probe_ne_spins h.room _ _)

end Tally

section Invariant

variable {s s' : Inner} {map : Str} {key : Bytes} {e e' : Entry} {id : ℕ} {c : Cell}

section

variable (h : s.Inv)

include h

theorem Inv.eq_of_keyOf (he : e ∈ items s.table) (he' : e' ∈ items s.table)
    (hkey : s.keyOf e = s.keyOf e') : e = e' :=
  inj_on_of_nodup_map h.table.nodup he he' hkey

theorem Inv.find?_eq (he : e ∈ items s.table) :
    ((items s.table).find? fun x => s.keyOf x == s.keyOf e) = some e := by
  have hsome : ((items s.table).find? fun x => s.keyOf x == s.keyOf e).isSome = true := by
    rw [find?_isSome]
    exact ⟨e, he, beq_self_eq_true _⟩
  obtain ⟨x, hx⟩ := isSome_iff_exists.1 hsome
  obtain rfl := h.eq_of_keyOf (mem_of_find?_eq_some hx) he (by simpa using find?_some hx)
  exact hx

theorem Inv.contents_eq_some :
    s.contents (map, key) = some c ↔ ∃ e ∈ items s.table,
      s.mapNames[e.mapId]? = some map ∧ s.keyBytes e = key ∧ s.cellOf e = c := by
  simp only [contents, bind_eq_some_iff, map_eq_some_iff]
  constructor
  · rintro ⟨id, hid, e, hfind, hc⟩
    have hkey : s.keyOf e = (id, key) := by simpa using find?_some hfind
    have hmap : e.mapId = id := congrArg fst hkey
    exact ⟨e, mem_of_find?_eq_some hfind, hmap ▸ (h.names map id).1 hid,
      congrArg snd hkey, hc⟩
  · rintro ⟨e, he, hname, hkey, hc⟩
    exact ⟨e.mapId, (h.names map _).2 hname, e, hkey ▸ h.find?_eq he, hc⟩

/-- The contents change at one key, where an entry `old` gives way to an entry
`new`, either of which may be missing. -/
theorem Inv.contents_update (h' : s'.Inv) (old new : Option Entry)
    {rest : List Entry} (hold : (items s.table).Perm (old.toList ++ rest))
    (hnew : (items s'.table).Perm (new.toList ++ rest)) (hnames : s'.mapNames = s.mapNames)
    (hblob : ∀ x ∈ rest, s'.blob x = s.blob x) (hid : s.mapNames[id]? = some map)
    (holdkey : ∀ x ∈ old, s.keyOf x = (id, key)) (hnewkey : ∀ x ∈ new, s'.keyOf x = (id, key))
    (hrest : ∀ x ∈ rest, s.keyOf x ≠ (id, key)) :
    s'.contents = update s.contents (map, key) (new.map s'.cellOf) := by
  have hkeyrest : ∀ x ∈ rest, s'.keyBytes x = s.keyBytes x := fun x hx => by
    rw [keyBytes, hblob x hx]
    rfl
  have hcellrest : ∀ x ∈ rest, s'.cellOf x = s.cellOf x := fun x hx => by
    rw [cellOf, valBytes, hblob x hx]
    rfl
  have hmapid : ∀ x, s.mapNames[x]? = some map → x = id := fun x hx => by
    have hlook := (h.names map x).2 hx
    rw [(h.names map id).2 hid] at hlook
    exact (some.inj hlook).symm
  funext mk
  obtain ⟨m, k⟩ := mk
  refine ext fun c => ?_
  rw [h'.contents_eq_some, hnames]
  by_cases hmk : (m, k) = (map, key)
  · cases hmk
    rw [update_self, map_eq_some_iff]
    constructor
    · rintro ⟨x, hx, hname, hkey, hc⟩
      rcases mem_append.1 (hnew.mem_iff.1 hx) with hx | hx
      · exact ⟨x, mem_toList.1 hx, hc⟩
      · refine absurd ?_ (hrest x hx)
        rw [keyOf, hmapid _ hname, ← hkeyrest x hx, hkey]
    · rintro ⟨x, hx, hc⟩
      have hkey := hnewkey x hx
      refine ⟨x, hnew.mem_iff.2 (mem_append_left _ (mem_toList.2 hx)), ?_,
        congrArg snd hkey, hc⟩
      rw [show x.mapId = id from congrArg fst hkey]
      exact hid
  · rw [update_of_ne hmk, h.contents_eq_some]
    -- neither `old` nor `new` is an entry of the key looked at
    have hother : ∀ (t : Inner), ∀ x : Entry, t.keyOf x = (id, key) →
        s.mapNames[x.mapId]? = some m → t.keyBytes x = k → False := by
      intro t x hx hname hkey
      rw [show x.mapId = id from congrArg fst hx, hid] at hname
      rw [show t.keyBytes x = key from congrArg snd hx] at hkey
      exact hmk (by rw [← hkey, some.inj hname])
    constructor
    · rintro ⟨x, hx, hname, hkey, hc⟩
      rcases mem_append.1 (hnew.mem_iff.1 hx) with hx | hx
      · exact (hother s' x (hnewkey x (mem_toList.1 hx)) hname hkey).elim
      · exact ⟨x, hold.mem_iff.2 (mem_append_right _ hx), hname, (hkeyrest x hx) ▸ hkey,
          (hcellrest x hx) ▸ hc⟩
    · rintro ⟨x, hx, hname, hkey, hc⟩
      rcases mem_append.1 (hold.mem_iff.1 hx) with hx | hx
      · exact (hother s x (holdkey x (mem_toList.1 hx)) hname hkey).elim
      · exact ⟨x, hnew.mem_iff.2 (mem_append_right _ hx), hname, (hkeyrest x hx).trans hkey,
          (hcellrest x hx).trans hc⟩

theorem Inv.hit_iff (he : e ∈ items s.table) :
    (e.hash == hash id key && e.mapId == id && s.keyBytes e == key) = true ↔
      s.keyOf e = (id, key) := by
  simp only [Bool.and_eq_true, beq_iff_eq, keyOf, Prod.mk.injEq]
  constructor
  · rintro ⟨⟨-, hid⟩, hkey⟩
    exact ⟨hid, hkey⟩
  · rintro ⟨hid, hkey⟩
    exact ⟨⟨by rw [h.hashes e he, hid, hkey], hid⟩, hkey⟩

theorem Inv.probeFor_cases (id : ℕ) (key : Bytes) :
    (∃ i e, slotAt s.table i = .full e ∧ s.keyOf e = (id, key) ∧
      s.probeFor id key = .found i e) ∨
    (∃ j, (∀ e ∈ items s.table, s.keyOf e ≠ (id, key)) ∧ s.probeFor id key = .vacant j ∧
      j < s.table.length ∧ (slotAt s.table j).occupied = false ∧
      Reached s.table (hash id key).toNat j) := by
  by_cases hex : ∃ e ∈ items s.table, s.keyOf e = (id, key)
  · obtain ⟨e, he, hkey⟩ := hex
    obtain ⟨i, hi⟩ := mem_items.1 he
    refine .inl ⟨i, e, hi, hkey, ?_⟩
    rw [h.toTally.probeFor_eq]
    exact h.table.probe_found (k := (id, key)) (fun b hb => h.hit_iff hb) hi hkey
  · have habs : ∀ e ∈ items s.table, s.keyOf e ≠ (id, key) := fun e he hkey => hex ⟨e, he, hkey⟩
    have hmiss : ∀ b ∈ items s.table,
        (b.hash == hash id key && b.mapId == id && s.keyBytes b == key) = false := fun b hb =>
      Bool.eq_false_iff.2 fun hhit => habs b hb ((h.hit_iff hb).1 hhit)
    obtain ⟨j, hprobe, hj⟩ := h.table.probe_vacant (hash id key).toNat hmiss
    exact .inr ⟨j, habs, (h.toTally.probeFor_eq id key).trans hprobe, hj⟩

end

theorem getD_modify (l : List ℕ) (i j : ℕ) (f : ℕ → ℕ) (hi : i < l.length) :
    (l.modify i f).getD j 0 = if i = j then f (l.getD j 0) else l.getD j 0 := by
  rw [getD_eq_getElem?_getD, getElem?_modify, getD_eq_getElem?_getD]
  split
  next heq =>
    subst heq
    rw [getElem?_eq_getElem hi]
    rfl
  next =>
    cases l[j]? with
    | none | some x => rfl

theorem keyOf_congr (hblob : s'.blob e = s.blob e) : s'.keyOf e = s.keyOf e := by
  rw [keyOf, keyBytes, hblob]
  rfl

end Invariant

/-- The record `e` is for the key and the value that are stored at `handle`. -/
structure RecordOf (e : Entry) (id : ℕ) (key val : Bytes) (handle : Handle) : Prop where
  hash : e.hash = Store.hash id key
  mapId : e.mapId = id
  handle : e.handle = handle
  keyLen : e.keyLen = key.length
  valLen : e.valLen = val.length

section Slots

variable {s s' : Inner} {key val : Bytes} {e e' : Entry} {id i j : ℕ} {handle : Handle}

theorem RecordOf.keyOf (hr : RecordOf e id key val handle) (hblob : s.blob e = key ++ val) :
    s.keyOf e = (id, key) := by
  rw [Inner.keyOf, keyBytes, hblob, hr.keyLen, hr.mapId, take_left]

theorem RecordOf.cellOf (hr : RecordOf e id key val handle) (hblob : s.blob e = key ++ val) :
    s.cellOf e = ⟨val, e.expireAt, e.stamp⟩ := by
  rw [Inner.cellOf, valBytes, hblob, hr.keyLen, drop_left]

def filled (s : Inner) (slab : Slab) (j : ℕ) (e : Entry) : Inner :=
  { s with
    slab
    table := s.table.set j (.full e)
    len := s.len + 1
    tombstones := if slotAt s.table j = Slot.tombstone then s.tombstones - 1 else s.tombstones
    counts := s.counts.modify e.mapId (· + 1) }

def refilled (s : Inner) (slab : Slab) (i : ℕ) (e : Entry) : Inner :=
  { s with slab, table := s.table.set i (.full e) }

section

variable (h : s.Tally) {slab : Slab}

include h

theorem Tally.filled (hid : e.mapId < s.mapNames.length) (hj : j < s.table.length)
    (hfree : (slotAt s.table j).occupied = false)
    (hload : (s.len + s.tombstones + 1) * 8 < s.table.length * 7) : (s.filled slab j e).Tally := by
  have hperm : (items (s.filled slab j e).table).Perm (e :: items s.table) :=
    items_set_full hj hfree
  have hwidth : (s.filled slab j e).table.length = s.table.length := length_set
  have hlen : (s.filled slab j e).len = s.len + 1 := rfl
  have htomb : (s.filled slab j e).tombstones ≤ s.tombstones := by
    dsimp only [Inner.filled]
    split <;> omega
  refine ⟨hwidth ▸ h.cap, hwidth ▸ h.mask, ?_, ?_, by omega, h.names, fun x hx => ?_,
    (length_modify _ _ _).trans h.counted, fun k hk => ?_⟩
  · rw [hperm.length_eq, length_cons, ← h.len, hlen]
  · refine Eq.trans ?_ (deletedSlots_set_full hj hfree).symm
    rw [← h.tombstones]
    rfl
  · rcases mem_cons.1 (hperm.mem_iff.1 hx) with rfl | hx
    · exact hid
    · exact h.ids x hx
  · rw [entriesOf, hperm.countP_eq, countP_cons, ← entriesOf, ← h.counts k hk]
    refine (getD_modify _ _ _ _ (h.counted ▸ hid)).trans ?_
    by_cases hki : e.mapId = k
    · rw [if_pos hki, if_pos (by simpa using hki)]
    · rw [if_neg hki, if_neg (by simpa using hki), add_zero]

variable (hi : slotAt s.table i = .full e)

include hi

theorem Tally.bury : (s.bury i e).Tally := by
  have hperm : (items s.table).Perm (e :: items (s.bury i e).table) := items_set_tombstone hi
  have hwidth : (s.bury i e).table.length = s.table.length := length_set
  have hlen := h.len
  have hload := h.load
  rw [hperm.length_eq, length_cons] at hlen
  refine ⟨hwidth ▸ h.cap, hwidth ▸ h.mask, ?_, ?_, ?_, h.names,
    fun x hx => h.ids x (hperm.mem_iff.2 (mem_cons_of_mem e hx)),
    (length_modify _ _ _).trans h.counted, fun k hk => ?_⟩
  · rw [show (s.bury i e).len = s.len - 1 from rfl]
    omega
  · rw [show (s.bury i e).tombstones = s.tombstones + 1 from rfl, h.tombstones]
    exact (deletedSlots_set_tombstone hi).symm
  · rw [show (s.bury i e).len = s.len - 1 from rfl,
      show (s.bury i e).tombstones = s.tombstones + 1 from rfl]
    omega
  · refine (getD_modify _ _ _ _ (h.counted ▸ h.ids e (mem_items.2 ⟨i, hi⟩))).trans ?_
    rw [h.counts k hk, entriesOf, hperm.countP_eq, countP_cons, entriesOf]
    by_cases hek : e.mapId = k
    · rw [if_pos hek, if_pos (by simpa using hek), Nat.add_sub_cancel]
    · rw [if_neg hek, if_neg (by simpa using hek), add_zero]

theorem Tally.refilled (hmap : e'.mapId = e.mapId) : (s.refilled slab i e').Tally := by
  have hperm : (items (s.refilled slab i e').table).Perm (e' :: items (s.table.set i .tombstone)) :=
    items_set_replace hi
  have hold := items_set_tombstone hi
  have hwidth : (s.refilled slab i e').table.length = s.table.length := length_set
  refine ⟨hwidth ▸ h.cap, hwidth ▸ h.mask, ?_, ?_, hwidth ▸ h.load, h.names, fun x hx => ?_,
    h.counted, fun k hk => ?_⟩
  · rw [hperm.length_eq, length_cons, ← length_cons (a := e), ← hold.length_eq]
    exact h.len
  · exact h.tombstones.trans (deletedSlots_set_replace hi).symm
  · rcases mem_cons.1 (hperm.mem_iff.1 hx) with rfl | hx
    · exact hmap ▸ h.ids e (mem_items.2 ⟨i, hi⟩)
    · exact h.ids x (hold.mem_iff.2 (mem_cons_of_mem e hx))
  · rw [entriesOf, hperm.countP_eq, countP_cons, hmap, ← countP_cons, ← hold.countP_eq]
    exact h.counts k hk

end

theorem Tally.intern (h : s.Tally) (map : Str) :
    (s.intern map).1.Tally ∧ (s.intern map).1.mapNames[(s.intern map).2]? = some map := by
  rw [Inner.intern]
  cases hlook : s.mapIds.lookup map with
  | some id => exact ⟨h, (h.names map id).1 hlook⟩
  | none =>
    have hnew : ∀ id, s.mapNames[id]? ≠ some map := fun id hid => by
      rw [(h.names map id).2 hid] at hlook
      cases hlook
    refine ⟨⟨h.cap, h.mask, h.len, h.tombstones, h.load, fun m id => ?_, fun e he => ?_, ?_,
      fun id hid => ?_⟩, getElem?_concat_length⟩
    · by_cases hm : m = map
      · subst hm
        rw [AList.lookup_insert, some.injEq]
        constructor
        · rintro rfl
          exact getElem?_concat_length
        · intro hid
          rcases lt_trichotomy id s.mapNames.length with hlt | heq | hgt
          · rw [getElem?_append_left hlt] at hid
            exact absurd hid (hnew id)
          · exact heq.symm
          · rw [getElem?_eq_none (by rw [length_append]; exact hgt)] at hid
            cases hid
      · rw [AList.lookup_insert_ne hm, h.names]
        rcases lt_trichotomy id s.mapNames.length with hlt | rfl | hgt
        · rw [getElem?_append_left hlt]
        · simp [Ne.symm hm]
        · rw [getElem?_eq_none (le_of_lt hgt),
            getElem?_eq_none (by rw [length_append]; exact hgt)]
    · exact lt_of_lt_of_le (h.ids e he) (by simp)
    · rw [length_append, length_append, h.counted]
      rfl
    · rw [length_append] at hid
      rcases lt_or_eq_of_le (le_of_lt_succ hid) with hlt | rfl
      · rw [getD_append _ _ _ _ (by rw [h.counted]; exact hlt), h.counts id hlt]
        rfl
      · -- no entry has the new id
        rw [getD_append_right _ _ _ _ (by rw [h.counted]), h.counted, Nat.sub_self]
        symm
        rw [entriesOf, getD_cons_zero, countP_eq_zero]
        intro e he
        have hlt := h.ids e he
        simp only [beq_iff_eq]
        omega

theorem Tally.maybeGrow (h : s.Tally) :
    s.maybeGrow.Tally ∧ (items s.maybeGrow.table).Perm (items s.table) ∧
      (s.maybeGrow.len + s.maybeGrow.tombstones + 1) * 8 < s.maybeGrow.table.length * 7 := by
  rw [Inner.maybeGrow]
  split
  next hroom => exact ⟨h, .refl _, by rw [← h.mask]; exact hroom⟩
  next hfull =>
    obtain ⟨p, hp⟩ := h.cap
    have hcap : (s.mask + 1) * 2 = 2 ^ (p + 1) := by rw [h.mask, hp, pow_succ]
    have hload := h.load
    have hlen := h.len
    obtain ⟨hperm, hdel, hlength⟩ := rehash_perm
      (fun e : Entry => e.hash.toNat % ((s.mask + 1) * 2)) (n := (s.mask + 1) * 2)
      (items s.table) (by omega) fun e _ => mod_lt _ (by omega)
    dsimp only
    rw [hcap] at hperm hdel hlength ⊢
    simp only [and_two_pow_sub_one_eq_mod]
    refine ⟨⟨⟨p + 1, hlength⟩, by dsimp only; omega, hlen.trans hperm.length_eq.symm, hdel.symm,
      by dsimp only; omega, h.names, fun e he => h.ids e (hperm.mem_iff.1 he), h.counted,
      fun id hid => (h.counts id hid).trans (hperm.countP_eq _).symm⟩, hperm, ?_⟩
    rw [hlength, ← hcap]
    rcases lt_or_ge s.mask 1 with hsmall | hbig <;> omega

theorem Inv.fill (h : s.Inv) (hid : id < s.mapNames.length)
    (hfit : key.length + val.length < 2 ^ 32)
    (habs : ∀ x ∈ items s.table, s.keyOf x ≠ (id, key)) (hj : j < s.table.length)
    (hfree : (slotAt s.table j).occupied = false)
    (hreach : Reached s.table (hash id key).toNat j)
    (hload : (s.len + s.tombstones + 1) * 8 < s.table.length * 7)
    (hr : RecordOf e id key val (s.slab.store key val).2) :
    let s' := s.filled (s.slab.store key val).1 j e
    s'.Inv ∧ (items s'.table).Perm (e :: items s.table) ∧ s'.blob e = key ++ val ∧
      ∀ x ∈ items s.table, s'.blob x = s.blob x := by
  obtain ⟨hbacked, hblob, hblobs⟩ := h.backed.store hfit hr.handle hr.keyLen hr.valLen
  have hperm := items_set_full (a := e) hj hfree
  have hkeys : ∀ x ∈ items s.table, (s.filled (s.slab.store key val).1 j e).keyOf x = s.keyOf x :=
    fun x hx => keyOf_congr (hblobs x hx)
  have hkey : (s.filled (s.slab.store key val).1 j e).keyOf e = (id, key) := hr.keyOf hblob
  refine ⟨⟨h.toTally.filled (hr.mapId ▸ hid) hj hfree hload, hbacked.perm hperm.symm, ?_, ?_⟩,
    hperm, hblob, hblobs⟩
  · refine (h.table.congr hkeys).insert hj hfree (hkey ▸ hreach) (fun x hx => ?_) ?_
    · rw [hkeys x hx, hkey]
      exact habs x hx
    · rw [usedSlots_eq, ← h.len, ← h.tombstones]
      omega
  · intro x hx
    rcases mem_cons.1 (hperm.mem_iff.1 hx) with rfl | hx
    · rw [hr.hash, show keyBytes _ x = key from congrArg snd hkey, hr.mapId]
    · exact (h.hashes x hx).trans (congrArg (hash x.mapId) (congrArg snd (hkeys x hx)).symm)

section

variable (h : s.Inv) (hi : slotAt s.table i = .full e)

include h hi

theorem Inv.bury :
    (s.bury i e).Inv ∧ (items s.table).Perm (e :: items (s.bury i e).table) ∧
      ∀ x ∈ items (s.bury i e).table, (s.bury i e).blob x = s.blob x := by
  have hperm : (items s.table).Perm (e :: items (s.bury i e).table) := items_set_tombstone hi
  obtain ⟨hbacked, hblobs⟩ := (h.backed.perm hperm).free
  have hkeys : ∀ x ∈ items (s.bury i e).table, (s.bury i e).keyOf x = s.keyOf x := fun x hx =>
    keyOf_congr (hblobs x hx)
  refine ⟨⟨h.toTally.bury hi, hbacked, (h.table.erase hi).congr hkeys, fun x hx => ?_⟩, hperm,
    hblobs⟩
  rw [h.hashes x (hperm.mem_iff.2 (mem_cons_of_mem e hx)),
    show (s.bury i e).keyBytes x = s.keyBytes x from congrArg snd (hkeys x hx)]

theorem Inv.swap {slab : Slab}
    (hbacked : Backed slab (e' :: items (s.table.set i .tombstone)))
    (hblobs : ∀ x ∈ items (s.table.set i .tombstone), (s.refilled slab i e').blob x = s.blob x)
    (hkey : (s.refilled slab i e').keyOf e' = s.keyOf e) (hhash : e'.hash = e.hash) :
    (s.refilled slab i e').Inv := by
  have hperm := items_set_replace (b := e') hi
  have hkeys : ∀ x ∈ items (s.table.set i .tombstone),
      (s.refilled slab i e').keyOf x = s.keyOf x := fun x hx => keyOf_congr (hblobs x hx)
  have hmapId : e'.mapId = e.mapId := congrArg fst hkey
  refine ⟨h.toTally.refilled hi hmapId, hbacked.perm hperm.symm,
    h.table.replace hi hkey hkeys, fun x hx => ?_⟩
  rcases mem_cons.1 (hperm.mem_iff.1 hx) with rfl | hx
  · rw [hhash, h.hashes e (mem_items.2 ⟨i, hi⟩), hmapId,
      show keyBytes _ x = s.keyBytes e from congrArg snd hkey]
  · rw [h.hashes x ((items_set_tombstone hi).mem_iff.2 (mem_cons_of_mem e hx)),
      show keyBytes _ x = s.keyBytes x from congrArg snd (hkeys x hx)]

theorem Inv.refill (hkey : s.keyOf e = (id, key)) (hfit : key.length + val.length < 2 ^ 32)
    (hr : RecordOf e' id key val ((s.slab.free e.handle).store key val).2) :
    let s' := s.refilled ((s.slab.free e.handle).store key val).1 i e'
    s'.Inv ∧ s'.blob e' = key ++ val ∧
      ∀ x ∈ items (s.table.set i .tombstone), s'.blob x = s.blob x := by
  obtain ⟨hfreed, hgetfree⟩ := (h.backed.perm (items_set_tombstone hi)).free
  obtain ⟨hbacked, hblob, hrest⟩ := hfreed.store hfit hr.handle hr.keyLen hr.valLen
  have hblobs := fun x hx => (hrest x hx).trans (hgetfree x hx)
  have hhash : e'.hash = e.hash := by
    rw [hr.hash, h.hashes e (mem_items.2 ⟨i, hi⟩), show e.mapId = id from congrArg fst hkey,
      show s.keyBytes e = key from congrArg snd hkey]
  have hkey' : (s.refilled ((s.slab.free e.handle).store key val).1 i e').keyOf e' = (id, key) :=
    hr.keyOf hblob
  exact ⟨h.swap hi hbacked hblobs (hkey'.trans hkey.symm) hhash, hblob, hblobs⟩

variable (e') in
theorem Inv.touch (hhash : e'.hash = e.hash) (hmapId : e'.mapId = e.mapId)
    (hhandle : e'.handle = e.handle) (hkl : e'.keyLen = e.keyLen) (hvl : e'.valLen = e.valLen) :
    (s.refilled s.slab i e').Inv ∧ (s.refilled s.slab i e').blob e' = s.blob e := by
  have hblob : (s.refilled s.slab i e').blob e' = s.blob e := by
    change s.slab.get e'.handle e'.total = _
    rw [blob, Entry.total, Entry.total, hhandle, hkl, hvl]
  have hkey : (s.refilled s.slab i e').keyOf e' = s.keyOf e := by
    rw [keyOf, keyBytes, hblob, hkl, hmapId]
    rfl
  have hbacked := (h.backed.perm (items_set_tombstone hi)).congr_head hhandle hkl hvl
  exact ⟨h.swap hi hbacked (fun x _ => rfl) hkey hhash, hblob⟩

end

theorem Inv.intern (h : s.Inv) (map : Str) :
    (s.intern map).1.Inv ∧ (s.intern map).1.contents = s.contents ∧
      (s.intern map).1.configs = s.configs := by
  have htally := (h.toTally.intern map).1
  rw [Inner.intern] at htally ⊢
  cases hlook : s.mapIds.lookup map with
  | some id => exact ⟨h, rfl, rfl⟩
  | none =>
    rw [hlook] at htally
    have hinv : Inner.Inv _ := ⟨htally, h.backed, h.table, h.hashes⟩
    refine ⟨hinv, ?_, rfl⟩
    funext mk
    refine ext fun c => ?_
    rw [hinv.contents_eq_some, h.contents_eq_some]
    refine exists_congr fun e => and_congr_right fun he => and_congr_left' ?_
    rw [getElem?_append_left (h.ids e he)]

theorem Inv.maybeGrow (h : s.Inv) :
    s.maybeGrow.Inv ∧ s.maybeGrow.contents = s.contents ∧ s.maybeGrow.mapNames = s.mapNames ∧
      s.maybeGrow.configs = s.configs := by
  obtain ⟨htally, hperm, -⟩ := h.toTally.maybeGrow
  rw [Inner.maybeGrow] at htally hperm ⊢
  by_cases hroom : (s.len + s.tombstones + 1) * 8 < (s.mask + 1) * 7
  · rw [if_pos hroom]
    exact ⟨h, rfl, rfl, rfl⟩
  · rw [if_neg hroom] at htally hperm ⊢
    obtain ⟨p, hp⟩ := h.cap
    have hcap : (s.mask + 1) * 2 = 2 ^ (p + 1) := by rw [h.mask, hp, pow_succ]
    have hload := h.load
    have hlen := h.len
    have hw := wellFormed_rehash (fun e : Entry => e.hash.toNat % ((s.mask + 1) * 2))
      (n := (s.mask + 1) * 2) (items s.table) (by omega)
      (fun k : ℕ × Bytes => (hash k.1 k.2).toNat) s.keyOf h.table.nodup
      fun e he => by rw [h.hashes e he]; rfl
    dsimp only at htally hperm ⊢
    rw [hcap] at htally hperm hw ⊢
    simp only [and_two_pow_sub_one_eq_mod] at htally hperm ⊢
    have hinv : Inner.Inv _ := ⟨htally, h.backed.perm hperm.symm, hw,
      fun e he => h.hashes e (hperm.mem_iff.1 he)⟩
    refine ⟨hinv, ?_, trivial, trivial⟩
    funext mk
    refine ext fun c => ?_
    rw [hinv.contents_eq_some, h.contents_eq_some]
    exact exists_congr fun e => and_congr_left' hperm.mem_iff

end Slots

end Inner

end BonsaiGrid.Store
