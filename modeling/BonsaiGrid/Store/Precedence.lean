import BonsaiGrid.Store.Contents

/-!
# A local write and what it overwrites

A run of local mutators of the maps and of merges of what peers sent.
-/

namespace BonsaiGrid.Store

open List Nat Function Option

/-- A call that changes a map, of a client or with an entry of a peer. -/
inductive WriteCall where
  | putTtl (map : Str) (key val : Bytes) (ttlMs : ℕ)
  | put (map : Str) (key val : Bytes)
  | putAll (map : Str) (entries : List (StoreEnv × Bytes × Bytes))
  | putIfAbsent (map : Str) (key val : Bytes) (ttlMs : ℕ)
  | replace (map : Str) (key val : Bytes)
  | mcUpdate (map : Str) (key : Bytes) (f : Option Bytes → McAction)
  | putMerge (map : Str) (key val : Bytes) (ttlMs stamp : ℕ) (latestUpdate : Bool)
  | applyWan (opIsPut : Bool) (map : Str) (key val : Bytes) (ttlMs stamp : ℕ)

def McAction.isStore : McAction → Bool
  | .store _ _ => true
  | _ => false

/-- What a local call stored for a key, with the stamps that the key was stored with or
that were merged before. -/
structure LocalWrite where
  map : Str
  key : Bytes
  cell : Cell
  before : List ℕ

structure WriteLog where
  store : Store
  stored : Str × Bytes → List ℕ := fun _ => []
  merged : List ℕ := []
  writes : List LocalWrite := []

namespace WriteLog

variable (w : WriteLog)

def settle (s : Store) : WriteLog :=
  { w with
    store := s
    stored := fun mk => ((s.contents mk).map Cell.stamp).toList ++ w.stored mk }

def wrote (s : Store) (map : Str) (key : Bytes) : WriteLog :=
  { w.settle s with
    writes := ((s.contents (map, key)).map fun cell =>
      ⟨map, key, cell, w.stored (map, key) ++ w.merged⟩).toList ++ w.writes }

def received (s : Store) (stamp : ℕ) : WriteLog :=
  { w.settle s with merged := stamp :: w.merged }

def putTtl (e : StoreEnv × Str × Bytes × Bytes × ℕ) : WriteLog :=
  w.wrote (w.store.putTtl e.1 e.2.1 e.2.2.1 e.2.2.2.1 e.2.2.2.2).1 e.2.1 e.2.2.1

def puts (map : Str) (entries : List (StoreEnv × Bytes × Bytes)) :
    List (StoreEnv × Str × Bytes × Bytes × ℕ) :=
  entries.map fun e => (e.1, map, e.2.1, e.2.2, 0)

def exec (c : StoreEnv × WriteCall) : WriteLog :=
  match c.2 with
  | .putTtl map key val ttlMs => w.putTtl (c.1, map, key, val, ttlMs)
  | .put map key val => w.putTtl (c.1, map, key, val, 0)
  | .putAll map entries => (puts map entries).foldl putTtl w
  | .putIfAbsent map key val ttlMs =>
    let r := w.store.putIfAbsent c.1 map key val ttlMs
    if r.2.isNone then w.wrote r.1 map key else w.settle r.1
  | .replace map key val =>
    let r := w.store.replace c.1 map key val
    if r.2.isSome then w.wrote r.1 map key else w.settle r.1
  | .mcUpdate map key f =>
    let r := w.store.mcUpdate c.1 map key fun v => (f v, (f v).isStore)
    if r.2 then w.wrote r.1 map key else w.settle r.1
  | .putMerge map key val ttlMs stamp latestUpdate =>
    w.received (w.store.putMerge c.1 map key val ttlMs stamp latestUpdate) stamp
  | .applyWan opIsPut map key val ttlMs stamp =>
    w.received (w.store.applyWan c.1 opIsPut map key val ttlMs stamp) stamp

/-- The clock is in range where a stamp is drawn, and the entry fits its record. -/
def MayPut (e : StoreEnv × Str × Bytes × Bytes × ℕ) : Prop :=
  InRange w.store.stampSeq e.1.wallMs ∧ e.2.2.1.length + e.2.2.2.1.length < 2 ^ 32

/-- Stamps are drawn in range, peers send stamps of 64 bits, and no value is replaced
where there is one. -/
def Allows (c : StoreEnv × WriteCall) : Prop :=
  match c.2 with
  | .putTtl map key val ttlMs => w.MayPut (c.1, map, key, val, ttlMs)
  | .put map key val => w.MayPut (c.1, map, key, val, 0)
  | .putAll map entries => Trace.Allowed putTtl MayPut w (puts map entries)
  | .putIfAbsent map key val ttlMs => w.MayPut (c.1, map, key, val, ttlMs)
  | .replace map key val =>
    key.length + val.length < 2 ^ 32 ∧ (w.store.get c.1 map key).2 = none
  | .mcUpdate map key f => InRange w.store.stampSeq c.1.wallMs ∧ ∀ new ttlMs,
      f (w.store.get c.1 map key).2 = .store new ttlMs → key.length + new.length < 2 ^ 32
  | .putMerge _ key val _ stamp _ => stamp < 2 ^ 64 ∧ key.length + val.length < 2 ^ 32
  | .applyWan _ _ key val _ stamp => stamp < 2 ^ 64 ∧ key.length + val.length < 2 ^ 32

/-- The stamp of a write is above those before it, and as long as what it wrote is there
and has not expired, merging an entry with one of them changes nothing. -/
structure Outranks (w : WriteLog) (e : LocalWrite) : Prop where
  stamp : ∀ x ∈ e.before, x < e.cell.stamp
  merge : w.store.contents (e.map, e.key) = some e.cell → ∀ x ∈ e.before, ∀ env : StoreEnv,
    e.cell.live env.now = true → ∀ val ttlMs, e.key.length + val.length < 2 ^ 32 →
      (w.store.putMerge env e.map e.key val ttlMs x true).contents = w.store.contents ∧
        (w.store.applyWan env true e.map e.key val ttlMs x).contents = w.store.contents

structure Inv (w : WriteLog) : Prop where
  store : w.store.Inv
  held : ∀ mk c, w.store.contents mk = some c → c.stamp / 2 ^ 7 ≤ w.store.stampSeq / 2 ^ 7
  stored : ∀ mk, ∀ x ∈ w.stored mk, x / 2 ^ 7 ≤ w.store.stampSeq / 2 ^ 7
  merged : ∀ x ∈ w.merged, x / 2 ^ 7 ≤ w.store.stampSeq / 2 ^ 7
  writes : ∀ e ∈ w.writes, ∀ x ∈ e.before, x < e.cell.stamp

section Steps

variable {w : WriteLog} {s : Store} {map : Str} {key val : Bytes} {ttlMs stamp : ℕ}
  {env : StoreEnv}

/-- A store whose clock has not gone back and whose cells are not ahead of it. -/
structure Follows (w : WriteLog) (s : Store) : Prop where
  store : s.Inv
  clock : w.store.stampSeq / 2 ^ 7 ≤ s.stampSeq / 2 ^ 7
  held : ∀ mk c, s.contents mk = some c → c.stamp / 2 ^ 7 ≤ s.stampSeq / 2 ^ 7

section

variable (h : w.Inv)

include h

theorem Inv.follows {c : Option Cell} (hs : s.Inv)
    (hclock : w.store.stampSeq / 2 ^ 7 ≤ s.stampSeq / 2 ^ 7)
    (hcont : s.contents = update w.store.contents (map, key) c)
    (hc : ∀ x ∈ c, x.stamp / 2 ^ 7 ≤ s.stampSeq / 2 ^ 7) : w.Follows s := by
  refine ⟨hs, hclock, fun mk x hx => ?_⟩
  rw [hcont] at hx
  by_cases hmk : mk = (map, key)
  · rw [hmk, update_self] at hx
    exact hc x hx
  · rw [update_of_ne hmk] at hx
    exact le_trans (h.held mk x hx) hclock

theorem Inv.settle (hs : w.Follows s) : (w.settle s).Inv where
  store := hs.store
  held := hs.held
  stored mk x hx := by
    rcases mem_append.1 hx with hx | hx
    · obtain ⟨c, hc, rfl⟩ := map_eq_some_iff.1 (mem_toList.1 hx)
      exact hs.held mk c hc
    · exact le_trans (h.stored mk x hx) hs.clock
  merged x hx := le_trans (h.merged x hx) hs.clock
  writes := h.writes

theorem Inv.received (hs : w.Follows s) (hstamp : stamp / 2 ^ 7 ≤ s.stampSeq / 2 ^ 7) :
    (w.received s stamp).Inv := by
  have hw := h.settle hs
  refine ⟨hw.store, hw.held, hw.stored, fun x hx => ?_, hw.writes⟩
  rcases mem_cons.1 hx with rfl | hx
  · exact hstamp
  · exact hw.merged x hx

theorem Inv.wrote (hs : w.Follows s)
    (hnew : ∀ c ∈ s.contents (map, key), w.store.stampSeq / 2 ^ 7 < c.stamp / 2 ^ 7) :
    (w.wrote s map key).Inv := by
  have hw := h.settle hs
  refine ⟨hw.store, hw.held, hw.stored, hw.merged, fun e he x hx => ?_⟩
  rcases mem_append.1 he with he | he
  · obtain ⟨c, hc, rfl⟩ := map_eq_some_iff.1 (mem_toList.1 he)
    have hpast : x / 2 ^ 7 ≤ w.store.stampSeq / 2 ^ 7 := by
      rcases mem_append.1 hx with hx | hx
      · exact h.stored (map, key) x hx
      · exact h.merged x hx
    have hlt := hnew c hc
    change x < c.stamp
    omega
  · exact hw.writes e he x hx

theorem Inv.seen (now : ℕ) (mk : Str × Bytes) :
    ∀ c ∈ Inner.seen now (w.store.contents mk), c.stamp / 2 ^ 7 ≤ w.store.stampSeq / 2 ^ 7 :=
  fun c hc => h.held mk c (Inner.contents_of_seen hc)

theorem Inv.putTtl (hok : w.MayPut (env, map, key, val, ttlMs)) :
    (w.putTtl (env, map, key, val, ttlMs)).Inv := by
  obtain ⟨hs, hcont⟩ := h.store.putTtl env map key val ttlMs hok.2
  have hlt := clock_lt_nextStampAt w.store.memberId hok.1
  refine h.wrote (h.follows hs (le_of_lt hlt) hcont ?_) ?_
  · rintro c ⟨⟩
    exact le_refl _
  · rw [hcont, update_self]
    rintro c ⟨⟩
    exact hlt

theorem Inv.putAll {entries : List (StoreEnv × Str × Bytes × Bytes × ℕ)}
    (hok : Trace.Allowed WriteLog.putTtl MayPut w entries) :
    (entries.foldl WriteLog.putTtl w).Inv :=
  (Trace.Reaches.of_allowed entries hok).invariant (fun _ _ hw hput => hw.putTtl hput) h

theorem Inv.putIfAbsent (hok : w.MayPut (env, map, key, val, ttlMs)) :
    (w.exec (env, .putIfAbsent map key val ttlMs)).Inv := by
  obtain ⟨hs, hcont⟩ := h.store.putIfAbsent env map key val ttlMs hok.2
  have hret := h.store.putIfAbsent_reply env map key val ttlMs hok.2
  have hlt := clock_lt_nextStampAt w.store.memberId hok.1
  have hfollows : w.Follows (w.store.putIfAbsent env map key val ttlMs).1 := by
    refine h.follows hs (le_of_lt hlt) hcont fun c hc => ?_
    rcases or_eq_some_iff.1 hc with hc | ⟨-, ⟨⟩⟩
    · exact le_trans (h.seen env.now (map, key) c hc) (le_of_lt hlt)
    · exact le_refl _
  dsimp only [exec]
  split
  · rename_i hnone
    rw [isNone_iff_eq_none, hret, map_eq_none_iff] at hnone
    refine h.wrote hfollows ?_
    rw [hcont, update_self, hnone]
    rintro c ⟨⟩
    exact hlt
  · exact h.settle hfollows

theorem Inv.replace (hfit : key.length + val.length < 2 ^ 32)
    (habsent : (w.store.get env map key).2 = none) :
    (w.exec (env, .replace map key val)).Inv := by
  obtain ⟨-, -, hget⟩ := h.store.get env map key
  obtain ⟨hs, hcont⟩ := h.store.replace env map key val hfit
  have hret := h.store.replace_reply env map key val hfit
  rw [hget, map_eq_none_iff] at habsent
  rw [habsent] at hcont hret
  dsimp only [exec]
  rw [hret]
  exact h.settle (h.follows hs (le_refl _) hcont fun c hc => by cases hc)

theorem Inv.mcUpdate {f : Option Bytes → McAction}
    (hrange : InRange w.store.stampSeq env.wallMs)
    (hfit : ∀ new ttlMs, f (w.store.get env map key).2 = .store new ttlMs →
      key.length + new.length < 2 ^ 32) :
    (w.exec (env, .mcUpdate map key f)).Inv := by
  obtain ⟨-, -, hget⟩ := h.store.get env map key
  rw [hget] at hfit
  obtain ⟨hs, hcont⟩ := h.store.mcUpdate env map key (fun v => (f v, (f v).isStore)) hfit
  have hret := h.store.mcUpdate_reply env map key fun v => (f v, (f v).isStore)
  have hlt := clock_lt_nextStampAt w.store.memberId hrange
  dsimp only [exec]
  rw [hret]
  cases hact : f ((Inner.seen env.now (w.store.contents (map, key))).map Cell.val) with
  | store new ttl =>
    simp only [hact] at hcont
    refine h.wrote (h.follows hs (le_of_lt hlt) hcont ?_) ?_
    · rintro c ⟨⟩
      exact le_refl _
    · rw [hcont, update_self]
      rintro c ⟨⟩
      exact hlt
  | remove =>
    simp only [hact] at hcont
    exact h.settle (h.follows hs (le_of_lt hlt) hcont fun c hc => by cases hc)
  | keep =>
    simp only [hact] at hcont
    exact h.settle (h.follows hs (le_of_lt hlt) hcont fun c hc =>
      le_trans (h.seen env.now (map, key) c hc) (le_of_lt hlt))

theorem Inv.merged_le (latestUpdate : Bool) (deadline : ℕ) :
    (Inner.mergeCell (Inner.seen env.now (w.store.contents (map, key)))
      ⟨val, deadline, stamp⟩ latestUpdate).stamp / 2 ^ 7 ≤
        max (w.store.stampSeq / 2 ^ 7) (stamp / 2 ^ 7) := by
  cases hseen : Inner.seen env.now (w.store.contents (map, key)) with
  | none => exact le_max_right _ _
  | some c =>
    rw [Inner.mergeCell]
    split
    · exact le_max_right _ _
    · exact le_trans (h.seen env.now (map, key) c hseen) (le_max_left _ _)

theorem Inv.putMerge {latestUpdate : Bool} (hstamp : stamp < 2 ^ 64)
    (hfit : key.length + val.length < 2 ^ 32) :
    (w.exec (env, .putMerge map key val ttlMs stamp latestUpdate)).Inv := by
  obtain ⟨hs, hcont⟩ := h.store.putMerge env map key val ttlMs stamp latestUpdate hfit
  obtain ⟨hseq, hext⟩ := clock_le_observeStamp w.store.memberId w.store.stampSeq hstamp
  refine h.received (h.follows hs hseq hcont ?_) hext
  rintro c ⟨⟩
  exact Nat.le_trans (h.merged_le latestUpdate _) (Nat.max_le.2 ⟨hseq, hext⟩)

theorem Inv.applyWan {opIsPut : Bool} (hstamp : stamp < 2 ^ 64)
    (hfit : key.length + val.length < 2 ^ 32) :
    (w.exec (env, .applyWan opIsPut map key val ttlMs stamp)).Inv := by
  obtain ⟨hseq, hext⟩ := clock_le_observeStamp w.store.memberId w.store.stampSeq hstamp
  cases opIsPut with
  | true =>
    obtain ⟨hs, hcont⟩ := h.store.applyWan_put env map key val ttlMs stamp hfit
    refine h.received (h.follows hs hseq hcont ?_) hext
    rintro c ⟨⟩
    exact Nat.le_trans (h.merged_le true _) (Nat.max_le.2 ⟨hseq, hext⟩)
  | false =>
    obtain ⟨hs, hcont⟩ := h.store.applyWan_remove env map key val ttlMs stamp
    exact h.received (h.follows hs hseq hcont fun c hc => by cases hc) hext

theorem Inv.exec {c : StoreEnv × WriteCall} (hok : w.Allows c) : (w.exec c).Inv := by
  obtain ⟨env, call⟩ := c
  cases call with
  | putTtl map key val ttlMs | put map key val => exact h.putTtl hok
  | putAll map entries => exact h.putAll hok
  | putIfAbsent map key val ttlMs => exact h.putIfAbsent hok
  | replace map key val => exact h.replace hok.1 hok.2
  | mcUpdate map key f => exact h.mcUpdate hok.1 hok.2
  | putMerge map key val ttlMs stamp latestUpdate => exact h.putMerge hok.1 hok.2
  | applyWan opIsPut map key val ttlMs stamp => exact h.applyWan hok.1 hok.2

theorem Inv.outranks {e : LocalWrite} (he : e ∈ w.writes) : w.Outranks e := by
  refine ⟨h.writes e he, fun hcell x hx env hlive val ttlMs hfit => ?_⟩
  have hseen : Inner.seen env.now (w.store.contents (e.map, e.key)) = some e.cell := by
    simp [Inner.seen, hcell, hlive]
  have hlt : ¬ e.cell.stamp < x := lt_asymm (h.writes e he x hx)
  have hkept : some (Inner.mergeCell (some e.cell)
      ⟨val, Inner.deadline env.now ttlMs, x⟩ true) = w.store.contents (e.map, e.key) := by
    simp [Inner.mergeCell, hlt, hcell]
  constructor
  · rw [(h.store.putMerge env e.map e.key val ttlMs x true hfit).2, hseen, hkept,
      update_eq_self]
  · rw [(h.store.applyWan_put env e.map e.key val ttlMs x hfit).2, hseen, hkept,
      update_eq_self]

end

end Steps

end WriteLog

/-- In every run in which stamps are drawn in range and no value is replaced where there
is one, every local write outranks what it overwrote and what had been merged. -/
theorem local_write_outranks {s : Store} (hs : s.Inv) (hempty : s.contents = fun _ => none)
    (w : WriteLog) (h : Trace.Reaches WriteLog.exec WriteLog.Allows { store := s } w) :
    ∀ e ∈ w.writes, w.Outranks e := by
  intro e he
  refine WriteLog.Inv.outranks ?_ he
  refine h.invariant (fun _ _ hw hok => hw.exec hok) ⟨hs, fun mk c hc => ?_, ?_, ?_, ?_⟩
  · rw [hempty] at hc
    cases hc
  · exact fun _ x hx => absurd hx not_mem_nil
  · exact fun x hx => absurd hx not_mem_nil
  · exact fun e he => absurd he not_mem_nil

theorem valid_carts : Utf8.valid [99] = true := by decide

def carts : Str := ⟨[99], valid_carts⟩

def atSecond (n : ℕ) : StoreEnv := ⟨⟨0, 0⟩, n * 1000⟩

def skewedWrites : List (StoreEnv × WriteCall) :=
  [(atSecond 1, .put carts [7] [1]),
    (atSecond 1, .putMerge carts [7] [2] 0 (9000 * 2 ^ 23 + 5) true),
    (atSecond 2, .putIfAbsent carts [8] [3] 0),
    (atSecond 2, .put carts [7] [4])]

def logAfter (calls : List (StoreEnv × WriteCall)) : WriteLog :=
  calls.foldl WriteLog.exec { store := withShardsSeed 1 3 }

theorem allowed_skewedWrites :
    Trace.Allowed WriteLog.exec WriteLog.Allows { store := withShardsSeed 1 3 } skewedWrites :=
  ⟨⟨by decide +kernel, by decide +kernel⟩, ⟨by decide +kernel, by decide +kernel⟩,
    ⟨by decide +kernel, by decide +kernel⟩, ⟨by decide +kernel, by decide +kernel⟩, trivial⟩

theorem local_write_outranks_skewed :
    (logAfter skewedWrites).writes.map (·.cell) =
        [⟨[4], 0, (9000 * 2 ^ 16 + 2) * 2 ^ 7 + 3⟩, ⟨[3], 0, (9000 * 2 ^ 16 + 1) * 2 ^ 7 + 3⟩,
          ⟨[1], 0, 1000 * 2 ^ 23 + 3⟩] ∧
      ∀ e ∈ (logAfter skewedWrites).writes, (logAfter skewedWrites).Outranks e :=
  ⟨by decide +kernel, local_write_outranks (inv_withShardsSeed (by decide) 3).1
    (inv_withShardsSeed (by decide) 3).2 _ (.of_allowed skewedWrites allowed_skewedWrites)⟩

def replacing : List (StoreEnv × WriteCall) :=
  [(atSecond 1, .put carts [7] [1]), (atSecond 2, .replace carts [7] [2])]

/-- A replaced value has the stamp of the old one, so a peer that has the old value keeps
it when the new one is merged. -/
theorem replace_does_not_outrank :
    (logAfter replacing).writes.map (fun e => (e.before, e.cell.val, e.cell.stamp)) =
        [([1000 * 2 ^ 23 + 3], [2], 1000 * 2 ^ 23 + 3), ([], [1], 1000 * 2 ^ 23 + 3)] ∧
      (¬ ∀ e ∈ (logAfter replacing).writes, (logAfter replacing).Outranks e) ∧
      ((((withShardsSeed 1 4).putMerge (atSecond 1) carts [7] [1] 0 (1000 * 2 ^ 23 + 3)
        true).putMerge (atSecond 3) carts [7] [2] 0 (1000 * 2 ^ 23 + 3) true).get
          (atSecond 3) carts [7]).2 = some [1] := by
  refine ⟨by decide +kernel, fun h => ?_, by decide +kernel⟩
  have hall : ∀ e ∈ (logAfter replacing).writes, ∀ x ∈ e.before, x < e.cell.stamp :=
    fun e he => (h e he).stamp
  revert hall
  decide +kernel

end BonsaiGrid.Store
