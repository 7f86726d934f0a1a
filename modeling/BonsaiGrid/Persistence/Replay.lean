import BonsaiGrid.Store.Contents

/-!
# Replaying the records of the map mutators

Recovery merges the puts of the log by their stamps and applies its removes as they come. On
stores without expiry this acts on the contents alone, whatever the clocks of the process that
recovers.
-/

namespace BonsaiGrid.Persistence

open Store Function Option Inner Nat List

variable (s : Store)

def applyRecord (env : StoreEnv) : WalRecord → Store
  | .mapPut stamp ttlMs map key value => s.putMerge env map key value ttlMs stamp true
  | .mapRemove _ map key => (s.remove env map key).1
  | .auxState kind name state => s.installAux kind name state

def replay (records : List (StoreEnv × WalRecord)) : Store :=
  records.foldl (fun s r => applyRecord s r.1 r.2) s

/-! ## Replay on the contents -/

def Lasting (c : Contents) : Prop := ∀ mk cell, c mk = some cell → cell.expireAt = 0

/-- The record has no time to live, and its lengths fit the record of an entry. -/
def WalRecord.Plain : WalRecord → Prop
  | .mapPut _ ttlMs _ key value => ttlMs = 0 ∧ key.length + value.length < 2 ^ 32
  | .mapRemove .. => True
  | .auxState .. => True

def replayCell (c : Contents) : WalRecord → Contents
  | .mapPut stamp _ map key value =>
    update c (map, key) (some (Inner.mergeCell (c (map, key)) ⟨value, 0, stamp⟩ true))
  | .mapRemove _ map key => update c (map, key) none
  | .auxState .. => c

variable {mk : Str × Bytes}

section Contents

variable {c : Contents} {s : Store}

theorem Lasting.seen (h : Lasting c) (now : ℕ) (mk : Str × Bytes) : Inner.seen now (c mk) = c mk := by
  cases hc : c mk with
  | none => rfl
  | some cell =>
    rw [Inner.seen, filter_some, Cell.live, h mk cell hc]
    rfl

theorem Lasting.update (h : Lasting c) (mk : Str × Bytes) {o : Option Cell}
    (ho : ∀ cell, o = some cell → cell.expireAt = 0) : Lasting (update c mk o) := by
  intro mk' cell hcell
  by_cases hmk : mk' = mk
  · rw [hmk, update_self] at hcell
    exact ho cell hcell
  · rw [update_of_ne hmk] at hcell
    exact h mk' cell hcell

theorem mergeCell_eq_or (o : Option Cell) (new : Cell) (latest : Bool) :
    Inner.mergeCell o new latest = new ∨ o = some (Inner.mergeCell o new latest) := by
  cases o with
  | none => exact .inl rfl
  | some cell =>
    rw [mergeCell]
    split
    next => exact .inl rfl
    next => exact .inr rfl

theorem Lasting.mergeCell (h : Lasting c) {new cell : Cell} {latest : Bool}
    (hnew : new.expireAt = 0) (hcell : some (Inner.mergeCell (c mk) new latest) = some cell) :
    cell.expireAt = 0 := by
  rw [← some.inj hcell]
  rcases mergeCell_eq_or (c mk) new latest with heq | hold
  · rw [heq, hnew]
  · exact h mk _ hold

theorem Lasting.replayCell (h : Lasting c) (r : WalRecord) : Lasting (replayCell c r) := by
  cases r with
  | mapPut stamp ttlMs map key value => exact h.update _ fun cell hcell => h.mergeCell rfl hcell
  | mapRemove stamp map key => exact h.update _ fun cell hcell => absurd hcell (by simp)
  | auxState kind name state => exact h

theorem clock_le_update {seq seq' : ℕ}
    (h : ∀ mk cell, c mk = some cell → cell.stamp / 2 ^ 7 ≤ seq / 2 ^ 7)
    {o : Option Cell} (hseq : seq / 2 ^ 7 ≤ seq' / 2 ^ 7)
    (ho : ∀ cell, o = some cell → cell.stamp / 2 ^ 7 ≤ seq' / 2 ^ 7) :
    ∀ mk' cell, update c mk o mk' = some cell → cell.stamp / 2 ^ 7 ≤ seq' / 2 ^ 7 := by
  intro mk' cell hcell
  by_cases hmk : mk' = mk
  · rw [hmk, update_self] at hcell
    exact ho cell hcell
  · rw [update_of_ne hmk] at hcell
    exact le_trans (h mk' cell hcell) hseq

theorem applyRecord_contents (h : s.Inv) (hlast : Lasting s.contents) (env : StoreEnv)
    {r : WalRecord} (hr : WalRecord.Plain r) :
    (applyRecord s env r).Inv ∧ (applyRecord s env r).contents = replayCell s.contents r := by
  cases r with
  | mapPut stamp ttlMs map key value =>
    obtain ⟨rfl, hfit⟩ := hr
    obtain ⟨hinv, hcont⟩ := h.putMerge env map key value 0 stamp true hfit
    rw [hlast.seen] at hcont
    exact ⟨hinv, hcont⟩
  | mapRemove stamp map key => exact h.remove env map key
  | auxState kind name state => exact ⟨h.congr rfl, contents_congr rfl⟩

theorem replay_contents (h : s.Inv) (hlast : Lasting s.contents)
    {records : List (StoreEnv × WalRecord)} (hr : ∀ r ∈ records, WalRecord.Plain r.2) :
    (replay s records).Inv ∧ Lasting (replay s records).contents ∧
      (replay s records).contents = (records.map Prod.snd).foldl replayCell s.contents := by
  induction records generalizing s with
  | nil => exact ⟨h, hlast, rfl⟩
  | cons r records ih =>
    obtain ⟨hinv, hcont⟩ := applyRecord_contents h hlast r.1 (hr r mem_cons_self)
    have hlast' : Lasting (applyRecord s r.1 r.2).contents := hcont ▸ hlast.replayCell r.2
    obtain ⟨hinv', hlast'', hcont'⟩ := ih hinv hlast' fun x hx => hr x (mem_cons_of_mem r hx)
    refine ⟨hinv', hlast'', hcont'.trans ?_⟩
    rw [hcont]
    rfl

end Contents

/-! ## Runs of the map mutators -/

inductive MapCall where
  | put (map : Str) (key val : Bytes)
  | putTtl (map : Str) (key val : Bytes) (ttlMs : ℕ)
  | putAll (map : Str) (entries : List (StoreEnv × Bytes × Bytes))
  | remove (map : Str) (key : Bytes)
  | putIfAbsent (map : Str) (key val : Bytes) (ttlMs : ℕ)
  | replace (map : Str) (key val : Bytes)
  | clear (map : Str)
  | mcUpdate (map : Str) (key : Bytes) (f : Option Bytes → McAction)
  | putMerge (map : Str) (key val : Bytes) (ttlMs stamp : ℕ) (latestUpdate : Bool)
  | applyWan (opIsPut : Bool) (map : Str) (key value : Bytes) (ttlMs stamp : ℕ)

def execMap : StoreEnv × MapCall → Store
  | (env, .put map key val) => (s.put env map key val).1
  | (env, .putTtl map key val ttlMs) => (s.putTtl env map key val ttlMs).1
  | (_, .putAll map entries) => s.putAll map entries
  | (env, .remove map key) => (s.remove env map key).1
  | (env, .putIfAbsent map key val ttlMs) => (s.putIfAbsent env map key val ttlMs).1
  | (env, .replace map key val) => (s.replace env map key val).1
  | (_, .clear map) => s.clear map
  | (env, .mcUpdate map key f) => (s.mcUpdate env map key fun cur => (f cur, ())).1
  | (env, .putMerge map key val ttlMs stamp latestUpdate) =>
    s.putMerge env map key val ttlMs stamp latestUpdate
  | (env, .applyWan opIsPut map key value ttlMs stamp) =>
    s.applyWan env opIsPut map key value ttlMs stamp

/-- Nothing is given a time to live, and stamps are 64 bits wide. -/
def MapCall.NoTtl : MapCall → Prop
  | .putTtl _ _ _ ttlMs => ttlMs = 0
  | .putIfAbsent _ _ _ ttlMs => ttlMs = 0
  | .mcUpdate _ _ f => ∀ cur new ttlMs, f cur = .store new ttlMs → ttlMs = 0
  | .putMerge _ _ _ ttlMs stamp _ => ttlMs = 0 ∧ stamp < 2 ^ 64
  | .applyWan _ _ _ _ ttlMs stamp => ttlMs = 0 ∧ stamp < 2 ^ 64
  | _ => True

/-- A put with a stamp in range, of a key and a value that fit the record of an entry. -/
def PutOk (env : StoreEnv) (key val : Bytes) : Prop :=
  InRange s.stampSeq env.wallMs ∧ key.length + val.length < 2 ^ 32

def PutAllOk (map : Str) : Store → List (StoreEnv × Bytes × Bytes) → Prop
  | _, [] => True
  | s, e :: entries =>
    PutOk s e.1 e.2.1 e.2.2 ∧ PutAllOk map (s.put e.1 map e.2.1 e.2.2).1 entries

/-- The call emits what it does: stamps are drawn in range and lengths fit; a mutator
that emits nothing has nothing to do; and a merge that keeps any entry there is does
not meet one with a lower stamp. -/
def Emits : StoreEnv × MapCall → Prop
  | (env, .put _ key val) => PutOk s env key val
  | (env, .putTtl _ key val _) => PutOk s env key val
  | (_, .putAll map entries) => PutAllOk map s entries
  | (env, .remove _ _) => InRange s.stampSeq env.wallMs
  | (env, .putIfAbsent map key val _) =>
    PutOk s env key val ∧ (s.get env map key).2 ≠ none
  | (env, .replace map key val) =>
    key.length + val.length < 2 ^ 32 ∧ (s.get env map key).2 = none
  | (_, .clear map) => ∀ env key, (s.get env map key).2 = none
  | (env, .mcUpdate map key f) =>
    InRange s.stampSeq env.wallMs ∧ (∀ new ttlMs, f (s.get env map key).2 ≠ .store new ttlMs) ∧
      (f (s.get env map key).2 = .remove → (s.get env map key).2 = none)
  | (_, .putMerge map key val _ stamp latestUpdate) =>
    key.length + val.length < 2 ^ 32 ∧
      (latestUpdate = true ∨ ∀ cell, s.contents (map, key) = some cell → stamp ≤ cell.stamp)
  | (_, .applyWan opIsPut _ key value _ _) =>
    opIsPut = true → key.length + value.length < 2 ^ 32

def startMap (n memberId : ℕ) : Store := (withShardsSeed n memberId).setWalSink

/-- The stores of the runs on a new store with a log whose calls all meet `ok`. -/
def MapRun (n memberId : ℕ) (ok : Store → StoreEnv × MapCall → Prop) : Store → Prop :=
  Trace.Reaches execMap (fun s c => c.2.NoTtl ∧ ok s c) (startMap n memberId)

/-- The records of the log give the contents of the store, and its clock is past every
stamp in it. -/
structure Logged (s : Store) (records : List WalRecord) : Prop where
  inv : s.Inv
  sink : s.walSink = some records
  plain : ∀ r ∈ records, WalRecord.Plain r
  contents : s.contents = records.foldl replayCell fun _ => none
  lasting : Lasting s.contents
  clock : ∀ mk cell, s.contents mk = some cell → cell.stamp / 2 ^ 7 ≤ s.stampSeq / 2 ^ 7

namespace Logged

variable {s t : Store} {records : List WalRecord} {env : StoreEnv} {map : Str} {key val : Bytes}

section

variable (h : Logged s records)

include h

theorem get_eq (env : StoreEnv) (map : Str) (key : Bytes) :
    (s.get env map key).2 = (s.contents (map, key)).map Cell.val := by
  rw [(h.inv.get env map key).2.2, h.lasting.seen]

theorem get_eq_none :
    (s.get env map key).2 = none ↔ s.contents (map, key) = none := by
  rw [h.get_eq, map_eq_none_iff]

theorem emitted {r : WalRecord} (hinv : t.Inv)
    (hsink : t.walSink = s.walSink.map (· ++ [r])) (hr : WalRecord.Plain r)
    (hcont : t.contents = replayCell s.contents r)
    (hclock : ∀ mk cell, t.contents mk = some cell → cell.stamp / 2 ^ 7 ≤ t.stampSeq / 2 ^ 7) :
    Logged t (records ++ [r]) where
  inv := hinv
  sink := by rw [hsink, h.sink]; rfl
  plain := forall_mem_concat h.plain hr
  contents := by rw [hcont, h.contents, foldl_append]; rfl
  lasting := hcont ▸ h.lasting.replayCell r
  clock := hclock

theorem unchanged (hinv : t.Inv) (hsink : t.walSink = s.walSink)
    (hcont : t.contents = s.contents) (hclock : s.stampSeq / 2 ^ 7 ≤ t.stampSeq / 2 ^ 7) :
    Logged t records where
  inv := hinv
  sink := hsink.trans h.sink
  plain := h.plain
  contents := hcont.trans h.contents
  lasting := hcont ▸ h.lasting
  clock := fun mk cell hcell => le_trans (h.clock mk cell (hcont ▸ hcell)) hclock

theorem clock_update {o : Option Cell} {seq : ℕ}
    (hseq : s.stampSeq / 2 ^ 7 ≤ seq / 2 ^ 7)
    (ho : ∀ cell, o = some cell → cell.stamp / 2 ^ 7 ≤ seq / 2 ^ 7) :
    ∀ mk' cell, update s.contents mk o mk' = some cell →
      cell.stamp / 2 ^ 7 ≤ seq / 2 ^ 7 :=
  clock_le_update h.clock hseq ho

theorem putTtl (hok : PutOk s env key val) :
    ∃ records', Logged (s.putTtl env map key val 0).1 records' := by
  obtain ⟨hinv, hcont⟩ := h.inv.putTtl env map key val 0 hok.2
  have hnext := clock_lt_nextStampAt s.memberId hok.1
  -- the new stamp is above the one of the cell, so the merge of the replay takes it
  have hmerge : mergeCell (s.contents (map, key))
      ⟨val, 0, nextStampAt s.memberId s.stampSeq env.wallMs⟩ true =
        ⟨val, 0, nextStampAt s.memberId s.stampSeq env.wallMs⟩ := by
    cases hcell : s.contents (map, key) with
    | none => rfl
    | some cell =>
      have hle := h.clock _ cell hcell
      rw [mergeCell, if_pos ⟨rfl, by dsimp only; omega⟩]
  refine ⟨_, h.emitted (r := .mapPut (nextStampAt s.memberId s.stampSeq env.wallMs) 0 map key val)
    hinv rfl ⟨rfl, hok.2⟩ ?_ ?_⟩
  · rw [hcont, replayCell, hmerge]
    rfl
  · rw [hcont]
    refine h.clock_update (le_of_lt hnext) fun cell hcell => ?_
    rw [← some.inj hcell]
    exact le_refl _

theorem putAll {entries : List (StoreEnv × Bytes × Bytes)}
    (hok : PutAllOk map s entries) : ∃ records', Logged (s.putAll map entries) records' := by
  induction entries generalizing s records with
  | nil => exact ⟨records, h⟩
  | cons e entries ih =>
    obtain ⟨records', h'⟩ : ∃ records', Logged (s.put e.1 map e.2.1 e.2.2).1 records' :=
      h.putTtl hok.1
    exact ih h' hok.2

theorem remove (hrange : InRange s.stampSeq env.wallMs) :
    ∃ records', Logged (s.remove env map key).1 records' := by
  obtain ⟨hinv, hcont⟩ := h.inv.remove env map key
  refine ⟨_, h.emitted (r := .mapRemove (nextStampAt s.memberId s.stampSeq env.wallMs) map key) hinv
    rfl trivial hcont ?_⟩
  rw [hcont]
  exact h.clock_update (le_of_lt (clock_lt_nextStampAt s.memberId hrange))
    fun cell hcell => absurd hcell (by simp)

theorem merged {stamp : ℕ} {latest : Bool} (hstamp : stamp < 2 ^ 64)
    (hlatest : latest = true ∨ ∀ cell, s.contents (map, key) = some cell → stamp ≤ cell.stamp)
    (hfit : key.length + val.length < 2 ^ 32) (hinv : t.Inv)
    (hsink : t.walSink = s.walSink.map (· ++ [.mapPut stamp 0 map key val]))
    (hseq : t.stampSeq = observeStamp s.memberId s.stampSeq stamp)
    (hcont : t.contents = update s.contents (map, key)
      (some (Inner.mergeCell (s.contents (map, key)) ⟨val, 0, stamp⟩ latest))) :
    ∃ records', Logged t records' := by
  obtain ⟨hle, hstamp'⟩ := clock_le_observeStamp s.memberId s.stampSeq hstamp
  have hmerge : mergeCell (s.contents (map, key)) ⟨val, 0, stamp⟩ latest =
      mergeCell (s.contents (map, key)) ⟨val, 0, stamp⟩ true := by
    rcases hlatest with rfl | hlow
    · rfl
    · cases hcell : s.contents (map, key) with
      | none => rfl
      | some cell =>
        have hnot : ¬ cell.stamp < stamp := not_lt.2 (hlow cell hcell)
        rw [mergeCell, mergeCell, if_neg fun hlt => hnot hlt.2,
          if_neg fun hlt => hnot hlt.2]
  refine ⟨_, h.emitted hinv hsink ⟨rfl, hfit⟩ (by rw [hcont, hmerge]; rfl) ?_⟩
  rw [hcont, hseq]
  refine h.clock_update hle fun cell hcell => ?_
  rw [← some.inj hcell]
  rcases mergeCell_eq_or (s.contents (map, key)) ⟨val, 0, stamp⟩ latest with heq | hold
  · rw [heq]
    exact hstamp'
  · exact le_trans (h.clock _ _ hold) hle

theorem applyWan_remove (val : Bytes) {stamp : ℕ} (hstamp : stamp < 2 ^ 64) :
    ∃ records', Logged (s.applyWan env false map key val 0 stamp) records' := by
  obtain ⟨hinv, hcont⟩ := h.inv.applyWan_remove env map key val 0 stamp
  refine ⟨_, h.emitted (r := .mapRemove stamp map key) hinv rfl trivial hcont ?_⟩
  rw [hcont]
  exact h.clock_update (clock_le_observeStamp s.memberId s.stampSeq hstamp).1
    fun cell hcell => absurd hcell (by simp)

theorem step {c : StoreEnv × MapCall} (httl : c.2.NoTtl) (hok : Emits s c) :
    ∃ records', Logged (execMap s c) records' := by
  obtain ⟨env, c⟩ := c
  cases c with
  | put map key val => exact h.putTtl hok
  | putTtl map key val ttlMs =>
    obtain rfl : ttlMs = 0 := httl
    exact h.putTtl hok
  | putAll map entries => exact h.putAll hok
  | remove map key => exact h.remove hok
  | putIfAbsent map key val ttlMs =>
    obtain ⟨⟨hrange, hfit⟩, hthere⟩ := hok
    obtain ⟨hinv, hcont⟩ := h.inv.putIfAbsent env map key val ttlMs hfit
    obtain ⟨cell, hcell⟩ := ne_none_iff_exists'.1 fun hnone =>
      hthere (h.get_eq_none.2 hnone)
    have hclock := le_of_lt (clock_lt_nextStampAt s.memberId hrange)
    refine ⟨records, h.unchanged hinv rfl ?_ hclock⟩
    rw [h.lasting.seen, hcell, some_or, ← hcell, update_eq_self] at hcont
    exact hcont
  | replace map key val =>
    obtain ⟨hfit, habs⟩ := hok
    obtain ⟨hinv, hcont⟩ := h.inv.replace env map key val hfit
    have hnone := h.get_eq_none.1 habs
    refine ⟨records, h.unchanged hinv rfl ?_ (le_refl _)⟩
    rw [h.lasting.seen, hnone, map_none, ← hnone, update_eq_self] at hcont
    exact hcont
  | clear map =>
    obtain ⟨hinv, hcont⟩ := h.inv.clear map
    refine ⟨records, h.unchanged hinv rfl ?_ (le_refl _)⟩
    refine hcont.trans (funext fun mk => ?_)
    split
    next hmk =>
      have hnone : s.contents (map, mk.2) = none := h.get_eq_none.1 (hok env mk.2)
      rw [← hmk] at hnone
      exact hnone.symm
    next => rfl
  | mcUpdate map key f =>
    obtain ⟨hrange, hstore, hremove⟩ := hok
    have hclock := le_of_lt (clock_lt_nextStampAt s.memberId hrange)
    rw [h.get_eq, ← h.lasting.seen env.now] at hstore hremove
    obtain ⟨hinv, hcont⟩ := h.inv.mcUpdate env map key (fun cur => (f cur, ()))
      fun new ttl heq => absurd heq (hstore new ttl)
    refine ⟨records, h.unchanged hinv rfl (hcont.trans ?_) hclock⟩
    cases hact : f ((seen env.now (s.contents (map, key))).map Cell.val) with
    | store new ttl => exact absurd hact (hstore new ttl)
    | remove =>
      have hnone := map_eq_none_iff.1 (hremove hact)
      rw [← hnone, h.lasting.seen, update_eq_self]
    | keep =>
      rw [h.lasting.seen, update_eq_self]
  | putMerge map key val ttlMs stamp latestUpdate =>
    obtain ⟨rfl, hstamp⟩ := httl
    obtain ⟨hinv, hcont⟩ := h.inv.putMerge env map key val 0 stamp latestUpdate hok.1
    rw [h.lasting.seen] at hcont
    exact h.merged hstamp hok.2 hok.1 hinv rfl rfl hcont
  | applyWan opIsPut map key value ttlMs stamp =>
    obtain ⟨rfl, hstamp⟩ := httl
    cases opIsPut with
    | true =>
      obtain ⟨hinv, hcont⟩ := h.inv.applyWan_put env map key value 0 stamp (hok rfl)
      rw [h.lasting.seen] at hcont
      exact h.merged hstamp (.inl rfl) (hok rfl) hinv rfl rfl hcont
    | false => exact h.applyWan_remove value hstamp

end

theorem start {n : ℕ} (hn : 0 < n) (memberId : ℕ) : Logged (startMap n memberId) [] := by
  obtain ⟨hinv, hempty⟩ := inv_withShardsSeed hn memberId
  have hcont : (startMap n memberId).contents = fun _ => none :=
    (contents_congr (s := withShardsSeed n memberId) rfl).trans hempty
  refine ⟨hinv.congr rfl, rfl, fun r hr => absurd hr (by simp), hcont, ?_, ?_⟩
  all_goals
    rw [hcont]
    exact fun mk cell hcell => absurd hcell (by simp)

end Logged

theorem MapRun.logged {n memberId : ℕ} (hn : 0 < n) {s : Store} (h : MapRun n memberId Emits s) :
    ∃ records, Logged s records :=
  Trace.Reaches.invariant (I := fun s => ∃ records, Logged s records) h
    (fun _ _ ⟨_, hs⟩ hok => hs.step hok.1 hok.2) ⟨[], .start hn memberId⟩

/-- In every run of map mutators that emit what they do, the records of the log, applied
to a new store at any times, show the values that the store shows. -/
theorem replay_shows_store {n memberId : ℕ} (hn : 0 < n) {s : Store}
    (h : MapRun n memberId Emits s) :
    ∃ emitted, s.walSink = some emitted ∧
      ∀ m, 0 < m → ∀ memberId' (records : List (StoreEnv × WalRecord)),
        records.map Prod.snd = emitted → ∀ env env' map key,
          ((replay (withShardsSeed m memberId') records).get env map key).2 =
            (s.get env' map key).2 := by
  obtain ⟨emitted, hs⟩ := h.logged hn
  refine ⟨emitted, hs.sink, fun m hm memberId' records hrecords env env' map key => ?_⟩
  obtain ⟨hinv, hempty⟩ := inv_withShardsSeed hm memberId'
  have hplain : ∀ r ∈ records, WalRecord.Plain r.2 := fun r hr =>
    hs.plain r.2 (hrecords ▸ mem_map_of_mem hr)
  have hlast : Lasting (withShardsSeed m memberId').contents := by
    rw [hempty]
    exact fun mk cell hcell => absurd hcell (by simp)
  obtain ⟨hinv', hlast', hcont⟩ := replay_contents hinv hlast hplain
  rw [(hinv'.get env map key).2.2, hlast'.seen, hs.get_eq, hcont, hs.contents, hrecords, hempty]

section Runs

def orders : Str := ⟨[111], by decide⟩

def emittingCalls : List (StoreEnv × MapCall) :=
  [(⟨⟨5, 0⟩, 1000⟩, .put orders [1] [10]),
    (⟨⟨6, 0⟩, 1001⟩, .putMerge orders [2] [20] 0 (1002 * 2 ^ 23 + 5) false),
    (⟨⟨7, 0⟩, 1002⟩, .remove orders [2])]

theorem replay_shows_emitting :
    ∃ emitted, (emittingCalls.foldl execMap (startMap 1 3)).walSink = some emitted ∧
      emitted.length = 3 ∧ ∀ records : List (StoreEnv × WalRecord),
        records.map Prod.snd = emitted → ∀ env env' map key,
          ((replay (withShardsSeed 2 0) records).get env map key).2 =
            ((emittingCalls.foldl execMap (startMap 1 3)).get env' map key).2 := by
  have hallowed : Trace.Allowed execMap (fun s c => c.2.NoTtl ∧ Emits s c) (startMap 1 3)
      emittingCalls := by
    refine ⟨⟨trivial, by decide, by decide⟩, ⟨⟨rfl, by decide⟩, by decide, .inr fun cell hcell => ?_⟩,
      ⟨trivial, show InRange _ _ by decide⟩, trivial⟩
    obtain ⟨hinv, hcont⟩ := (Logged.start (n := 1) (by decide) 3).inv.putTtl ⟨⟨5, 0⟩, 1000⟩ orders [1]
      [10] 0 (by decide)
    have hcell' : (execMap (startMap 1 3) (⟨⟨5, 0⟩, 1000⟩, .put orders [1] [10])).contents
        (orders, [2]) = none := by
      refine (congrFun hcont (orders, [2])).trans ?_
      rfl
    rw [hcell'] at hcell
    cases hcell
  obtain ⟨emitted, hsink, hall⟩ := replay_shows_store (by decide) (.of_allowed emittingCalls hallowed)
  have hlength : (emittingCalls.foldl execMap (startMap 1 3)).walSink.map length = some 3 := rfl
  rw [hsink] at hlength
  exact ⟨emitted, hsink, some.inj hlength, hall 2 (by decide) 0⟩

def silentCalls : List (StoreEnv × MapCall) :=
  [(⟨⟨5, 0⟩, 1000⟩, .putIfAbsent orders [1] [10] 0)]

/-- The value that is put is not in the log. -/
theorem replay_misses_silent :
    let s := silentCalls.foldl execMap (startMap 1 3)
    MapRun 1 3 (fun _ _ => True) s ∧ s.walSink = some [] ∧
      ∀ env, (s.get env orders [1]).2 = some [10] ∧
        ((replay (withShardsSeed 1 3) []).get env orders [1]).2 = none := by
  refine ⟨.of_allowed silentCalls ⟨⟨rfl, trivial⟩, trivial⟩, rfl, fun env => ?_⟩
  have hstart := Logged.start (n := 1) (by decide) 3
  obtain ⟨hinv, hcont⟩ := hstart.inv.putIfAbsent ⟨⟨5, 0⟩, 1000⟩ orders [1] [10] 0 (by decide)
  obtain ⟨hnew, hempty⟩ := inv_withShardsSeed (n := 1) (by decide) 3
  have hcell := congrFun hcont (orders, [1])
  constructor
  · refine (hinv.get env orders [1]).2.2.trans ?_
    rw [hcell]
    rfl
  · refine (hnew.get env orders [1]).2.2.trans ?_
    rfl

end Runs

end BonsaiGrid.Persistence
