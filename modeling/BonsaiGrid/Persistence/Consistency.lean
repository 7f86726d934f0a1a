import BonsaiGrid.Persistence.Crash

/-!
# Runs of the persistence thread

Every event keeps the invariant as long as stamps, records and snapshots stay within the limits of
their formats, so recovery is consistent in all states of such runs.
-/

namespace BonsaiGrid.Persistence

open Store Traced LittleEndian Directory List Nat Blob

section Runs

variable [Crc32fast]

def Event.WritesSnapshots : Event → Prop
  | .installFails => False
  | _ => True

instance : (e : Event) → Decidable e.WritesSnapshots
  | .installFails => isFalse id
  | .put .. | .remove .. | .push | .append | .fsync | .roll | .collect _ | .install | .delete
  | .crash .. => isTrue trivial

/-- Stamps are drawn in range, and the lengths of records and of the sections of a snapshot fit
their headers. -/
def WithinLimits (t : Traced) : Event → Prop
  | .put env map key val => InRange t.machine.store.stampSeq env.wallMs ∧
      ∀ r ∈ mutation t.machine (.put env map key val), Fits r
  | .remove env map key => InRange t.machine.store.stampSeq env.wallMs ∧
      ∀ r ∈ mutation t.machine (.remove env map key), Fits r
  | .install => ∀ old done entries, t.machine.phase = .collecting old done entries →
      SnapshotFits entries t.machine.store.allAux
  | .crash left shards memberId clock => ∀ records, (t.machine.dir.cut left).records = some records →
      DrawsInRange (withShardsSeed shards memberId) (records.zipIdx.map fun r => (clock r.2, r.1))
  | _ => True

instance (t : Traced) : (e : Event) → Decidable (WithinLimits t e)
  | .put .. | .remove .. => instDecidableAnd
  | .install =>
    match h : t.machine.phase with
    | .collecting _ _ entries =>
      decidable_of_iff (SnapshotFits entries t.machine.store.allAux)
        ⟨fun hfits _ _ _ hp => by cases h.symm.trans hp; exact hfits, fun hall => hall _ _ _ h⟩
    | .draining | .deleting _ => isTrue fun _ _ _ hp => by cases h.symm.trans hp
  | .crash left _ _ _ => Option.decidableForallMem (t.machine.dir.cut left).records
  | .push | .append | .fsync | .roll | .collect _ | .installFails | .delete => isTrue trivial

theorem exec_of_silent {t : Traced} {e : Event} (h : mutation t.machine e = []) :
    t.exec e = { t.exec e with history := t.history } := by
  have hhist : (t.exec e).history = t.history := by
    change t.history ++ mutation t.machine e = t.history
    rw [h, append_nil]
  exact congrArg (fun history => { t.exec e with history := history }) hhist

namespace Sound

variable {t : Traced} {g : Ghost}

theorem put (h : Sound t g) {env : StoreEnv} {map : Str} {key val : Bytes}
    (hok : WithinLimits t (.put env map key val)) : ∃ g', Sound (t.exec (.put env map key val)) g' := by
  obtain ⟨hrange, hfits⟩ := hok
  have hfit := hfits _ (mem_singleton_self _)
  have hlen : key.length + val.length < 2 ^ 32 := by
    have hpayload := hfit.1
    simp only [payload, length_append, encode_length, length_put] at hpayload
    omega
  obtain ⟨hinv, hcont⟩ := h.store.putTtl env map key val 0 hlen
  have hnext := clock_lt_nextStampAt t.machine.store.memberId hrange
  refine h.mutate hinv hcont rfl ⟨hfit, rfl, hlen⟩ rfl (length_set ..) (le_of_lt hnext)
    fun stamp hstamp => ?_
  cases hstamp
  exact ⟨hnext, le_refl _⟩

theorem remove (h : Sound t g) {env : StoreEnv} {map : Str} {key : Bytes}
    (hok : WithinLimits t (.remove env map key)) : ∃ g', Sound (t.exec (.remove env map key)) g' := by
  obtain ⟨hrange, hfits⟩ := hok
  have hfit := hfits _ (mem_singleton_self _)
  obtain ⟨hinv, hcont⟩ := h.store.remove env map key
  have hnext := clock_lt_nextStampAt t.machine.store.memberId hrange
  exact h.mutate hinv hcont rfl ⟨hfit, trivial⟩ rfl (length_set ..) (le_of_lt hnext)
    fun stamp hstamp => absurd hstamp (by simp [putStamp])

theorem step (h : Sound t g) {threshold : ℕ} {e : Event} (hen : t.machine.Enabled threshold e)
    (hwrites : e.WritesSnapshots) (hok : WithinLimits t e) : ∃ g', Sound (t.exec e) g' := by
  cases e with
  | put env map key val => exact h.put hok
  | remove env map key => exact h.remove hok
  | push =>
    rw [exec_of_silent rfl]
    exact ⟨g, h.push⟩
  | append => exact h.append hen.1 hen.2
  | fsync =>
    rw [exec_of_silent rfl]
    exact h.fsync false hen.1
  | roll =>
    obtain ⟨g', h'⟩ := h.fsync t.machine.dirty hen.1
    rw [exec_of_silent rfl]
    exact h'.roll fun i hle hi => .inr ⟨hle, hi⟩
  | collect now =>
    obtain ⟨old, done, entries, hphase, hdone⟩ := hen
    rw [exec_of_silent rfl]
    change ∃ g', Sound { t with machine := t.machine.exec (.collect now) } g'
    rw [Machine.exec_collect hphase]
    exact ⟨g, h.collect hphase hdone⟩
  | install =>
    obtain ⟨old, entries, hphase⟩ := hen
    rw [exec_of_silent rfl]
    change ∃ g', Sound { t with machine := t.machine.exec .install } g'
    rw [Machine.exec_install hphase]
    exact h.install hphase (hok old _ entries hphase)
  | installFails => exact hwrites.elim
  | delete =>
    obtain ⟨todo, hphase⟩ := hen
    rw [exec_of_silent rfl]
    change ∃ g', Sound { t with machine := t.machine.exec .delete } g'
    cases todo with
    | nil =>
      rw [Machine.exec_delete_nil hphase]
      exact ⟨g, h.drain⟩
    | cons f todo =>
      rw [Machine.exec_delete_cons hphase]
      exact ⟨g, h.delete hphase⟩
  | crash left shards memberId clock => exact h.crash left hen.1 memberId clock hok

theorem start {shards : ℕ} (hshards : 0 < shards) (memberId : ℕ) :
    Sound (start shards memberId) ⟨[opened 1], fun _ => none, fun _ => none, ∅⟩ := by
  obtain ⟨hinv, hempty⟩ := inv_withShardsSeed hshards memberId
  have hbase : DirOk {} [] [] (fun _ => none) ∅ :=
    { kept := rfl
      file := fun p hp => absurd hp (by simp)
      rising := List.Pairwise.nil
      loaded := ⟨[], rfl, fun r hr => absurd hr (by simp), fun mk => rfl⟩
      fits := fun r hr => absurd hr (by simp)
      rise := fun i hi => False.elim hi
      lt_length := fun i hi => False.elim hi
      known_segments := fun p hp => absurd hp (by simp)
      known_tag := fun mk i hi => absurd hi (by simp) }
  obtain ⟨hdir, hlast, -, -⟩ := hbase.openWal (n := 1) (fun f hf => absurd hf not_mem_nil)
    (zero_le 1)
  refine
    { dir := hdir
      current := ⟨[], {}, [], rfl, hlast, rfl, fun p hp => absurd hp (by simp)⟩
      gen := zero_le 1
      store := hinv.congr rfl
      lasting := fun mk cell hcell => ?_
      sink := rfl
      started_le := le_refl _
      appended_le := le_refl _
      pending_lt := fun hp => absurd hp (by simp [Traced.start, Machine.start])
      below := fun p hp i hi => ?_
      survives := fun i hi => False.elim hi
      recent := fun i _ hi => absurd hi (not_lt_zero i)
      live := fun mk => congrFun hempty mk
      fresh := fun mk i _ hi => absurd hi (not_lt_zero i)
      clock := fun i hi => False.elim hi
      known_live := fun mk i hi => by cases hi
      known_recent := fun i _ hi => absurd hi (not_lt_zero i)
      collecting := fun old done entries hp => by cases hp
      deleting := fun todo hp => by cases hp }
  · have hnone : (withShardsSeed shards memberId).contents mk = some cell := hcell
    rw [hempty] at hnone
    cases hnone
  · rw [mem_singleton.1 hp] at hi
    cases hi

theorem consistent (h : Sound t g) : t.Consistent := by
  intro left shards memberId clock hshards
  obtain ⟨s, records, hrec, -, -, hinv, hlasting, -, -, live, hlive⟩ :=
    (h.dir.cut left).recover hshards memberId clock
  refine ⟨s, hrec, fun env map key => ?_⟩
  obtain ⟨htag, hcovers, -, hstay⟩ := hlive (map, key)
  obtain ⟨p, hp, hcovered, hval⟩ := htag.valueAfter
  refine ⟨p, hp, fun i hi r hr hkey => hcovered i ?_, ?_⟩
  · obtain ⟨-, rfl⟩ := nth_of_getElem? hr
    exact (h.dir.survives_cut left (h.survives i hi).2).covers hkey hcovers hstay
  · rw [(hinv.get env map key).2.2, hlasting.seen]
    exact hval

end Sound

theorem Traced.Run.sound {threshold shards memberId : ℕ} (hshards : 0 < shards) {t : Traced}
    (h : Traced.Run threshold shards memberId (fun t e => e.WritesSnapshots ∧ WithinLimits t e) t) :
    ∃ g, Sound t g :=
  Trace.Reaches.invariant (I := fun t => ∃ g, Sound t g) h
    (fun _ _ ⟨_, hs⟩ hok => hs.step hok.1 hok.2.1 hok.2.2) ⟨_, Sound.start hshards memberId⟩

/-- In every run whose events stay within the limits, over any number of crashes, recovery is
consistent in every state. -/
theorem recovery_consistent {threshold shards memberId : ℕ} (hshards : 0 < shards) {t : Traced}
    (h : Traced.Run threshold shards memberId (fun t e => e.WritesSnapshots ∧ WithinLimits t e) t) :
    t.Consistent :=
  have ⟨_, hsound⟩ := h.sound hshards
  hsound.consistent

end Runs

/-- The second put is applied between the roll and the collection, so that the snapshot has it
before its record is appended; the crash loses the record. After the restart a segment is rolled
again, and the process stops while the old one is still there. -/
def restartEvents : List Event :=
  [.put ⟨⟨5, 0⟩, 1000⟩ orders [1] [10], .push, .append, .roll,
    .put ⟨⟨6, 0⟩, 1001⟩ orders [2] [20], .push, .collect 7, .install, .delete, .delete, .append,
    .crash (fun _ => 0) 1 3 (fun _ => ⟨⟨0, 0⟩, 2000⟩),
    .remove ⟨⟨8, 0⟩, 2001⟩ orders [1], .push, .append, .fsync, .roll, .collect 9, .install]

theorem recovery_consistent_restart :
    (restartEvents.foldl exec (start 1 3)).Consistent := by
  have hallowed : Trace.Allowed exec
      (fun t e => t.machine.Enabled 10 e ∧ e.WritesSnapshots ∧ WithinLimits t e) (start 1 3)
      restartEvents := by
    decide +kernel
  exact recovery_consistent (by decide) (.of_allowed restartEvents hallowed)

/-! ## A snapshot that is too large -/

theorem loadSections_ones (fuel : ℕ) {more : Bytes} (h : 2 ^ 32 - 1 ≤ more.length) :
    loadSections (fuel + 1) (replicate 6 0xFF ++ more) =
      loadSections fuel (more.drop (2 ^ 32 - 1)) := by
  have hlen : ((replicate 6 (0xFF : UInt8) ++ more).drop 2).take 4 =
    [0xFF, 0xFF, 0xFF, 0xFF] := rfl
  have hrest : (replicate 6 (0xFF : UInt8) ++ more).drop 6 = more := rfl
  rw [loadSections, hlen, hrest,
    show decode [0xFF, 0xFF, 0xFF, 0xFF] = 2 ^ 32 - 1 from rfl]
  rw [if_neg (not_lt.2 h)]
  rfl

theorem loadSections_of_short {data : Bytes} (h : data.length < 6) (fuel : ℕ) :
    loadSections fuel data = [] := by
  cases fuel with
  | zero => rfl
  | succ fuel => rw [loadSections, if_pos h]

section Large

variable {n : ℕ} {a b : StampedEntry}

theorem loadSnapshot_large (hn : n = 2 ^ 31) (ha : a.2.2.1 = replicate n 0xFF)
    (hb : b.2.2.1.length = n) (hmapa : a.1.bytes.length = 1) (hmapb : b.1.bytes.length = 1)
    (hkeya : a.2.1.length = 1) (hkeyb : b.2.1.length = 1) :
    loadSnapshot (snapshotBytes [a, b] []) = some [] := by
  obtain ⟨fuel, heq⟩ := loadSnapshot_eq [a, b] []
  obtain ⟨tail, htaileq⟩ : ∃ tail, tail = encode 8 a.2.2.2 ++ putEntry b := ⟨_, rfl⟩
  have htail : tail.length = n + 30 := by
    simp only [htaileq, length_append, encode_length, length_putEntry]
    omega
  obtain ⟨head, hheadeq⟩ : ∃ head, head = encode 4 2 ++ (put a.1.bytes ++
    (put a.2.1 ++ encode 4 n)) := ⟨_, rfl⟩
  have hhead : head.length = 18 := by
    simp only [hheadeq, length_append, encode_length, length_put]
    omega
  have hbody : counted putEntry [a, b] = head ++ (replicate n 0xFF ++ tail) := by
    have hput : put (replicate n (0xFF : UInt8)) =
        encode 4 n ++ replicate n 0xFF := by
      rw [Blob.put, length_replicate]
    simp only [counted, map_cons, map_nil, flatten_cons, flatten_nil,
      append_nil, putEntry, ha, hput, hheadeq, htaileq, append_assoc]
    rfl
  have hlen : (counted putEntry [a, b]).length % 2 ^ 32 = 48 := by
    rw [hbody, length_append, length_append, length_replicate]
    omega
  have htake : (head ++ (replicate n (0xFF : UInt8) ++ tail)).take 48 =
      head ++ replicate 30 0xFF := by
    rw [take_append, take_of_length_le (by omega), hhead,
      take_append_of_le_length (by rw [length_replicate]; omega), take_replicate,
      min_eq_left (by omega)]
  have hdrop : (head ++ (replicate n (0xFF : UInt8) ++ tail)).drop 48 =
      replicate 6 0xFF ++ (replicate (n - 36) 0xFF ++ tail) := by
    rw [drop_append, drop_of_length_le (by omega), hhead, nil_append,
      drop_append_of_le_length (by rw [length_replicate]; omega), drop_replicate,
      show n - (48 - 18) = 6 + (n - 36) by omega, ← replicate_append_replicate,
      append_assoc]
  have hnone : loadSection SECTION_MAP_ENTRIES (head ++ replicate 30 0xFF) = [] := by
    have hshort : ¬ (head ++ replicate 30 (0xFF : UInt8)).length < 4 := by
      rw [length_append]
      omega
    rw [loadSection, if_pos rfl, loadMapEntries, loadCounted, if_neg hshort]
    simp only [hheadeq, append_assoc]
    rw [decode_take_encode (by decide), drop_encode, takeEntries,
      get_put (by omega)]
    dsimp only
    rw [get_put (by omega)]
    dsimp only
    rw [get_of_short (by omega) (by rw [length_replicate]; omega)]
  have haux : (putSection SECTION_AUX (counted putAux [])).length = 10 := rfl
  have hmore : (replicate (n - 36) (0xFF : UInt8) ++
      (tail ++ putSection SECTION_AUX (counted putAux []))).length = 2 ^ 32 + 4 := by
    rw [length_append, length_append, length_replicate]
    omega
  rw [heq, loadSections_putSection_mod (by decide), hlen, hbody, htake, hdrop, hnone, nil_append,
    append_assoc, append_assoc, loadSections_ones _ (by rw [hmore]; omega),
    loadSections_of_short (by rw [length_drop]; omega)]

def snapshotEvents (now : ℕ) : List Event := [.collect now, .install, .delete, .delete]

/-- A snapshot of a store with one shard: the events can happen, and afterwards the directory has
the snapshot and an empty segment. -/
theorem snapshot_events {m : Machine} {f : WalFile} {threshold now : ℕ}
    (hphase : m.phase = .collecting 1 0 []) (hgen : m.generation = 2)
    (hshards : m.store.shards.length = 1) (haux : m.store.allAux = [])
    (hwals : m.dir.wals.files = [(1, f), (2, {})]) (hsnapshots : m.dir.snapshots = .empty) :
    Trace.Allowed Machine.exec (fun m e => m.Enabled threshold e ∧ e.WritesSnapshots) m
      (snapshotEvents now) ∧
      let dir := ((snapshotEvents now).foldl Machine.exec m).dir
      dir.wals.files = [(2, {})] ∧ dir.snapshots.files =
        [(2, snapshotBytes ((m.store.shards.getD 0 .new).collectAllStamped now) [])] := by
  let entries := (m.store.shards.getD 0 .new).collectAllStamped now
  let dir := m.dir.install 2 (snapshotBytes entries [])
  have hcollect : m.exec (.collect now) = { m with phase := .collecting 1 1 entries } :=
    Machine.exec_collect hphase
  have hinstall : Machine.exec { m with phase := .collecting 1 1 entries } .install =
      { m with dir := dir, phase := .deleting [.wal 1] } := by
    rw [Machine.exec_install rfl]
    have hsuper : superseded dir 1 2 = [.wal 1] := by
      rw [superseded, removeWal, Numbered.retain]
      dsimp only [dir, install]
      rw [hwals, hsnapshots]
      rfl
    rw [haux, hgen, hsuper]
  have hfoldl : (snapshotEvents now).foldl Machine.exec m =
      { m with dir := dir.removeWal 1, phase := .draining, dirty := false } := by
    rw [snapshotEvents, foldl_cons, hcollect, foldl_cons, hinstall]
    rfl
  refine ⟨⟨⟨⟨1, 0, [], hphase, by omega⟩, trivial⟩, ?_⟩, ?_⟩
  · rw [hcollect]
    refine ⟨⟨⟨1, entries, by rw [hshards]⟩, trivial⟩, ?_⟩
    rw [hinstall]
    exact ⟨⟨⟨[.wal 1], rfl⟩, trivial⟩, ⟨⟨[], rfl⟩, trivial⟩, trivial⟩
  · rw [hfoldl]
    constructor
    · dsimp only [dir, removeWal, install, Numbered.retain]
      rw [hwals]
      rfl
    · dsimp only [dir, removeWal, install]
      rw [hsnapshots]
      rfl

def largePuts (n : ℕ) : List Event :=
  [.put ⟨⟨5, 0⟩, 1000⟩ orders [1] (replicate n 0xFF), .push,
    .put ⟨⟨5, 0⟩, 1001⟩ orders [2] (replicate n 0xFF), .push, .append, .append, .roll]

def large (n : ℕ) : Traced := (largePuts n).foldl exec (start 1 3)

theorem large_phase (n : ℕ) : (large n).machine.phase = .collecting 1 0 [] := rfl

theorem large_gen (n : ℕ) : (large n).machine.generation = 2 := rfl

theorem large_noSnapshot (n : ℕ) : (large n).machine.dir.snapshots = .empty := rfl

theorem large_files (n : ℕ) : ∃ f, (large n).machine.dir.wals.files = [(1, f), (2, {})] := ⟨_, rfl⟩

theorem large_shards (n : ℕ) : (large n).machine.store.shards.length = 1 :=
  (length_set ..).trans (length_set ..)

theorem large_snapshot (n : ℕ) :
    Trace.Allowed Machine.exec (fun m e => m.Enabled 1 e ∧ e.WritesSnapshots) (large n).machine
      (snapshotEvents 5) ∧
      let dir := ((snapshotEvents 5).foldl exec (large n)).machine.dir
      dir.wals.files = [(2, {})] ∧ dir.snapshots.files =
        [(2, snapshotBytes (((large n).machine.store.shards.getD 0 .new).collectAllStamped 5) [])] := by
  obtain ⟨f, hf⟩ := large_files n
  rw [foldl_exec_machine]
  have haux : (large n).machine.store.allAux = [] := by rw [Store.allAux]; rfl
  exact snapshot_events (large_phase n) (large_gen n) (large_shards n) haux hf (large_noSnapshot n)

theorem large_allowed (n : ℕ) : Trace.Allowed exec
    (fun t e => t.machine.Enabled 1 e ∧ e.WritesSnapshots) (start 1 3) (largePuts n) := by
  refine ⟨⟨rfl, trivial⟩, ⟨rfl, trivial⟩, ⟨rfl, trivial⟩, ⟨rfl, trivial⟩,
    ⟨⟨rfl, cons_ne_nil _ _⟩, trivial⟩, ⟨⟨rfl, cons_ne_nil _ _⟩, trivial⟩,
    ⟨⟨rfl, ?_⟩, trivial⟩, trivial⟩
  change 1 ≤ ([] ++ encodeRecord _ ++ encodeRecord _ : Bytes).length
  rw [length_append, encodeRecord, encodeRecord, Checked.length_frame]
  omega

def largeEntry (n : ℕ) (key : Bytes) (stamp : ℕ) : StampedEntry :=
  (orders, key, replicate n 0xFF, stamp)

theorem large_contents {n : ℕ} (hn : n = 2 ^ 31) :
    (large n).machine.store.Inv ∧ (large n).machine.store.contents =
      Function.update (Function.update (fun _ => none) (orders, [1])
        (some ⟨replicate n 0xFF, 0, nextStampAt 3 0 1000⟩)) (orders, [2])
          (some ⟨replicate n 0xFF, 0, nextStampAt 3 (nextStampAt 3 0 1000) 1001⟩) := by
  have hfit : 1 + (replicate n (0xFF : UInt8)).length < 2 ^ 32 := by
    rw [length_replicate]
    omega
  have hstart := Logged.start (n := 1) Nat.one_pos 3
  obtain ⟨hinv₁, hcont₁⟩ := hstart.inv.putTtl ⟨⟨5, 0⟩, 1000⟩ orders [1] _ 0 hfit
  obtain ⟨hinv₂, hcont₂⟩ := hinv₁.putTtl ⟨⟨5, 0⟩, 1001⟩ orders [2] _ 0 hfit
  refine ⟨hinv₂.congr rfl, (contents_congr rfl).trans (hcont₂.trans ?_)⟩
  rw [hcont₁, hstart.contents]
  rfl

theorem large_collected {n : ℕ} (hn : n = 2 ^ 31) : ∃ a b,
    ((large n).machine.store.shards.getD 0 .new).collectAllStamped 5 = [a, b] ∧
    ∀ e ∈ [a, b], e.1 = orders ∧ e.2.1.length = 1 ∧ e.2.2.1 = replicate n 0xFF := by
  obtain ⟨hinv, hcont⟩ := large_contents hn
  have hlen : (large n).machine.store.shards.length = 1 := large_shards n
  generalize (large n).machine.store = s at hinv hcont hlen ⊢
  have hshard : ∀ map key, s.shard map key = s.shards.getD 0 .new := fun map key => by
    rw [Store.shard, hlen, shardOf, mod_one]
  obtain ⟨hinner, hplain⟩ := hinv.shard orders [1]
  rw [hshard] at hinner hplain
  have hcell : ∀ mk, (s.shards.getD 0 .new).contents mk = s.contents mk := fun mk => by
    rw [Store.contents, hshard]
  have hlast : Lasting s.contents := hcont ▸ ((Lasting.update (c := fun _ => none)
    (fun mk cell hc => by cases hc) _ fun cell hc => by cases hc; rfl).update _
      fun cell hc => by cases hc; rfl)
  let first := largeEntry n [1] (nextStampAt 3 0 1000)
  let second := largeEntry n [2] (nextStampAt 3 (nextStampAt 3 0 1000) 1001)
  have hmem : ∀ e, e ∈ (s.shards.getD 0 .new).collectAllStamped 5 ↔ e ∈ [first, second] := by
    rintro ⟨map, key, val, stamp⟩
    rw [hinner.mem_collectAllStamped hplain, hcell, hlast.seen, hcont]
    by_cases h₂ : (map, key) = (orders, [2])
    · cases h₂
      simp [first, second, largeEntry, eq_comm]
    · rw [Function.update_of_ne h₂]
      by_cases h₁ : (map, key) = (orders, [1])
      · cases h₁
        simp [first, second, largeEntry, eq_comm]
      · rw [Function.update_of_ne h₁]
        simp only [Prod.mk.injEq, not_and] at h₁ h₂
        simp [first, second, largeEntry]
        tauto
  have hne : [first, second].Nodup := by
    refine nodup_cons.2 ⟨fun h => ?_, nodup_singleton _⟩
    have hkey : ([1] : Bytes) = [2] :=
      congrArg (fun e : StampedEntry => e.2.1) (mem_singleton.1 h)
    exact absurd hkey (by decide)
  have hperm := (perm_ext_iff_of_nodup (List.Nodup.of_map _ (hinner.nodup_collectAllStamped 5))
    hne).2 hmem
  obtain ⟨a, b, hab⟩ := length_eq_two.1 hperm.length_eq
  refine ⟨a, b, hab, fun e he => ?_⟩
  rw [← hab, hmem, mem_pair] at he
  rcases he with rfl | rfl
  · exact ⟨rfl, rfl, rfl⟩
  · exact ⟨rfl, rfl, rfl⟩

theorem records_of_snapshot {d : Directory} {k : ℕ} {bytes : Bytes} (left : ℕ → ℕ)
    (hwals : d.wals.files = [(k, {})]) (hsnapshots : d.snapshots.files = [(k, bytes)]) :
    (d.cut left).records = loadSnapshot bytes := by
  have hlast : (d.cut left).snapshots.last? = some (k, bytes) := by
    rw [Numbered.last?, show (d.cut left).snapshots = d.snapshots from rfl, hsnapshots]
    rfl
  have hread : ∀ f ∈ (d.cut left).wals.files, readSegment f.2.bytes = [] := by
    intro f hf
    rw [cut] at hf
    dsimp only at hf
    rw [hwals] at hf
    rw [mem_singleton.1 hf]
    dsimp only
    rw [take_nil]
    rfl
  have hwal : ∀ gen, (d.cut left).walRecords gen = [] := fun gen =>
    flatMap_eq_nil_iff.2 fun f hf => hread f (mem_of_mem_filter hf)
  rw [records, hwal, hlast]
  exact (Option.map_congr fun l _ => append_nil l).trans Option.map_id'

theorem large_inconsistent {n : ℕ} (hn : n = 2 ^ 31) :
    ¬ ((snapshotEvents 5).foldl exec (large n)).Consistent := by
  intro h
  obtain ⟨-, hwals, hsnapshots⟩ := large_snapshot n
  obtain ⟨a, b, hentries, hab⟩ := large_collected hn
  obtain ⟨hmapa, hkeya, hvala⟩ := hab a (by simp)
  obtain ⟨hmapb, hkeyb, hvalb⟩ := hab b (by simp)
  have hload := loadSnapshot_large (a := a) (b := b) hn hvala (by rw [hvalb, length_replicate])
    (by rw [hmapa]; rfl) (by rw [hmapb]; rfl) hkeya hkeyb
  obtain ⟨s, hs, hget⟩ := h (fun _ => 0) 1 3 (fun _ => ⟨⟨0, 0⟩, 0⟩) Nat.one_pos
  rw [recover, records_of_snapshot _ hwals hsnapshots, hentries, hload] at hs
  obtain rfl : withShardsSeed 1 3 = s := Option.some.inj hs
  obtain ⟨p, hp, hsynced, hval⟩ := hget ⟨⟨0, 0⟩, 0⟩ orders [1]
  obtain ⟨hinv, hempty⟩ := inv_withShardsSeed (n := 1) Nat.one_pos 3
  have hpos : 0 < p := hsynced 0 (.inr ⟨le_refl 0, succ_pos 1⟩) _ rfl rfl
  have hle : p ≤ 2 := hp
  obtain rfl | rfl : p = 1 ∨ p = 2 := by omega
  · cases hval
  · cases hval

/-- The values of two synced puts are lost. -/
theorem recovery_loses_large :
    let t := (largePuts (2 ^ 31) ++ snapshotEvents 5).foldl exec (start 1 3)
    Traced.Run 1 1 3 (fun _ e => e.WritesSnapshots) t ∧ ¬ t.Consistent := by
  rw [foldl_append]
  have hputs := Trace.Reaches.of_allowed _ (large_allowed (2 ^ 31))
  have hsnapshot := Trace.Reaches.of_allowed _ (allowed_traced (large_snapshot (2 ^ 31)).1)
  exact ⟨hputs.trans hsnapshot, large_inconsistent rfl⟩

end Large

end BonsaiGrid.Persistence
