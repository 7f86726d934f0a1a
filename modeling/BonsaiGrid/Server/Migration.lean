import BonsaiGrid.Persistence.Journal
import BonsaiGrid.Serialization.Partition

/-!
# Entries that move

An entry with a time to live is moved when its member starts again, from the snapshot or from a
record of the log, and when its partition migrates to another member.
-/

namespace BonsaiGrid.Server

open Store Persistence Function List Option Nat Inner

def partitionCount : Int32 := 271

def migChunk : ℕ := 256

def chunks {α : Type} (n : ℕ) : List α → List (List α)
  | [] => []
  | x :: xs => (x :: xs.take (n - 1)) :: chunks n (xs.drop (n - 1))
termination_by l => l.length

theorem flatten_chunks {α : Type} (n : ℕ) (l : List α) : (chunks n l).flatten = l := by
  fun_induction chunks n l with
  | case1 => rfl
  | case2 x xs ih => rw [flatten_cons, ih, cons_append, take_append_drop]

def version (e : StampedEntry) : Str × Bytes × ℕ := (e.1, e.2.1, e.2.2.2)

/-- A store with its directory; `moved` says when a version of a key was last put in place. -/
structure Member where
  store : Store
  dir : Directory
  generation : ℕ
  mergeLatest : Bool
  moved : Str × Bytes × ℕ → ℕ := fun _ => 0

structure Cluster where
  members : List Member
  network : List (ℕ × List StampedEntry) := []

/-- What happens; the processes read their clocks at every entry that they put. -/
inductive ClusterEvent where
  | putTtl (i : ℕ) (env : StoreEnv) (map : Str) (key val : Bytes) (ttlMs : ℕ)
  | remove (i : ℕ) (env : StoreEnv) (map : Str) (key : Bytes)
  /-- the member writes a snapshot and drops what it supersedes -/
  | snapshot (i now : ℕ)
  /-- the member starts again; recovery is done at `finish` -/
  | recover (i shards memberId : ℕ) (clock : ℕ → StoreEnv) (finish : ℕ)
  /-- the member sends the entries of a partition -/
  | stream (i dest : ℕ) (partition : Int32) (now : ℕ)
  /-- a chunk arrives; its entries are merged at `finish` -/
  | deliver (n : ℕ) (clock : ℕ → StoreEnv) (finish : ℕ)

namespace Member

def new (shards memberId : ℕ) (mergeLatest : Bool) : Member where
  store := (withShardsSeed shards memberId).setWalSink
  dir := ({} : Directory).openWal 1
  generation := 1
  mergeLatest

variable (m : Member)

def stampAt (env : StoreEnv) : ℕ :=
  nextStampAt m.store.memberId m.store.stampSeq env.wallMs

variable [Crc32fast]

def logged (m : Member) : Member :=
  { m with
    store := { m.store with walSink := some [] }
    dir := (m.store.walSink.getD []).foldl
      (fun d r => d.append m.generation (encodeRecord r)) m.dir }

def putTtl (m : Member) (env : StoreEnv) (map : Str) (key val : Bytes) (ttlMs : ℕ) : Member :=
  logged
    { m with
      store := (m.store.putTtl env map key val ttlMs).1
      moved := update m.moved (map, key, m.stampAt env) env.now }

def remove (m : Member) (env : StoreEnv) (map : Str) (key : Bytes) : Member :=
  logged { m with store := (m.store.remove env map key).1 }

def snapshot (now : ℕ) : Member :=
  { m with
    dir := truncate m.dir m.generation
      (snapshotBytes (m.store.allEntriesStamped now) m.store.allAux)
    generation := m.generation + 1 }

def restart (s : Store) (finish : ℕ) : Member :=
  { m with
    store := s.setWalSink
    dir := m.dir.openWal (m.dir.latestGeneration + 1)
    generation := m.dir.latestGeneration + 1
    moved := fun _ => finish }

def recover (m : Member) (shards memberId : ℕ) (clock : ℕ → StoreEnv) (finish : ℕ) : Member :=
  (m.dir.recover (withShardsSeed shards memberId) clock).elim m fun s => m.restart s finish

def outbox (partition : Int32) (now : ℕ) : List (List StampedEntry) :=
  chunks migChunk ((m.store.allEntriesStamped now).filter fun e =>
    Serialization.partitionId e.2.1 partitionCount == partition)

def merge (m : Member) (entries : List StampedEntry) (clock : ℕ → StoreEnv) (finish : ℕ) :
    Member :=
  logged
    { m with
      store := entries.zipIdx.foldl (fun s e =>
        s.putMerge (clock e.2) e.1.1 e.1.2.1 e.1.2.2.1 0 e.1.2.2.2 m.mergeLatest) m.store
      moved := fun v => if v ∈ entries.map version then finish else m.moved v }

end Member

variable (map : Str) (key : Bytes)

namespace Cluster

def start (config : List (ℕ × ℕ × Bool)) : Cluster where
  members := config.map fun c => .new c.1 c.2.1 c.2.2

variable [Crc32fast] (c : Cluster)

def atMember (i : ℕ) (f : Member → Member) : Cluster :=
  { c with members := c.members.modify i f }

def exec : ClusterEvent → Cluster
  | .putTtl i env map key val ttlMs => c.atMember i fun m => m.putTtl env map key val ttlMs
  | .remove i env map key => c.atMember i fun m => m.remove env map key
  | .snapshot i now => c.atMember i fun m => m.snapshot now
  | .recover i shards memberId clock finish =>
    c.atMember i fun m => m.recover shards memberId clock finish
  | .stream i dest partition now =>
    { c with network := c.network ++
        ((c.members[i]?.elim [] fun m => m.outbox partition now).map fun es => (dest, es)) }
  | .deliver n clock finish =>
    match c.network[n]? with
    | none => c
    | some msg =>
      { c.atMember msg.1 (fun m => m.merge msg.2 clock finish) with
        network := c.network.eraseIdx n }

/-- The lengths of records fit their headers; clocks do not run past the end of a step. -/
def Sized : ClusterEvent → Prop
  | .putTtl _ _ map key val ttlMs => Fits (.mapPut 0 ttlMs map key val)
  | .remove _ _ map key => Fits (.mapRemove 0 map key)
  | .snapshot .. => True
  | .recover i shards _ clock finish => 0 < shards ∧ (∀ n, (clock n).now ≤ finish) ∧
      ∀ m, c.members[i]? = some m → ∀ s, m.dir.snapshots.last? = some s →
        ∀ loaded, loadSnapshot s.2 = some loaded → ∀ r ∈ loaded, Fits r
  | .stream .. => True
  | .deliver n _ _ => ∀ msg, c.network[n]? = some msg → ∀ e ∈ msg.2, Fits (entryRecord e)

/-- The states of the runs of new members whose events are in order. -/
def Run (config : List (ℕ × ℕ × Bool)) : Cluster → Prop :=
  Trace.Reaches exec Sized (start config)

/-- Wherever a member has the version, it expires, at the latest when its time to live is over
since it was put in place. -/
def Expires (map : Str) (key : Bytes) (stamp ttlMs : ℕ) : Prop :=
  ∀ m ∈ c.members, ∀ cell, m.store.contents (map, key) = some cell → cell.stamp = stamp →
    ∀ now, m.moved (map, key, stamp) + ttlMs ≤ now → cell.live now = false

def Puts (stamp : ℕ) : WalRecord → Prop
  | .mapPut stamp' _ map' key' _ => (map', key', stamp') = (map, key, stamp)
  | _ => False

def Fresh (map : Str) (key : Bytes) (stamp : ℕ) : Prop :=
  (∀ m ∈ c.members,
    (∀ cell, m.store.contents (map, key) = some cell → cell.stamp ≠ stamp) ∧
      ∀ f ∈ m.dir.wals.files, ∀ r ∈ readSegment f.2.bytes, ¬ Puts map key stamp r) ∧
    ∀ msg ∈ c.network, ∀ e ∈ msg.2, version e ≠ (map, key, stamp)

/-- The key is not overwritten; the version is in no snapshot that is loaded, and where its
partition migrates it has expired; and times do not overflow. -/
def Keeps (stamp ttlMs : ℕ) (c : Cluster) : ClusterEvent → Prop
  | .putTtl _ _ map' key' _ _ => (map', key') ≠ (map, key)
  | .recover i _ _ _ finish => finish + ttlMs < 2 ^ 64 ∧
      ∀ m, c.members[i]? = some m → ∀ s, m.dir.snapshots.last? = some s →
        ∀ loaded, loadSnapshot s.2 = some loaded → ∀ r ∈ loaded, ¬ Puts map key stamp r
  | .stream i _ partition now => Serialization.partitionId key partitionCount = partition →
      ∀ m, c.members[i]? = some m → ∀ cell, m.store.contents (map, key) = some cell →
        cell.stamp = stamp → cell.live now = false
  | _ => True

end Cluster

/-! ## Logs -/

variable {r : WalRecord}

section Logs

variable [Crc32fast] {P : WalRecord → Prop} {d : Directory}

/-- The segments of the directory are made of records that satisfy `P`. -/
def Logs (P : WalRecord → Prop) (d : Directory) : Prop :=
  ∀ f ∈ d.wals.files, ∃ records, f.2.bytes = segment records ∧ ∀ r ∈ records, Fits r ∧ P r

namespace Logs

section

variable (h : Logs P d) (n : ℕ)

include h n

theorem append (hr : Fits r ∧ P r) :
    Logs P (d.append n (encodeRecord r)) := by
  intro f hf
  obtain ⟨x, hx, hfile⟩ := Numbered.mem_modify hf
  obtain ⟨records, hbytes, hrecords⟩ := h _ hx
  rw [hfile]
  split
  next =>
    refine ⟨records ++ [r], ?_, forall_mem_concat hrecords hr⟩
    rw [segment_append, ← hbytes]
    exact congrArg (x.bytes ++ ·) (append_nil _).symm
  next => exact ⟨records, hbytes, hrecords⟩

theorem appends {records : List WalRecord}
    (hrecords : ∀ r ∈ records, Fits r ∧ P r) :
    Logs P (records.foldl (fun d r => d.append n (encodeRecord r)) d) := by
  induction records generalizing d with
  | nil => exact h
  | cons r records ih =>
    exact ih (h.append n (hrecords r mem_cons_self)) fun x hx =>
      hrecords x (mem_cons_of_mem r hx)

theorem openWal : Logs P (d.openWal n) := by
  rw [Directory.openWal]
  split
  next => exact h
  next =>
    intro f hf
    rcases mem_append.1 hf with hf | hf
    · exact h f (mem_of_mem_filter hf)
    · rcases mem_cons.1 hf with rfl | hf
      · exact ⟨[], rfl, fun r hr => absurd hr not_mem_nil⟩
      · exact h f (mem_of_mem_filter hf)

theorem fsync : Logs P (d.fsync n) := by
  intro f hf
  obtain ⟨x, hx, hfile⟩ := Numbered.mem_modify hf
  obtain ⟨records, hbytes, hrecords⟩ := h _ hx
  refine ⟨records, ?_, hrecords⟩
  rw [hfile]
  split <;> exact hbytes

theorem truncate (bytes : Bytes) : Logs P (truncate d n bytes) := by
  intro f hf
  rw [Persistence.truncate, (files_foldl_removeFile _ _).1] at hf
  exact (h.fsync n).openWal (n + 1) f (mem_of_mem_filter hf)

end

theorem readSegment (h : Logs P d) {f : ℕ × WalFile} (hf : f ∈ d.wals.files) :
    f.2.bytes = segment (Persistence.readSegment f.2.bytes) ∧
      ∀ r ∈ Persistence.readSegment f.2.bytes, Fits r ∧ P r := by
  obtain ⟨records, hbytes, hrecords⟩ := h f hf
  have hread := readSegment_segment (fun r hr => (hrecords r hr).1) tornTail_nil
  rw [append_nil, ← hbytes] at hread
  rw [hread]
  exact ⟨hbytes, hrecords⟩

theorem mem_walRecords (h : Logs P d) {n : ℕ} (hr : r ∈ d.walRecords n) :
    Fits r ∧ P r := by
  obtain ⟨f, hf, hr⟩ := mem_flatMap.1 hr
  exact (h.readSegment (mem_of_mem_filter hf)).2 r hr

end Logs

structure Member.Ok (P : WalRecord → Prop) (m : Member) : Prop where
  inv : m.store.Inv
  sink : m.store.walSink = some []
  logs : Logs P m.dir

end Logs

/-! ## Cells -/

variable {entries : List StampedEntry} {env : StoreEnv}

section Cells

variable {s : Store} {mk : Str × Bytes} {cell : Cell}

theorem fits_lengths {stamp ttlMs : ℕ} {map : Str} {key val : Bytes}
    (h : Fits (.mapPut stamp ttlMs map key val)) : key.length + val.length < 2 ^ 32 := by
  have hlen := h.1
  simp only [payload, length_append, Blob.length_put] at hlen
  omega

theorem contents_putMerge (h : s.Inv) {map : Str} {key val : Bytes}
    {ttlMs stamp : ℕ} {latest : Bool} (hfit : Fits (.mapPut stamp ttlMs map key val))
    (hcell : (s.putMerge env map key val ttlMs stamp latest).contents mk = some cell) :
    s.contents mk = some cell ∨
      mk = (map, key) ∧ cell = ⟨val, Inner.deadline env.now ttlMs, stamp⟩ := by
  rw [(h.putMerge env map key val ttlMs stamp latest (fits_lengths hfit)).2] at hcell
  by_cases hmk : mk = (map, key)
  · subst hmk
    rw [update_self] at hcell
    rcases mergeCell_eq_or (seen env.now (s.contents (map, key)))
      ⟨val, deadline env.now ttlMs, stamp⟩ latest with heq | hold
    · rw [heq] at hcell
      exact .inr ⟨rfl, (some.inj hcell).symm⟩
    · rw [hcell] at hold
      exact .inl (contents_of_seen hold)
  · rw [update_of_ne hmk] at hcell
    exact .inl hcell

theorem foldl_putMerge (h : s.Inv) {sink : List WalRecord} (hsink : s.walSink = some sink)
    {entries : List (StampedEntry × ℕ)} (hfits : ∀ e ∈ entries, Fits (entryRecord e.1))
    (clock : ℕ → StoreEnv) (latest : Bool) :
    let t := entries.foldl (fun s e =>
      s.putMerge (clock e.2) e.1.1 e.1.2.1 e.1.2.2.1 0 e.1.2.2.2 latest) s
    t.Inv ∧ t.walSink = some (sink ++ entries.map fun e => entryRecord e.1) ∧
      ∀ mk cell, t.contents mk = some cell → s.contents mk = some cell ∨
        ∃ e ∈ entries, version e.1 = (mk.1, mk.2, cell.stamp) := by
  induction entries generalizing s sink with
  | nil => exact ⟨h, by rw [map_nil, append_nil]; exact hsink, fun _ _ => .inl⟩
  | cons e entries ih =>
    have hfit := hfits e mem_cons_self
    have hsink' : (s.putMerge (clock e.2) e.1.1 e.1.2.1 e.1.2.2.1 0 e.1.2.2.2 latest).walSink =
        some (sink ++ [entryRecord e.1]) := by
      change Option.map (· ++ [entryRecord e.1]) s.walSink = _
      rw [hsink]
      rfl
    have hinv' := (h.putMerge (clock e.2) e.1.1 e.1.2.1 e.1.2.2.1 0 e.1.2.2.2 latest
      (fits_lengths hfit)).1
    obtain ⟨hinv, hemitted, hcells⟩ := ih hinv' hsink' fun x hx =>
      hfits x (mem_cons_of_mem e hx)
    refine ⟨hinv, ?_, fun mk cell hcell => ?_⟩
    · rw [append_assoc] at hemitted
      exact hemitted
    · rcases hcells mk cell hcell with hold | ⟨x, hx, hversion⟩
      · rcases contents_putMerge h hfit hold with hold | ⟨rfl, rfl⟩
        · exact .inl hold
        · exact .inr ⟨e, mem_cons_self, rfl⟩
      · exact .inr ⟨x, mem_cons_of_mem e hx, hversion⟩

theorem contents_remove (h : s.Inv) {map : Str} {key : Bytes}
    (hcell : (s.remove env map key).1.contents mk = some cell) : s.contents mk = some cell := by
  rw [(h.remove env map key).2] at hcell
  by_cases hmk : mk = (map, key)
  · rw [hmk, update_self] at hcell
    cases hcell
  · rwa [update_of_ne hmk] at hcell

theorem contents_replay (h : s.Inv) {records : List (StoreEnv × WalRecord)}
    (hfits : ∀ r ∈ records, Fits r.2) :
    (replay s records).Inv ∧ ∀ mk cell, (replay s records).contents mk = some cell →
      s.contents mk = some cell ∨ ∃ r ∈ records, ∃ ttlMs,
        r.2 = .mapPut cell.stamp ttlMs mk.1 mk.2 cell.val ∧
          cell.expireAt = Inner.deadline r.1.now ttlMs := by
  induction records generalizing s with
  | nil => exact ⟨h, fun mk cell hcell => .inl hcell⟩
  | cons r records ih =>
    have hstep : (applyRecord s r.1 r.2).Inv ∧
        ∀ mk cell, (applyRecord s r.1 r.2).contents mk = some cell → s.contents mk = some cell ∨
          ∃ ttlMs, r.2 = .mapPut cell.stamp ttlMs mk.1 mk.2 cell.val ∧
            cell.expireAt = deadline r.1.now ttlMs := by
      have hfit := hfits r mem_cons_self
      obtain ⟨env, r⟩ := r
      cases r with
      | mapPut stamp ttlMs map key val =>
        refine ⟨(h.putMerge env map key val ttlMs stamp true (fits_lengths hfit)).1,
          fun mk cell hcell => ?_⟩
        rcases contents_putMerge h hfit hcell with hold | ⟨rfl, rfl⟩
        · exact .inl hold
        · exact .inr ⟨ttlMs, rfl, rfl⟩
      | mapRemove stamp map key =>
        exact ⟨(h.remove env map key).1, fun mk cell hcell => .inl (contents_remove h hcell)⟩
      | auxState kind name state =>
        exact ⟨h.congr rfl, fun mk cell hcell => .inl (contents_congr rfl ▸ hcell)⟩
    obtain ⟨hinv, hcells⟩ := ih hstep.1 fun x hx => hfits x (mem_cons_of_mem r hx)
    refine ⟨hinv, fun mk cell hcell => ?_⟩
    rcases hcells mk cell hcell with hold | ⟨x, hx, hput⟩
    · rcases hstep.2 mk cell hold with hold | hput
      · exact .inl hold
      · exact .inr ⟨r, mem_cons_self, hput⟩
    · exact .inr ⟨x, mem_cons_of_mem r hx, hput⟩

theorem deadline_eq {now ttlMs : ℕ} (hpos : 0 < ttlMs) (h : now + ttlMs < 2 ^ 64) :
    Inner.deadline now ttlMs = now + ttlMs := by
  rw [deadline, if_pos hpos, mod_eq_of_lt h]

theorem fits_mapPut {ttlMs stamp : ℕ} {map : Str} {key val : Bytes}
    (h : Fits (.mapPut 0 ttlMs map key val)) (hstamp : stamp < 2 ^ 64) :
    Fits (.mapPut stamp ttlMs map key val) := by
  obtain ⟨hlen, -, httl⟩ := h
  refine ⟨?_, hstamp, httl⟩
  simpa only [payload, length_append, LittleEndian.encode_length] using hlen

theorem fits_mapRemove {stamp : ℕ} {map : Str} {key : Bytes} (h : Fits (.mapRemove 0 map key))
    (hstamp : stamp < 2 ^ 64) : Fits (.mapRemove stamp map key) := by
  refine ⟨?_, hstamp⟩
  simpa only [payload, length_append, LittleEndian.encode_length] using h.1

theorem Member.mem_outbox {m : Member} (hinv : m.store.Inv) {partition : Int32} {now : ℕ}
    (hentries : entries ∈ m.outbox partition now) {e : StampedEntry}
    (he : e ∈ entries) : Serialization.partitionId e.2.1 partitionCount = partition ∧
      ∃ cell, m.store.contents (e.1, e.2.1) = some cell ∧ cell.stamp = e.2.2.2 ∧
        cell.live now = true := by
  have hmem : e ∈ (m.outbox partition now).flatten := mem_flatten.2 ⟨entries, hentries, he⟩
  rw [Member.outbox, flatten_chunks, mem_filter] at hmem
  obtain ⟨cell, hseen, -, hstamp⟩ := hinv.mem_allEntriesStamped.1 hmem.1
  rw [seen, filter_eq_some_iff] at hseen
  exact ⟨beq_iff_eq.1 hmem.2, cell, hseen.1, hstamp, hseen.2⟩

end Cells

/-! ## Steps of a member -/

section Members

variable [Crc32fast] {P : WalRecord → Prop} {m : Member}

theorem mem_records {d : Directory} {Q : WalRecord → Prop} (h : Logs P d)
    (hloaded : ∀ s, d.snapshots.last? = some s → ∀ loaded, loadSnapshot s.2 = some loaded →
      ∀ r ∈ loaded, Q r) (hlogged : ∀ r, Fits r → P r → Q r) {records : List WalRecord}
    (hrecords : d.records = some records) : ∀ r ∈ records, Q r := by
  obtain ⟨loaded, hload, rfl⟩ := map_eq_some_iff.1 hrecords
  intro r hr
  rcases mem_append.1 hr with hr | hr
  · cases hlast : d.snapshots.last? with
    | none =>
      rw [hlast] at hload
      cases hload
      cases hr
    | some s =>
      rw [hlast] at hload
      exact hloaded s hlast loaded hload r hr
  · obtain ⟨hfit, hp⟩ := h.mem_walRecords hr
    exact hlogged r hfit hp

namespace Member

theorem contents_logged (m : Member) : m.logged.store.contents = m.store.contents :=
  contents_congr rfl

namespace Ok

theorem logged (hinv : m.store.Inv) (hlogs : Logs P m.dir)
    (hsink : ∀ r ∈ m.store.walSink.getD [], Fits r ∧ P r) : m.logged.Ok P where
  inv := hinv.congr rfl
  sink := rfl
  logs := hlogs.appends _ hsink

theorem emits (h : m.Ok P) {s : Store} {moved : Str × Bytes × ℕ → ℕ} (hinv : s.Inv)
    (hsink : s.walSink = m.store.walSink.map (· ++ [r])) (hr : Fits r ∧ P r) :
    (Member.logged { m with store := s, moved }).Ok P := by
  refine logged hinv h.logs ?_
  dsimp only
  rw [hsink, h.sink]
  exact forall_mem_singleton.2 hr

theorem putTtl (h : m.Ok P) (env : StoreEnv) {map : Str} {key val : Bytes} {ttlMs : ℕ}
    (hfit : Fits (.mapPut 0 ttlMs map key val))
    (hP : P (.mapPut (m.stampAt env) ttlMs map key val)) :
    (m.putTtl env map key val ttlMs).Ok P :=
  h.emits (h.inv.putTtl env map key val ttlMs (fits_lengths hfit)).1 rfl
    ⟨fits_mapPut hfit (nextStampAt_lt ..), hP⟩

theorem remove (h : m.Ok P) (env : StoreEnv) {map : Str} {key : Bytes}
    (hfit : Fits (.mapRemove 0 map key)) (hP : ∀ stamp, P (.mapRemove stamp map key)) :
    (m.remove env map key).Ok P :=
  h.emits (h.inv.remove env map key).1 rfl ⟨fits_mapRemove hfit (nextStampAt_lt ..), hP _⟩

theorem snapshot (h : m.Ok P) (now : ℕ) : (m.snapshot now).Ok P :=
  { h with logs := h.logs.truncate _ _ }

theorem recover (h : m.Ok P) {shards memberId : ℕ} {clock : ℕ → StoreEnv} {finish : ℕ}
    (hshards : 0 < shards) (hloaded : ∀ s, m.dir.snapshots.last? = some s →
      ∀ loaded, loadSnapshot s.2 = some loaded → ∀ r ∈ loaded, Fits r) :
    (m.recover shards memberId clock finish).Ok P := by
  rw [Member.recover]
  cases hs : m.dir.recover (withShardsSeed shards memberId) clock with
  | none => exact h
  | some s =>
    obtain ⟨records, hrecords, rfl⟩ := map_eq_some_iff.1 hs
    have hfits := mem_records h.logs hloaded (fun r hr _ => hr) hrecords
    have hinv := (inv_withShardsSeed hshards memberId).1
    refine ⟨(contents_replay hinv fun r hr => ?_).1.congr rfl, ?_, h.logs.openWal _⟩
    · obtain ⟨x, hx, rfl⟩ := mem_map.1 hr
      exact hfits _ (fst_mem_of_mem_zipIdx hx)
    · change or (replay _ _).walSink (some []) = some []
      rw [replay_walSink rfl]
      rfl

theorem merge (h : m.Ok P) (clock : ℕ → StoreEnv) (finish : ℕ)
    (hfits : ∀ e ∈ entries, Fits (entryRecord e) ∧ P (entryRecord e)) :
    (m.merge entries clock finish).Ok P := by
  obtain ⟨hinv, hsink, -⟩ := foldl_putMerge h.inv h.sink
    (fun e he => (hfits e.1 (fst_mem_of_mem_zipIdx he)).1) clock m.mergeLatest
  refine logged hinv h.logs fun r hr => ?_
  rw [hsink] at hr
  obtain ⟨e, he, rfl⟩ := mem_map.1 hr
  exact hfits e.1 (fst_mem_of_mem_zipIdx he)

end Ok

/-- The version of the key that the member has, if it has it, expires in time. -/
def Bounded (stamp ttlMs : ℕ) (m : Member) : Prop :=
  ∀ cell, m.store.contents (map, key) = some cell → cell.stamp = stamp →
    ∃ t ≤ m.moved (map, key, stamp), cell.expireAt = t + ttlMs

/-- A record that puts the version gives it the time to live. -/
def GivesTtl (stamp ttlMs : ℕ) : WalRecord → Prop
  | .mapPut stamp' ttlMs' map' key' _ => (map', key', stamp') = (map, key, stamp) → ttlMs' = ttlMs
  | _ => True

omit [Crc32fast] in
theorem givesTtl_of_not_puts {map : Str} {key : Bytes} {stamp ttlMs : ℕ}
    (h : ¬ Cluster.Puts map key stamp r) : GivesTtl map key stamp ttlMs r := by
  cases r with
  | mapPut => exact fun heq => absurd heq h
  | mapRemove | auxState => trivial

namespace Bounded

variable {map : Str} {key : Bytes} {stamp ttlMs : ℕ}

theorem putTtl_self (hinv : m.store.Inv) {val : Bytes}
    (hfit : Fits (.mapPut 0 ttlMs map key val)) (hpos : 0 < ttlMs)
    (hnow : env.now + ttlMs < 2 ^ 64) :
    (m.putTtl env map key val ttlMs).Bounded map key (m.stampAt env) ttlMs := by
  intro cell hcell _
  rw [Member.putTtl, contents_logged] at hcell
  rw [(hinv.putTtl env map key val ttlMs (fits_lengths hfit)).2, update_self] at hcell
  have hmoved : (m.putTtl env map key val ttlMs).moved (map, key, m.stampAt env) = env.now :=
    update_self ..
  refine ⟨env.now, le_of_eq hmoved.symm, ?_⟩
  rw [← some.inj hcell]
  exact deadline_eq hpos hnow

section

variable (h : m.Bounded map key stamp ttlMs)

include h

theorem putTtl (hinv : m.store.Inv) (env : StoreEnv)
    {map' : Str} {key' val : Bytes} {ttlMs' : ℕ} (hfit : Fits (.mapPut 0 ttlMs' map' key' val))
    (hne : (map', key') ≠ (map, key)) :
    (m.putTtl env map' key' val ttlMs').Bounded map key stamp ttlMs := by
  intro cell hcell hstamp
  rw [Member.putTtl, contents_logged] at hcell
  rw [(hinv.putTtl env map' key' val ttlMs' (fits_lengths hfit)).2,
    update_of_ne hne.symm] at hcell
  obtain ⟨t, ht, hexpire⟩ := h cell hcell hstamp
  have hmoved : (m.putTtl env map' key' val ttlMs').moved (map, key, stamp) =
      m.moved (map, key, stamp) := by
    refine update_of_ne (fun heq => ?_) ..
    cases heq
    exact hne rfl
  exact ⟨t, le_trans ht (le_of_eq hmoved.symm), hexpire⟩

theorem remove (hinv : m.store.Inv) (env : StoreEnv)
    (map' : Str) (key' : Bytes) : (m.remove env map' key').Bounded map key stamp ttlMs := by
  intro cell hcell hstamp
  exact h cell (contents_remove hinv hcell) hstamp

theorem recover
    (hlogs : Logs (GivesTtl map key stamp ttlMs) m.dir) (hpos : 0 < ttlMs) {shards memberId : ℕ}
    {clock : ℕ → StoreEnv} {finish : ℕ} (hshards : 0 < shards)
    (hclock : ∀ n, (clock n).now ≤ finish) (hfinish : finish + ttlMs < 2 ^ 64)
    (hloaded : ∀ s, m.dir.snapshots.last? = some s → ∀ loaded, loadSnapshot s.2 = some loaded →
      ∀ r ∈ loaded, Fits r ∧ ¬ Cluster.Puts map key stamp r) :
    (m.recover shards memberId clock finish).Bounded map key stamp ttlMs := by
  rw [Member.recover]
  cases hs : m.dir.recover (withShardsSeed shards memberId) clock with
  | none => exact h
  | some s =>
    obtain ⟨records, hrecords, rfl⟩ := map_eq_some_iff.1 hs
    have hall := mem_records (Q := fun r => Fits r ∧ GivesTtl map key stamp ttlMs r) hlogs
      (fun s hs loaded hload r hr => ?_) (fun r hfit hp => ⟨hfit, hp⟩) hrecords
    · obtain ⟨hinv, hempty⟩ := inv_withShardsSeed hshards memberId
      have hfits : ∀ r ∈ records.zipIdx.map (fun r => (clock r.2, r.1)), Fits r.2 := by
        intro r hr
        obtain ⟨x, hx, rfl⟩ := mem_map.1 hr
        exact (hall _ (fst_mem_of_mem_zipIdx hx)).1
      intro cell hcell hstamp
      rcases (contents_replay hinv hfits).2 (map, key) cell hcell with hold | hput
      · rw [hempty] at hold
        cases hold
      · obtain ⟨r, hr, ttlMs', hr', hexpire⟩ := hput
        obtain ⟨x, hx, rfl⟩ := mem_map.1 hr
        have hgives := (hall _ (fst_mem_of_mem_zipIdx hx)).2
        rw [show x.1 = _ from hr', hstamp] at hgives
        obtain rfl := hgives rfl
        have hle := hclock x.2
        refine ⟨(clock x.2).now, hle, hexpire.trans (deadline_eq hpos ?_)⟩
        dsimp only
        omega
    · obtain ⟨hfit, hnot⟩ := hloaded s hs loaded hload r hr
      exact ⟨hfit, givesTtl_of_not_puts hnot⟩

theorem merge (hok : m.Ok P)
    (clock : ℕ → StoreEnv) (finish : ℕ) (hfits : ∀ e ∈ entries, Fits (entryRecord e))
    (hnot : ∀ e ∈ entries, version e ≠ (map, key, stamp)) :
    (m.merge entries clock finish).Bounded map key stamp ttlMs := by
  obtain ⟨-, -, hcells⟩ := foldl_putMerge hok.inv hok.sink
    (fun e he => hfits e.1 (fst_mem_of_mem_zipIdx he)) clock m.mergeLatest
  intro cell hcell hstamp
  rcases hcells (map, key) cell hcell with hold | ⟨e, he, hversion⟩
  · obtain ⟨t, ht, hexpire⟩ := h cell hold hstamp
    refine ⟨t, le_trans ht (le_of_eq ?_), hexpire⟩
    refine (if_neg fun hmem => ?_).symm
    obtain ⟨e, he, hversion⟩ := mem_map.1 hmem
    exact hnot e he hversion
  · rw [hstamp] at hversion
    exact absurd hversion (hnot e.1 (fst_mem_of_mem_zipIdx he))

end

end Bounded

end Member

end Members

/-! ## Runs of the cluster -/

section Runs

theorem forall_modify {α : Type} {I : α → Prop} {l : List α} {i : ℕ} {f : α → α}
    (h : ∀ x ∈ l, I x) (hf : ∀ x, l[i]? = some x → I x → I (f x)) : ∀ x ∈ l.modify i f, I x := by
  intro x hx
  obtain ⟨j, hj⟩ := List.getElem?_of_mem hx
  rw [List.getElem?_modify] at hj
  obtain ⟨y, hy, rfl⟩ := map_eq_some_iff.1 hj
  by_cases hij : i = j
  · subst hij
    rw [if_pos rfl]
    exact hf y hy (h y (mem_of_getElem? hy))
  · rw [if_neg hij]
    exact h y (mem_of_getElem? hy)

variable [Crc32fast] {P : WalRecord → Prop} {c : Cluster} {e : ClusterEvent}

namespace Cluster

def Emits (c : Cluster) : ClusterEvent → WalRecord → Prop
  | .putTtl i env map key val ttlMs, r =>
    ∃ m, c.members[i]? = some m ∧ r = .mapPut (m.stampAt env) ttlMs map key val
  | .remove _ _ map key, r => ∃ stamp, r = .mapRemove stamp map key
  | .deliver n _ _, r => ∃ msg, c.network[n]? = some msg ∧ ∃ e ∈ msg.2, r = entryRecord e
  | _, _ => False

theorem ok_exec (h : ∀ m ∈ c.members, m.Ok P) (hsized : c.Sized e) (hP : ∀ r, c.Emits e r → P r) :
    ∀ m ∈ (c.exec e).members, m.Ok P := by
  cases e with
  | putTtl i env map key val ttlMs =>
    exact forall_modify h fun m hm hok => hok.putTtl env hsized (hP _ ⟨m, hm, rfl⟩)
  | remove i env map key =>
    exact forall_modify h fun m _ hok => hok.remove env hsized fun stamp => hP _ ⟨stamp, rfl⟩
  | snapshot i now => exact forall_modify h fun m _ hok => hok.snapshot now
  | recover i shards memberId clock finish =>
    obtain ⟨hshards, -, hloaded⟩ := hsized
    exact forall_modify h fun m hm hok => hok.recover hshards (hloaded m hm)
  | stream i dest partition now => exact h
  | deliver n clock finish =>
    rw [exec]
    split
    next => exact h
    next msg hmsg =>
      exact forall_modify h fun m _ hok => hok.merge clock finish fun e he =>
        ⟨hsized msg hmsg e he, hP _ ⟨msg, hmsg, e, he, rfl⟩⟩

theorem Run.ok {config : List (ℕ × ℕ × Bool)} (hconfig : ∀ x ∈ config, 0 < x.1)
    (h : Run config c) : ∀ m ∈ c.members, m.Ok fun _ => True :=
  Trace.Reaches.invariant (I := fun c => ∀ m ∈ c.members, m.Ok fun _ => True) h
    (fun c e hc hsized => ok_exec hc hsized fun _ _ => trivial) fun m hm => by
      obtain ⟨x, hx, rfl⟩ := mem_map.1 hm
      refine ⟨(inv_withShardsSeed (hconfig x hx) x.2.1).1.congr rfl, rfl, fun f hf => ?_⟩
      rw [mem_singleton.1 hf]
      exact ⟨[], rfl, fun r hr => absurd hr not_mem_nil⟩

/-- Every log gives the version its time to live, every copy is bounded, and no copy is on
its way. -/
structure Tracks (map : Str) (key : Bytes) (stamp ttlMs : ℕ) (c : Cluster) : Prop where
  ok : ∀ m ∈ c.members, m.Ok (Member.GivesTtl map key stamp ttlMs)
  bounded : ∀ m ∈ c.members, m.Bounded map key stamp ttlMs
  network : ∀ msg ∈ c.network, ∀ e ∈ msg.2, version e ≠ (map, key, stamp)

variable {map : Str} {key : Bytes} {stamp ttlMs : ℕ}

theorem Tracks.expires (h : c.Tracks map key stamp ttlMs) (hpos : 0 < ttlMs) :
    c.Expires map key stamp ttlMs := by
  intro m hm cell hcell hstamp now hnow
  obtain ⟨t, ht, hexpire⟩ := h.bounded m hm cell hcell hstamp
  rw [Cell.live, Bool.or_eq_false_iff, beq_eq_false_iff_ne, decide_eq_false_iff_not]
  omega

theorem Tracks.exec (h : c.Tracks map key stamp ttlMs) (hpos : 0 < ttlMs) (hsized : c.Sized e)
    (hkeeps : Keeps map key stamp ttlMs c e) : (c.exec e).Tracks map key stamp ttlMs := by
  have hok := ok_exec h.ok hsized fun r hr => ?_
  · refine ⟨hok, ?_, ?_⟩
    · cases e with
      | putTtl i env map' key' val ttlMs' =>
        exact forall_modify h.bounded fun m hm hb =>
          hb.putTtl (h.ok m (mem_of_getElem? hm)).inv env hsized hkeeps
      | remove i env map' key' =>
        exact forall_modify h.bounded fun m hm hb =>
          hb.remove (h.ok m (mem_of_getElem? hm)).inv env map' key'
      | snapshot i now => exact forall_modify h.bounded fun m _ hb => hb
      | recover i shards memberId clock finish =>
        obtain ⟨hshards, hclock, hfits⟩ := hsized
        obtain ⟨hfinish, hnot⟩ := hkeeps
        exact forall_modify h.bounded fun m hm hb =>
          hb.recover (h.ok m (mem_of_getElem? hm)).logs hpos hshards hclock hfinish
            fun s hs loaded hload r hr =>
              ⟨hfits m hm s hs loaded hload r hr, hnot m hm s hs loaded hload r hr⟩
      | stream i dest partition now => exact h.bounded
      | deliver n clock finish =>
        rw [exec]
        split
        next => exact h.bounded
        next msg hmsg =>
          exact forall_modify h.bounded fun m hm hb => hb.merge (h.ok m (mem_of_getElem? hm))
            clock finish (hsized msg hmsg) (h.network msg (mem_of_getElem? hmsg))
    · cases e with
      | stream i dest partition now =>
        intro msg hmsg e he heq
        rcases mem_append.1 hmsg with hmsg | hmsg
        · exact h.network msg hmsg e he heq
        · obtain ⟨entries, hentries, rfl⟩ := mem_map.1 hmsg
          cases hm : c.members[i]? with
          | none =>
            rw [hm] at hentries
            cases hentries
          | some m =>
            rw [hm] at hentries
            obtain ⟨hpart, cell, hcell, hstamp, hlive⟩ :=
              Member.mem_outbox (h.ok m (mem_of_getElem? hm)).inv hentries he
            cases heq
            rw [hkeeps hpart m hm cell hcell hstamp] at hlive
            cases hlive
      | deliver n clock finish =>
        rw [exec]
        split
        next => exact h.network
        next msg hmsg => exact fun x hx => h.network x (mem_of_mem_eraseIdx hx)
      | putTtl | remove | snapshot | recover => exact h.network
  · cases e with
    | putTtl i env map' key' val ttlMs' =>
      obtain ⟨m, -, rfl⟩ := hr
      intro heq
      cases heq
      exact absurd rfl hkeeps
    | remove i env map' key' =>
      obtain ⟨stamp, rfl⟩ := hr
      trivial
    | deliver n clock finish =>
      obtain ⟨msg, hmsg, e, he, rfl⟩ := hr
      exact fun heq => absurd heq (h.network msg (mem_of_getElem? hmsg) e he)
    | snapshot | recover | stream => exact hr.elim

theorem Tracks.start (hok : ∀ m ∈ c.members, m.Ok fun _ => True) {i : ℕ} {m : Member}
    (hm : c.members[i]? = some m) {val : Bytes}
    (hfresh : c.Fresh map key (m.stampAt env)) (hfit : Fits (.mapPut 0 ttlMs map key val))
    (hpos : 0 < ttlMs) (hnow : env.now + ttlMs < 2 ^ 64) :
    (c.exec (.putTtl i env map key val ttlMs)).Tracks map key (m.stampAt env) ttlMs := by
  obtain ⟨hmembers, hnetwork⟩ := hfresh
  have hgives : ∀ m' ∈ c.members, m'.Ok (Member.GivesTtl map key (m.stampAt env) ttlMs) := by
    intro m' hm'
    have hm'ok := hok m' hm'
    refine ⟨hm'ok.inv, hm'ok.sink, fun f hf => ?_⟩
    obtain ⟨hbytes, hrecords⟩ := hm'ok.logs.readSegment hf
    exact ⟨_, hbytes, fun r hr => ⟨(hrecords r hr).1,
      Member.givesTtl_of_not_puts ((hmembers m' hm').2 f hf r hr)⟩⟩
  refine ⟨ok_exec hgives hfit fun r hr => ?_, forall_modify (fun m' hm' cell hcell hstamp => ?_)
    fun m' hm' _ => ?_, hnetwork⟩
  · obtain ⟨m', -, rfl⟩ := hr
    exact fun _ => rfl
  · exact absurd hstamp ((hmembers m' hm').1 cell hcell)
  · obtain rfl := some.inj (hm.symm.trans hm')
    exact .putTtl_self (hok m (mem_of_getElem? hm)).inv hfit hpos hnow

end Cluster

open Cluster in
/-- A version that was put with a time to live still expires after every run whose events keep it
from a snapshot that is loaded and from a partition that migrates. -/
theorem moves_keep_ttl {config : List (ℕ × ℕ × Bool)} (hconfig : ∀ x ∈ config, 0 < x.1)
    {c c' : Cluster} (hrun : Run config c) {i : ℕ} {m : Member} (hm : c.members[i]? = some m)
    {env : StoreEnv} {map : Str} {key val : Bytes} {ttlMs : ℕ} (hpos : 0 < ttlMs)
    (hfresh : c.Fresh map key (m.stampAt env)) (hfit : Fits (.mapPut 0 ttlMs map key val))
    (hnow : env.now + ttlMs < 2 ^ 64)
    (hmoves : Trace.Reaches exec
      (fun c e => c.Sized e ∧ Keeps map key (m.stampAt env) ttlMs c e)
      (c.exec (.putTtl i env map key val ttlMs)) c') :
    c'.Expires map key (m.stampAt env) ttlMs := by
  have htracks := Tracks.start (hrun.ok hconfig) hm hfresh hfit hpos hnow
  exact (Trace.Reaches.invariant (I := Tracks map key (m.stampAt env) ttlMs) hmoves
    (fun c e hc hok => hc.exec hpos hok.1 hok.2) htracks).expires hpos

end Runs

def ttlPut : Cluster :=
  (Cluster.start [(1, 3, true), (1, 4, true)]).exec (.putTtl 0 ⟨⟨5, 0⟩, 1000⟩ orders [1] [10] 10)

def restartClock : ℕ → StoreEnv := fun _ => ⟨⟨6, 0⟩, 1000⟩

def logMoves : List ClusterEvent := [.stream 0 1 5 6, .recover 0 1 3 restartClock 7]

theorem moves_keep_ttl_logged :
    let c := logMoves.foldl Cluster.exec ttlPut
    (c.members.map fun m => m.store.contents (orders, [1])) =
        [some ⟨[10], 16, nextStampAt 3 0 1000⟩, none] ∧
      c.Expires orders [1] (nextStampAt 3 0 1000) 10 := by
  refine ⟨by decide +kernel, ?_⟩
  have hnone : ∀ m, (ttlPut.exec (.stream 0 1 5 6)).members[0]? = some m →
      m.dir.snapshots.last? = none := fun m hm => by
    rw [← some.inj hm]
    rfl
  have hmoves : Trace.Reaches Cluster.exec
      (fun c e => c.Sized e ∧ Cluster.Keeps orders [1] (nextStampAt 3 0 1000) 10 c e) ttlPut
      (logMoves.foldl Cluster.exec ttlPut) := by
    refine .of_allowed logMoves ⟨⟨trivial, fun hpart => ?_⟩,
      ⟨⟨by decide, fun _ => le_succ 6, ?_⟩, by decide, ?_⟩, trivial⟩
    · exact absurd hpart (by decide)
    · intro m hm s hs
      cases (hnone m hm).symm.trans hs
    · intro m hm s hs
      cases (hnone m hm).symm.trans hs
  have hfresh : (Cluster.start [(1, 3, true), (1, 4, true)]).Fresh orders [1]
      (nextStampAt 3 0 1000) := by
    refine ⟨fun m hm => ⟨fun cell hcell => ?_, fun f hf r hr => ?_⟩, fun msg hmsg => ?_⟩
    · have hempty : ∀ m ∈ (Cluster.start [(1, 3, true), (1, 4, true)]).members,
          m.store.contents (orders, [1]) = none := by decide +kernel
      cases (hempty m hm).symm.trans hcell
    · obtain ⟨x, -, rfl⟩ := mem_map.1 hm
      rw [mem_singleton.1 hf] at hr
      cases hr
    · exact absurd hmsg not_mem_nil
  exact @moves_keep_ttl _ [(1, 3, true), (1, 4, true)] (by decide) _ _ .refl 0 (.new 1 3 true) rfl
    ⟨⟨5, 0⟩, 1000⟩ orders [1] [10] 10 (by decide) hfresh (by decide) (by decide) hmoves

def snapshotMoves : List ClusterEvent := [.snapshot 0 6, .recover 0 1 3 restartClock 7]

def migrationMoves : List ClusterEvent := [.stream 0 1 0 6, .deliver 0 restartClock 7]

/-- The copies never expire. -/
theorem moves_lose_ttl :
    let recovered := snapshotMoves.foldl Cluster.exec ttlPut
    let migrated := migrationMoves.foldl Cluster.exec ttlPut
    Trace.Reaches Cluster.exec Cluster.Sized ttlPut recovered ∧
      ¬ recovered.Expires orders [1] (nextStampAt 3 0 1000) 10 ∧
      Trace.Reaches Cluster.exec Cluster.Sized ttlPut migrated ∧
      ¬ migrated.Expires orders [1] (nextStampAt 3 0 1000) 10 := by
  have hforever : ∀ (c : Cluster) (i : ℕ),
      (c.members[i]?.map fun m : Member => m.store.contents (orders, [1])) =
        some (some ⟨[10], 0, nextStampAt 3 0 1000⟩) →
          ¬ c.Expires orders [1] (nextStampAt 3 0 1000) 10 := by
    intro c i hi h
    obtain ⟨m, hm, hcell⟩ := map_eq_some_iff.1 hi
    cases h m (mem_of_getElem? hm) _ hcell rfl _ (le_refl _)
  have hload : ((ttlPut.exec (.snapshot 0 6)).members[0]?.bind fun m => m.dir.snapshots.last?.bind
      fun s => loadSnapshot s.2) = some [.mapPut (nextStampAt 3 0 1000) 0 orders [1] [10]] := by
    decide +kernel
  have hmessage : ((ttlPut.exec (.stream 0 1 0 6)).network[0]?.map Prod.snd) =
      some [(orders, [1], [10], nextStampAt 3 0 1000)] := by
    decide +kernel
  refine ⟨.of_allowed snapshotMoves ⟨trivial, ⟨by decide, fun _ => le_succ 6, ?_⟩, trivial⟩,
    hforever _ 0 (by decide +kernel), .of_allowed migrationMoves ⟨trivial, ?_, trivial⟩,
    hforever _ 1 (by decide +kernel)⟩
  · intro m hm s hs loaded hloaded r hr
    rw [hm, bind_some, hs, bind_some, hloaded] at hload
    rw [some.inj hload] at hr
    rw [mem_singleton.1 hr]
    decide
  · intro msg hmsg e he
    rw [hmsg] at hmessage
    rw [some.inj hmessage] at he
    rw [mem_singleton.1 he]
    decide

end BonsaiGrid.Server
