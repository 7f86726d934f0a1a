import BonsaiGrid.Persistence.Directory

/-!
# The persistence thread

The thread takes the records of the store off a ring, appends them to the current segment and
syncs it now and then.
-/

namespace BonsaiGrid.Persistence

open Store

inductive FileName where
  | wal (n : ℕ)
  | snapshot (n : ℕ)
deriving DecidableEq, Repr

inductive Phase where
  /-- taking records off the ring -/
  | draining
  /-- collecting entries, with the old segment closed; so many shards are done -/
  | collecting (old done : ℕ) (entries : List StampedEntry)
  /-- deleting what is superseded -/
  | deleting (todo : List FileName)
deriving DecidableEq

/-- The store, its thread and the directory. -/
structure Machine where
  dir : Directory
  store : Store
  generation : ℕ
  pending : Bool := false
  dirty : Bool := false
  phase : Phase := .draining

/-- What happens: calls of the store, steps of the thread, and crashes. -/
inductive Event where
  | put (env : StoreEnv) (map : Str) (key val : Bytes)
  | remove (env : StoreEnv) (map : Str) (key : Bytes)
  /-- the record of the call is pushed -/
  | push
  /-- a record is taken off the ring and appended -/
  | append
  | fsync
  /-- the segment is synced and the next one opened -/
  | roll
  /-- the entries of a shard are collected -/
  | collect (now : ℕ)
  /-- the snapshot is renamed to its place -/
  | install
  /-- writing the snapshot fails, and nothing is renamed -/
  | installFails
  /-- a superseded file is deleted -/
  | delete
  /-- the process stops and starts again -/
  | crash (left : ℕ → ℕ) (shards memberId : ℕ) (clock : ℕ → StoreEnv)

/-- The files that the snapshot `keep` supersedes: the old segment, then what is numbered
below. -/
def superseded (d : Directory) (old keep : ℕ) : List FileName :=
  .wal old ::
    (((d.removeWal old).wals.files.filter fun f => f.1 < keep).map fun f => .wal f.1) ++
      (d.snapshots.files.filter fun f => f.1 < keep).map fun f => .snapshot f.1

def removeFile (d : Directory) : FileName → Directory
  | .wal n => d.removeWal n
  | .snapshot n => d.removeSnapshot n

namespace Machine

def start (dir : Directory) (store : Store) : Machine where
  dir := dir.openWal (dir.latestGeneration + 1)
  store := store.setWalSink
  generation := dir.latestGeneration + 1

def ring (m : Machine) : List WalRecord :=
  let records := m.store.walSink.getD []
  if m.pending then records.dropLast else records

variable [Crc32fast]

def exec (m : Machine) : Event → Machine
  | .put env map key val => { m with store := (m.store.put env map key val).1, pending := true }
  | .remove env map key => { m with store := (m.store.remove env map key).1, pending := true }
  | .push => { m with pending := false }
  | .append =>
    match m.store.walSink.getD [] with
    | [] => m
    | r :: records =>
      { m with
        store := { m.store with walSink := some records }
        dir := m.dir.append m.generation (encodeRecord r)
        dirty := true }
  | .fsync => { m with dir := m.dir.fsync m.generation, dirty := false }
  | .roll =>
    { m with
      dir := (m.dir.fsync m.generation).openWal (m.generation + 1)
      generation := m.generation + 1
      phase := .collecting m.generation 0 [] }
  | .collect now =>
    match m.phase with
    | .collecting old done entries =>
      { m with
        phase := .collecting old (done + 1)
          (entries ++ (m.store.shards.getD done .new).collectAllStamped now) }
    | _ => m
  | .install =>
    match m.phase with
    | .collecting old _ entries =>
      let dir := m.dir.install m.generation (snapshotBytes entries m.store.allAux)
      { m with dir := dir, phase := .deleting (superseded dir old m.generation) }
    | _ => m
  | .installFails =>
    match m.phase with
    | .collecting old _ _ => { m with phase := .deleting (superseded m.dir old m.generation) }
    | _ => m
  | .delete =>
    match m.phase with
    | .deleting (f :: todo) => { m with dir := removeFile m.dir f, phase := .deleting todo }
    | .deleting [] => { m with phase := .draining, dirty := false }
    | _ => m
  | .crash left shards memberId clock =>
    match (m.dir.cut left).recover (withShardsSeed shards memberId) clock with
    | some store => start (m.dir.cut left) store
    | none => { m with dir := m.dir.cut left }

/-- The steps of the thread from the collection to the deletions. -/
def Snapshots : Event → Prop
  | .collect _ => True
  | .install => True
  | .installFails => True
  | .delete => True
  | _ => False

section Phases

variable {m : Machine} {old done now : ℕ} {entries : List StampedEntry} {f : FileName}
  {todo : List FileName}

theorem exec_store {e : Event} (h : Snapshots e) : (m.exec e).store = m.store := by
  cases e with
  | collect | install | installFails | delete => rw [exec]; split <;> rfl
  | put | remove | push | append | fsync | roll | crash => exact h.elim

theorem exec_collect (h : m.phase = .collecting old done entries) :
    m.exec (.collect now) = { m with
      phase := .collecting old (done + 1)
        (entries ++ (m.store.shards.getD done .new).collectAllStamped now) } := by
  rw [exec, h]

theorem exec_install (h : m.phase = .collecting old done entries) :
    m.exec .install = { m with
      dir := m.dir.install m.generation (snapshotBytes entries m.store.allAux)
      phase := .deleting (superseded
        (m.dir.install m.generation (snapshotBytes entries m.store.allAux)) old m.generation) } := by
  rw [exec, h]

theorem exec_installFails (h : m.phase = .collecting old done entries) :
    m.exec .installFails = { m with phase := .deleting (superseded m.dir old m.generation) } := by
  rw [exec, h]

theorem exec_delete_cons (h : m.phase = .deleting (f :: todo)) :
    m.exec .delete = { m with dir := removeFile m.dir f, phase := .deleting todo } := by
  rw [exec, h]

theorem exec_delete_nil (h : m.phase = .deleting []) :
    m.exec .delete = { m with phase := .draining, dirty := false } := by
  rw [exec, h]

end Phases

/-- The events that can happen; the thread rolls once the segment has `threshold` bytes. -/
def Enabled (threshold : ℕ) (m : Machine) : Event → Prop
  | .put .. => m.pending = false
  | .remove .. => m.pending = false
  | .push => m.pending = true
  | .append => m.phase = .draining ∧ m.ring ≠ []
  | .fsync => m.phase = .draining ∧ m.dirty = true
  | .roll => m.phase = .draining ∧ threshold ≤ m.dir.walLen m.generation
  | .collect _ => ∃ old done entries, m.phase = .collecting old done entries ∧
      done < m.store.shards.length
  | .install => ∃ old entries, m.phase = .collecting old m.store.shards.length entries
  | .installFails => ∃ old entries, m.phase = .collecting old m.store.shards.length entries
  | .delete => ∃ todo, m.phase = .deleting todo
  | .crash left shards memberId clock => 0 < shards ∧
      (m.dir.cut left).recover (withShardsSeed shards memberId) clock ≠ none

instance (threshold : ℕ) (m : Machine) : (e : Event) → Decidable (m.Enabled threshold e)
  | .put .. | .remove .. | .push => inferInstanceAs (Decidable (_ = _))
  | .append | .fsync | .roll | .crash .. => inferInstanceAs (Decidable (_ ∧ _))
  | .collect _ =>
    match h : m.phase with
    | .collecting _ done _ =>
      decidable_of_iff (done < m.store.shards.length)
        ⟨fun hlt => ⟨_, _, _, h, hlt⟩, fun ⟨_, _, _, hp, hlt⟩ => by cases h.symm.trans hp; exact hlt⟩
    | .draining | .deleting _ => isFalse fun ⟨_, _, _, hp, _⟩ => by cases h.symm.trans hp
  | .install | .installFails =>
    match h : m.phase with
    | .collecting _ done _ =>
      decidable_of_iff (done = m.store.shards.length)
        ⟨fun heq => ⟨_, _, heq ▸ h⟩, fun ⟨_, _, hp⟩ => by cases h.symm.trans hp; rfl⟩
    | .draining | .deleting _ => isFalse fun ⟨_, _, hp⟩ => by cases h.symm.trans hp
  | .delete =>
    match h : m.phase with
    | .deleting todo => isTrue ⟨todo, h⟩
    | .draining | .collecting .. => isFalse fun ⟨_, hp⟩ => by cases h.symm.trans hp

end Machine

/-! ## The trace -/

def recordKey : WalRecord → Option (Str × Bytes)
  | .mapPut _ _ map key _ => some (map, key)
  | .mapRemove _ map key => some (map, key)
  | .auxState .. => none

def recordValue : WalRecord → Option Bytes
  | .mapPut _ _ _ _ value => some value
  | _ => none

def valueAfter (history : List WalRecord) (mk : Str × Bytes) : Option Bytes :=
  history.foldl (fun v r => if recordKey r = some mk then recordValue r else v) none

/-- A machine with the mutations applied so far, how many of them had been applied when
the process started, up to which one their records are appended, and which records
have been synced. -/
structure Traced where
  machine : Machine
  history : List WalRecord := []
  started : ℕ := 0
  appended : ℕ := 0
  fsynced : Set ℕ := ∅

namespace Traced

def start (shards memberId : ℕ) : Traced where
  machine := Machine.start {} (withShardsSeed shards memberId)

def mutation (m : Machine) : Event → List WalRecord
  | .put env map key val =>
    [.mapPut (nextStampAt m.store.memberId m.store.stampSeq env.wallMs) 0 map key val]
  | .remove env map key =>
    [.mapRemove (nextStampAt m.store.memberId m.store.stampSeq env.wallMs) map key]
  | _ => []

variable [Crc32fast]

def exec (t : Traced) (e : Event) : Traced where
  machine := t.machine.exec e
  history := t.history ++ mutation t.machine e
  started :=
    match e with
    | .crash .. => t.history.length
    | _ => t.started
  appended :=
    match e with
    | .append => t.appended + 1
    | .crash .. => t.history.length
    | _ => t.appended
  fsynced :=
    match e with
    | .fsync => t.fsynced ∪ {i | t.started ≤ i ∧ i < t.appended}
    | .roll => t.fsynced ∪ {i | t.started ≤ i ∧ i < t.appended}
    | _ => t.fsynced

/-- Whatever a crash leaves of the directory, recovery gives every key the value that it had
after some of its mutations, among them all those whose records had been synced. -/
def Consistent (t : Traced) : Prop :=
  ∀ left shards memberId clock, 0 < shards →
    ∃ s, (t.machine.dir.cut left).recover (withShardsSeed shards memberId) clock = some s ∧
      ∀ env map key, ∃ p ≤ t.history.length,
        (∀ i ∈ t.fsynced, ∀ r, t.history[i]? = some r → recordKey r = some (map, key) → i < p) ∧
        (s.get env map key).2 = valueAfter (t.history.take p) (map, key)

/-- The states of the runs from an empty directory whose events all meet `ok`. -/
def Run (threshold shards memberId : ℕ) (ok : Traced → Event → Prop) : Traced → Prop :=
  Trace.Reaches exec (fun t e => t.machine.Enabled threshold e ∧ ok t e) (start shards memberId)

end Traced

section Events

variable [Crc32fast]

theorem foldl_exec_machine (t : Traced) (events : List Event) :
    (events.foldl Traced.exec t).machine = events.foldl Machine.exec t.machine := by
  induction events generalizing t with
  | nil => rfl
  | cons e events ih => exact ih (t.exec e)

theorem allowed_traced {ok : Machine → Event → Prop} {t : Traced} {events : List Event}
    (h : Trace.Allowed Machine.exec ok t.machine events) :
    Trace.Allowed Traced.exec (fun t e => ok t.machine e) t events := by
  induction events generalizing t with
  | nil => trivial
  | cons e events ih => exact ⟨h.1, ih h.2⟩

end Events

end BonsaiGrid.Persistence
