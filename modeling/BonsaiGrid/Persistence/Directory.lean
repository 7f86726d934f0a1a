import BonsaiGrid.Lib.Numbered
import BonsaiGrid.Persistence.Replay
import BonsaiGrid.Persistence.Snapshot

/-!
# The persistence directory and recovery

The directory holds the segments `wal.<n>` and the snapshots `snapshot.<n>`.
-/

namespace BonsaiGrid.Persistence

open Store

structure WalFile where
  bytes : Bytes := []
  synced : ℕ := 0

structure Directory where
  wals : Numbered WalFile := .empty
  snapshots : Numbered Bytes := .empty

namespace Directory

variable (d : Directory)

def latestGeneration : ℕ := max d.wals.lastNumber d.snapshots.lastNumber

def openWal (n : ℕ) : Directory :=
  if n ∈ d.wals.files.map Prod.fst then d else { d with wals := d.wals.add n {} }

def append (n : ℕ) (framed : Bytes) : Directory :=
  { d with wals := d.wals.modify n fun f => { f with bytes := f.bytes ++ framed } }

def fsync (n : ℕ) : Directory :=
  { d with wals := d.wals.modify n fun f => { f with synced := f.bytes.length } }

def walLen (n : ℕ) : ℕ :=
  (d.wals.files.find? fun f => f.1 == n).elim 0 fun f => f.2.bytes.length

def removeWal (n : ℕ) : Directory := { d with wals := d.wals.retain (· != n) }

def removeSnapshot (n : ℕ) : Directory :=
  { d with snapshots := d.snapshots.retain (· != n) }

def install (n : ℕ) (bytes : Bytes) : Directory :=
  { d with snapshots := d.snapshots.add n bytes }

def cut (left : ℕ → ℕ) : Directory :=
  { d with
    wals :=
      { files := d.wals.files.map fun f =>
          (f.1, { f.2 with bytes := f.2.bytes.take (max f.2.synced (left f.1)) })
        sorted := List.pairwise_map.2 d.wals.sorted } }

variable [Crc32fast]

def snapshotGen : ℕ := d.snapshots.lastNumber

def walRecords (d : Directory) (gen : ℕ) : List WalRecord :=
  (d.wals.files.filter fun f => gen ≤ f.1).flatMap fun f => readSegment f.2.bytes

def records (d : Directory) : Option (List WalRecord) :=
  (d.snapshots.last?.elim (some []) fun s => loadSnapshot s.2).map fun loaded =>
    loaded ++ d.walRecords d.snapshotGen

def recover (d : Directory) (store : Store) (clock : ℕ → StoreEnv) : Option Store :=
  d.records.map fun records => replay store (records.zipIdx.map fun r => (clock r.2, r.1))

end Directory

end BonsaiGrid.Persistence
