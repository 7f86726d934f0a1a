import BonsaiGrid.Lib.Crc32
import BonsaiGrid.Lib.Frames
import Mathlib.Tactic.Simps.Basic

/-!
# The Raft log

The log of one Raft node: the live entries after an optional compacted prefix, the persisted term
and vote, and, for a durable log, the contents of the two files behind it.
-/

namespace BonsaiGrid.Raft

open LittleEndian

abbrev NodeId := ℕ

structure Entry where
  term : ℕ
  index : ℕ
  command : Bytes
deriving DecidableEq, Repr

/-- The files of a durable log: the bytes of `entries.log`, and those of `meta`
once it has been written. -/
structure Durable where
  seg : Bytes
  metaFile : Option Bytes
deriving DecidableEq, Repr

/-- The entries with index `snapshotIndex + 1` and up are live; the ones before
have been folded into the state machine and dropped. -/
structure RaftLog where
  entries : List Entry := []
  term : ℕ := 0
  vote : Option NodeId := none
  durable : Option Durable := none
  snapshotIndex : ℕ := 0
  snapshotTerm : ℕ := 0
  assertFailed : Bool := false
deriving DecidableEq, Repr

section Files

variable [Crc32fast]

/-- `[len:u32][crc32:u32][term:u64][index:u64][cmd]`. -/
def frameEntry (e : Entry) : Bytes :=
  let body := encode 8 e.term ++ encode 8 e.index ++ e.command
  encode 4 (body.length % 2 ^ 32 + 4) ++
    encode 4 (Crc32fast.hash body).toNat ++ body

/-- The entry whose frame is at the start of `buf`, and the bytes after it. -/
def readFrame (buf : Bytes) : Option (Entry × Bytes) :=
  if buf.length < 8 then none
  else
    let len := decode (buf.take 4)
    let crc := decode ((buf.drop 4).take 4)
    if len < 4 + 16 ∨ buf.length < 4 + len then none
    else
      let body := (buf.drop 8).take (len - 4)
      if (Crc32fast.hash body).toNat ≠ crc then none
      else
        some ({ term := decode (body.take 8)
                index := decode ((body.drop 8).take 8)
                command := body.drop 16 }, buf.drop (4 + len))

/-- The entries of a segment up to a torn or corrupt tail, and that tail. -/
def readFrames (seg : Bytes) : List Entry × Bytes := Frames.readAll readFrame seg.length seg

def readLog (seg : Bytes) : List Entry := (readFrames seg).1

def rewriteLog (entries : List Entry) : Bytes := Frames.write frameEntry entries

end Files

def writeMeta (term : ℕ) (vote : Option NodeId) : Bytes :=
  encode 8 term ++ [if vote.isSome then 1 else 0] ++
    encode 8 (vote.getD 0)

def readMeta : Option Bytes → ℕ × Option NodeId
  | none => (0, none)
  | some buf =>
    if buf.length < 17 then (0, none)
    else
      (decode (buf.take 8),
        if buf.getD 8 0 ≠ 0 then some (decode ((buf.drop 9).take 8)) else none)

namespace RaftLog

def new : RaftLog := {}

def openDurable [Crc32fast] (d : Durable) : RaftLog where
  entries := readLog d.seg
  term := (readMeta d.metaFile).1
  vote := (readMeta d.metaFile).2
  durable := some d

variable (log : RaftLog)

def pos (index : ℕ) : Option ℕ :=
  if index ≤ log.snapshotIndex then none
  else
    let off := index - log.snapshotIndex - 1
    if off < log.entries.length then some off else none

def lastIndex : ℕ := (log.entries.getLast?.map Entry.index).getD log.snapshotIndex

def lastTerm : ℕ := (log.entries.getLast?.map Entry.term).getD log.snapshotTerm

/-- The term at `index`: `0` before the log, the snapshot term at the snapshot
index, `0` again inside the compacted prefix and beyond the log. -/
def termAt (index : ℕ) : ℕ :=
  if index = 0 then 0
  else if index = log.snapshotIndex then log.snapshotTerm
  else ((log.pos index).bind fun p => log.entries[p]?.map Entry.term).getD 0

def commandAt (index : ℕ) : Option Bytes :=
  (log.pos index).bind fun p => log.entries[p]?.map Entry.command

def entriesFrom (start : ℕ) : List Entry :=
  log.entries.drop (start - (log.snapshotIndex + 1))

def compact (upTo : ℕ) : RaftLog :=
  if log.durable.isSome ∨ upTo ≤ log.snapshotIndex ∨ log.lastIndex < upTo then log
  else
    { log with
      entries := log.entries.drop (min (upTo - log.snapshotIndex) log.entries.length)
      snapshotIndex := upTo
      snapshotTerm := log.termAt upTo }

@[simps entries term vote snapshotIndex snapshotTerm assertFailed]
def append [Crc32fast] (log : RaftLog) (e : Entry) : RaftLog :=
  { log with
    entries := log.entries ++ [e]
    durable := log.durable.map fun d => { d with seg := d.seg ++ frameEntry e }
    assertFailed := log.assertFailed || e.index != log.lastIndex + 1 }

@[simps entries term vote snapshotIndex snapshotTerm assertFailed]
def truncateFrom [Crc32fast] (log : RaftLog) (index : ℕ) : RaftLog :=
  let kept := log.entries.take (index - (log.snapshotIndex + 1))
  { log with
    entries := kept
    durable := log.durable.map fun d => { d with seg := rewriteLog kept } }

def len : ℕ := log.entries.length

@[simps entries term vote snapshotIndex snapshotTerm assertFailed]
def persistTermVote (term : ℕ) (vote : Option NodeId) : RaftLog :=
  { log with
    term := term
    vote := vote
    durable := log.durable.map fun d => { d with metaFile := some (writeMeta term vote) } }

/-- `log'` is the log of a node that was persisted as `log` and has been read
again: the same entries, none of which had been folded away. -/
def SamePersisted (log log' : RaftLog) : Prop :=
  log'.entries = log.entries ∧ log.snapshotIndex = 0 ∧ log'.snapshotIndex = 0 ∧
    log'.snapshotTerm = 0 ∧ log'.assertFailed = false

instance (log log' : RaftLog) : Decidable (log.SamePersisted log') :=
  inferInstanceAs (Decidable (_ ∧ _))

section Fields

variable (log : RaftLog)

@[simp] theorem compact_fields (upTo : ℕ) :
    (log.compact upTo).term = log.term ∧ (log.compact upTo).vote = log.vote ∧
      (log.compact upTo).assertFailed = log.assertFailed := by
  unfold compact
  split <;> simp

theorem compact_snapshotIndex_le (upTo : ℕ) :
    (log.compact upTo).snapshotIndex ≤ max log.snapshotIndex upTo := by
  unfold compact
  split
  · exact Nat.le_max_left _ _
  · exact Nat.le_max_right _ _

end Fields

end RaftLog

end BonsaiGrid.Raft
