import BonsaiGrid.Lib.Blob
import BonsaiGrid.Lib.Dict
import BonsaiGrid.Lib.Utf8

/-!
# The structures beside the maps

Queues, lists, sets, multimaps, ringbuffers, PN counters, cardinality estimators and flake-id
generators, each kind a table by name.
-/

namespace BonsaiGrid.Store

open List

inductive AuxKind where
  | list
  | set
  | queue
  | multimap
  | ringbuffer
  | pncounter
  | hll
deriving DecidableEq, Repr

namespace AuxKind

def code : AuxKind → UInt8
  | .list => 1
  | .set => 2
  | .queue => 3
  | .multimap => 4
  | .ringbuffer => 5
  | .pncounter => 6
  | .hll => 8

def ofCode (code : UInt8) : Option AuxKind :=
  if code = 1 then some .list
  else if code = 2 then some .set
  else if code = 3 then some .queue
  else if code = 4 then some .multimap
  else if code = 5 then some .ringbuffer
  else if code = 6 then some .pncounter
  else if code = 8 then some .hll
  else none

theorem ofCode_code (kind : AuxKind) : ofCode kind.code = some kind := by
  cases kind <;> rfl

end AuxKind

/-! ## The cardinality estimator -/

/-- A HyperLogLog sketch with one byte for each of its `2 ^ 14` registers. -/
structure Hll where
  regs : Bytes
  length_regs : regs.length = 2 ^ 14

namespace Hll

def new : Hll := ⟨replicate (2 ^ 14) 0, length_replicate⟩

/-- Fold a hash into the sketch: the top bits choose a register, which keeps the
greatest position of the first one bit in the rest. -/
def add (h : Hll) (hash : UInt64) : Hll :=
  let idx := (hash >>> 50).toNat
  let w := hash <<< 14 ||| (1 : UInt64) <<< 13
  let rank := UInt8.ofNat (64 - Nat.log2 w.toNat)
  if h.regs.getD idx 0 < rank then
    ⟨h.regs.set idx rank, by rw [length_set, h.length_regs]⟩
  else h

def estimate (h : Hll) : UInt64 :=
  let m : Float := 16384
  let sum := h.regs.foldl (fun acc r => acc + Float.scaleB 1 (-(r.toNat : ℤ))) (0 : Float)
  let zeros := h.regs.countP (· == 0)
  let alpha := 0.7213 / (1 + 1.079 / m)
  let e := alpha * m * m / sum
  let e := if e ≤ 2.5 * m ∧ zeros ≠ 0 then m * Float.log (m / Float.ofNat zeros) else e
  e.round.toUInt64

def toBytes (h : Hll) : Bytes := h.regs

def fromBytes (b : Bytes) : Hll :=
  ⟨b.take (2 ^ 14) ++ replicate (2 ^ 14 - b.length) 0, by
    rw [length_append, length_take, length_replicate]
    omega⟩

theorem fromBytes_toBytes (h : Hll) : fromBytes h.toBytes = h := by
  obtain ⟨regs, hregs⟩ := h
  simp only [fromBytes, toBytes, hregs, Nat.sub_self, replicate_zero, append_nil,
    take_of_length_le (Nat.le_of_eq hregs)]

end Hll

/-! ## The tables of the structures -/

structure Ring where
  items : List Bytes := []
  head : Int64 := 0
  tail : Int64 := -1
  cap : Int64 := 10000

structure Structures where
  queues : Dict Str (List Bytes) := ∅
  sets : Dict Str (Dict Bytes Unit) := ∅
  multimaps : Dict Str (Dict Bytes (List Bytes)) := ∅
  lists : Dict Str (List Bytes) := ∅
  ringbuffers : Dict Str Ring := ∅
  pncounters : Dict Str Int64 := ∅
  hlls : Dict Str Hll := ∅
  flake : Dict Str Int64 := ∅

namespace Structures

/-! ### Queues -/

variable (s : Structures)

def queueOffer (q : Str) (v : Bytes) : Structures × Bool :=
  ({ s with queues := s.queues.insert q ((s.queues.lookup q).getD [] ++ [v]) }, true)

def queuePoll (q : Str) : Structures × Option Bytes :=
  match s.queues.lookup q with
  | some (v :: rest) => ({ s with queues := s.queues.insert q rest }, some v)
  | _ => (s, none)

def queuePeek (q : Str) : Option Bytes := (s.queues.lookup q).bind head?

def queueSize (q : Str) : ℕ := (s.queues.lookup q).elim 0 length

def queueRemove (q : Str) (v : Bytes) : Structures × Bool :=
  match s.queues.lookup q with
  | some items =>
    if v ∈ items then ({ s with queues := s.queues.insert q (items.erase v) }, true)
    else (s, false)
  | none => (s, false)

def queueContains (q : Str) (v : Bytes) : Bool :=
  (s.queues.lookup q).elim false fun items => decide (v ∈ items)

def queueClear (q : Str) : Structures :=
  match s.queues.lookup q with
  | some _ => { s with queues := s.queues.insert q [] }
  | none => s

def queueIsEmpty (q : Str) : Bool := s.queueSize q == 0

/-! ### Lists -/

def listAdd (name : Str) (v : Bytes) : Structures × Bool :=
  ({ s with lists := s.lists.insert name ((s.lists.lookup name).getD [] ++ [v]) }, true)

def listGet (name : Str) (index : Int32) : Option Bytes :=
  if index < 0 then none else (s.lists.lookup name).bind fun l => l[index.toNatClampNeg]?

def listSize (name : Str) : ℕ := (s.lists.lookup name).elim 0 length

def listContains (name : Str) (v : Bytes) : Bool :=
  (s.lists.lookup name).elim false fun l => decide (v ∈ l)

def listRemove (name : Str) (v : Bytes) : Structures × Bool :=
  match s.lists.lookup name with
  | some l =>
    if v ∈ l then ({ s with lists := s.lists.insert name (l.erase v) }, true) else (s, false)
  | none => (s, false)

def listGetAll (name : Str) : List Bytes := (s.lists.lookup name).getD []

def listClear (name : Str) : Structures :=
  match s.lists.lookup name with
  | some _ => { s with lists := s.lists.insert name [] }
  | none => s

def listIsEmpty (name : Str) : Bool := s.listSize name == 0

/-! ### Sets -/

def elements (d : Dict Bytes Unit) : List Bytes := d.keys

def setAdd (name : Str) (v : Bytes) : Structures × Bool :=
  let d := (s.sets.lookup name).getD ∅
  ({ s with sets := s.sets.insert name (d.insert v ()) }, (d.lookup v).isNone)

def setRemove (name : Str) (v : Bytes) : Structures × Bool :=
  match s.sets.lookup name with
  | some d =>
    if (d.lookup v).isSome then ({ s with sets := s.sets.insert name (d.erase v) }, true)
    else (s, false)
  | none => (s, false)

def setContains (name : Str) (v : Bytes) : Bool :=
  (s.sets.lookup name).elim false fun d => (d.lookup v).isSome

def setSize (name : Str) : ℕ := (s.sets.lookup name).elim 0 Dict.len

def setGetAll (name : Str) : List Bytes := (s.sets.lookup name).elim [] elements

def setClear (name : Str) : Structures :=
  match s.sets.lookup name with
  | some _ => { s with sets := s.sets.insert name ∅ }
  | none => s

/-! ### Multimaps -/

def mmPut (name : Str) (key value : Bytes) : Structures × Bool :=
  let mm := (s.multimaps.lookup name).getD ∅
  let values := (mm.lookup key).getD []
  if value ∈ values then
    ({ s with multimaps := s.multimaps.insert name (mm.insert key values) }, false)
  else
    ({ s with multimaps := s.multimaps.insert name (mm.insert key (values ++ [value])) }, true)

def mmGet (name : Str) (key : Bytes) : List Bytes :=
  ((s.multimaps.lookup name).bind fun mm => mm.lookup key).getD []

def mmRemove (name : Str) (key : Bytes) : Structures × List Bytes :=
  match s.multimaps.lookup name with
  | some mm =>
    ({ s with multimaps := s.multimaps.insert name (mm.erase key) }, (mm.lookup key).getD [])
  | none => (s, [])

def mmValueCount (name : Str) (key : Bytes) : ℕ :=
  ((s.multimaps.lookup name).bind fun mm => mm.lookup key).elim 0 length

def mmSize (name : Str) : ℕ :=
  (s.multimaps.lookup name).elim 0 fun mm => (mm.entries.map fun e => e.2.length).sum

/-! ### Ringbuffers -/

/-- Add an item behind the tail; the item at the head is dropped if there are more
than the capacity. -/
def rbAdd (name : Str) (v : Bytes) : Structures × Int64 :=
  let r := (s.ringbuffers.lookup name).getD {}
  let r := { r with tail := r.tail + 1, items := r.items ++ [v] }
  let r :=
    if r.cap < Int64.ofNat r.items.length then { r with items := r.items.tail, head := r.head + 1 }
    else r
  ({ s with ringbuffers := s.ringbuffers.insert name r }, r.tail)

def rbReadOne (name : Str) (seq : Int64) : Option Bytes :=
  (s.ringbuffers.lookup name).bind fun r =>
    if seq < r.head ∨ r.tail < seq then none else r.items[(seq - r.head).toUInt64.toNat]?

def rbSize (name : Str) : Int64 :=
  (s.ringbuffers.lookup name).elim 0 fun r => Int64.ofNat r.items.length

def rbCapacity (name : Str) : Int64 :=
  (s.ringbuffers.lookup name).elim 10000 Ring.cap

def rbTail (name : Str) : Int64 := (s.ringbuffers.lookup name).elim (-1) Ring.tail

def rbHead (name : Str) : Int64 := (s.ringbuffers.lookup name).elim 0 Ring.head

/-! ### Counters, estimators and generators -/

def pnGet (name : Str) : Int64 := (s.pncounters.lookup name).getD 0

def pnAdd (name : Str) (delta : Int64) (getBefore : Bool) : Structures × Int64 :=
  let old := s.pnGet name
  ({ s with pncounters := s.pncounters.insert name (old + delta) },
    if getBefore then old else old + delta)

def hllAdd (name : Str) (hash : UInt64) : Structures :=
  { s with hlls := s.hlls.insert name (((s.hlls.lookup name).getD .new).add hash) }

def hllEstimate (name : Str) : UInt64 := (s.hlls.lookup name).elim 0 Hll.estimate

def flakeBatch (name : Str) (batch : Int32) :
    Structures × Int64 × Int64 × Int32 :=
  let batch := max batch 1
  let base := (s.flake.lookup name).getD 1
  ({ s with flake := s.flake.insert name (base + batch.toInt64) }, base, 1, batch)

/-! ### Serialized states -/

def putMultimap (entries : List (Bytes × List Bytes)) : Bytes :=
  LittleEndian.encode 4 entries.length ++
    (entries.map fun e => Blob.put e.1 ++ Blob.putList e.2).flatten

def takeMultimap : ℕ → Bytes → Dict Bytes (List Bytes) → Dict Bytes (List Bytes)
  | 0, _, mm => mm
  | n + 1, data, mm =>
    match Blob.get data with
    | none => mm
    | some (key, rest) =>
      let (values, rest) := Blob.getList rest
      takeMultimap n rest (mm.insert key values)

def putI64 (v : Int64) : Bytes := LittleEndian.encode 8 v.toUInt64.toNat

def getI64 (data : Bytes) : Int64 := Int64.ofNat (LittleEndian.decode (data.take 8))

def serializeAux (kind : AuxKind) (name : Str) : Bytes :=
  match kind with
  | .queue => (s.queues.lookup name).elim [] Blob.putList
  | .list => (s.lists.lookup name).elim [] Blob.putList
  | .set => (s.sets.lookup name).elim [] fun d => Blob.putList (elements d)
  | .multimap =>
    (s.multimaps.lookup name).elim [] fun mm => putMultimap (mm.entries.map fun e => (e.1, e.2))
  | .ringbuffer =>
    (s.ringbuffers.lookup name).elim [] fun r =>
      putI64 r.head ++ putI64 r.tail ++ putI64 r.cap ++ Blob.putList r.items
  | .pncounter => (s.pncounters.lookup name).elim [] putI64
  | .hll => (s.hlls.lookup name).elim [] Hll.toBytes

def installAux (kind : AuxKind) (name : Str) (data : Bytes) : Structures :=
  match kind with
  | .queue => { s with queues := s.queues.insert name (Blob.getList data).1 }
  | .list => { s with lists := s.lists.insert name (Blob.getList data).1 }
  | .set =>
    let d := (Blob.getList data).1.foldl (fun d v => AList.insert v () d) (∅ : Dict Bytes Unit)
    { s with sets := s.sets.insert name d }
  | .multimap =>
    if data.length < 4 then s
    else
      let mm := takeMultimap (LittleEndian.decode (data.take 4)) (data.drop 4) ∅
      { s with multimaps := s.multimaps.insert name mm }
  | .ringbuffer =>
    if data.length < 24 then s
    else
      { s with
        ringbuffers := s.ringbuffers.insert name
          { head := getI64 data
            tail := getI64 (data.drop 8)
            cap := getI64 (data.drop 16)
            items := (Blob.getList (data.drop 24)).1 } }
  | .pncounter =>
    if data.length < 8 then s
    else { s with pncounters := s.pncounters.insert name (getI64 data) }
  | .hll => { s with hlls := s.hlls.insert name (Hll.fromBytes data) }

def auxNames : List (AuxKind × Str) :=
  s.queues.keys.map (AuxKind.queue, ·) ++ s.lists.keys.map (AuxKind.list, ·) ++
    s.sets.keys.map (AuxKind.set, ·) ++ s.multimaps.keys.map (AuxKind.multimap, ·) ++
    s.ringbuffers.keys.map (AuxKind.ringbuffer, ·) ++ s.pncounters.keys.map (AuxKind.pncounter, ·)

def allAux : List (AuxKind × Str × Bytes) :=
  s.auxNames.map fun kn => (kn.1, kn.2, s.serializeAux kn.1 kn.2)

end Structures

end BonsaiGrid.Store
