import BonsaiGrid.Lib.Dict
import BonsaiGrid.Lib.Utf8

/-!
# The replicated objects

The CP objects without an owner: `IAtomicLong`, `IAtomicReference`, `ICountDownLatch`,
`ISemaphore` and `CPMap`.
-/

namespace BonsaiGrid.Cp

inductive CpReply where
  | long (v : Int64)
  | bool (b : Bool)
  | data (d : Option Bytes)
  | nil
deriving DecidableEq, Repr

def getRange (b : Bytes) (p n : ℕ) : Option Bytes :=
  if p + n ≤ b.length then some ((b.drop p).take n) else none

variable (bytes : Bytes)

def i64 : Int64 := Int64.ofNat (LittleEndian.decode bytes)

def i32 : Int32 := Int32.ofNat (LittleEndian.decode bytes)

def putI64 (v : Int64) : Bytes := LittleEndian.encode 8 v.toUInt64.toNat

/-! ## AtomicLong -/

/-- An AtomicLong operation. -/
inductive AlOp where
  | get
  | set (v : Int64)
  | getAndSet (v : Int64)
  | addAndGet (d : Int64)
  | getAndAdd (d : Int64)
  | compareAndSet (e n : Int64)
deriving DecidableEq, Repr

inductive AlReply where
  | long (v : Int64)
  | bool (b : Bool)
  | none
deriving DecidableEq, Repr

namespace AtomicLong

def encode (name : Str) (op : AlOp) : Bytes :=
  let (tag, a, b) : UInt8 × Int64 × Int64 :=
    match op with
    | .get => (0, 0, 0)
    | .set v => (1, v, 0)
    | .getAndSet v => (2, v, 0)
    | .addAndGet d => (3, d, 0)
    | .getAndAdd d => (4, d, 0)
    | .compareAndSet e n => (5, e, n)
  [tag] ++ putI64 a ++ putI64 b ++ name.bytes

def decode : Option (Str × AlOp) :=
  if bytes.length < 17 then none
  else do
    let tag := bytes.getD 0 0
    let a := i64 ((bytes.drop 1).take 8)
    let b := i64 ((bytes.drop 9).take 8)
    let name ← Str.fromUtf8 (bytes.drop 17)
    let op ←
      match tag with
      | 0 => some AlOp.get
      | 1 => some (.set a)
      | 2 => some (.getAndSet a)
      | 3 => some (.addAndGet a)
      | 4 => some (.getAndAdd a)
      | 5 => some (.compareAndSet a b)
      | _ => none
    some (name, op)

end AtomicLong

structure AtomicLongSm where
  values : Dict Str Int64 := ∅

def AtomicLongSm.apply (sm : AtomicLongSm) (command : Bytes) : AtomicLongSm × AlReply :=
  match AtomicLong.decode command with
  | none => (sm, .none)
  | some (name, op) =>
    let v := (sm.values.lookup name).getD 0
    let store (n : Int64) : AtomicLongSm := ⟨sm.values.insert name n⟩
    match op with
    | .get => (store v, .long v)
    | .set n => (store n, .none)
    | .getAndSet n => (store n, .long v)
    | .addAndGet d => (store (v + d), .long (v + d))
    | .getAndAdd d => (store (v + d), .long v)
    | .compareAndSet e n => if v = e then (store n, .bool true) else (store v, .bool false)

/-! ## AtomicReference -/

/-- An AtomicReference operation. -/
inductive ArOp where
  | get
  | set (v : Option Bytes)
  | getAndSet (v : Option Bytes)
  | compareAndSet (expected update : Option Bytes)
  | contains (v : Option Bytes)
  | isNull
  | clear
deriving DecidableEq, Repr

namespace AtomicRef

def getOpt (b : Bytes) (p : ℕ) : Option (Option Bytes × ℕ) := do
  let tag ← b[p]?
  if tag = 0 then some (none, p + 1)
  else
    let len := LittleEndian.decode (← getRange b (p + 1) 4)
    let v ← getRange b (p + 5) len
    some (some v, p + 5 + len)

def decode (body : Bytes) : Option (Str × ArOp) := do
  let tag ← body.head?
  let (op, p) ←
    match tag with
    | 0 => some (ArOp.get, 1)
    | 1 => (getOpt body 1).map fun (v, p) => (.set v, p)
    | 2 => (getOpt body 1).map fun (v, p) => (.getAndSet v, p)
    | 3 => do
        let (e, p) ← getOpt body 1
        let (u, p) ← getOpt body p
        some (.compareAndSet e u, p)
    | 4 => (getOpt body 1).map fun (v, p) => (.contains v, p)
    | 5 => some (.isNull, 1)
    | 6 => some (.clear, 1)
    | _ => none
  let name ← Str.fromUtf8 (body.drop p)
  some (name, op)

end AtomicRef

structure AtomicReferenceSm where
  values : Dict Str Bytes := ∅

namespace AtomicReferenceSm

def store (sm : AtomicReferenceSm) (name : Str) : Option Bytes → AtomicReferenceSm
  | some b => ⟨sm.values.insert name b⟩
  | none => ⟨sm.values.erase name⟩

def apply (sm : AtomicReferenceSm) (body : Bytes) : AtomicReferenceSm × CpReply :=
  match AtomicRef.decode body with
  | none => (sm, .nil)
  | some (name, op) =>
    let cur := sm.values.lookup name
    match op with
    | .get => (sm, .data cur)
    | .set v => (sm.store name v, .nil)
    | .getAndSet v => (sm.store name v, .data cur)
    | .compareAndSet expected update =>
      if cur = expected then (sm.store name update, .bool true) else (sm, .bool false)
    | .contains v => (sm, .bool (cur = v))
    | .isNull => (sm, .bool cur.isNone)
    | .clear => (⟨sm.values.erase name⟩, .nil)

end AtomicReferenceSm

/-! ## CountDownLatch -/

/-- A CountDownLatch operation. -/
inductive CdlOp where
  | getCount
  | countDown
  | trySetCount (n : Int32)
deriving DecidableEq, Repr

def CountDownLatch.decode (body : Bytes) : Option (Str × CdlOp) := do
  let tag ← body.head?
  let (op, p) ←
    match tag with
    | 0 => some (CdlOp.getCount, 1)
    | 1 => some (.countDown, 1)
    | 2 => (getRange body 1 4).map fun n => (.trySetCount (i32 n), 5)
    | _ => none
  let name ← Str.fromUtf8 (body.drop p)
  some (name, op)

structure CountDownLatchSm where
  counts : Dict Str Int32 := ∅

def CountDownLatchSm.apply (sm : CountDownLatchSm) (body : Bytes) : CountDownLatchSm × CpReply :=
  match CountDownLatch.decode body with
  | none => (sm, .nil)
  | some (name, op) =>
    let c := (sm.counts.lookup name).getD 0
    let store (n : Int32) : CountDownLatchSm := ⟨sm.counts.insert name n⟩
    match op with
    | .getCount => (sm, .long c.toInt64)
    | .countDown => (store (max (c - 1) 0), .nil)
    | .trySetCount n =>
      if c = 0 then (store (max n 0), .bool true) else (store c, .bool false)

/-! ## Semaphore -/

inductive SemOp where
  | init (n : Int32)
  | acquire (n : Int32)
  | release (n : Int32)
  | drain
  | availablePermits
deriving DecidableEq, Repr

def Semaphore.decode (body : Bytes) : Option (Str × SemOp) := do
  let tag ← body.head?
  let (op, p) ←
    match tag with
    | 0 => (getRange body 1 4).map fun n => (SemOp.init (i32 n), 5)
    | 1 => (getRange body 1 4).map fun n => (.acquire (i32 n), 5)
    | 2 => (getRange body 1 4).map fun n => (.release (i32 n), 5)
    | 3 => some (.drain, 1)
    | 4 => some (.availablePermits, 1)
    | _ => none
  let name ← Str.fromUtf8 (body.drop p)
  some (name, op)

structure SemaphoreSm where
  permits : Dict Str Int32 := ∅

def SemaphoreSm.apply (sm : SemaphoreSm) (body : Bytes) : SemaphoreSm × CpReply :=
  match Semaphore.decode body with
  | none => (sm, .nil)
  | some (name, op) =>
    let p := (sm.permits.lookup name).getD 0
    let store (n : Int32) : SemaphoreSm := ⟨sm.permits.insert name n⟩
    match op with
    | .init n =>
      if name ∈ sm.permits then (sm, .bool false) else (store (max n 0), .bool true)
    | .acquire n =>
      if 0 ≤ n ∧ n ≤ p then (store (p - n), .bool true) else (store p, .bool false)
    | .release n => (store (p + max n 0), .bool true)
    | .drain => (store 0, .long p.toInt64)
    | .availablePermits => (sm, .long p.toInt64)

/-! ## CPMap -/

inductive MapOp where
  | get (k : Bytes)
  | put (k v : Bytes)
  | set (k v : Bytes)
  | putIfAbsent (k v : Bytes)
  | remove (k : Bytes)
  | removeIfEquals (k v : Bytes)
  | replace (k v : Bytes)
  | compareAndSet (k e n : Bytes)
  | containsKey (k : Bytes)
  | size
  | clear
deriving DecidableEq, Repr

namespace CpMap

def getBlob (b : Bytes) (p : ℕ) : Option (Bytes × ℕ) := do
  let n := LittleEndian.decode (← getRange b p 4)
  let s ← getRange b (p + 4) n
  some (s, p + 4 + n)

def decode : Option (Str × MapOp) := do
  let tag ← bytes.head?
  let rest := bytes.tail
  let (name, p) ← getBlob rest 0
  let name ← Str.fromUtf8 name
  let key (op : Bytes → MapOp) : Option MapOp := do
    let (k, _) ← getBlob rest p
    some (op k)
  let keyValue (op : Bytes → Bytes → MapOp) : Option MapOp := do
    let (k, p) ← getBlob rest p
    let (v, _) ← getBlob rest p
    some (op k v)
  let op ←
    match tag with
    | 0 => key .get
    | 1 => keyValue .put
    | 2 => keyValue .set
    | 3 => keyValue .putIfAbsent
    | 4 => key .remove
    | 5 => keyValue .removeIfEquals
    | 6 => keyValue .replace
    | 7 => do
        let (k, p) ← getBlob rest p
        let (e, p) ← getBlob rest p
        let (n, _) ← getBlob rest p
        some (MapOp.compareAndSet k e n)
    | 8 => key .containsKey
    | 9 => some .size
    | 10 => some .clear
    | _ => none
  some (name, op)

end CpMap

structure CpMapSm where
  maps : Dict Str (Dict Bytes Bytes) := ∅

def CpMapSm.apply (sm : CpMapSm) (body : Bytes) : CpMapSm × CpReply :=
  match CpMap.decode body with
  | none => (sm, .nil)
  | some (name, op) =>
    let m := (sm.maps.lookup name).getD ∅
    let store (m : Dict Bytes Bytes) : CpMapSm := ⟨sm.maps.insert name m⟩
    match op with
    | .get k => (store m, .data (m.lookup k))
    | .put k v => (store (m.insert k v), .data (m.lookup k))
    | .set k v => (store (m.insert k v), .nil)
    | .putIfAbsent k v =>
      match m.lookup k with
      | some existing => (store m, .data (some existing))
      | none => (store (m.insert k v), .data none)
    | .remove k => (store (m.erase k), .data (m.lookup k))
    | .removeIfEquals k v =>
      if m.lookup k = some v then (store (m.erase k), .bool true) else (store m, .bool false)
    | .replace k v =>
      if k ∈ m then (store (m.insert k v), .data (m.lookup k)) else (store m, .data none)
    | .compareAndSet k e n =>
      if m.lookup k = some e then (store (m.insert k n), .bool true)
      else (store m, .bool false)
    | .containsKey k => (store m, .bool (k ∈ m))
    | .size => (store m, .long (Int64.ofNat m.len))
    | .clear => (store ∅, .nil)

end BonsaiGrid.Cp
