import BonsaiGrid.Protocol.Frame
import BonsaiGrid.Serialization.Partition
import BonsaiGrid.Serialization.Schema

/-!
# Fields of a serialized value

A predicate reads the fields of a value that a client has serialized, as a portable or as a
compact record. A field that is missing, or that the record does not hold whole, is null.
-/

namespace BonsaiGrid.Serialization

open Protocol
open Fault (getRange)

/-! ## Floating point numbers -/

structure F64 where
  bits : UInt64
deriving DecidableEq

namespace F64

variable (f : F64)

def magnitude : ℤ := (f.bits &&& 0x7fffffffffffffff).toNat

def isNegative : Bool := 0x8000000000000000 ≤ f.bits

def isNan : Bool := 0x7ff0000000000000 < f.magnitude

def place : ℤ := if f.isNegative then -f.magnitude - 1 else f.magnitude

def value : ℤ := if f.isNegative then -f.magnitude else f.magnitude

def totalCmp (a b : F64) : Ordering := Ord.compare a.place b.place

def partialCmp (a b : F64) : Option Ordering :=
  if a.isNan || b.isNan then none else some (Ord.compare a.value b.value)

def ofF32 (b : ℕ) : F64 :=
  let sign := b / 2 ^ 31 * 2 ^ 63
  let exponent := b / 2 ^ 23 % 2 ^ 8
  let fraction := b % 2 ^ 23
  let bits :=
    if exponent = 255 then 2047 * 2 ^ 52 + fraction * 2 ^ 29
    else if exponent = 0 then
      if fraction = 0 then 0
      else
        let k := fraction.log2
        (k + 874) * 2 ^ 52 + (fraction * 2 ^ (52 - k) - 2 ^ 52)
    else (exponent + 896) * 2 ^ 52 + fraction * 2 ^ 29
  ⟨UInt64.ofNat (sign + bits)⟩

end F64

/-! ## Field values -/

inductive FieldValue where
  | null
  | bool (b : Bool)
  | i32 (v : Int32)
  | i64 (v : Int64)
  | f64 (v : F64)
  | str (s : Str)
deriving DecidableEq

namespace FieldValue

def cmp : FieldValue → FieldValue → Ordering
  | null, null => .eq
  | null, _ => .lt
  | _, null => .gt
  | bool a, bool b => Ord.compare a b
  | bool _, _ => .lt
  | _, bool _ => .gt
  | i32 a, i32 b => Ord.compare a.toInt b.toInt
  | i64 a, i64 b => Ord.compare a.toInt b.toInt
  | i32 a, i64 b => Ord.compare a.toInt b.toInt
  | i64 a, i32 b => Ord.compare a.toInt b.toInt
  | i32 _, _ => .lt
  | _, i32 _ => .gt
  | i64 _, _ => .lt
  | _, i64 _ => .gt
  | f64 a, f64 b => a.totalCmp b
  | f64 _, _ => .lt
  | _, f64 _ => .gt
  | str a, str b => Ord.compare a.bytes b.bytes

def compare : FieldValue → FieldValue → Option Ordering
  | i32 a, i32 b => some (Ord.compare a.toInt b.toInt)
  | i64 a, i64 b => some (Ord.compare a.toInt b.toInt)
  | i32 a, i64 b => some (Ord.compare a.toInt b.toInt)
  | i64 a, i32 b => some (Ord.compare a.toInt b.toInt)
  | f64 a, f64 b => a.partialCmp b
  | str a, str b => some (Ord.compare a.bytes b.bytes)
  | bool a, bool b => some (Ord.compare a b)
  | _, _ => none

def equals (a b : FieldValue) : Bool := a.compare b == some .eq

def isFloat : FieldValue → Bool
  | f64 _ => true
  | _ => false

section Orders

variable {a b c : FieldValue} {o : Ordering}

def rank : FieldValue → ℕ
  | null => 0
  | bool _ => 1
  | i32 _ => 2
  | i64 _ => 2
  | f64 _ => 3
  | str _ => 4

def number : FieldValue → ℤ
  | bool b => b.toInt
  | i32 v => v.toInt
  | i64 v => v.toInt
  | f64 v => v.place
  | _ => 0

def text : FieldValue → Bytes
  | str s => s.bytes
  | _ => []

theorem cmp_eq : cmp =
    compareLex (compareOn rank) (compareLex (compareOn number) (compareOn text)) := by
  funext a b
  cases a <;> cases b <;>
    simp [cmp, rank, number, text, compareLex, compareOn, F64.totalCmp, Nat.compare_eq_lt.2,
      Nat.compare_eq_gt.2]
  next a b => cases a <;> cases b <;> rfl

instance instTransCmpCmp : Std.TransCmp cmp := by
  rw [cmp_eq]
  infer_instance

@[simp] theorem cmp_self (a : FieldValue) : a.cmp a = .eq := Std.ReflCmp.compare_self

theorem cmp_of_compare (hfloat : a.isFloat = false) (h : a.compare b = some o) : a.cmp b = o := by
  cases a <;> cases b <;> simp_all [compare, cmp, isFloat]

end Orders

end FieldValue

/-! ## Reading a record -/

variable (b : Bytes)

def beNat : ℕ := LittleEndian.decode b.reverse

def beI32 (p : ℕ) : Option Int32 :=
  (getRange b p ((p + 4) % 2 ^ 64)).map fun s => (UInt32.ofNat (beNat s)).toInt32

def beI64 (p : ℕ) : Option Int64 :=
  (getRange b p ((p + 8) % 2 ^ 64)).map fun s => (UInt64.ofNat (beNat s)).toInt64

variable (value : Bytes)

def typeId : ℤ := toI32 (beNat ((value.take 8).drop 4))

variable (payload : Bytes)

def portableValue (fieldTypeId : UInt8) (start : ℕ) : FieldValue :=
  let read (n : ℕ) (f : Bytes → FieldValue) : FieldValue :=
    (getRange payload start (start + n)).elim .null f
  match fieldTypeId with
  | 1 => read 1 fun s => .i32 (Int32.ofNat (beNat s))
  | 2 => read 1 fun s => .bool (beNat s ≠ 0)
  | 3 => read 2 fun s => .i32 (Int32.ofNat (beNat s))
  | 4 => read 2 fun s => .i32 (UInt16.ofNat (beNat s)).toInt16.toInt32
  | 5 => read 4 fun s => .i32 (UInt32.ofNat (beNat s)).toInt32
  | 6 => read 8 fun s => .i64 (UInt64.ofNat (beNat s)).toInt64
  | 7 => read 4 fun s => .f64 (.ofF32 (beNat s))
  | 8 => read 8 fun s => .f64 ⟨UInt64.ofNat (beNat s)⟩
  | 9 => read 4 fun s =>
    if toI32 (beNat s) < 0 then .null
    else
      (getRange payload (start + 4) (start + 4 + beNat s)).elim .null fun s =>
        .str (Str.fromUtf8Lossy s)
  | _ => .null

def portableField (field : Str) (i : ℕ) : Option FieldValue := do
  let pos ← beI32 payload (20 + i * 4)
  guard (0 ≤ pos)
  let pos := pos.toInt.toNat
  let len := beNat (← getRange payload pos (pos + 2))
  let name ← getRange payload (pos + 2) (pos + 2 + len)
  guard (Str.fromUtf8Lossy name = field)
  let typePos := pos + 2 + len
  some ((payload[typePos]?).elim .null fun ty => portableValue payload ty (typePos + 1))

def portableExtract (field : Str) : FieldValue :=
  if value.length < dataOffset + 20 then .null
  else if typeId value ≠ -1 then .null
  else
    let payload := value.drop dataOffset
    match beI32 payload 16 with
    | some count =>
      if 0 ≤ count then
        ((List.range count.toInt.toNat).findSome? (portableField payload field)).getD .null
      else .null
    | none => .null

def varOffset (table : ℕ) (index : ℤ) (dataLen : ℕ) : ℤ :=
  let i := asUsize index
  if dataLen < 255 then
    match payload[table + i]? with
    | some b => if b = 0xff then -1 else b.toNat
    | none => -1
  else if dataLen < 65535 then
    match getRange payload (table + i * 2) (table + i * 2 + 2) with
    | some s => if beNat s = 0xffff then -1 else beNat s
    | none => -1
  else (beI32 payload ((table + i * 4) % 2 ^ 64)).elim (-1) Int32.toInt

def compactText (dataStart : ℕ) (o : ℤ) : FieldValue :=
  if o < 0 then .null
  else
    let pos := dataStart + o.toNat
    match beI32 payload pos with
    | some len =>
      if 0 ≤ len then
        (getRange payload (pos + 4) (pos + 4 + len.toInt.toNat)).elim .null fun s =>
          .str (Str.fromUtf8Lossy s)
      else .null
    | none => .null

/-- The value of a field of a compact record whose data starts at a byte and whose table of
offsets starts at another. -/
def compactValue (fd : FieldDescriptor) (dataStart varTable dataLen : ℕ) :
    FieldValue :=
  let off := dataStart + fd.offset.toNat
  if fd.kind = FieldKind.int32 then (beI32 payload off).elim .null .i32
  else if fd.kind = FieldKind.int64 then (beI64 payload off).elim .null .i64
  else if fd.kind = FieldKind.float64 then
    (beI64 payload off).elim .null fun b => .f64 ⟨b.toUInt64⟩
  else if fd.kind = FieldKind.boolean then
    (payload[off]?).elim .null fun byte => .bool (byte.toNat.testBit fd.bit.toNat)
  else if fd.kind = FieldKind.string then
    compactText payload dataStart (varOffset payload varTable fd.index dataLen)
  else .null

def compactExtract (schemas : SchemaService) (field : Str) : FieldValue :=
  if value.length < dataOffset + 8 then .null
  else
    let payload := value.drop dataOffset
    match (beI64 payload 0).bind schemas.get with
    | none => .null
    | some schema =>
      match schema.field field with
      | none => .null
      | some fd =>
        if 0 < schema.varFieldCount then
          match beI32 payload 8 with
          | none => .null
          | some v =>
            let dl := asUsize v.toInt
            compactValue payload fd 12 ((12 + dl) % 2 ^ 64) dl
        else compactValue payload fd 8 0 0

def autoExtract (schemas : SchemaService) (field : Str) : FieldValue :=
  if value.length < 8 then .null
  else if typeId value = -1 then portableExtract value field
  else compactExtract value schemas field

end BonsaiGrid.Serialization
