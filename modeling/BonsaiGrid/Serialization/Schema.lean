import BonsaiGrid.Lib.Dict
import BonsaiGrid.Lib.Utf8
import Mathlib.Data.List.Sort

/-!
# Schemas of compact records

A compact record names its schema by a fingerprint of the type name and of the names and kinds of
the fields.
-/

namespace BonsaiGrid.Serialization

namespace FieldKind

def boolean : Int32 := 1
def int8 : Int32 := 3
def char : Int32 := 5
def int16 : Int32 := 7
def int32 : Int32 := 9
def int64 : Int32 := 11
def float32 : Int32 := 13
def float64 : Int32 := 15
def string : Int32 := 17

end FieldKind

def fixedByteSize (kind : Int32) : Option ℕ :=
  if kind = FieldKind.int8 then some 1
  else if kind = FieldKind.int16 ∨ kind = FieldKind.char then some 2
  else if kind = FieldKind.int32 ∨ kind = FieldKind.float32 then some 4
  else if kind = FieldKind.int64 ∨ kind = FieldKind.float64 then some 8
  else none

structure FieldDescriptor where
  name : Str
  kind : Int32
  /-- The byte at which a field of fixed size or a boolean stands. -/
  offset : ℤ := -1
  /-- The number of a field of variable size. -/
  index : ℤ := -1
  /-- The bit of a boolean in its byte. -/
  bit : ℤ := -1
deriving DecidableEq

/-! ## The fingerprint -/

def fpInit : UInt64 := 0xc15d213aa4d7a795

def fpEntry (i : UInt64) : UInt64 :=
  (List.range 8).foldl (fun fp _ => fp >>> 1 ^^^ fpInit &&& (0 - (fp &&& 1))) i

def fpByte (fp : UInt64) (b : UInt8) : UInt64 :=
  fp >>> 8 ^^^ fpEntry ((fp ^^^ b.toUInt64) &&& 0xff)

def fpInt (fp : UInt64) (v : UInt32) : UInt64 :=
  ([0, 8, 16, 24] : List UInt32).foldl
    (fun fp shift => fpByte fp (v >>> shift &&& 0xff).toUInt8) fp

def fpStr (fp : UInt64) (s : Str) : UInt64 :=
  s.bytes.foldl fpByte (fpInt fp (UInt32.ofNat s.bytes.length))

def fingerprint (typeName : Str) (fields : List FieldDescriptor) : Int64 :=
  let fp := fpInt (fpStr fpInit typeName) (UInt32.ofNat fields.length)
  (fields.foldl (fun fp f => fpInt (fpStr fp f.name) f.kind.toUInt32) fp).toInt64

/-! ## The layout -/

structure Schema where
  fields : List FieldDescriptor
  id : Int64
  varFieldCount : ℕ
deriving DecidableEq

def sizeAt (fields : List FieldDescriptor) (i : ℕ) : ℕ :=
  (fields[i]?.bind fun f => fixedByteSize f.kind).getD 0

def layFixed (fields : List FieldDescriptor) : List FieldDescriptor × ℤ :=
  let fixed := ((List.range fields.length).filter fun i => 0 < sizeAt fields i).insertionSort
    fun a b => sizeAt fields b ≤ sizeAt fields a
  fixed.foldl
    (fun r i => (r.1.modify i fun f => { f with offset := r.2 }, r.2 + sizeAt fields i))
    (fields, 0)

def layBooleans : List FieldDescriptor → ℤ → ℤ → List FieldDescriptor
  | [], _, _ => []
  | f :: fields, offset, bit =>
    if f.kind = FieldKind.boolean then
      { f with offset, bit } ::
        if bit + 1 = 8 then layBooleans fields (offset + 1) 0
        else layBooleans fields offset (bit + 1)
    else f :: layBooleans fields offset bit

def layVariable : List FieldDescriptor → ℕ → List FieldDescriptor × ℕ
  | [], index => ([], index)
  | f :: fields, index =>
    if f.kind ≠ FieldKind.boolean ∧ fixedByteSize f.kind = none then
      let r := layVariable fields (index + 1)
      ({ f with index } :: r.1, r.2)
    else
      let r := layVariable fields index
      (f :: r.1, r.2)

namespace Schema

def new (typeName : Str) (fields : List FieldDescriptor) : Schema :=
  let fields := fields.insertionSort fun a b => a.name.bytes ≤ b.name.bytes
  let id := fingerprint typeName fields
  let (fields, offset) := layFixed fields
  let (fields, varFieldCount) := layVariable (layBooleans fields offset 0) 0
  { fields, id, varFieldCount }

def field (s : Schema) (name : Str) : Option FieldDescriptor :=
  s.fields.find? fun f => f.name = name

end Schema

abbrev SchemaService := Dict Int64 Schema

namespace SchemaService

def put (s : SchemaService) (schema : Schema) : SchemaService := s.insert schema.id schema

def get (s : SchemaService) (id : Int64) : Option Schema := s.lookup id

end SchemaService

end BonsaiGrid.Serialization
