import BonsaiGrid.Lib.LittleEndian

/-!
# The partition of a key

A key that a client sends carries its partition hash in its first four bytes; where they are zero,
the hash is computed from what comes behind the header.
-/

namespace BonsaiGrid.Serialization

def dataOffset : ℕ := 8

def murmurSeed : UInt32 := 0x01000193

def rotateLeft (x : UInt32) (n : UInt32) : UInt32 := x <<< n ||| x >>> (32 - n)

def fmix (h : UInt32) : UInt32 :=
  let h := h ^^^ h >>> 16
  let h := h * 0x85ebca6b
  let h := h ^^^ h >>> 13
  let h := h * 0xc2b2ae35
  h ^^^ h >>> 16

def scramble (k : UInt32) : UInt32 := rotateLeft (k * 0xcc9e2d51) 15 * 0x1b873593

def mixBlocks (h : UInt32) : List UInt8 → UInt32 × List UInt8
  | a :: b :: c :: d :: data =>
    let k := UInt32.ofNat (LittleEndian.decode [a, b, c, d])
    mixBlocks (rotateLeft (h ^^^ scramble k) 13 * 5 + 0xe6546b64) data
  | tail => (h, tail)

variable (data : List UInt8)

def murmur3X8632 (seed : UInt32) : Int32 :=
  let (h, tail) := mixBlocks seed data
  let h := if tail = [] then h else h ^^^ scramble (UInt32.ofNat (LittleEndian.decode tail))
  (fmix (h ^^^ UInt32.ofNat data.length)).toInt32

def partitionHash : Int32 :=
  if data.length < dataOffset then 0
  else
    let stored := (UInt32.ofNat (LittleEndian.decode (data.take 4).reverse)).toInt32
    if stored ≠ 0 then stored else murmur3X8632 (data.drop dataOffset) murmurSeed

def partitionId (partitionCount : Int32) : Int32 :=
  let h := partitionHash data
  if h = Int32.minValue then 0 else h.abs % partitionCount

end BonsaiGrid.Serialization
