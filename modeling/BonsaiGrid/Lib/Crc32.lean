import BonsaiGrid.Lib.LittleEndian
import Mathlib.Logic.Function.Iterate

/-!
# CRC-32

The checksum of IEEE 802.3, bit by bit: reflected, with the polynomial
`0xEDB88320`, all bits set before and inverted after.
-/

namespace Crc32

def shift (crc : UInt32) : UInt32 :=
  if crc &&& 1 = 1 then (crc >>> 1) ^^^ 0xEDB88320 else crc >>> 1

def update (crc : UInt32) (b : UInt8) : UInt32 := shift^[8] (crc ^^^ b.toUInt32)

def hash (bytes : Bytes) : UInt32 := bytes.foldl update 0xFFFFFFFF ^^^ 0xFFFFFFFF

/-- The check value of the digits `1` to `9`. -/
example : hash [49, 50, 51, 52, 53, 54, 55, 56, 57] = 0xCBF43926 := by decide +kernel

end Crc32

/-- The checksum of the `crc32fast` crate, of which nothing is assumed. -/
class Crc32fast where
  hash : Bytes → UInt32

/-- What the crate computes, for runs on concrete bytes. -/
instance (priority := low) : Crc32fast := ⟨Crc32.hash⟩
