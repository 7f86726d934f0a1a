import BonsaiGrid.Lib.Utf8
import Mathlib.Data.Nat.Digits.Defs

/-!
# Decimal numbers in byte strings

How a standard library reads an integer from text, and how it writes a natural number.
-/

namespace Decimal

def isDigit (b : UInt8) : Bool := 48 ≤ b && b ≤ 57

def digits (text : Bytes) : Option ℕ :=
  if text ≠ [] ∧ text.all isDigit then
    some (text.foldl (fun v b => 10 * v + (b.toNat - 48)) 0)
  else none

def parseUnsigned (bound : ℕ) (text : Bytes) : Option ℕ :=
  (digits (if text.head? = some 43 then text.tail else text)).filter (· < bound)

def parseSigned (bound : ℕ) (text : Bytes) : Option ℤ :=
  if text.head? = some 45 then
    ((digits text.tail).filter (· ≤ bound)).map fun n : ℕ => -(n : ℤ)
  else (parseUnsigned bound text).map Int.ofNat

def ofUtf8 {α : Type} (parse : Bytes → Option α) (text : Bytes) : Option α :=
  if Utf8.valid text then parse text else none

def format (n : ℕ) : Bytes :=
  if n = 0 then [48] else ((Nat.digits 10 n).map fun d => UInt8.ofNat (48 + d)).reverse

end Decimal
