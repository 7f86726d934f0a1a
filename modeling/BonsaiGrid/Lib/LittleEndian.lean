import Mathlib.Algebra.Ring.Nat
import Mathlib.Data.List.Basic

/-!
# Little-endian numbers

Fixed-width little-endian encodings of natural numbers as byte lists. Encoding
keeps the low bytes only, as a machine integer does, so the round trip is exact
for the numbers that fit.
-/

abbrev Bytes := List UInt8

instance instLawfulBEqBytes : LawfulBEq Bytes := inferInstance

namespace LittleEndian

def encode : ℕ → ℕ → Bytes
  | 0, _ => []
  | k + 1, n => UInt8.ofNat n :: encode k (n / 256)

def decode : Bytes → ℕ
  | [] => 0
  | b :: bs => b.toNat + 256 * decode bs

@[simp] theorem encode_length (k n : ℕ) : (encode k n).length = k := by
  induction k generalizing n with
  | zero => rfl
  | succ k ih => simp [encode, ih]

theorem decode_encode_mod (k n : ℕ) : decode (encode k n) = n % 256 ^ k := by
  induction k generalizing n with
  | zero => simp [encode, decode, Nat.mod_one]
  | succ k ih =>
    have hbyte : (UInt8.ofNat n).toNat = n % 256 := by simp
    rw [encode, decode, ih, hbyte, Nat.pow_succ, Nat.mul_comm (256 ^ k) 256, Nat.mod_mul]

theorem decode_encode {k n : ℕ} (h : n < 256 ^ k) : decode (encode k n) = n := by
  rw [decode_encode_mod, Nat.mod_eq_of_lt h]

theorem decode_take_encode {k n : ℕ} (h : n < 256 ^ k) (rest : Bytes) :
    decode ((encode k n ++ rest).take k) = n := by
  rw [List.take_left' (encode_length k n), decode_encode h]

@[simp] theorem drop_encode (k n : ℕ) (rest : Bytes) : (encode k n ++ rest).drop k = rest :=
  List.drop_left' (encode_length k n)

theorem int64_ofNat_toNat (v : Int64) : Int64.ofNat v.toUInt64.toNat = v := by
  refine Int64.toBitVec_inj.1 ?_
  change BitVec.ofNat 64 v.toUInt64.toBitVec.toNat = v.toBitVec
  rw [BitVec.ofNat_toNat]
  rfl

end LittleEndian
