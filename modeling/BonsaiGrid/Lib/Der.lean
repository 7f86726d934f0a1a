import BonsaiGrid.Lib.LittleEndian
import Mathlib.Data.Nat.Digits.Lemmas

/-!
# Distinguished encoding

A value is its tag, the length of its contents and the contents.
-/

namespace Der

def lengthBytes (n : ℕ) : Bytes :=
  if n < 128 then [UInt8.ofNat n]
  else
    UInt8.ofNat (128 + (Nat.digits 256 n).length) :: ((Nat.digits 256 n).map UInt8.ofNat).reverse

def tlv (tag : UInt8) (content : Bytes) : Bytes := tag :: (lengthBytes content.length ++ content)

theorem lengthBytes_short {n : ℕ} (h : n < 128) : lengthBytes n = [UInt8.ofNat n] := if_pos h

theorem lengthBytes_long {n : ℕ} (h : 128 ≤ n) (hn : n < 2 ^ 64) :
    ∃ b rest, lengthBytes n = b :: rest ∧ 128 ≤ b.toNat := by
  refine ⟨_, _, if_neg (Nat.not_lt.mpr h), ?_⟩
  have hlen : (Nat.digits 256 n).length ≤ 8 := (Nat.digits_length_le_iff (by decide) n).mpr hn
  have hbyte : (UInt8.ofNat (128 + (Nat.digits 256 n).length)).toNat =
      128 + (Nat.digits 256 n).length := UInt8.toNat_ofNat_of_lt (by show _ < 256; omega)
  omega

theorem tlv_append (tag : UInt8) (content rest : Bytes) :
    tlv tag content ++ rest = tag :: lengthBytes content.length ++ (content ++ rest) := by
  rw [tlv, List.cons_append, List.cons_append, List.append_assoc]

end Der
