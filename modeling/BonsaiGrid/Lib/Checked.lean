import BonsaiGrid.Lib.Frames
import BonsaiGrid.Lib.LittleEndian

/-!
# Checksummed frames

A frame of a byte string: its length, with `extra` added to it, and its checksum, with four bytes
each, and then the bytes.
-/

namespace Checked

open LittleEndian List

variable (sum : Bytes → UInt32) (extra low : ℕ)

def frame (body : Bytes) : Bytes :=
  encode 4 (body.length % 2 ^ 32 + extra) ++ encode 4 (sum body).toNat ++
    body

/-- The body at the front and what is behind it, unless the header or the body is short, the
body is below the least length `low`, or the checksum is wrong. -/
def next (buf : Bytes) : Option (Bytes × Bytes) :=
  if buf.length < 8 then none
  else
    let len := decode (buf.take 4)
    let crc := decode ((buf.drop 4).take 4)
    if len < extra + low ∨ buf.length < 8 + (len - extra) then none
    else
      let body := (buf.drop 8).take (len - extra)
      if (sum body).toNat ≠ crc then none else some (body, buf.drop (8 + (len - extra)))

/-- The length fits the header and is no less than the least one. -/
def Fits (body : Bytes) : Prop := low ≤ body.length ∧ body.length + extra < 2 ^ 32

variable {sum extra low} {body : Bytes}

theorem length_frame (body : Bytes) : (frame sum extra body).length = 8 + body.length := by
  rw [frame, length_append, length_append, encode_length,
    encode_length]

theorem take_frame (h : Fits extra low body) (rest : Bytes) :
    decode ((frame sum extra body ++ rest).take 4) = body.length + extra := by
  have hlt := h.2
  rw [frame, Nat.mod_eq_of_lt (by omega)]
  exact decode_take_encode h.2 _

theorem next_frame (h : Fits extra low body) (rest : Bytes) :
    next sum extra low (frame sum extra body ++ rest) = some (body, rest) := by
  have hlen : (frame sum extra body ++ rest).length = 8 + body.length + rest.length := by
    rw [length_append, length_frame]
  have hhead : ¬ (frame sum extra body ++ rest).length < 8 := by omega
  have hbounds : ¬ (body.length + extra < extra + low ∨
      (frame sum extra body ++ rest).length < 8 + body.length) := by
    have hlow := h.1
    omega
  have hcrc : decode (((frame sum extra body ++ rest).drop 4).take 4) =
      (sum body).toNat := by
    exact decode_take_encode (UInt32.toNat_lt _) _
  have hbody : (frame sum extra body ++ rest).drop 8 = body ++ rest := by
    rw [frame, append_assoc]
    refine drop_left' ?_
    rw [length_append, encode_length, encode_length]
  rw [next, if_neg hhead]
  dsimp only
  rw [take_frame h, Nat.add_sub_cancel, if_neg hbounds, hcrc, hbody, take_left,
    if_neg (not_not_intro rfl), ← drop_drop, hbody, drop_left]

theorem next_torn (h : Fits extra low body) {k : ℕ} (hk : k < (frame sum extra body).length) :
    next sum extra low ((frame sum extra body).take k) = none := by
  have hlen : ((frame sum extra body).take k).length = k := by
    rw [length_take]
    omega
  rw [next, hlen]
  split
  next => rfl
  next hhead =>
    have htake : ((frame sum extra body).take k).take 4 = (frame sum extra body ++ []).take 4 := by
      rw [take_take, append_nil, Nat.min_eq_left (by omega)]
    dsimp only
    rw [htake, take_frame h, Nat.add_sub_cancel, if_pos (Or.inr _)]
    rw [length_frame] at hk
    exact hk

theorem framing (sum : Bytes → UInt32) (extra low : ℕ) :
    Frames.Framing (next sum extra low) (frame sum extra) (Fits extra low) where
  next_frame := fun _ rest h => next_frame h rest
  next_torn := fun _ _ h hk => next_torn h hk
  length_pos := fun body => by
    rw [length_frame]
    omega

end Checked
