import BonsaiGrid.Lib.LittleEndian

/-!
# Length-prefixed byte strings

A byte string behind its length, which is written with four bytes, and a list of such byte strings
behind their number.
-/

namespace Blob

open LittleEndian List

def put (b : Bytes) : Bytes := encode 4 b.length ++ b

def get (data : Bytes) : Option (Bytes × Bytes) :=
  if data.length < 4 then none
  else
    let n := decode (data.take 4)
    let rest := data.drop 4
    if rest.length < n then none else some (rest.take n, rest.drop n)

variable (items : List Bytes)

def putList : Bytes :=
  encode 4 items.length ++ (items.map put).flatten

/-- Up to `n` byte strings off the front. -/
def take : ℕ → Bytes → List Bytes × Bytes
  | 0, data => ([], data)
  | n + 1, data =>
    if data.length < 4 then ([], data)
    else
      let l := decode (data.take 4)
      let rest := data.drop 4
      if rest.length < l then ([], rest)
      else
        let (items, tail) := take n (rest.drop l)
        (rest.take l :: items, tail)

def getList (data : Bytes) : List Bytes × Bytes :=
  if data.length < 4 then ([], data)
  else take (decode (data.take 4)) (data.drop 4)

/-- The number and every length can be written with four bytes. -/
def Fits : Prop := items.length < 2 ^ 32 ∧ ∀ b ∈ items, b.length < 2 ^ 32

section RoundTrip

variable {b : Bytes} {items : List Bytes}

@[simp] theorem length_put (b : Bytes) : (put b).length = 4 + b.length := by
  rw [put, length_append, encode_length]

theorem decode_take_put (h : b.length < 2 ^ 32) (rest : Bytes) :
    decode ((put b ++ rest).take 4) = b.length := by
  exact decode_take_encode h _

theorem drop_put (b rest : Bytes) : (put b ++ rest).drop 4 = b ++ rest := by
  rw [put, append_assoc, drop_encode]

theorem get_put (h : b.length < 2 ^ 32) (rest : Bytes) : get (put b ++ rest) = some (b, rest) := by
  have hlen : ¬ (put b ++ rest).length < 4 := by
    rw [length_append, length_put]
    omega
  have hrest : ¬ (b ++ rest).length < b.length := by
    rw [length_append]
    omega
  rw [get, if_neg hlen, decode_take_put h, drop_put, if_neg hrest, take_left, drop_left]

theorem get_of_short {n : ℕ} {rest : Bytes} (hn : n < 2 ^ 32) (h : rest.length < n) :
    get (encode 4 n ++ rest) = none := by
  have hlen : ¬ (encode 4 n ++ rest).length < 4 := by
    rw [length_append, encode_length]
    omega
  rw [get, if_neg hlen, decode_take_encode hn, drop_encode]
  rw [if_pos h]

theorem take_put (h : ∀ b ∈ items, b.length < 2 ^ 32) (rest : Bytes) :
    take items.length ((items.map put).flatten ++ rest) = (items, rest) := by
  induction items with
  | nil => rfl
  | cons b items ih =>
    have hlen : ¬ (put b ++ ((items.map put).flatten ++ rest)).length < 4 := by
      rw [length_append, length_put]
      omega
    have hrest : ¬ (b ++ ((items.map put).flatten ++ rest)).length < b.length := by
      rw [length_append]
      omega
    rw [map_cons, flatten_cons, append_assoc, length_cons, take, if_neg hlen,
      decode_take_put (h b mem_cons_self), drop_put, if_neg hrest, take_left,
      drop_left, ih fun x hx => h x (mem_cons_of_mem b hx)]

theorem length_putList (items : List Bytes) :
    (putList items).length = 4 + (items.map put).flatten.length := by
  rw [putList, length_append, encode_length]

theorem fits_of_length (h : (putList items).length < 2 ^ 32) : Fits items := by
  rw [length_putList] at h
  refine ⟨Nat.lt_of_le_of_lt ?_ h, fun b hb => ?_⟩
  · clear h
    induction items with
    | nil => exact Nat.zero_le _
    | cons b items ih =>
      rw [map_cons, flatten_cons, length_append, length_put, length_cons]
      omega
  · have hle : (put b).length ≤ (items.map put).flatten.length :=
      (sublist_flatten_of_mem (mem_map_of_mem hb)).length_le
    rw [length_put] at hle
    omega

theorem getList_putList (h : Fits items) (rest : Bytes) :
    getList (putList items ++ rest) = (items, rest) := by
  have hlen : ¬ (putList items ++ rest).length < 4 := by
    rw [putList, length_append, length_append, encode_length]
    omega
  rw [getList, if_neg hlen, putList, append_assoc, decode_take_encode h.1,
    drop_encode, take_put h.2]

end RoundTrip

end Blob
