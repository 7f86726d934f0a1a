import BonsaiGrid.Lib.Reader
import BonsaiGrid.Wan.Record

/-!
# Messages between clusters

A batch of records with the sequence number of the last one, and the acknowledgement of a sequence
number.
-/

namespace BonsaiGrid.Wan

open LittleEndian Reader

inductive WanMsg where
  | batch (upToSeq : ℕ) (records : List WanRecord)
  | ack (upToSeq : ℕ)
deriving DecidableEq

def WanMsg.Fits : WanMsg → Prop
  | batch upToSeq records => upToSeq < 2 ^ 64 ∧ records.length < 2 ^ 32 ∧ ∀ r ∈ records, Wan.Fits r
  | ack upToSeq => upToSeq < 2 ^ 64

section Frames

variable [Crc32fast]

def encodeMsg : WanMsg → Bytes
  | .batch upToSeq records =>
    [0] ++ (LittleEndian.encode 8 upToSeq ++
      (LittleEndian.encode 4 records.length ++ records.flatMap encode))
  | .ack upToSeq => [1] ++ LittleEndian.encode 8 upToSeq

def getMsg : Reader WanMsg := do
  let tag ← byte
  match tag with
  | 0 => do
      let upToSeq ← number 8
      let n ← number 4
      let records ← times decode n
      pure (.batch upToSeq records)
  | 1 => do
      let upToSeq ← number 8
      pure (.ack upToSeq)
  | _ => reject

def decodeMsg (b : Bytes) : Option WanMsg := (getMsg b).map Prod.fst

theorem exact_record {r : WanRecord} (h : Fits r) : Exact decode (encode r) r :=
  ⟨fun rest => framing.next_frame r rest h, fun k hk => framing.next_torn r k h hk⟩

theorem exact_msg {m : WanMsg} (h : m.Fits) : Exact getMsg (encodeMsg m) m := by
  cases m with
  | batch upToSeq records =>
    obtain ⟨hseq, hlen, hrecords⟩ := h
    have htimes := Exact.times fun r hr => exact_record (hrecords r hr)
    rw [List.map_id'] at htimes
    exact (Exact.byte 0).bind ((Exact.number hseq).bind ((Exact.number hlen).bind
      (htimes.map (WanMsg.batch upToSeq))))
  | ack upToSeq => exact (Exact.byte 1).bind ((Exact.number h).map WanMsg.ack)

/-- **Messages round-trip, and a message that is cut off is refused.** So do records, whatever is
behind them. -/
theorem wan_round_trip {m : WanMsg} (h : m.Fits) :
    decodeMsg (encodeMsg m) = some m ∧
      (∀ k < (encodeMsg m).length, decodeMsg ((encodeMsg m).take k) = none) ∧
      ∀ r, Fits r → ∀ rest, decode (encode r ++ rest) = some (r, rest) := by
  have hexact := exact_msg h
  refine ⟨?_, fun k hk => ?_, fun r hr rest => framing.next_frame r rest hr⟩
  · rw [decodeMsg, hexact.reads, Option.map_some]
  · rw [decodeMsg, hexact.cut k hk, Option.map_none]

end Frames

/-- A put with a time to live, a removal and the state of a set. -/
def orders : List WanRecord :=
  let map : Str := ⟨[111, 114, 100], by decide⟩
  [⟨.put, 5, 60000, map, [1], [10, 11]⟩, ⟨.remove, 6, 0, map, [2], []⟩,
    ⟨.aux 2, 0, 0, map, [], [1, 0, 0, 0]⟩]

theorem wan_round_trip_orders :
    decodeMsg (encodeMsg (.batch 6 orders)) = some (.batch 6 orders) ∧
      decodeMsg ((encodeMsg (.batch 6 orders)).take 60) = none ∧
      ∀ r ∈ orders, decode (encode r ++ [7]) = some (r, [7]) := by
  have hfits : ∀ r ∈ orders, Fits r := by decide +kernel
  have h : (WanMsg.batch 6 orders).Fits := ⟨by decide, by decide, hfits⟩
  obtain ⟨hread, hcut, hrecord⟩ := wan_round_trip h
  exact ⟨hread, hcut 60 (by decide +kernel), fun r hr => hrecord r (hfits r hr) [7]⟩

end BonsaiGrid.Wan
