import BonsaiGrid.Lib.Checked
import BonsaiGrid.Lib.Crc32
import BonsaiGrid.Store.Store

/-!
# Records of the write-ahead log

A record is framed as `[len:u32][crc32:u32][record_type:u16][payload]`, where the length and the
checksum are those of the type and the payload.
-/

namespace BonsaiGrid.Persistence

open Store Blob LittleEndian

inductive RecordType where
  | mapPut
  | mapRemove
  | auxState
deriving DecidableEq, Repr

namespace RecordType

def code : RecordType → ℕ
  | .mapPut => 1
  | .mapRemove => 2
  | .auxState => 3

def fromU16 (v : ℕ) : Option RecordType :=
  if v = 1 then some .mapPut
  else if v = 2 then some .mapRemove
  else if v = 3 then some .auxState
  else none

theorem fromU16_code (t : RecordType) : fromU16 t.code = some t := by
  cases t <;> rfl

theorem code_lt (t : RecordType) : t.code < 256 ^ 2 := by
  cases t <;> decide

end RecordType

/-! ## Payloads -/

def payload : WalRecord → Bytes
  | .mapPut stamp ttlMs map key value =>
    encode 8 stamp ++ (encode 8 ttlMs ++
      (put map.bytes ++ (put key ++ put value)))
  | .mapRemove stamp map key =>
    encode 8 stamp ++ (put map.bytes ++ put key)
  | .auxState kind name state => kind.code :: (put name.bytes ++ put state)

def recordType : WalRecord → RecordType
  | .mapPut .. => .mapPut
  | .mapRemove .. => .mapRemove
  | .auxState .. => .auxState

def parseMapPut (payload : Bytes) : Option WalRecord :=
  if payload.length < 16 then none
  else
    let stamp := decode (payload.take 8)
    let ttlMs := decode ((payload.drop 8).take 8)
    (get (payload.drop 16)).bind fun (map, rest) =>
      (get rest).bind fun (key, rest) =>
        (get rest).bind fun (value, _) =>
          (Str.fromUtf8 map).map fun map => .mapPut stamp ttlMs map key value

def parseMapRemove (payload : Bytes) : Option WalRecord :=
  if payload.length < 8 then none
  else
    let stamp := decode (payload.take 8)
    (get (payload.drop 8)).bind fun (map, rest) =>
      (get rest).bind fun (key, _) =>
        (Str.fromUtf8 map).map fun map => .mapRemove stamp map key

def parseAuxState : Bytes → Option WalRecord
  | [] => none
  | kind :: payload =>
    (get payload).bind fun (name, rest) =>
      (get rest).bind fun (state, _) =>
        (Str.fromUtf8 name).bind fun name =>
          (AuxKind.ofCode kind).map fun kind => .auxState kind name state

def parseRecord : RecordType × Bytes → Option WalRecord
  | (.mapPut, payload) => parseMapPut payload
  | (.mapRemove, payload) => parseMapRemove payload
  | (.auxState, payload) => parseAuxState payload

/-- Numbers are 64 bits wide, and the length of the frame fits its header. -/
def Fits (r : WalRecord) : Prop :=
  (payload r).length + 2 < 2 ^ 32 ∧
    match r with
    | .mapPut stamp ttlMs .. => stamp < 2 ^ 64 ∧ ttlMs < 2 ^ 64
    | .mapRemove stamp .. => stamp < 2 ^ 64
    | .auxState .. => True

instance : (r : WalRecord) → Decidable (Fits r)
  | .mapPut .. | .mapRemove .. | .auxState .. => inferInstanceAs (Decidable (_ ∧ _))

theorem parseMapPut_payload {stamp ttlMs : ℕ} {map : Str} {key value : Bytes}
    (h : Fits (.mapPut stamp ttlMs map key value)) :
    parseMapPut (payload (.mapPut stamp ttlMs map key value)) =
      some (.mapPut stamp ttlMs map key value) := by
  obtain ⟨hlen, hstamp, httl⟩ := h
  rw [payload] at hlen ⊢
  simp only [List.length_append, encode_length, length_put] at hlen
  have hdrop : (encode 8 stamp ++ (encode 8 ttlMs ++
      (put map.bytes ++ (put key ++ put value)))).drop 16 =
        put map.bytes ++ (put key ++ (put value ++ [])) := by
    rw [show (16 : ℕ) = 8 + 8 from rfl, ← List.drop_drop, drop_encode,
      drop_encode, List.append_nil]
  rw [parseMapPut, hdrop, drop_encode,
    decode_take_encode hstamp, decode_take_encode httl,
    get_put (by omega), Option.bind_some]
  dsimp only
  rw [get_put (by omega), Option.bind_some]
  rw [get_put (by omega), Str.fromUtf8_bytes]
  rfl

theorem parseMapRemove_payload {stamp : ℕ} {map : Str} {key : Bytes}
    (h : Fits (.mapRemove stamp map key)) :
    parseMapRemove (payload (.mapRemove stamp map key)) = some (.mapRemove stamp map key) := by
  obtain ⟨hlen, hstamp⟩ := h
  rw [payload] at hlen ⊢
  simp only [List.length_append, encode_length, length_put] at hlen
  rw [parseMapRemove, drop_encode,
    decode_take_encode hstamp, get_put (by omega), Option.bind_some]
  dsimp only
  rw [← List.append_nil (put key), get_put (by omega),
    Str.fromUtf8_bytes]
  rfl

theorem parseAuxState_payload {kind : AuxKind} {name : Str} {state : Bytes}
    (h : Fits (.auxState kind name state)) :
    parseAuxState (payload (.auxState kind name state)) = some (.auxState kind name state) := by
  have hlen := h.1
  rw [payload] at hlen ⊢
  simp only [List.length_cons, List.length_append, length_put] at hlen
  rw [parseAuxState, get_put (by omega), Option.bind_some]
  dsimp only
  rw [← List.append_nil (put state), get_put (by omega),
    Str.fromUtf8_bytes, AuxKind.ofCode_code]
  rfl

theorem parseRecord_payload {r : WalRecord} (h : Fits r) :
    parseRecord (recordType r, payload r) = some r := by
  cases r with
  | mapPut => exact parseMapPut_payload h
  | mapRemove => exact parseMapRemove_payload h
  | auxState => exact parseAuxState_payload h

variable {records : List WalRecord}

theorem filterMap_parseRecord (h : ∀ r ∈ records, Fits r) :
    (records.map fun r => (recordType r, payload r)).filterMap parseRecord = records := by
  rw [List.filterMap_map]
  calc records.filterMap (parseRecord ∘ fun r => (recordType r, payload r))
      = records.filterMap some := List.filterMap_congr fun r hr => parseRecord_payload (h r hr)
    _ = records := List.filterMap_some

theorem payload_fits (h : ∀ r ∈ records, Fits r) :
    ∀ t ∈ records.map fun r => (recordType r, payload r), t.2.length + 2 < 2 ^ 32 := by
  intro t ht
  obtain ⟨r, hr, rfl⟩ := List.mem_map.1 ht
  exact (h r hr).1

/-! ## Segments -/

section Segment

variable [Crc32fast]

def parseBody (body : Bytes) : Option (RecordType × Bytes) :=
  (RecordType.fromU16 (decode (body.take 2))).map fun t => (t, body.drop 2)

/-- The record at the front of a segment and what is behind it; nothing if more bytes
are needed or the frame is torn. -/
def decodeRecord (bytes : Bytes) : Option ((RecordType × Bytes) × Bytes) :=
  (Checked.next Crc32fast.hash 0 2 bytes).bind fun r => (parseBody r.1).map fun t => (t, r.2)

def encodeRecord (r : WalRecord) : Bytes :=
  Checked.frame Crc32fast.hash 0 (encode 2 (recordType r).code ++ payload r)

def readSegment (bytes : Bytes) : List WalRecord :=
  (Frames.readAll decodeRecord bytes.length bytes).1.filterMap parseRecord

theorem framing : Frames.Framing decodeRecord
    (fun t : RecordType × Bytes =>
      Checked.frame Crc32fast.hash 0 (encode 2 t.1.code ++ t.2))
    fun t => t.2.length + 2 < 2 ^ 32 := by
  refine (Checked.framing Crc32fast.hash 0 2).parse parseBody (fun t ht => ?_) fun t ht => ?_
  · rw [Checked.Fits, List.length_append, encode_length]
    omega
  · rw [parseBody, decode_take_encode t.1.code_lt, RecordType.fromU16_code]
    rfl

def segment (records : List WalRecord) : Bytes := (records.map encodeRecord).flatten

theorem segment_append (rs ss : List WalRecord) : segment (rs ++ ss) = segment rs ++ segment ss := by
  rw [segment, List.map_append, List.flatten_append]
  rfl

theorem segment_eq (records : List WalRecord) :
    segment records = Frames.write (fun t : RecordType × Bytes =>
      Checked.frame Crc32fast.hash 0 (encode 2 t.1.code ++ t.2))
      (records.map fun r => (recordType r, payload r)) := by
  rw [Frames.write, List.map_map]
  rfl

def TornTail (tail : Bytes) : Prop :=
  Frames.Torn (fun t : RecordType × Bytes =>
    Checked.frame Crc32fast.hash 0 (encode 2 t.1.code ++ t.2))
    (fun t => t.2.length + 2 < 2 ^ 32) tail

theorem tornTail_nil : TornTail [] :=
  framing.torn_nil (x := (.mapPut, [])) (show ([] : Bytes).length + 2 < 2 ^ 32 by decide)

theorem readSegment_segment {tail : Bytes} (h : ∀ r ∈ records, Fits r)
    (ht : TornTail tail) : readSegment (segment records ++ tail) = records := by
  rw [readSegment, segment_eq, framing.readAll_file (payload_fits h) (framing.next_of_torn ht)]
  exact filterMap_parseRecord h

theorem cut_segment {tail : Bytes} (h : ∀ r ∈ records, Fits r)
    (ht : TornTail tail) (m : ℕ) :
    ∃ j tail', (segment records ++ tail).take m = segment (records.take j) ++ tail' ∧
      TornTail tail' ∧ ∀ i ≤ records.length, (segment (records.take i)).length ≤ m → i ≤ j := by
  obtain ⟨j, tail', htake, htail', hmax⟩ := Frames.cut_write (payload_fits h) ht m
  refine ⟨j, tail', ?_, htail', fun i hi hlen => hmax i (by rwa [List.length_map]) ?_⟩
  · rw [segment_eq, segment_eq, List.map_take]
    exact htake
  · rwa [← List.map_take, ← segment_eq]

end Segment

end BonsaiGrid.Persistence
