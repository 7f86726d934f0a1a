import BonsaiGrid.Lib.Checked
import BonsaiGrid.Lib.Crc32
import BonsaiGrid.Store.Store

/-!
# Records between clusters

What a cluster captures of its mutations, what another cluster does with it, and the frame
`[len:u32][crc32:u32][op:u8][stamp:u64][ttl:u64][map][key][value]`, in which the length counts the
checksum too.
-/

namespace BonsaiGrid.Wan

open Store Blob LittleEndian

inductive WanOp where
  | put
  | remove
  | aux (kind : UInt8)
deriving DecidableEq, Repr

structure WanRecord where
  op : WanOp
  stamp : ℕ
  ttlMs : ℕ
  map : Str
  key : Bytes
  value : Bytes
deriving DecidableEq

def publish : WalRecord → WanRecord
  | .mapPut stamp ttlMs map key value => ⟨.put, stamp, ttlMs, map, key, value⟩
  | .mapRemove stamp map key => ⟨.remove, stamp, 0, map, key, []⟩
  | .auxState kind name state => ⟨.aux kind.code, 0, 0, name, [], state⟩

def applyRecord (s : Store) (env : StoreEnv) (r : WanRecord) : Store :=
  match r.op with
  | .aux kind => (AuxKind.ofCode kind).elim s fun kind => s.installAux kind r.map r.value
  | .put => s.applyWan env true r.map r.key r.value r.ttlMs r.stamp
  | .remove => s.applyWan env false r.map r.key r.value r.ttlMs r.stamp

def applyBatch (s : Store) (records : List (StoreEnv × WanRecord)) : Store :=
  records.foldl (fun s r => applyRecord s r.1 r.2) s

/-! ## Frames -/

def opBytes : WanOp → Bytes
  | .put => [1]
  | .remove => [2]
  | .aux kind => [3, kind]

def body (r : WanRecord) : Bytes :=
  opBytes r.op ++ (encode 8 r.stamp ++ (encode 8 r.ttlMs ++
    (put r.map.bytes ++ (put r.key ++ put r.value))))

def parseFields (op : WanOp) (data : Bytes) : Option WanRecord :=
  if data.length < 16 then none
  else
    let stamp := decode (data.take 8)
    let ttlMs := decode ((data.drop 8).take 8)
    (get (data.drop 16)).bind fun (map, rest) =>
      (get rest).bind fun (key, rest) =>
        (get rest).bind fun (value, _) =>
          (Str.fromUtf8 map).map fun map => ⟨op, stamp, ttlMs, map, key, value⟩

def parseBody : Bytes → Option WanRecord
  | [] => none
  | op :: data =>
    if op = 1 then parseFields .put data
    else if op = 2 then parseFields .remove data
    else if op = 3 then data.head?.bind fun kind => parseFields (.aux kind) data.tail
    else none

/-- Numbers are 64 bits wide, and the length of the frame fits its header. -/
def Fits (r : WanRecord) : Prop :=
  (body r).length + 4 < 2 ^ 32 ∧ r.stamp < 2 ^ 64 ∧ r.ttlMs < 2 ^ 64

instance (r : WanRecord) : Decidable (Fits r) := inferInstanceAs (Decidable (_ ∧ _ ∧ _))

theorem parseFields_body {r : WanRecord} (h : Fits r) :
    parseFields r.op (encode 8 r.stamp ++ (encode 8 r.ttlMs ++
      (put r.map.bytes ++ (put r.key ++ put r.value)))) = some r := by
  obtain ⟨hlen, hstamp, httl⟩ := h
  simp only [body, List.length_append, encode_length, length_put] at hlen
  have hdrop : (encode 8 r.stamp ++ (encode 8 r.ttlMs ++
      (put r.map.bytes ++ (put r.key ++ put r.value)))).drop 16 =
        put r.map.bytes ++ (put r.key ++ (put r.value ++ [])) := by
    rw [show (16 : ℕ) = 8 + 8 from rfl, ← List.drop_drop, drop_encode,
      drop_encode, List.append_nil]
  rw [parseFields, hdrop, drop_encode,
    decode_take_encode hstamp, decode_take_encode httl,
    get_put (by omega), Option.bind_some]
  dsimp only
  rw [get_put (by omega), Option.bind_some]
  rw [get_put (by omega), Str.fromUtf8_bytes]
  rfl

theorem parseBody_body {r : WanRecord} (h : Fits r) : parseBody (body r) = some r := by
  have hfields := parseFields_body h
  rw [body]
  cases hop : r.op with
  | put => rw [opBytes, List.singleton_append, parseBody, if_pos rfl, ← hop, hfields]
  | remove =>
    rw [opBytes, List.singleton_append, parseBody, if_neg (by decide), if_pos rfl, ← hop, hfields]
  | aux kind =>
    rw [opBytes, List.cons_append, parseBody, if_neg (by decide), if_neg (by decide), if_pos rfl,
      List.singleton_append, List.head?_cons, Option.bind_some, List.tail_cons, ← hop, hfields]

section Frames

variable [Crc32fast]

def encode (r : WanRecord) : Bytes := Checked.frame Crc32fast.hash 4 (body r)

/-- The record at the front and what is behind it; nothing if more bytes are needed or the frame
is torn. -/
def decode (bytes : Bytes) : Option (WanRecord × Bytes) :=
  (Checked.next Crc32fast.hash 4 17 bytes).bind fun r => (parseBody r.1).map fun t => (t, r.2)

theorem framing : Frames.Framing decode encode Fits := by
  refine (Checked.framing Crc32fast.hash 4 17).parse parseBody (fun r hr => ⟨?_, hr.1⟩)
    fun r hr => parseBody_body hr
  simp only [body, List.length_append, encode_length]
  cases r.op <;> simp only [opBytes, List.length_cons, List.length_nil] <;> omega

end Frames

end BonsaiGrid.Wan
