import BonsaiGrid.Lib.Retained
import BonsaiGrid.Wan.Record

/-!
# The outbound queue

Records for the other clusters are appended to a log and synced. For each target there is a
cursor, the highest number that it has acknowledged.
-/

namespace BonsaiGrid.Wan

open List LittleEndian Blob

structure WanQueue where
  /-- the records with their sequence numbers -/
  records : List (ℕ × WanRecord) := []
  /-- the number of the record before the first one -/
  baseSeq : ℕ := 0
  nextSeq : ℕ := 1
  /-- the highest number that each target has acknowledged -/
  cursors : Dict Str ℕ := ∅
  bytes : ℕ := 0

structure QueueDir where
  log : Bytes := []
  base : Bytes := []
  cursors : Bytes := []

/-! ## Files -/

variable (c : Str × ℕ)

def cursorBytes : Bytes := Blob.put c.1.bytes ++ LittleEndian.encode 8 c.2

def persistCursors (cursors : Dict Str ℕ) : Bytes := Frames.write cursorBytes cursors.pairs

def nextCursor (data : Bytes) : Option ((Str × ℕ) × Bytes) :=
  if data.length < 4 then none
  else
    let n := LittleEndian.decode (data.take 4)
    let rest := data.drop 4
    if rest.length < n + 8 then none
    else
      some ((Str.fromUtf8Lossy (rest.take n), LittleEndian.decode ((rest.drop n).take 8)),
        rest.drop (n + 8))

def readCursors (data : Bytes) : Dict Str ℕ :=
  (Frames.readAll nextCursor data.length data).1.foldl (fun m c => AList.insert c.1 c.2 m) ∅

def readU64 (data : Bytes) : ℕ :=
  if 8 ≤ data.length then LittleEndian.decode (data.take 8) else 0

inductive FileOp where
  /-- bytes are appended to the log -/
  | append (bytes : Bytes)
  /-- a file is replaced by another one -/
  | replaceLog (bytes : Bytes)
  | replaceBase (bytes : Bytes)
  | replaceCursors (bytes : Bytes)

variable (d : QueueDir)

namespace QueueDir

def apply : FileOp → QueueDir
  | .append bytes => { d with log := d.log ++ bytes }
  | .replaceLog bytes => { d with log := bytes }
  | .replaceBase bytes => { d with base := bytes }
  | .replaceCursors bytes => { d with cursors := bytes }

def interrupt (k : ℕ) : FileOp → QueueDir
  | .append bytes => { d with log := d.log ++ bytes.take k }
  | _ => d

def stop (ops : List FileOp) (j k : ℕ) : QueueDir :=
  ops[j]?.elim (ops.foldl apply d) ((ops.take j).foldl apply d |>.interrupt k)

end QueueDir

/-! ## Calls -/

namespace WanQueue

variable (q : WanQueue)

def targetAcked (target : Str) : ℕ := (q.cursors.lookup target).getD 0

def unackedFor (target : Str) : List (ℕ × WanRecord) :=
  q.records.filter fun e => q.targetAcked target < e.1

def minAcked : ℕ := (q.cursors.pairs.map Prod.snd).min?.getD 0

def entry (target : Str) : WanQueue :=
  if (q.cursors.lookup target).isSome then q else { q with cursors := q.cursors.insert target 0 }

def setTargets (targets : List Str) : WanQueue := targets.foldl entry q

def ackTarget (target : Str) (upTo : ℕ) : WanQueue × List FileOp :=
  let capped := min upTo (q.nextSeq - 1)
  let q := q.entry target
  if q.targetAcked target < capped then
    let q := { q with cursors := q.cursors.insert target capped }
    (q, [.replaceCursors (persistCursors q.cursors)])
  else (q, [])

def wouldExceed (maxBytes : ℕ) : Bool := maxBytes ≤ q.bytes

variable [Crc32fast]

def openDir (d : QueueDir) : WanQueue :=
  let base := readU64 d.base
  let r := Frames.readAll decode d.log.length d.log
  { records := Retained.number base r.1
    baseSeq := base
    nextSeq := base + r.1.length + 1
    cursors := readCursors d.cursors
    bytes := d.log.length - r.2.length }

def append (q : WanQueue) (r : WanRecord) : WanQueue × List FileOp :=
  ({ q with
     bytes := q.bytes + (encode r).length
     nextSeq := q.nextSeq + 1
     records := q.records ++ [(q.nextSeq, r)] }, [.append (encode r)])

def reclaim (q : WanQueue) : WanQueue × List FileOp :=
  let floor := q.minAcked
  if floor ≤ q.baseSeq then (q, [])
  else
    let records := q.records.filter fun e => floor < e.1
    let log := Frames.write encode (records.map Prod.snd)
    ({ q with records := records, baseSeq := floor, bytes := log.length },
      [.replaceLog log, .replaceBase (LittleEndian.encode 8 floor)])

end WanQueue

/-! ## Facts about the files -/

section Cursors

variable {cursors : Dict Str ℕ}

/-- A cursor that can be written with its eight bytes, of a target whose name is not too long. -/
def CursorFits : Prop := c.1.bytes.length < 2 ^ 32 ∧ c.2 < 2 ^ 64

theorem length_cursorBytes : (cursorBytes c).length = 4 + c.1.bytes.length + 8 := by
  rw [cursorBytes, length_append, length_put, encode_length]

theorem nextCursor_cursorBytes {c : Str × ℕ} (h : CursorFits c) (rest : Bytes) :
    nextCursor (cursorBytes c ++ rest) = some (c, rest) := by
  have hlen : ¬ (cursorBytes c ++ rest).length < 4 := by
    rw [length_append, length_cursorBytes]
    omega
  have hbody : cursorBytes c ++ rest =
      put c.1.bytes ++ (LittleEndian.encode 8 c.2 ++ rest) := append_assoc ..
  have hrest : ¬ (c.1.bytes ++ (LittleEndian.encode 8 c.2 ++ rest)).length <
      c.1.bytes.length + 8 := by
    simp only [length_append, encode_length]
    omega
  rw [nextCursor, if_neg hlen, hbody, decode_take_put h.1, drop_put, if_neg hrest,
    take_left, drop_left, decode_take_encode h.2, ← drop_drop,
    drop_left, drop_encode, Str.fromUtf8Lossy_bytes]

theorem nextCursor_torn {c : Str × ℕ} (h : CursorFits c) {k : ℕ}
    (hk : k < (cursorBytes c).length) : nextCursor ((cursorBytes c).take k) = none := by
  rw [length_cursorBytes] at hk
  have hlen : ((cursorBytes c).take k).length = k := by
    rw [length_take, length_cursorBytes]
    omega
  rw [nextCursor]
  split
  next => rfl
  next hhead =>
    have htake : ((cursorBytes c).take k).take 4 =
        (put c.1.bytes ++ LittleEndian.encode 8 c.2).take 4 := by
      rw [take_take, Nat.min_eq_left (by omega)]
      rfl
    rw [htake, decode_take_put h.1, if_pos]
    rw [length_drop]
    omega

theorem cursorFraming : Frames.Framing nextCursor cursorBytes CursorFits where
  next_frame := fun _ rest h => nextCursor_cursorBytes h rest
  next_torn := fun _ _ h hk => nextCursor_torn h hk
  length_pos := fun c => by
    rw [length_cursorBytes]
    omega

theorem lookup_readCursors (h : ∀ c ∈ cursors.pairs, CursorFits c) (target : Str) :
    (readCursors (persistCursors cursors)).lookup target = cursors.lookup target := by
  have hread := cursorFraming.readAll_file h (show nextCursor [] = none from rfl)
  rw [append_nil] at hread
  rw [readCursors, persistCursors, hread]
  exact Dict.lookup_foldl_pairs cursors target

end Cursors

theorem readU64_encode {n : ℕ} (h : n < 2 ^ 64) : readU64 (LittleEndian.encode 8 n) = n := by
  have hdecode := decode_take_encode (k := 8) h []
  rw [append_nil] at hdecode
  rw [readU64, if_pos (by rw [encode_length]), hdecode]

/-! ## Facts about the calls -/

namespace WanQueue

variable (q : WanQueue) (target t : Str)

theorem entry_cursors : (q.entry target).cursors.lookup t =
    if t = target then some (q.targetAcked t) else q.cursors.lookup t := by
  rw [entry, targetAcked]
  by_cases ht : t = target
  · subst ht
    rw [if_pos rfl]
    cases hlookup : q.cursors.lookup t with
    | none => rw [if_neg (by simp), AList.lookup_insert, Option.getD_none]
    | some n => rw [if_pos (by simp), hlookup, Option.getD_some]
  · split
    next => rfl
    next => exact AList.lookup_insert_ne ht

@[simp] theorem targetAcked_entry : (q.entry target).targetAcked t = q.targetAcked t := by
  rw [targetAcked, entry_cursors]
  split
  next => rfl
  next => rfl

theorem entry_eq : q.entry target = { q with cursors := (q.entry target).cursors } := by
  rw [entry]
  split
  next => rfl
  next => rfl

variable (targets : List Str)

theorem setTargets_eq :
    q.setTargets targets = { q with cursors := (q.setTargets targets).cursors } := by
  induction targets generalizing q with
  | nil => rfl
  | cons target targets ih =>
    change (q.entry target).setTargets targets =
      { q with cursors := ((q.entry target).setTargets targets).cursors }
    rw [ih (q.entry target), entry_eq q target]

theorem targetAcked_setTargets :
    (q.setTargets targets).targetAcked t = q.targetAcked t := by
  induction targets generalizing q with
  | nil => rfl
  | cons target targets ih => exact (ih (q.entry target)).trans (targetAcked_entry q target t)

theorem isSome_entry : ((q.entry target).cursors.lookup t).isSome =
    (decide (t = target) || (q.cursors.lookup t).isSome) := by
  rw [entry_cursors]
  by_cases ht : t = target
  · rw [if_pos ht, decide_eq_true ht]
    rfl
  · rw [if_neg ht, decide_eq_false ht, Bool.false_or]

theorem isSome_setTargets :
    ((q.setTargets targets).cursors.lookup t).isSome = true ↔
      t ∈ targets ∨ (q.cursors.lookup t).isSome = true := by
  induction targets generalizing q with
  | nil => simp [setTargets]
  | cons target targets ih =>
    change (((q.entry target).setTargets targets).cursors.lookup t).isSome = true ↔ _
    rw [ih, isSome_entry, Bool.or_eq_true, decide_eq_true_eq, mem_cons, or_assoc,
      or_left_comm]

theorem minAcked_le {n : ℕ} (h : q.cursors.lookup t = some n) : q.minAcked ≤ n := by
  have hmem : n ∈ q.cursors.pairs.map Prod.snd := mem_map.2 ⟨(t, n), Dict.mem_pairs.2 h, rfl⟩
  rw [minAcked]
  cases hmin : (q.cursors.pairs.map Prod.snd).min? with
  | none =>
    rw [min?_eq_none_iff] at hmin
    rw [hmin] at hmem
    cases hmem
  | some m => exact (min?_eq_some_iff.1 hmin).2 n hmem

theorem minAcked_eq : q.minAcked = 0 ∨ ∃ t, q.minAcked = q.targetAcked t := by
  rw [minAcked]
  cases hmin : (q.cursors.pairs.map Prod.snd).min? with
  | none => exact .inl rfl
  | some m =>
    obtain ⟨c, hc, rfl⟩ := mem_map.1 (min?_eq_some_iff.1 hmin).1
    refine .inr ⟨c.1, ?_⟩
    rw [targetAcked, Dict.mem_pairs.1 hc]

theorem exists_minAcked {q : WanQueue} {t : Str} (h : (q.cursors.lookup t).isSome = true) :
    ∃ t, q.cursors.lookup t = some q.minAcked := by
  obtain ⟨n, hn⟩ := Option.isSome_iff_exists.1 h
  have hmem : n ∈ q.cursors.pairs.map Prod.snd := mem_map.2 ⟨(t, n), Dict.mem_pairs.2 hn, rfl⟩
  rw [minAcked]
  cases hmin : (q.cursors.pairs.map Prod.snd).min? with
  | none =>
    rw [min?_eq_none_iff] at hmin
    rw [hmin] at hmem
    cases hmem
  | some m =>
    obtain ⟨c, hc, rfl⟩ := mem_map.1 (min?_eq_some_iff.1 hmin).1
    exact ⟨c.1, Dict.mem_pairs.1 hc⟩

theorem targetAcked_ackTarget (upTo : ℕ) : (q.ackTarget target upTo).1.targetAcked t =
    if t = target then max (q.targetAcked t) (min upTo (q.nextSeq - 1)) else q.targetAcked t := by
  rw [ackTarget]
  rw [targetAcked_entry]
  by_cases ht : t = target
  · subst ht
    rw [if_pos rfl]
    split
    next hlt =>
      rw [targetAcked]
      rw [AList.lookup_insert, Option.getD_some, max_eq_right (Nat.le_of_lt hlt)]
    next hge => rw [targetAcked_entry, max_eq_left (Nat.not_lt.1 hge)]
  · split
    next =>
      rw [targetAcked]
      rw [AList.lookup_insert_ne ht]
      exact targetAcked_entry q target t
    next => exact targetAcked_entry q target t

end WanQueue

end BonsaiGrid.Wan
