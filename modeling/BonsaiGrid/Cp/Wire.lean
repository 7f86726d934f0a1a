import BonsaiGrid.Cp.Group
import BonsaiGrid.Lib.Reader

/-!
# CP messages on the wire

The member transport carries CP messages as bytes: a tag for the kind of the message, then its
fields, numbers with eight bytes and byte strings behind their lengths.
-/

namespace BonsaiGrid.Cp

open Raft Reader Takes

def putU64 (n : ℕ) : Bytes := LittleEndian.encode 8 n

def getU64 : Reader ℕ := number 8

def putBlob (b : Bytes) : Bytes := putU64 b.length ++ b

def getBlob : Reader Bytes := do
  let n ← getU64
  bytes n

def putBool (b : Bool) : Bytes := [if b then 1 else 0]

def getBool : Reader Bool := do
  let b ← byte
  pure (b ≠ 0)

def putEntry (e : Entry) : Bytes := putU64 e.term ++ (putU64 e.index ++ putBlob e.command)

def getEntry : Reader Entry := do
  let term ← getU64
  let index ← getU64
  let command ← getBlob
  pure { term := term, index := index, command := command }

def nullLen : ℕ := 2 ^ 64 - 1

def putReply : CpReply → Bytes
  | .long v => [0] ++ putI64 v
  | .bool v => [1] ++ putBool v
  | .data (some b) => [2] ++ putBlob b
  | .data none => [2] ++ putU64 nullLen
  | .nil => [3]

def getData : Reader (Option Bytes) := fun b =>
  match getU64 b with
  | none => none
  | some (len, rest) =>
    if len = nullLen then some (none, rest) else (getBlob b).map fun r => (some r.1, r.2)

def getReply : Reader CpReply := do
  let tag ← byte
  match tag with
  | 0 => do
      let n ← getU64
      pure (.long (Int64.ofNat n))
  | 1 => do
      let v ← getBool
      pure (.bool v)
  | 2 => do
      let d ← getData
      pure (.data d)
  | _ => pure .nil

def encodeRaft : RaftMsg → Bytes
  | .requestVote term candidate lastLogIndex lastLogTerm =>
    [0] ++ (putU64 term ++ (putU64 candidate ++ (putU64 lastLogIndex ++ putU64 lastLogTerm)))
  | .requestVoteResp term granted => [1] ++ (putU64 term ++ putBool granted)
  | .appendEntries term leader prevLogIndex prevLogTerm entries leaderCommit =>
    [2] ++ (putU64 term ++ (putU64 leader ++ (putU64 prevLogIndex ++ (putU64 prevLogTerm ++
      (putU64 entries.length ++ (entries.flatMap putEntry ++ putU64 leaderCommit))))))
  | .appendEntriesResp term success matchIndex =>
    [3] ++ (putU64 term ++ (putBool success ++ putU64 matchIndex))

def decodeRaft : Reader RaftMsg := do
  let tag ← byte
  match tag with
  | 0 => do
      let term ← getU64
      let candidate ← getU64
      let lastLogIndex ← getU64
      let lastLogTerm ← getU64
      pure (.requestVote term candidate lastLogIndex lastLogTerm)
  | 1 => do
      let term ← getU64
      let granted ← getBool
      pure (.requestVoteResp term granted)
  | 2 => do
      let term ← getU64
      let leader ← getU64
      let prevLogIndex ← getU64
      let prevLogTerm ← getU64
      let n ← getU64
      let entries ← times getEntry n
      let leaderCommit ← getU64
      pure (.appendEntries term leader prevLogIndex prevLogTerm entries leaderCommit)
  | 3 => do
      let term ← getU64
      let success ← getBool
      let matchIndex ← getU64
      pure (.appendEntriesResp term success matchIndex)
  | _ => reject

def encodeMsg : CpMsg → Bytes
  | .raft msg => [0] ++ encodeRaft msg
  | .forward client origin command => [1] ++ (putU64 client ++ (putU64 origin ++ putBlob command))
  | .reply client reply => [2] ++ (putU64 client ++ putReply reply)

def getMsg : Reader CpMsg := do
  let tag ← byte
  match tag with
  | 0 => do
      let msg ← decodeRaft
      pure (.raft msg)
  | 1 => do
      let client ← getU64
      let origin ← getU64
      let command ← getBlob
      pure (.forward client origin command)
  | 2 => do
      let client ← getU64
      let reply ← getReply
      pure (.reply client reply)
  | _ => reject

def decodeMsg (b : Bytes) : Option CpMsg := (getMsg b).map Prod.fst

/-! ## Messages whose numbers fit -/

def Word (n : ℕ) : Prop := n < 2 ^ 64

instance (n : ℕ) : Decidable (Word n) := inferInstanceAs (Decidable (n < 2 ^ 64))

structure EntryFits (e : Entry) : Prop where
  term : Word e.term
  index : Word e.index
  command : Word e.command.length

instance (e : Entry) : Decidable (EntryFits e) :=
  decidable_of_iff (Word e.term ∧ Word e.index ∧ Word e.command.length)
    ⟨fun h => ⟨h.1, h.2.1, h.2.2⟩, fun h => ⟨h.term, h.index, h.command⟩⟩

def RaftFits : RaftMsg → Prop
  | .requestVote term candidate lastLogIndex lastLogTerm =>
    Word term ∧ Word candidate ∧ Word lastLogIndex ∧ Word lastLogTerm
  | .requestVoteResp term _ => Word term
  | .appendEntries term leader prevLogIndex prevLogTerm entries leaderCommit =>
    Word term ∧ Word leader ∧ Word prevLogIndex ∧ Word prevLogTerm ∧ Word entries.length ∧
      (∀ e ∈ entries, EntryFits e) ∧ Word leaderCommit
  | .appendEntriesResp term _ matchIndex => Word term ∧ Word matchIndex

instance : ∀ msg, Decidable (RaftFits msg)
  | .requestVote .. => inferInstanceAs (Decidable (_ ∧ _ ∧ _ ∧ _))
  | .requestVoteResp term _ => inferInstanceAs (Decidable (Word term))
  | .appendEntries _ _ _ _ entries _ =>
    inferInstanceAs (Decidable (_ ∧ _ ∧ _ ∧ _ ∧ _ ∧ (∀ e ∈ entries, EntryFits e) ∧ _))
  | .appendEntriesResp .. => inferInstanceAs (Decidable (_ ∧ _))

/-- Data is shorter than the length that stands for none, as every byte string in memory is. -/
def ReplyFits : CpReply → Prop
  | .data (some b) => b.length < nullLen
  | _ => True

instance : ∀ reply, Decidable (ReplyFits reply)
  | .data (some b) => inferInstanceAs (Decidable (b.length < nullLen))
  | .data none | .long _ | .bool _ | .nil => isTrue trivial

/-- A message of machine words: every message of the source is one. -/
def CpMsg.Fits : CpMsg → Prop
  | .raft msg => RaftFits msg
  | .forward client origin command => Word client ∧ Word origin ∧ Word command.length
  | .reply client r => Word client ∧ ReplyFits r

instance : ∀ msg : CpMsg, Decidable msg.Fits
  | .raft msg => inferInstanceAs (Decidable (RaftFits msg))
  | .forward .. | .reply .. => inferInstanceAs (Decidable (_ ∧ _))

/-! ## The round trip -/

theorem takes_u64 {n : ℕ} (h : Word n) : Takes getU64 (putU64 n) n := number h

theorem takes_blob {b : Bytes} (h : Word b.length) : Takes getBlob (putBlob b) b :=
  (takes_u64 h).bind (bytes b)

theorem takes_bool (b : Bool) : Takes getBool (putBool b) b := by
  cases b with
  | false | true => exact fun _ => rfl

theorem takes_entry {e : Entry} (h : EntryFits e) : Takes getEntry (putEntry e) e := by
  obtain ⟨hterm, hindex, hcommand⟩ := h
  exact (takes_u64 hterm).bind ((takes_u64 hindex).bind
    ((takes_blob hcommand).map (Entry.mk e.term e.index)))

theorem takes_some {b : Bytes} (h : b.length < nullLen) :
    Takes getData (putBlob b) (some b) := by
  intro rest
  have hword : Word b.length := h.trans (by decide)
  have hlen : getU64 (putBlob b ++ rest) = some (b.length, b ++ rest) := by
    exact takes_u64 hword (b ++ rest)
  rw [getData, hlen]
  dsimp only
  rw [if_neg (Nat.ne_of_lt h), takes_blob hword rest, Option.map_some]

theorem takes_none : Takes getData (putU64 nullLen) none := by
  intro rest
  rw [getData, takes_u64 (by decide) rest]
  exact if_pos rfl

theorem takes_reply {reply : CpReply} (h : ReplyFits reply) :
    Takes getReply (putReply reply) reply := by
  cases reply with
  | long v =>
    have hlong := (takes_u64 (UInt64.toNat_lt v.toUInt64)).map fun n => CpReply.long (Int64.ofNat n)
    rw [LittleEndian.int64_ofNat_toNat] at hlong
    exact (byte 0).bind hlong
  | bool v => exact (byte 1).bind ((takes_bool v).map CpReply.bool)
  | data d =>
    cases d with
    | none => exact (byte 2).bind (takes_none.map CpReply.data)
    | some b => exact (byte 2).bind ((takes_some h).map CpReply.data)
  | nil => exact (byte 3).map fun _ => CpReply.nil

theorem takes_raft {msg : RaftMsg} (h : RaftFits msg) : Takes decodeRaft (encodeRaft msg) msg := by
  cases msg with
  | requestVote term candidate lastLogIndex lastLogTerm =>
    obtain ⟨hterm, hcandidate, hindex, hlast⟩ := h
    exact (byte 0).bind ((takes_u64 hterm).bind ((takes_u64 hcandidate).bind
      ((takes_u64 hindex).bind
        ((takes_u64 hlast).map (RaftMsg.requestVote term candidate lastLogIndex)))))
  | requestVoteResp term granted =>
    exact (byte 1).bind ((takes_u64 h).bind
      ((takes_bool granted).map (RaftMsg.requestVoteResp term)))
  | appendEntries term leader prevLogIndex prevLogTerm entries leaderCommit =>
    obtain ⟨hterm, hleader, hprev, hprevTerm, hlen, hentries, hcommit⟩ := h
    exact (byte 2).bind ((takes_u64 hterm).bind ((takes_u64 hleader).bind
      ((takes_u64 hprev).bind ((takes_u64 hprevTerm).bind ((takes_u64 hlen).bind
        ((times fun e he => takes_entry (hentries e he)).bind ((takes_u64 hcommit).map
          (RaftMsg.appendEntries term leader prevLogIndex prevLogTerm entries))))))))
  | appendEntriesResp term success matchIndex =>
    exact (byte 3).bind ((takes_u64 h.1).bind ((takes_bool success).bind
      ((takes_u64 h.2).map (RaftMsg.appendEntriesResp term success))))

theorem takes_msg {msg : CpMsg} (h : msg.Fits) : Takes getMsg (encodeMsg msg) msg := by
  cases msg with
  | raft msg => exact (byte 0).bind ((takes_raft h).map CpMsg.raft)
  | forward client origin command =>
    obtain ⟨hclient, horigin, hcommand⟩ := h
    exact (byte 1).bind ((takes_u64 hclient).bind ((takes_u64 horigin).bind
      ((takes_blob hcommand).map (CpMsg.forward client origin))))
  | reply client reply =>
    exact (byte 2).bind ((takes_u64 h.1).bind
      ((takes_reply h.2).map (CpMsg.reply client)))

theorem decodeMsg_encodeMsg {msg : CpMsg} (h : msg.Fits) (rest : Bytes) :
    decodeMsg (encodeMsg msg ++ rest) = some msg := by
  rw [decodeMsg, takes_msg h rest, Option.map_some]

end BonsaiGrid.Cp
