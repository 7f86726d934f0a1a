import BonsaiGrid.Raft.Log
import BonsaiGrid.Lib.Trace

/-!
# Recovery of a durable log

A durable log is written frame by frame and recovered from its files after a crash. The recovery
stops at a torn frame, and what is appended behind one is not read again.
-/

namespace BonsaiGrid.Raft

open LittleEndian List

variable (e : Entry)

/-- The entry fits its frame: the fields are 64 bits wide and the length field
can hold the length of the body and the checksum. -/
def Entry.Fits : Prop :=
  e.term < 2 ^ 64 ∧ e.index < 2 ^ 64 ∧ e.command.length + 20 < 2 ^ 32

section Format

variable [Crc32fast]

def frameBody : Bytes :=
  encode 8 e.term ++ (encode 8 e.index ++ e.command)

omit [Crc32fast] in
theorem length_frameBody : (frameBody e).length = e.command.length + 16 := by
  simp only [frameBody, length_append, encode_length]
  omega

variable {e : Entry}

theorem frameEntry_eq (he : e.Fits) :
    frameEntry e = encode 4 (e.command.length + 20) ++
      (encode 4 (Crc32fast.hash (frameBody e)).toNat ++ frameBody e) := by
  have hlen := length_frameBody e
  have hfit := he.2.2
  have hbody : encode 8 e.term ++ encode 8 e.index ++ e.command =
      frameBody e := append_assoc _ _ _
  rw [frameEntry, hbody, hlen, Nat.mod_eq_of_lt (by omega), append_assoc]

theorem length_frameEntry (he : e.Fits) :
    (frameEntry e).length = e.command.length + 24 := by
  rw [frameEntry_eq he, length_append, length_append, encode_length,
    encode_length, length_frameBody]
  omega

theorem decode_take_frameEntry (he : e.Fits) {k : ℕ} (hk : 4 ≤ k) (rest : Bytes) :
    decode (((frameEntry e).take k ++ rest).take 4) = e.command.length + 20 := by
  have hfit := he.2.2
  have hlen : 4 ≤ ((frameEntry e).take k).length := by
    rw [length_take, length_frameEntry he]
    omega
  rw [take_append_of_le_length hlen, take_take, Nat.min_eq_left hk, frameEntry_eq he]
  exact decode_take_encode (by omega) _

theorem readFrame_frameEntry (he : e.Fits) (rest : Bytes) :
    readFrame (frameEntry e ++ rest) = some (e, rest) := by
  have hterm := he.1
  have hindex := he.2.1
  have hfit := he.2.2
  have hcrc := (Crc32fast.hash (frameBody e)).toNat_lt
  have hbody := length_frameBody e
  have hframe : frameEntry e ++ rest = encode 4 (e.command.length + 20) ++
      (encode 4 (Crc32fast.hash (frameBody e)).toNat ++ (frameBody e ++ rest)) := by
    rw [frameEntry_eq he, append_assoc, append_assoc]
  have hlength : (frameEntry e ++ rest).length = e.command.length + 24 + rest.length := by
    rw [length_append, length_frameEntry he]
  have hlen : decode ((frameEntry e ++ rest).take 4) = e.command.length + 20 := by
    rw [hframe]
    exact decode_take_encode (by omega) _
  have hdrop : (frameEntry e ++ rest).drop 8 = frameBody e ++ rest := by
    rw [hframe, show 8 = 4 + 4 from rfl, ← drop_drop, drop_encode,
      drop_encode]
  have hsum : decode (((frameEntry e ++ rest).drop 4).take 4) =
      (Crc32fast.hash (frameBody e)).toNat := by
    rw [hframe]
    exact decode_take_encode (by omega) _
  have htake : ((frameEntry e ++ rest).drop 8).take (e.command.length + 20 - 4) = frameBody e := by
    rw [hdrop, take_left' (by omega)]
  unfold readFrame
  rw [if_neg (by omega)]
  dsimp only
  rw [hlen, hsum, htake, if_neg (by omega), if_neg (by simp)]
  have hrest : (frameEntry e ++ rest).drop (4 + (e.command.length + 20)) = rest :=
    drop_left' (by rw [length_frameEntry he]; omega)
  have hdata : (frameBody e).drop 16 = e.command := by
    rw [frameBody, show 16 = 8 + 8 from rfl, ← drop_drop, drop_encode,
      drop_encode]
  rw [hrest, hdata, frameBody, decode_take_encode (by omega),
    drop_encode, decode_take_encode (by omega)]

theorem readFrame_torn (he : e.Fits) {k : ℕ} (hk : k < (frameEntry e).length) :
    readFrame ((frameEntry e).take k) = none := by
  have hlen : ((frameEntry e).take k).length = k := by
    rw [length_take, Nat.min_eq_left (Nat.le_of_lt hk)]
  rw [length_frameEntry he] at hk
  unfold readFrame
  split
  · rfl
  · have hfield := decode_take_frameEntry he (show 4 ≤ k by omega) []
    rw [append_nil] at hfield
    rw [if_pos (by omega)]

theorem framing : Frames.Framing readFrame frameEntry Entry.Fits where
  next_frame := fun _ rest he => readFrame_frameEntry he rest
  next_torn := fun _ _ he hk => readFrame_torn he hk
  length_pos := fun e => by
    rw [frameEntry]
    simp only [length_append, encode_length]
    omega

omit [Crc32fast] in
theorem readMeta_writeMeta {term : ℕ} {vote : Option NodeId} (hterm : term < 2 ^ 64)
    (hvote : ∀ v ∈ vote, v < 2 ^ 64) : readMeta (some (writeMeta term vote)) = (term, vote) := by
  have hlen : (writeMeta term vote).length = 17 := by
    simp only [writeMeta, length_append, length_singleton, encode_length]
  have hfile : writeMeta term vote = encode 8 term ++
      ((if vote.isSome then 1 else 0) :: encode 8 (vote.getD 0)) := by
    rw [writeMeta, append_assoc, singleton_append]
  have hflag : (writeMeta term vote).getD 8 0 = if vote.isSome then 1 else 0 := by
    rw [hfile, getD_eq_getElem?_getD]
    simp
  have hrest : (writeMeta term vote).drop 9 = encode 8 (vote.getD 0) := by
    rfl
  have hnum : decode ((writeMeta term vote).take 8) = term := by
    exact decode_take_encode (by omega) _
  simp only [readMeta, hlen, hflag, hrest, hnum]
  rw [if_neg (by decide)]
  cases vote with
  | none => rfl
  | some v =>
    have hv := hvote v rfl
    rw [Option.isSome_some, if_pos (by decide), take_of_length_le (by simp),
      Option.getD_some, decode_encode (by omega)]

end Format

/-- A call on an open durable log, or a crash after which it is opened again. -/
inductive DurableCall where
  | append (e : Entry)
  | truncateFrom (index : ℕ)
  | persistTermVote (term : ℕ) (vote : Option NodeId)
  | crash
  | crashInAppend (e : Entry) (written : ℕ)

namespace DurableCall

def isCrash : DurableCall → Bool
  | .crash => true
  | .crashInAppend _ _ => true
  | _ => false

def Typed : DurableCall → Prop
  | .append e => e.term < 2 ^ 64 ∧ e.index < 2 ^ 64
  | .truncateFrom index => index < 2 ^ 64
  | .persistTermVote term vote => term < 2 ^ 64 ∧ ∀ v ∈ vote, v < 2 ^ 64
  | .crash => True
  | .crashInAppend e _ => e.term < 2 ^ 64 ∧ e.index < 2 ^ 64

end DurableCall

namespace RaftLog

variable [Crc32fast] (log : RaftLog)

def files : Durable := log.durable.getD ⟨[], none⟩

def perform : DurableCall → RaftLog
  | .append e => log.append e
  | .truncateFrom index => log.truncateFrom index
  | .persistTermVote term vote => log.persistTermVote term vote
  | .crash => openDurable log.files
  | .crashInAppend e written =>
    openDurable { log.files with seg := log.files.seg ++ (frameEntry e).take written }

def empty : RaftLog := openDurable ⟨[], none⟩

/-- The logs of the histories whose calls all meet the condition `ok`. -/
def History (ok : RaftLog → DurableCall → Prop) : RaftLog → Prop :=
  Trace.Reaches perform (fun log c => c.Typed ∧ ok log c) empty

/-- The crash `c` loses nothing that was in memory, and adds at most the entry
whose `append` it interrupts. -/
def Recovers (c : DurableCall) : Prop :=
  (log.perform c).term = log.term ∧ (log.perform c).vote = log.vote ∧
    ((log.perform c).entries = log.entries ∨
      ∃ e written, c = .crashInAppend e written ∧ (log.perform c).entries = log.entries ++ [e])

/-- An entry is written only behind whole frames, and its length fits the frame. -/
def Clean : DurableCall → Prop
  | .append e => e.command.length + 20 < 2 ^ 32 ∧ (readFrames log.files.seg).2 = []
  | .crashInAppend e written =>
    e.command.length + 20 < 2 ^ 32 ∧
      ((readFrames log.files.seg).2 = [] ∨
        readFrame ((readFrames log.files.seg).2 ++ (frameEntry e).take written) = none)
  | _ => True

structure Stored (log : RaftLog) : Prop where
  durable : log.durable = some log.files
  fits : ∀ e ∈ log.entries, e.Fits
  seg : ∃ tail, log.files.seg = rewriteLog log.entries ++ tail ∧ readFrame tail = none
  metaFile : readMeta log.files.metaFile = (log.term, log.vote)

namespace Stored

variable {log : RaftLog}

theorem readFrames_eq (h : log.Stored) :
    ∃ tail, log.files.seg = rewriteLog log.entries ++ tail ∧ readFrame tail = none ∧
      readFrames log.files.seg = (log.entries, tail) := by
  obtain ⟨tail, hseg, htail⟩ := h.seg
  refine ⟨tail, hseg, htail, ?_⟩
  rw [hseg]
  exact framing.readAll_file h.fits htail

theorem seg_eq (h : log.Stored) (hclean : (readFrames log.files.seg).2 = []) :
    log.files.seg = rewriteLog log.entries := by
  obtain ⟨tail, hseg, -, hread⟩ := h.readFrames_eq
  rw [hread] at hclean
  rw [hseg, show tail = [] from hclean, append_nil]

theorem openDurable {d : Durable} {es : List Entry} {tail : Bytes} (hfits : ∀ e ∈ es, e.Fits)
    (hseg : d.seg = rewriteLog es ++ tail) (htail : readFrame tail = none) :
    (RaftLog.openDurable d).entries = es ∧ (RaftLog.openDurable d).Stored := by
  have hentries : (RaftLog.openDurable d).entries = es := by
    rw [RaftLog.openDurable, readLog, hseg]
    exact congrArg Prod.fst (framing.readAll_file hfits htail)
  exact ⟨hentries, rfl, hentries.symm ▸ hfits, ⟨tail, by rw [hentries]; exact hseg, htail⟩, rfl⟩

theorem append (h : log.Stored) {e : Entry} (he : e.Fits)
    (hclean : (readFrames log.files.seg).2 = []) : (log.append e).Stored := by
  have hfiles : (log.append e).files = { log.files with seg := log.files.seg ++ frameEntry e } := by
    rw [RaftLog.append, h.durable]
    rfl
  refine ⟨?_, ?_, ⟨[], ?_, rfl⟩, ?_⟩
  · rw [RaftLog.append, h.durable]
    rfl
  · intro x hx
    rw [append_entries, mem_append, mem_singleton] at hx
    rcases hx with hx | rfl
    · exact h.fits x hx
    · exact he
  · rw [hfiles, append_entries, rewriteLog, Frames.write_append, Frames.write_singleton,
      append_nil, h.seg_eq hclean]
    rfl
  · rw [hfiles]
    exact h.metaFile

theorem truncateFrom (h : log.Stored) (index : ℕ) : (log.truncateFrom index).Stored := by
  have hfiles : (log.truncateFrom index).files =
      { log.files with seg := rewriteLog (log.truncateFrom index).entries } := by
    rw [RaftLog.truncateFrom, h.durable]
    rfl
  refine ⟨?_, fun x hx => h.fits x (mem_of_mem_take hx), ⟨[], ?_, rfl⟩, ?_⟩
  · rw [RaftLog.truncateFrom, h.durable]
    rfl
  · rw [hfiles, append_nil]
  · rw [hfiles]
    exact h.metaFile

theorem persistTermVote (h : log.Stored) {term : ℕ} {vote : Option NodeId}
    (hterm : term < 2 ^ 64) (hvote : ∀ v ∈ vote, v < 2 ^ 64) :
    (log.persistTermVote term vote).Stored := by
  have hfiles : (log.persistTermVote term vote).files =
      { log.files with metaFile := some (writeMeta term vote) } := by
    rw [RaftLog.persistTermVote, h.durable]
    rfl
  refine ⟨?_, h.fits, ?_, ?_⟩
  · rw [RaftLog.persistTermVote, h.durable]
    rfl
  · rw [hfiles]
    exact h.seg
  · rw [hfiles]
    exact readMeta_writeMeta hterm hvote

theorem torn_append (h : log.Stored) {e : Entry} (he : e.Fits) {written : ℕ}
    (hclean : (readFrames log.files.seg).2 = [] ∨
      readFrame ((readFrames log.files.seg).2 ++ (frameEntry e).take written) = none) :
    ∃ ys tail, log.files.seg ++ (frameEntry e).take written = rewriteLog ys ++ tail ∧
      readFrame tail = none ∧ (ys = log.entries ∨ ys = log.entries ++ [e]) := by
  rcases hclean with hnil | hnone
  · rw [h.seg_eq hnil]
    exact framing.torn_write rfl log.entries he written
  · obtain ⟨tail, hseg, -, hread⟩ := h.readFrames_eq
    rw [hread] at hnone
    exact ⟨log.entries, _, by rw [hseg, append_assoc], hnone, .inl rfl⟩

theorem crash (h : log.Stored) {c : DurableCall} (hcrash : c.isCrash = true) (htyped : c.Typed)
    (hclean : log.Clean c) : log.Recovers c ∧ (log.perform c).Stored := by
  have hmeta := h.metaFile
  cases c with
  | crash =>
    obtain ⟨tail, hseg, htail⟩ := h.seg
    obtain ⟨hentries, hstored⟩ := openDurable h.fits hseg htail
    exact ⟨⟨congrArg Prod.fst hmeta, congrArg Prod.snd hmeta, .inl hentries⟩, hstored⟩
  | crashInAppend e written =>
    have he : e.Fits := ⟨htyped.1, htyped.2, hclean.1⟩
    obtain ⟨ys, tail, hseg, htail, hys⟩ := h.torn_append he hclean.2
    have hfits : ∀ x ∈ ys, x.Fits := by
      rcases hys with rfl | rfl
      · exact h.fits
      · exact forall_mem_concat h.fits he
    obtain ⟨hentries, hstored⟩ := openDurable
      (d := { log.files with seg := log.files.seg ++ (frameEntry e).take written }) hfits
      hseg htail
    refine ⟨⟨congrArg Prod.fst hmeta, congrArg Prod.snd hmeta, ?_⟩, hstored⟩
    rcases hys with rfl | rfl
    · exact .inl hentries
    · exact .inr ⟨e, written, rfl, hentries⟩
  | append e | truncateFrom index | persistTermVote term vote => cases hcrash

theorem perform (h : log.Stored) {c : DurableCall} (htyped : c.Typed) (hclean : log.Clean c) :
    (log.perform c).Stored := by
  cases c with
  | append e => exact h.append ⟨htyped.1, htyped.2, hclean.1⟩ hclean.2
  | truncateFrom index => exact h.truncateFrom index
  | persistTermVote term vote => exact h.persistTermVote htyped.1 htyped.2
  | crash | crashInAppend e written => exact (h.crash rfl htyped hclean).2

end Stored

theorem stored_empty : empty.Stored :=
  (Stored.openDurable (d := ⟨[], none⟩) (by simp) (show [] = rewriteLog [] ++ [] from rfl) rfl).2

theorem History.stored {log : RaftLog} (h : History Clean log) : log.Stored :=
  Trace.Reaches.invariant h (fun _ _ hlog hok => hlog.perform hok.1 hok.2) stored_empty

/-- As long as no entry is appended behind a torn frame, every crash of a history
recovers the entries, the term and the vote that were in memory, with or without
the entry whose `append` it interrupts. -/
theorem recovers_of_clean {log : RaftLog} (h : History Clean log) {c : DurableCall}
    (hcrash : c.isCrash = true) (htyped : c.Typed) (hclean : log.Clean c) : log.Recovers c :=
  (h.stored.crash hcrash htyped hclean).1

end RaftLog

namespace DurableCall

instance : (c : DurableCall) → Decidable c.Typed
  | .append _ | .crashInAppend .. => inferInstanceAs (Decidable (_ ∧ _))
  | .truncateFrom _ => inferInstanceAs (Decidable (_ < _))
  | .persistTermVote _ vote => inferInstanceAs (Decidable (_ ∧ ∀ v ∈ vote, _))
  | .crash => isTrue trivial

end DurableCall

namespace RaftLog

variable [Crc32fast]

instance (log : RaftLog) : (c : DurableCall) → Decidable (log.Clean c)
  | .append _ | .crashInAppend .. => inferInstanceAs (Decidable (_ ∧ _))
  | .truncateFrom _ | .persistTermVote .. | .crash => isTrue trivial

end RaftLog

section Runs

namespace RaftLog

/-- An `append` is cut short after its header; the leader then makes the node drop
its last entry, and the node goes on. -/
def healedCalls : List DurableCall :=
  [.append ⟨1, 1, [7]⟩, .append ⟨1, 2, [8]⟩, .crashInAppend ⟨1, 3, [9]⟩ 10, .truncateFrom 2,
    .append ⟨2, 2, [5, 6]⟩, .persistTermVote 2 (some 1)]

set_option maxRecDepth 100000 in
theorem recovers_healedCalls :
    let log := healedCalls.foldl perform empty
    log.entries = [⟨1, 1, [7]⟩, ⟨2, 2, [5, 6]⟩] ∧ log.Recovers (.crashInAppend ⟨2, 3, [4]⟩ 20) :=
  ⟨by decide +kernel, recovers_of_clean (.of_allowed healedCalls (by decide +kernel)) rfl
    (by decide +kernel) (by decide +kernel)⟩

def appendedAgain : List DurableCall :=
  [.crashInAppend ⟨1, 1, [7]⟩ 2, .append ⟨1, 1, [7]⟩]

set_option maxRecDepth 100000 in
/-- The entry appended behind the torn frame is lost. -/
theorem not_recovers_appendedAgain :
    let log := appendedAgain.foldl perform empty
    History (fun _ _ => True) log ∧ log.entries = [⟨1, 1, [7]⟩] ∧
      (log.perform .crash).entries = [] ∧ ¬ log.Recovers .crash := by
  refine ⟨.of_allowed appendedAgain (by decide +kernel), by decide +kernel, by decide +kernel, ?_⟩
  rintro ⟨-, -, hentries | ⟨e, written, hcall, -⟩⟩
  · revert hentries
    decide +kernel
  · cases hcall

end RaftLog

end Runs

end BonsaiGrid.Raft
