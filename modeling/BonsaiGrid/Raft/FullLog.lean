import BonsaiGrid.Consensus.Replog
import BonsaiGrid.Raft.Node

/-!
# The full log

A compacted log keeps the entries after its snapshot index and forgets the ones before. Its
meaning is the list of all entries since the first, `F`, of which it holds a suffix: `Represents
log F`.
-/

namespace BonsaiGrid.Raft

open Consensus List Option Nat

def number : ℕ → List (Ent Bytes) → List Entry
  | _, [] => []
  | s, e :: es => { term := e.term, index := s + 1, command := e.val } :: number (s + 1) es

section Number

variable (s k : ℕ) (xs ys : List (Ent Bytes))

@[simp] theorem length_number : (number s xs).length = xs.length := by
  induction xs generalizing s with
  | nil => rfl
  | cons e es ih => simp [number, ih]

theorem number_append : number s (xs ++ ys) = number s xs ++ number (s + xs.length) ys := by
  induction xs generalizing s with
  | nil => rfl
  | cons e es ih =>
    simp only [cons_append, number, ih, length_cons]
    rw [Nat.add_right_comm, Nat.add_assoc]

theorem number_take : (number s xs).take k = number s (xs.take k) := by
  induction xs generalizing s k with
  | nil => simp [number]
  | cons e es ih =>
    cases k with
    | zero => rfl
    | succ k => simp [number, ih]

theorem number_drop : (number s xs).drop k = number (s + k) (xs.drop k) := by
  induction xs generalizing s k with
  | nil => simp [number]
  | cons e es ih =>
    cases k with
    | zero => rfl
    | succ k =>
      simp only [number, drop_succ_cons, ih]
      rw [Nat.add_right_comm, Nat.add_assoc]

theorem getElem?_number :
    (number s xs)[k]? =
      xs[k]?.map fun e => { term := e.term, index := s + k + 1, command := e.val } := by
  induction xs generalizing s k with
  | nil => simp [number]
  | cons e es ih =>
    cases k with
    | zero => rfl
    | succ k =>
      simp only [number, getElem?_cons_succ, ih]
      rw [show s + 1 + k + 1 = s + (k + 1) + 1 by omega]

theorem getLast?_number :
    (number s xs).getLast? =
      xs.getLast?.map fun e => { term := e.term, index := s + xs.length, command := e.val } := by
  cases xs with
  | nil => rfl
  | cons e es =>
    rw [getLast?_eq_getElem?, getLast?_eq_getElem?, getElem?_number, length_number]
    rfl

theorem map_index_number : (number s xs).map Entry.index = range' (s + 1) xs.length := by
  induction xs generalizing s with
  | nil => rfl
  | cons e es ih => rw [number, map_cons, ih, length_cons, range'_succ]

theorem mem_number {e : Entry} : e ∈ number s xs ↔
    s < e.index ∧ xs[e.index - s - 1]? = some ⟨e.term, e.command⟩ := by
  rw [mem_iff_getElem?]
  constructor
  · rintro ⟨k, hk⟩
    rw [getElem?_number, map_eq_some_iff] at hk
    obtain ⟨x, hx, rfl⟩ := hk
    refine ⟨by simp only; omega, ?_⟩
    rw [show s + k + 1 - s - 1 = k by omega]
    exact hx
  · rintro ⟨hlt, hx⟩
    refine ⟨e.index - s - 1, ?_⟩
    rw [getElem?_number, hx, map_some,
      show s + (e.index - s - 1) + 1 = e.index by omega]

end Number

def termIn (F : List (Ent Bytes)) (idx : ℕ) : ℕ := (F[idx - 1]?.map Ent.term).getD 0

theorem lastTerm_take {F : List (Ent Bytes)} {idx : ℕ} (hpos : 0 < idx) (hle : idx ≤ F.length) :
    lastTerm (F.take idx) = termIn F idx := by
  rw [lastTerm, termIn, getLast?_eq_getElem?, length_take, min_eq_left hle,
    getElem?_take_of_lt (by omega)]

theorem termIn_take {F : List (Ent Bytes)} {idx k : ℕ} (hpos : 0 < idx) (h : idx ≤ k) :
    termIn (F.take k) idx = termIn F idx := by
  rw [termIn, termIn, getElem?_take_of_lt (by omega)]

/-- `log` holds the entries of `F` after its snapshot index, and the term of
the entry at the snapshot index. -/
structure Represents (log : RaftLog) (F : List (Ent Bytes)) : Prop where
  snapshot_le : log.snapshotIndex ≤ F.length
  entries : log.entries = number log.snapshotIndex (F.drop log.snapshotIndex)
  snapshotTerm : log.snapshotTerm = lastTerm (F.take log.snapshotIndex)

namespace Represents

variable {log : RaftLog} {F : List (Ent Bytes)} {idx : ℕ}

section

variable (h : Represents log F)

include h

theorem lastIndex_eq : log.lastIndex = F.length := by
  have hle := h.snapshot_le
  rw [RaftLog.lastIndex, h.entries, getLast?_number, length_drop, getLast?_drop]
  split
  · rw [map_none, map_none, getD_none]
    omega
  · rename_i hlt
    have hne : F ≠ [] := by
      rintro rfl
      simp at hlt
    rw [getLast?_eq_some_getLast hne]
    simp only [map_some, getD_some]
    omega

theorem lastTerm_eq : log.lastTerm = lastTerm F := by
  rw [RaftLog.lastTerm, h.entries, getLast?_number, getLast?_drop]
  split
  · rename_i hge
    rw [map_none, map_none, getD_none, h.snapshotTerm, take_of_length_le hge]
  · rename_i hlt
    have hne : F ≠ [] := by
      rintro rfl
      simp at hlt
    rw [lastTerm, getLast?_eq_some_getLast hne]
    rfl

theorem bind_pos (hs : log.snapshotIndex < idx) {α : Type}
    (f : Entry → α) : ((log.pos idx).bind fun p => log.entries[p]?.map f) =
      F[idx - 1]?.map fun e => f { term := e.term, index := idx, command := e.val } := by
  unfold RaftLog.pos
  rw [if_neg (not_le.2 hs)]
  dsimp only
  split
  · rw [bind_some, h.entries, getElem?_number, getElem?_drop, Option.map_map,
      show log.snapshotIndex + (idx - log.snapshotIndex - 1) = idx - 1 by omega,
      show idx - 1 + 1 = idx by omega]
    rfl
  · rename_i hge
    rw [h.entries, length_number, length_drop] at hge
    rw [bind_none, getElem?_eq_none (by omega), map_none]

theorem termAt_eq (hpos : 0 < idx)
    (hs : log.snapshotIndex ≤ idx) : log.termAt idx = termIn F idx := by
  unfold RaftLog.termAt
  rw [if_neg (by omega)]
  split
  · rename_i heq
    rw [h.snapshotTerm, ← heq]
    exact lastTerm_take hpos (heq ▸ h.snapshot_le)
  · rw [h.bind_pos (by omega)]
    rfl

theorem commandAt_eq (hs : log.snapshotIndex < idx) :
    log.commandAt idx = F[idx - 1]?.map Ent.val :=
  h.bind_pos hs Entry.command

theorem entriesFrom_eq (start : ℕ) :
    log.entriesFrom start = number (max (start - 1) log.snapshotIndex)
      (F.drop (max (start - 1) log.snapshotIndex)) := by
  rw [RaftLog.entriesFrom, h.entries, number_drop, drop_drop,
    show log.snapshotIndex + (start - (log.snapshotIndex + 1)) =
      max (start - 1) log.snapshotIndex by omega]

theorem persistTermVote (term : ℕ) (vote : Option NodeId) :
    Represents (log.persistTermVote term vote) F :=
  ⟨h.snapshot_le, h.entries, h.snapshotTerm⟩

theorem compact (upTo : ℕ) : Represents (log.compact upTo) F := by
  unfold RaftLog.compact
  split
  · exact h
  · rename_i hguard
    obtain ⟨-, hlt, hle⟩ := not_or.1 hguard |>.imp_right not_or.1
    rw [h.lastIndex_eq, not_lt] at hle
    refine ⟨hle, ?_, ?_⟩
    · have hmin : min (upTo - log.snapshotIndex) log.entries.length = upTo - log.snapshotIndex := by
        rw [h.entries, length_number, length_drop]
        omega
      simp only [hmin]
      rw [h.entries, number_drop, drop_drop,
        show log.snapshotIndex + (upTo - log.snapshotIndex) = upTo by omega]
    · simp only
      rw [h.termAt_eq (by omega) (by omega), lastTerm_take (by omega) (by omega)]

end

theorem append [Crc32fast] (h : Represents log F) {e : Entry} (he : e.index = F.length + 1) :
    Represents (log.append e) (F ++ [⟨e.term, e.command⟩]) := by
  have hs := h.snapshot_le
  refine ⟨?_, ?_, ?_⟩
  · simp only [RaftLog.append_snapshotIndex, length_append, length_singleton]
    omega
  · rw [RaftLog.append_entries, RaftLog.append_snapshotIndex, h.entries,
      drop_append_of_le_length hs, number_append, length_drop,
      show log.snapshotIndex + (F.length - log.snapshotIndex) = F.length by omega]
    simp [number, ← he]
  · rw [RaftLog.append_snapshotIndex,
      take_append_of_le_length hs]
    exact h.snapshotTerm

theorem append_assertFailed [Crc32fast] (h : Represents log F) {e : Entry}
    (he : e.index = F.length + 1) : (log.append e).assertFailed = log.assertFailed := by
  simp [h.lastIndex_eq, he]

theorem truncateFrom [Crc32fast] (h : Represents log F) {idx : ℕ}
    (hs : log.snapshotIndex < idx) : Represents (log.truncateFrom idx) (F.take (idx - 1)) := by
  have hle := h.snapshot_le
  refine ⟨?_, ?_, ?_⟩
  · rw [RaftLog.truncateFrom_snapshotIndex, length_take]
    omega
  · rw [RaftLog.truncateFrom_entries, RaftLog.truncateFrom_snapshotIndex, h.entries, number_take,
      drop_take, show idx - (log.snapshotIndex + 1) = idx - 1 - log.snapshotIndex by omega]
  · rw [RaftLog.truncateFrom_snapshotIndex, take_take,
      min_eq_left (by omega)]
    exact h.snapshotTerm

end Represents

section AppendAll

variable {log : RaftLog} {F H : List (Ent Bytes)} {j k : ℕ} {e f : Ent Bytes}

/-- Two logs that have an entry of one term at one position agree up to there. -/
def Matching (F H : List (Ent Bytes)) : Prop :=
  ∀ i e f, F[i]? = some e → H[i]? = some f → e.term = f.term → F.take (i + 1) = H.take (i + 1)

theorem splice_succ_of_term_eq (hmatch : Matching F H) (he : H[j]? = some e)
    (hf : (splice (H.take j) F)[j]? = some f) (hterm : f.term = e.term) :
    splice (H.take (j + 1)) F = splice (H.take j) F := by
  rcases splice_eq_or (h := H.take j) (l := F) with hF | hH
  · rw [hF] at hf ⊢
    refine splice_of_isPrefix ?_
    rw [← hmatch j f e hf he hterm]
    exact take_prefix _ _
  · rw [hH, getElem?_eq_none (length_take_le _ _)] at hf
    cases hf

theorem splice_succ_of_term_ne (he : H[j]? = some e)
    (hne : ∀ f, (splice (H.take j) F)[j]? = some f → f.term ≠ e.term) :
    splice (H.take (j + 1)) F = (splice (H.take j) F).take j ++ [e] := by
  have hlt : j < H.length := (List.getElem?_eq_some_iff.1 he).1
  have hnot : ¬ H.take (j + 1) <+: F := by
    intro hp
    have hpj : H.take j <+: F := (take_prefix_take_left (le_succ j)).trans hp
    rw [splice_of_isPrefix hpj] at hne
    obtain ⟨t, rfl⟩ := hp
    refine hne e ?_ rfl
    rw [getElem?_append_left (by rw [length_take]; omega),
      getElem?_take_of_lt (lt_succ_self j)]
    exact he
  have htake : (splice (H.take j) F).take j = H.take j := by
    have hp : H.take j <+: splice (H.take j) F := prefix_splice
    rw [prefix_iff_eq_take, length_take, min_eq_left hlt.le] at hp
    exact hp.symm
  rw [splice, if_neg hnot, htake, take_add_one, he]
  rfl

variable [Crc32fast]

theorem appendAll_step (h : Represents log (splice (H.take j) F)) (hmatch : Matching F H)
    (hle : log.snapshotIndex ≤ F.length) (hsnap : F.take log.snapshotIndex <+: H)
    (he : H[j]? = some e) (idx : ℕ) (es : List Entry) :
    ∃ log', RaftNode.appendAll log idx (⟨e.term, j + 1, e.val⟩ :: es) =
        RaftNode.appendAll log' (j + 1) es ∧
      Represents log' (splice (H.take (j + 1)) F) ∧ log'.snapshotIndex = log.snapshotIndex ∧
      log'.assertFailed = log.assertFailed := by
  simp only [RaftNode.appendAll]
  split
  · rename_i hfolded
    refine ⟨log, rfl, ?_, rfl, rfl⟩
    have hH : H.take log.snapshotIndex = F.take log.snapshotIndex := by
      rw [prefix_iff_eq_take, length_take, min_eq_left hle] at hsnap
      exact hsnap.symm
    have hp : H.take (j + 1) <+: F :=
      (take_prefix_take_left hfolded).trans (hH ▸ take_prefix _ _)
    have hpj : H.take j <+: F := (take_prefix_take_left (le_succ j)).trans hp
    rwa [splice_of_isPrefix hp, ← splice_of_isPrefix hpj]
  · rename_i hlive
    rw [not_le] at hlive
    have hterm : log.termAt (j + 1) = ((splice (H.take j) F)[j]?.map Ent.term).getD 0 :=
      h.termAt_eq (succ_pos j) hlive.le
    have hlast := h.lastIndex_eq
    split
    · rename_i hsame
      obtain ⟨hsame, hin⟩ := hsame
      refine ⟨log, rfl, ?_, rfl, rfl⟩
      rw [hlast] at hin
      have hf := getElem?_eq_getElem (show j < (splice (H.take j) F).length from hin)
      rw [hf, hsame] at hterm
      rwa [splice_succ_of_term_eq hmatch he hf hterm.symm]
    · rename_i hconflict
      have hne : ∀ f, (splice (H.take j) F)[j]? = some f → f.term ≠ e.term := by
        intro f hf heq
        refine hconflict ⟨?_, hlast ▸ (List.getElem?_eq_some_iff.1 hf).1⟩
        rw [hterm, hf]
        exact heq
      have hlen : ((splice (H.take j) F).take j).length = j := by
        have hp : (H.take j).length ≤ (splice (H.take j) F).length := prefix_splice.length_le
        have hlt := (List.getElem?_eq_some_iff.1 he).1
        rw [length_take] at hp ⊢
        omega
      have hcut : Represents (log.truncateFrom (j + 1)) ((splice (H.take j) F).take j) :=
        h.truncateFrom hlive
      have hidx : (⟨e.term, j + 1, e.val⟩ : Entry).index =
          ((splice (H.take j) F).take j).length + 1 := by
        rw [hlen]
      refine ⟨_, rfl, ?_, rfl, ?_⟩
      · rw [splice_succ_of_term_ne he hne]
        exact hcut.append hidx
      · rw [hcut.append_assertFailed hidx, RaftLog.truncateFrom_assertFailed]

/-- The whole loop: the entries of `H` after the first `j` and up to the first
`k` are taken over into a log that has the first `j`. -/
theorem appendAll_represents (hjk : j ≤ k) (hk : k ≤ H.length) (hmatch : Matching F H)
    {log : RaftLog} (h : Represents log (splice (H.take j) F))
    (hle : log.snapshotIndex ≤ F.length) (hsnap : F.take log.snapshotIndex <+: H) (idx : ℕ) :
    Represents (RaftNode.appendAll log idx (number j ((H.take k).drop j))).1
        (splice (H.take k) F) ∧
      (RaftNode.appendAll log idx (number j ((H.take k).drop j))).1.snapshotIndex =
        log.snapshotIndex ∧
      (RaftNode.appendAll log idx (number j ((H.take k).drop j))).1.assertFailed =
        log.assertFailed := by
  -- induction on the number of entries left
  induction hd : k - j generalizing j log idx with
  | zero =>
    have hj : j = k := by omega
    subst hj
    rw [drop_take, Nat.sub_self]
    exact ⟨h, rfl, rfl⟩
  | succ d ih =>
    have hlt : j < H.length := by omega
    have he : H[j]? = some H[j] := getElem?_eq_getElem hlt
    have hdrop : (H.take k).drop j = H[j] :: (H.take k).drop (j + 1) := by
      rw [drop_eq_getElem_cons (by rw [length_take]; omega), getElem_take]
    obtain ⟨log', heq, hrep, hs, ha⟩ := appendAll_step h hmatch hle hsnap he idx
      (number (j + 1) ((H.take k).drop (j + 1)))
    rw [hdrop, number, heq, ← hs, ← ha]
    exact ih (by omega) hrep (hs ▸ hle) (hs ▸ hsnap) (j + 1) (by omega)

theorem appendAll_snd_le (log : RaftLog) {idx : ℕ} (hidx : idx ≤ k) (hjk : j ≤ k) :
    (RaftNode.appendAll log idx (number j ((H.take k).drop j))).2 ≤ k := by
  rw [RaftNode.appendAll_snd, getLast?_number]
  cases ((H.take k).drop j).getLast? with
  | none => exact hidx
  | some e =>
    simp only [map_some, getD_some, length_drop, length_take]
    omega

end AppendAll

end BonsaiGrid.Raft
