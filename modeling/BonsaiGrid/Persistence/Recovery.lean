import BonsaiGrid.Persistence.Tags

/-!
# What a directory recovers

The segments from the newest snapshot on are paired with the indices of the mutations whose
records they hold.
-/

namespace BonsaiGrid.Persistence

open Store List

def kept (d : Directory) : List (ℕ × WalFile) :=
  d.wals.files.filter fun f => d.snapshotGen ≤ f.1

abbrev Indexed := (ℕ × WalFile) × List ℕ

section Entries

variable {mk : Str × Bytes} {c : Contents}

theorem exists_putStamp {records : List WalRecord} {cell : Cell}
    (h : records.foldl replayCell c mk = some cell) :
    c mk = some cell ∨ ∃ r ∈ records, putStamp r = some cell.stamp := by
  induction records generalizing c with
  | nil => exact .inl h
  | cons r records ih =>
    rcases ih h with hc | ⟨x, hx, hstamp⟩
    · by_cases hkey : recordKey r = some mk
      · cases r with
        | mapPut stamp ttlMs map key value =>
          cases hkey
          rw [show replayCell c (.mapPut stamp ttlMs map key value) (map, key) =
            some (Inner.mergeCell (c (map, key)) ⟨value, 0, stamp⟩ true) from
              Function.update_self _ _ _] at hc
          rcases mergeCell_eq_or (c (map, key)) ⟨value, 0, stamp⟩ true with heq | hold
          · rw [heq] at hc
            cases hc
            exact .inr ⟨_, mem_cons_self, rfl⟩
          · exact .inl (hold.trans hc)
        | mapRemove stamp map key =>
          cases hkey
          rw [show replayCell c (.mapRemove stamp map key) (map, key) = none from
            Function.update_self _ _ _] at hc
          cases hc
        | auxState => cases hkey
      · rw [replayCell_of_ne hkey] at hc
        exact .inl hc
    · exact .inr ⟨x, mem_cons_of_mem r hx, hstamp⟩

theorem foldl_entryRecord {entries : List StampedEntry} {e : StampedEntry}
    (hnodup : (entries.map fun e => (e.1, e.2.1)).Nodup) (he : e ∈ entries)
    (hnone : c (e.1, e.2.1) = none) :
    (entries.map entryRecord).foldl replayCell c (e.1, e.2.1) =
      some ⟨e.2.2.1, 0, e.2.2.2⟩ := by
  induction entries generalizing c with
  | nil => cases he
  | cons x entries ih =>
    rw [map_cons, nodup_cons] at hnodup
    rw [map_cons, foldl_cons]
    rcases mem_cons.1 he with rfl | he
    · have hother : ∀ r ∈ entries.map entryRecord, recordKey r ≠ some (e.1, e.2.1) := by
        intro r hr hkey
        obtain ⟨y, hy, rfl⟩ := mem_map.1 hr
        exact hnodup.1 (Option.some.inj hkey ▸ mem_map_of_mem hy)
      rw [foldl_replayCell_of_ne hother, entryRecord,
        show replayCell c (.mapPut e.2.2.2 0 e.1 e.2.1 e.2.2.1) (e.1, e.2.1) =
          some (Inner.mergeCell (c (e.1, e.2.1)) ⟨e.2.2.1, 0, e.2.2.2⟩ true) from
            Function.update_self _ _ _, hnone]
      rfl
    · refine ih hnodup.2 he ?_
      rw [replayCell_of_ne _ c, hnone]
      intro hkey
      have heq : (x.1, x.2.1) = (e.1, e.2.1) := Option.some.inj hkey
      exact hnodup.1 (heq ▸ mem_map_of_mem he)

end Entries

section Directory

variable [Crc32fast]

/-- The directory is in order: its segments hold the records of the mutations that they are
paired with, and its newest snapshot the cells that the tags say. -/
structure DirOk (d : Directory) (history : List WalRecord) (segments : List Indexed)
    (tag : Str × Bytes → Option ℕ) (known : Set ℕ) : Prop where
  kept : kept d = segments.map Prod.fst
  file : ∀ p ∈ segments, ∃ tail, p.1.2.bytes = segment (nths history p.2) ++ tail ∧ TornTail tail
  rising : (segments.flatMap Prod.snd).Pairwise (· < ·)
  loaded : ∃ loaded, (d.snapshots.last?.elim (some []) fun s => loadSnapshot s.2) = some loaded ∧
    (∀ r ∈ loaded, WalRecord.Plain r ∧ ∀ stamp, putStamp r = some stamp → stamp < 2 ^ 64) ∧
    ∀ mk, Tagged history mk (tag mk) (loaded.foldl replayCell (fun _ => none) mk)
  fits : ∀ r ∈ history, Fits r ∧ WalRecord.Plain r
  rise : StampsRise history known
  lt_length : ∀ i ∈ known, i < history.length
  known_segments : ∀ p ∈ segments, ∀ i ∈ p.2, i ∈ known
  known_tag : ∀ mk i, tag mk = some i → i ∈ known

/-- The record of the mutation is in the synced part of a segment. -/
def HeldBy (history : List WalRecord) (p : Indexed) (i : ℕ) : Prop :=
  ∃ j, p.2[j]? = some i ∧ (segment (nths history (p.2.take (j + 1)))).length ≤ p.1.2.synced

/-- The mutation survives a crash: its record is synced, or the snapshot covers it and no
older record is replayed over the snapshot. -/
def Survives (history : List WalRecord) (segments : List Indexed) (tag : Str × Bytes → Option ℕ)
    (i : ℕ) : Prop :=
  (∃ p ∈ segments, HeldBy history p i) ∨
    (∀ mk, recordKey (nth history i) = some mk → Covers (tag mk) i) ∧
      ∀ p ∈ segments, ∀ k ∈ p.2, i < k

def cutPair (left : ℕ → ℕ) (p : Indexed) : Indexed :=
  let bytes := p.1.2.bytes.take (max p.1.2.synced (left p.1.1))
  ((p.1.1, { p.1.2 with bytes := bytes }), p.2.take (readSegment bytes).length)

variable {d : Directory} {history : List WalRecord} {segments : List Indexed}
  {tag : Str × Bytes → Option ℕ} {known : Set ℕ} {i : ℕ}

namespace DirOk

theorem fits_nths (h : DirOk d history segments tag known) {p : Indexed} (hp : p ∈ segments) :
    ∀ r ∈ nths history p.2, Fits r ∧ WalRecord.Plain r := by
  intro r hr
  obtain ⟨i, hi, rfl⟩ := mem_map.1 hr
  have hlt := h.lt_length i (h.known_segments p hp i hi)
  exact h.fits _ (mem_of_getElem? (getElem?_eq_nth hlt))

theorem cut_file (h : DirOk d history segments tag known) (left : ℕ → ℕ) {p : Indexed}
    (hp : p ∈ segments) :
    (∃ tail, (cutPair left p).1.2.bytes = segment (nths history (cutPair left p).2) ++ tail ∧
      TornTail tail) ∧
      ∀ i ≤ p.2.length, (segment (nths history (p.2.take i))).length ≤ p.1.2.synced →
        (cutPair left p).2.take i = p.2.take i := by
  have hfits : ∀ r ∈ nths history p.2, Fits r := fun r hr => (h.fits_nths hp r hr).1
  obtain ⟨tail, hbytes, htail⟩ := h.file p hp
  obtain ⟨j, tail', hcut, htail', hmax⟩ := cut_segment hfits htail (max p.1.2.synced (left p.1.1))
  have htake : (nths history p.2).take j = nths history (p.2.take j) := (map_take ..).symm
  have hread : (readSegment (p.1.2.bytes.take (max p.1.2.synced (left p.1.1)))).length =
      min j p.2.length := by
    rw [hbytes, hcut, readSegment_segment (fun r hr => hfits r (mem_of_mem_take hr)) htail',
      length_take, nths, length_map]
  have hleft : (cutPair left p).2 = p.2.take j := by
    rw [cutPair]
    rw [hread, ← take_eq_take_min]
  refine ⟨⟨tail', ?_, htail'⟩, fun i hi hlen => ?_⟩
  · rw [hleft, ← htake, ← hcut, ← hbytes]
    rfl
  · have hij := hmax i (by rwa [nths, length_map]) (by
      rw [show (nths history p.2).take i = nths history (p.2.take i) from (map_take ..).symm]
      omega)
    rw [hleft, take_take, Nat.min_eq_left hij]

theorem sublist_cut (left : ℕ → ℕ) (segments : List Indexed) :
    ((segments.map (cutPair left)).flatMap Prod.snd).Sublist (segments.flatMap Prod.snd) := by
  induction segments with
  | nil => exact .slnil
  | cons p segments ih =>
    exact (take_sublist _ _).append ih

theorem cut (h : DirOk d history segments tag known) (left : ℕ → ℕ) :
    DirOk (d.cut left) history (segments.map (cutPair left)) tag known where
  kept := by
    have hkept := h.kept
    rw [Persistence.kept, Directory.cut]
    rw [filter_map, map_map, show Prod.fst ∘ cutPair left =
      (fun f : ℕ × WalFile => (f.1, { f.2 with bytes := f.2.bytes.take (max f.2.synced (left f.1)) })) ∘
        Prod.fst from rfl, ← map_map, ← hkept]
    rfl
  file := fun p hp => by
    obtain ⟨q, hq, rfl⟩ := mem_map.1 hp
    exact (h.cut_file left hq).1
  rising := h.rising.sublist (sublist_cut left segments)
  loaded := h.loaded
  fits := h.fits
  rise := h.rise
  lt_length := h.lt_length
  known_segments := fun p hp i hi => by
    obtain ⟨q, hq, rfl⟩ := mem_map.1 hp
    exact h.known_segments q hq i (mem_of_mem_take hi)
  known_tag := h.known_tag

theorem survives_cut (h : DirOk d history segments tag known) (left : ℕ → ℕ)
    (hi : Survives history segments tag i) :
    Survives history (segments.map (cutPair left)) tag i := by
  rcases hi with ⟨p, hp, j, hj, hlen⟩ | ⟨hcover, hlater⟩
  · have hjlt := (List.getElem?_eq_some_iff.1 hj).1
    have htake := (h.cut_file left hp).2 (j + 1) hjlt hlen
    refine .inl ⟨cutPair left p, mem_map_of_mem hp, j, ?_, ?_⟩
    · rw [← List.getElem?_take_of_lt (Nat.lt_succ_self j), htake,
        List.getElem?_take_of_lt (Nat.lt_succ_self j), hj]
    · rw [htake]
      exact hlen
  · refine .inr ⟨hcover, fun p hp k hk => ?_⟩
    obtain ⟨q, hq, rfl⟩ := mem_map.1 hp
    exact hlater q hq k (mem_of_mem_take hk)

theorem records_eq (h : DirOk d history segments tag known) :
    ∃ loaded, d.records = some (loaded ++ nths history (segments.flatMap Prod.snd)) ∧
      (∀ r ∈ loaded, WalRecord.Plain r ∧ ∀ stamp, putStamp r = some stamp → stamp < 2 ^ 64) ∧
      ∀ mk, Tagged history mk (tag mk) (loaded.foldl replayCell (fun _ => none) mk) := by
  obtain ⟨loaded, hload, hplain, htag⟩ := h.loaded
  refine ⟨loaded, ?_, hplain, htag⟩
  have hwal : d.walRecords d.snapshotGen = nths history (segments.flatMap Prod.snd) := by
    rw [Directory.walRecords, show (d.wals.files.filter fun f => decide (d.snapshotGen ≤ f.1)) =
      segments.map Prod.fst from h.kept, flatMap_map, nths, map_flatMap]
    refine flatMap_congr fun p hp => ?_
    obtain ⟨tail, hbytes, htail⟩ := h.file p hp
    rw [hbytes, readSegment_segment (fun r hr => (h.fits_nths hp r hr).1) htail]
    rfl
  rw [Directory.records, hload, hwal]
  rfl

theorem recover (h : DirOk d history segments tag known) {n : ℕ} (hn : 0 < n) (memberId : ℕ)
    (clock : ℕ → StoreEnv) :
    ∃ s records, d.recover (withShardsSeed n memberId) clock = some s ∧ d.records = some records ∧
      s = replay (withShardsSeed n memberId) (records.zipIdx.map fun r => (clock r.2, r.1)) ∧
      s.Inv ∧ Lasting s.contents ∧
      (∀ r ∈ records, ∀ stamp, putStamp r = some stamp → stamp < 2 ^ 64) ∧
      (∀ i, (∃ p ∈ segments, i ∈ p.2) ∨ (∃ mk, tag mk = some i) → ∀ stamp,
        putStamp (nth history i) = some stamp → ∃ r ∈ records, putStamp r = some stamp) ∧
      ∃ live : Str × Bytes → Option ℕ, ∀ mk, Tagged history mk (live mk) (s.contents mk) ∧
        (∀ p ∈ segments, ∀ i ∈ p.2, recordKey (nth history i) = some mk → Covers (live mk) i) ∧
        (live mk = tag mk ∨ ∃ p ∈ segments, ∃ i ∈ p.2, live mk = some i) ∧
        ((∀ p ∈ segments, ∀ i ∈ p.2, recordKey (nth history i) ≠ some mk) → live mk = tag mk) := by
  obtain ⟨loaded, hrecords, hloaded, htag⟩ := h.records_eq
  obtain ⟨hinv, hempty⟩ := inv_withShardsSeed hn memberId
  have hmem : ∀ i, i ∈ segments.flatMap Prod.snd ↔ ∃ p ∈ segments, i ∈ p.2 := fun i =>
    mem_flatMap
  have hnths : ∀ r ∈ nths history (segments.flatMap Prod.snd), Fits r ∧ WalRecord.Plain r := by
    intro r hr
    obtain ⟨i, hi, rfl⟩ := mem_map.1 hr
    obtain ⟨p, hp, hi⟩ := (hmem i).1 hi
    exact h.fits_nths hp _ (mem_map_of_mem hi)
  have hlast : Lasting (withShardsSeed n memberId).contents := by
    rw [hempty]
    exact fun mk cell hcell => absurd hcell (by simp)
  let rs := (loaded ++ nths history (segments.flatMap Prod.snd)).zipIdx.map fun r => (clock r.2, r.1)
  have hsnd : rs.map Prod.snd = loaded ++ nths history (segments.flatMap Prod.snd) := by
    rw [map_map]
    exact zipIdx_map_fst 0 _
  have hin : ∀ r ∈ rs, r.2 ∈ loaded ++ nths history (segments.flatMap Prod.snd) := fun r hr =>
    hsnd ▸ mem_map_of_mem hr
  have hplain : ∀ r ∈ rs, WalRecord.Plain r.2 := by
    intro r hr
    rcases mem_append.1 (hin r hr) with hr | hr
    · exact (hloaded _ hr).1
    · exact (hnths _ hr).2
  obtain ⟨hinv', hlast', hcont⟩ := replay_contents hinv hlast hplain
  rw [hsnd, hempty, foldl_append] at hcont
  refine ⟨replay (withShardsSeed n memberId) rs, _, by rw [Directory.recover, hrecords]; rfl, hrecords,
    rfl, hinv', hlast', fun r hr stamp hstamp => ?_, fun i hi stamp hstamp => ?_, ?_⟩
  · rcases mem_append.1 hr with hr | hr
    · exact (hloaded _ hr).2 stamp hstamp
    · have hfit := (hnths _ hr).1.2
      cases r with
      | mapPut =>
        cases hstamp
        exact hfit.1
      | mapRemove | auxState => cases hstamp
  · rcases hi with hi | ⟨mk, hmk⟩
    · exact ⟨nth history i, mem_append_right _ (mem_map_of_mem ((hmem i).2 hi)), hstamp⟩
    · have ht := htag mk
      rw [hmk] at ht
      obtain ⟨-, -, hcell⟩ := ht
      cases hr : nth history i with
      | mapPut stamp' ttlMs map key value =>
        rw [hr] at hcell hstamp
        cases hstamp
        rcases exists_putStamp hcell with hnone | ⟨r, hr, hput⟩
        · cases hnone
        · exact ⟨r, mem_append_left _ hr, hput⟩
      | mapRemove | auxState => rw [hr] at hstamp; cases hstamp
  · have hreplay := fun mk => (htag mk).replay h.rise (h.known_tag mk) h.rising
      (fun i hi => by
        obtain ⟨p, hp, hi⟩ := (hmem i).1 hi
        exact h.known_segments p hp i hi)
      fun i hi => by
        obtain ⟨p, hp, hi⟩ := (hmem i).1 hi
        exact h.lt_length i (h.known_segments p hp i hi)
    choose live hlive hcovers hfrom hstay using hreplay
    refine ⟨live, fun mk => ⟨?_, fun p hp i hi => hcovers mk i ((hmem i).2 ⟨p, hp, hi⟩), ?_,
      fun hnone => hstay mk fun i hi => ?_⟩⟩
    · rw [hcont]
      exact hlive mk
    · rcases hfrom mk with heq | ⟨i, hi, heq⟩
      · exact .inl heq
      · obtain ⟨p, hp, hi⟩ := (hmem i).1 hi
        exact .inr ⟨p, hp, i, hi, heq⟩
    · obtain ⟨p, hp, hi⟩ := (hmem i).1 hi
      exact hnone p hp i hi

end DirOk

theorem Survives.covers {live : Option ℕ} {mk : Str × Bytes} (h : Survives history segments tag i)
    (hkey : recordKey (nth history i) = some mk)
    (hcovers : ∀ p ∈ segments, ∀ i ∈ p.2, recordKey (nth history i) = some mk → Covers live i)
    (hstay : (∀ p ∈ segments, ∀ i ∈ p.2, recordKey (nth history i) ≠ some mk) → live = tag mk) :
    Covers live i := by
  rcases h with ⟨p, hp, j, hj, -⟩ | ⟨hcover, hlater⟩
  · exact hcovers p hp i (mem_of_getElem? hj) hkey
  · by_cases hexists : ∃ p ∈ segments, ∃ k ∈ p.2, recordKey (nth history k) = some mk
    · obtain ⟨p, hp, k, hk, hkeyk⟩ := hexists
      obtain ⟨l, hl, hle⟩ := hcovers p hp k hk hkeyk
      exact ⟨l, hl, Nat.le_trans (Nat.le_of_lt (hlater p hp k hk)) hle⟩
    · rw [hstay fun p hp k hk hkeyk => hexists ⟨p, hp, k, hk, hkeyk⟩]
      exact hcover mk hkey

end Directory

end BonsaiGrid.Persistence
