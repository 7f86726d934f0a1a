import BonsaiGrid.Persistence.Recovery

/-!
# Crash consistency of the persistence thread

In every state of the thread the directory holds the records of the mutations in order, from the
newest snapshot on, and every mutation whose record was synced is in the synced part of a segment
or covered by the snapshot.
-/

namespace BonsaiGrid.Persistence

open Store Numbered Function List Nat Directory Machine

/-- What the proof keeps beside a state: the segments with the mutations in them, the tags of the
newest snapshot and of the store, and the mutations that some of these know of. -/
structure Ghost where
  segments : List Indexed
  tag : Str × Bytes → Option ℕ
  live : Str × Bytes → Option ℕ
  known : Set ℕ

def collectedCell (entries : List StampedEntry) (mk : Str × Bytes) : Option Cell :=
  (entries.map entryRecord).foldl replayCell (fun _ => none) mk

/-- Of the shards that are done the collected cells are no older than what was synced; of the
others there are none. -/
structure Collected (history : List WalRecord) (fsynced : Set ℕ) (shards : ℕ) (known : Set ℕ)
    (done : ℕ) (entries : List StampedEntry) : Prop where
  done_cell : ∀ mk, shardOf mk.1 mk.2 shards < done →
    ∃ tag, Tagged history mk tag (collectedCell entries mk) ∧ (∀ i, tag = some i → i ∈ known) ∧
      ∀ i ∈ fsynced, recordKey (nth history i) = some mk → Covers tag i
  other_cell : ∀ mk, done ≤ shardOf mk.1 mk.2 shards → collectedCell entries mk = none

def FileName.number : FileName → ℕ
  | .wal n => n
  | .snapshot n => n

section Kept

theorem number_lt_of_superseded {d : Directory} {old keep : ℕ} {f : FileName} (hold : old < keep)
    (h : f ∈ superseded d old keep) : f.number < keep := by
  rcases mem_cons.1 h with rfl | h
  · exact hold
  · rcases mem_append.1 h with h | h
    all_goals
      obtain ⟨x, hx, rfl⟩ := mem_map.1 h
      exact of_decide_eq_true (mem_filter.1 hx).2

theorem kept_modify (d : Directory) (n : ℕ) (f : WalFile → WalFile) :
    kept { d with wals := d.wals.modify n f } =
      (kept d).map fun x => (x.1, if x.1 = n then f x.2 else x.2) := by
  rw [kept, Numbered.modify, filter_map]
  rfl

theorem kept_add (d : Directory) {n : ℕ} (h : ∀ f ∈ d.wals.files, f.1 < n)
    (hgen : d.snapshotGen ≤ n) :
    kept { d with wals := d.wals.add n {} } = kept d ++ [(n, ({} : WalFile))] := by
  have hlast : [(n, ({} : WalFile))].filter (fun f => decide (d.snapshotGen ≤ f.1)) = [(n, {})] :=
    filter_eq_self.2 fun f hf => by
      rw [mem_singleton.1 hf]
      exact decide_eq_true hgen
  rw [kept, files_add h, filter_append]
  exact congrArg (kept d ++ ·) hlast

theorem kept_removeWal (d : Directory) {n : ℕ} (h : n < d.snapshotGen) :
    kept (d.removeWal n) = kept d := by
  rw [kept, removeWal, retain]
  rw [filter_filter]
  refine filter_congr fun f _ => ?_
  by_cases hle : d.snapshotGen ≤ f.1
  · have hne : (f.1 != n) = true := bne_iff_ne.2 (by omega)
    rw [hne, Bool.and_true]
    rfl
  · rw [decide_eq_false hle]
    exact Bool.and_eq_false_imp.2 fun hdec => absurd (of_decide_eq_true hdec) hle

theorem openWal_of_lt {d : Directory} {n : ℕ} (h : ∀ f ∈ d.wals.files, f.1 < n) :
    d.openWal n = { d with wals := d.wals.add n {} } := by
  rw [openWal, if_neg]
  intro hmem
  obtain ⟨x, hx, heq⟩ := mem_map.1 hmem
  exact absurd heq (Nat.ne_of_lt (h x hx))

def opened (n : ℕ) : Indexed := ((n, {}), [])

end Kept

section Collect

variable {inner : Inner} {c : Contents} {mk : Str × Bytes}

theorem foldl_collectAllStamped_of_none (hinv : inner.Inv) (hplain : inner.Plain) (now : ℕ)
    (hmk : inner.contents mk = none) :
    ((inner.collectAllStamped now).map entryRecord).foldl replayCell c mk = c mk := by
  refine foldl_replayCell_of_ne (fun r hr hkey => ?_) c
  obtain ⟨⟨map, key, val, stamp⟩, he, rfl⟩ := mem_map.1 hr
  obtain ⟨cell, hcell, -⟩ := (hinv.mem_collectAllStamped hplain).1 he
  rw [show (map, key) = mk from Option.some.inj hkey, hmk] at hcell
  cases hcell

theorem foldl_collectAllStamped (hinv : inner.Inv) (hplain : inner.Plain)
    (hlast : Lasting inner.contents) (now : ℕ) (hmk : c mk = none) :
    ((inner.collectAllStamped now).map entryRecord).foldl replayCell c mk = inner.contents mk := by
  cases hcell : inner.contents mk with
  | none => rw [foldl_collectAllStamped_of_none hinv hplain now hcell, hmk]
  | some cell =>
    obtain ⟨map, key⟩ := mk
    have hmem : (map, key, cell.val, cell.stamp) ∈ inner.collectAllStamped now :=
      (hinv.mem_collectAllStamped hplain).2 ⟨cell, (hlast.seen now _).trans hcell, rfl, rfl⟩
    rw [foldl_entryRecord (hinv.nodup_collectAllStamped now) hmem hmk, ← hlast _ cell hcell]

end Collect

variable [Crc32fast]

structure Sound (t : Traced) (g : Ghost) : Prop where
  dir : DirOk t.machine.dir t.history g.segments g.tag g.known
  current : ∃ pre f L, g.segments = pre ++ [((t.machine.generation, f), L)] ∧
    t.machine.dir.wals.last? = some (t.machine.generation, f) ∧
    f.bytes = segment (nths t.history L) ∧ ∀ p ∈ pre, p.1.1 < t.machine.generation
  gen : t.machine.dir.snapshotGen ≤ t.machine.generation
  store : t.machine.store.Inv
  lasting : Lasting t.machine.store.contents
  sink : t.machine.store.walSink = some (t.history.drop t.appended)
  started_le : t.started ≤ t.appended
  appended_le : t.appended ≤ t.history.length
  pending_lt : t.machine.pending = true → t.appended < t.history.length
  below : ∀ p ∈ g.segments, ∀ i ∈ p.2, i < t.appended
  survives : ∀ i ∈ t.fsynced, i < t.appended ∧ Survives t.history g.segments g.tag i
  recent : ∀ i, t.started ≤ i → i < t.appended →
    i ∈ t.fsynced ∨ ∃ p ∈ g.segments, p.1.1 = t.machine.generation ∧ i ∈ p.2
  live : ∀ mk, Tagged t.history mk (g.live mk) (t.machine.store.contents mk)
  fresh : ∀ mk i, recordKey (nth t.history i) = some mk → i < t.history.length →
    t.started ≤ i ∨ i ∈ t.fsynced → Covers (g.live mk) i
  clock : ∀ i ∈ g.known, ∀ stamp, putStamp (nth t.history i) = some stamp →
    stamp / 2 ^ 7 ≤ t.machine.store.stampSeq / 2 ^ 7
  known_live : ∀ mk i, g.live mk = some i → i ∈ g.known
  known_recent : ∀ i, t.started ≤ i → i < t.history.length → i ∈ g.known
  collecting : ∀ old done entries, t.machine.phase = .collecting old done entries →
    old < t.machine.generation ∧ t.machine.dir.snapshotGen < t.machine.generation ∧
      (∀ p ∈ g.segments, p.1.1 = t.machine.generation → p.2 = []) ∧
      Collected t.history t.fsynced t.machine.store.shards.length g.known done entries
  deleting : ∀ todo, t.machine.phase = .deleting todo →
    (∃ bytes, t.machine.dir.snapshots.last? = some (t.machine.generation, bytes)) ∧
      ∀ f ∈ todo, f.number < t.machine.generation

/-! ## Mutations -/

section Mutate

variable {d : Directory} {history : List WalRecord} {segments : List Indexed}
  {tag : Str × Bytes → Option ℕ} {known : Set ℕ} {i : ℕ} {r : WalRecord}

theorem DirOk.extend (h : DirOk d history segments tag known) (hr : Fits r ∧ WalRecord.Plain r)
    (habove : ∀ i ∈ known, ∀ s s', putStamp (nth history i) = some s → putStamp r = some s' → s < s') :
    DirOk d (history ++ [r]) segments tag (insert history.length known) where
  kept := h.kept
  file := fun p hp => by
    have hlt : ∀ i ∈ p.2, i < history.length := fun i hi =>
      h.lt_length i (h.known_segments p hp i hi)
    rw [nths_append hlt]
    exact h.file p hp
  rising := h.rising
  loaded := by
    obtain ⟨loaded, hload, hplain, htag⟩ := h.loaded
    exact ⟨loaded, hload, hplain, fun mk => (htag mk).mono [r]⟩
  fits := forall_mem_concat h.fits hr
  rise := fun i hi j hj hij s s' hs hs' => by
    rcases hj with rfl | hj
    · rcases hi with rfl | hi
      · exact absurd hij (lt_irrefl _)
      · rw [nth_append (h.lt_length i hi)] at hs
        rw [nth_length] at hs'
        exact habove i hi s s' hs hs'
    · have hjlt := h.lt_length j hj
      rcases hi with rfl | hi
      · exact absurd hij (not_lt.2 (le_of_lt hjlt))
      · rw [nth_append (h.lt_length i hi)] at hs
        rw [nth_append hjlt] at hs'
        exact h.rise i hi j hj hij s s' hs hs'
  lt_length := fun i hi => by
    rw [length_append]
    rcases hi with rfl | hi
    · exact lt_succ_self _
    · exact Nat.lt_add_right _ (h.lt_length i hi)
  known_segments := fun p hp i hi => .inr (h.known_segments p hp i hi)
  known_tag := fun mk i hi => .inr (h.known_tag mk i hi)

theorem HeldBy.extend {p : Indexed} (h : HeldBy history p i) (hlt : ∀ k ∈ p.2, k < history.length) :
    HeldBy (history ++ [r]) p i := by
  obtain ⟨j, hj, hlen⟩ := h
  refine ⟨j, hj, ?_⟩
  rwa [nths_append fun k hk => hlt k (mem_of_mem_take hk)]

theorem DirOk.survives_extend (h : DirOk d history segments tag known) (hi : i < history.length)
    (hs : Survives history segments tag i) : Survives (history ++ [r]) segments tag i := by
  rcases hs with ⟨p, hp, hheld⟩ | ⟨hcover, hlater⟩
  · exact .inl ⟨p, hp, hheld.extend fun k hk => h.lt_length k (h.known_segments p hp k hk)⟩
  · refine .inr ⟨fun mk hkey => hcover mk ?_, hlater⟩
    rwa [nth_append hi] at hkey

end Mutate

/-! ## The current segment -/

section Modify

variable {d : Directory} {history : List WalRecord} {pre : List Indexed} {n i : ℕ} {f f' : WalFile}
  {L L' : List ℕ} {tag : Str × Bytes → Option ℕ} {known : Set ℕ}

theorem DirOk.modify (h : DirOk d history (pre ++ [((n, f), L)]) tag known)
    (hpre : ∀ p ∈ pre, p.1.1 < n) {change : WalFile → WalFile}
    (hfile : ∃ tail, (change f).bytes = segment (nths history L') ++ tail ∧ TornTail tail)
    (hrising : ((pre ++ [((n, change f), L')]).flatMap Prod.snd).Pairwise (· < ·))
    (hknown : ∀ i ∈ L', i ∈ known) :
    DirOk { d with wals := d.wals.modify n change } history (pre ++ [((n, change f), L')]) tag
      known where
  kept := by
    have hsame : pre.map ((fun x : ℕ × WalFile => (x.1, if x.1 = n then change x.2 else x.2)) ∘
        Prod.fst) = pre.map Prod.fst := by
      refine map_congr_left fun p hp => ?_
      dsimp only [comp]
      rw [if_neg (Nat.ne_of_lt (hpre p hp))]
    rw [kept_modify, h.kept, map_map, map_append, hsame]
    simp
  file := forall_mem_concat (fun p hp => h.file p (mem_append_left _ hp)) hfile
  rising := hrising
  loaded := h.loaded
  fits := h.fits
  rise := h.rise
  lt_length := h.lt_length
  known_segments :=
    forall_mem_concat (fun p hp => h.known_segments p (mem_append_left _ hp)) hknown
  known_tag := h.known_tag

theorem HeldBy.append (h : HeldBy history ((n, f), L) i) (more : List ℕ)
    (hsynced : f'.synced = f.synced) : HeldBy history ((n, f'), L ++ more) i := by
  obtain ⟨j, hj, hlen⟩ := h
  have hjlt : j < L.length := (List.getElem?_eq_some_iff.1 hj).1
  refine ⟨j, (getElem?_append_left hjlt).trans hj, ?_⟩
  rw [take_append_of_le_length hjlt, hsynced]
  exact hlen

theorem Survives.modify (h : Survives history (pre ++ [((n, f), L)]) tag i)
    (hheld : HeldBy history ((n, f), L) i → HeldBy history ((n, f'), L') i)
    (hnew : ∀ k ∈ L', k ∈ L ∨ i < k) : Survives history (pre ++ [((n, f'), L')]) tag i := by
  have hlast : ∀ (g : WalFile) (K : List ℕ), ((n, g), K) ∈ pre ++ [((n, g), K)] := fun g K =>
    mem_concat_self
  rcases h with ⟨p, hp, hp'⟩ | ⟨hcover, hlater⟩
  · rcases mem_append.1 hp with hp | hp
    · exact .inl ⟨p, mem_append_left _ hp, hp'⟩
    · rw [mem_singleton.1 hp] at hp'
      exact .inl ⟨_, hlast f' L', hheld hp'⟩
  · refine .inr ⟨hcover, forall_mem_concat (fun p hp => hlater p (mem_append_left _ hp))
      fun k hk => ?_⟩
    rcases hnew k hk with hk | hk
    · exact hlater _ (hlast f L) k hk
    · exact hk

theorem heldBy_synced (hi : i ∈ L) (hsynced : (segment (nths history L)).length ≤ f.synced) :
    HeldBy history ((n, f), L) i := by
  obtain ⟨j, hj, hget⟩ := getElem_of_mem hi
  refine ⟨j, List.getElem?_eq_some_iff.2 ⟨hj, hget⟩, le_trans ?_ hsynced⟩
  have hsplit : nths history L = nths history (L.take (j + 1)) ++ nths history (L.drop (j + 1)) := by
    rw [nths, nths, nths, ← map_append, take_append_drop]
  rw [hsplit, segment_append, length_append]
  exact le_add_right _ _

end Modify

section Open

variable {d : Directory} {history : List WalRecord} {segments : List Indexed} {n i : ℕ}
  {tag : Str × Bytes → Option ℕ} {known : Set ℕ}

theorem DirOk.openWal (h : DirOk d history segments tag known) (hlt : ∀ f ∈ d.wals.files, f.1 < n)
    (hgen : d.snapshotGen ≤ n) :
    DirOk (d.openWal n) history (segments ++ [opened n]) tag known ∧
      (d.openWal n).wals.last? = some (n, {}) ∧ (d.openWal n).snapshots = d.snapshots ∧
      ∀ p ∈ segments, p.1.1 < n := by
  rw [openWal_of_lt hlt]
  refine ⟨?_, last?_add hlt, rfl, fun p hp => ?_⟩
  · refine
      { h with
        kept := ?_
        file := forall_mem_concat h.file ⟨[], rfl, tornTail_nil⟩
        rising := ?_
        known_segments := forall_mem_concat h.known_segments fun i hi => by cases hi }
    · rw [kept_add d hlt hgen, h.kept, map_append]
      rfl
    · rw [flatMap_append, flatMap_singleton, show (opened n).2 = [] from rfl,
        append_nil]
      exact h.rising
  · have hkept : p.1 ∈ Persistence.kept d := h.kept ▸ mem_map_of_mem hp
    exact hlt p.1 (mem_of_mem_filter hkept)

theorem Survives.openWal (h : Survives history segments tag i) (n : ℕ) :
    Survives history (segments ++ [opened n]) tag i := by
  rcases h with ⟨p, hp, hheld⟩ | ⟨hcover, hlater⟩
  · exact .inl ⟨p, mem_append_left _ hp, hheld⟩
  · exact .inr ⟨hcover, forall_mem_concat hlater fun k hk => by cases hk⟩

end Open

namespace Sound

variable {t : Traced} {g : Ghost}

section

variable (h : Sound t g)

include h

theorem fsynced_lt {i : ℕ} (hi : i ∈ t.fsynced) : i < t.history.length :=
  lt_of_lt_of_le (h.survives i hi).1 h.appended_le

theorem mem_fsynced_or {pre : List Indexed} {f : WalFile} {L : List ℕ}
    (hseg : g.segments = pre ++ [((t.machine.generation, f), L)])
    (hpre : ∀ p ∈ pre, p.1.1 < t.machine.generation) {i : ℕ} (hle : t.started ≤ i)
    (hi : i < t.appended) : i ∈ t.fsynced ∨ i ∈ L := by
  refine (h.recent i hle hi).imp_right ?_
  rintro ⟨p, hp, hgen, hip⟩
  rw [hseg] at hp
  rcases mem_append.1 hp with hp | hp
  · exact absurd hgen (Nat.ne_of_lt (hpre p hp))
  · rw [mem_singleton.1 hp] at hip
    exact hip

theorem mutate {s : Store} {r : WalRecord} {mk : Str × Bytes} (hinv : s.Inv)
    (hcont : s.contents = update t.machine.store.contents mk (recordCell r))
    (hkey : recordKey r = some mk) (hr : Fits r ∧ WalRecord.Plain r)
    (hsink : s.walSink = t.machine.store.walSink.map (· ++ [r]))
    (hshards : s.shards.length = t.machine.store.shards.length)
    (hclock : t.machine.store.stampSeq / 2 ^ 7 ≤ s.stampSeq / 2 ^ 7)
    (hput : ∀ stamp, putStamp r = some stamp →
      t.machine.store.stampSeq / 2 ^ 7 < stamp / 2 ^ 7 ∧ stamp / 2 ^ 7 ≤ s.stampSeq / 2 ^ 7) :
    ∃ g', Sound { t with
      machine := { t.machine with store := s, pending := true }
      history := t.history ++ [r] } g' := by
  have hlen : (t.history ++ [r]).length = t.history.length + 1 := length_append
  have hnth : ∀ i, i < t.history.length → nth (t.history ++ [r]) i = nth t.history i := fun i hi =>
    nth_append hi [r]
  have hdir := h.dir.extend hr fun i hi a b ha hb => by
    have hle := h.clock i hi a ha
    have hlt := (hput b hb).1
    omega
  refine ⟨⟨g.segments, g.tag, update g.live mk (some t.history.length),
    insert t.history.length g.known⟩, ?_⟩
  refine
    { h with
      dir := hdir
      current := ?_
      store := hinv
      lasting := ?_
      sink := ?_
      appended_le := le_trans h.appended_le (by dsimp only; omega)
      pending_lt := fun _ => lt_of_le_of_lt h.appended_le (by dsimp only; omega)
      survives := fun i hi => ⟨(h.survives i hi).1,
        h.dir.survives_extend (h.fsynced_lt hi) (h.survives i hi).2⟩
      live := fun mk' => ?_
      fresh := fun mk' i hkeyi hi hor => ?_
      clock := fun i hi stamp hstamp => ?_
      known_live := fun mk' i hi => ?_
      known_recent := fun i hle hi => ?_
      collecting := fun old done entries hp => ?_ }
  · obtain ⟨pre, f, L, hseg, hlast, hbytes, hpre⟩ := h.current
    refine ⟨pre, f, L, hseg, hlast, ?_, hpre⟩
    have hin : ((t.machine.generation, f), L) ∈ g.segments := hseg ▸ by simp
    rw [hbytes, nths_append fun i hi => h.dir.lt_length i (h.dir.known_segments _ hin i hi)]
  · rw [hcont]
    refine h.lasting.update mk fun cell hcell => ?_
    cases r with
    | mapPut => cases hcell; rfl
    | mapRemove | auxState => cases hcell
  · rw [hsink, h.sink, drop_append_of_le_length h.appended_le]
    rfl
  · by_cases hmk : mk' = mk
    · subst hmk
      dsimp only
      rw [hcont, update_self, update_self]
      refine ⟨by omega, ?_, ?_⟩
      · rw [nth_length]
        exact hkey
      · rw [nth_length]
    · dsimp only
      rw [hcont, update_of_ne hmk, update_of_ne hmk]
      exact (h.live mk').mono [r]
  · dsimp only at hi hkeyi ⊢
    by_cases hmk : mk' = mk
    · subst hmk
      rw [update_self]
      exact ⟨t.history.length, rfl, by omega⟩
    · rw [update_of_ne hmk]
      have hlt : i < t.history.length := by
        by_contra hge
        obtain rfl : i = t.history.length := by omega
        rw [nth_length, hkey] at hkeyi
        exact hmk (Option.some.inj hkeyi).symm
      rw [hnth i hlt] at hkeyi
      exact h.fresh mk' i hkeyi hlt hor
  · rcases hi with rfl | hi
    · rw [nth_length] at hstamp
      exact (hput stamp hstamp).2
    · rw [hnth i (h.dir.lt_length i hi)] at hstamp
      exact le_trans (h.clock i hi stamp hstamp) hclock
  · dsimp only at hi ⊢
    by_cases hmk : mk' = mk
    · subst hmk
      rw [update_self] at hi
      cases hi
      exact .inl rfl
    · rw [update_of_ne hmk] at hi
      exact .inr (h.known_live mk' i hi)
  · dsimp only at hi
    by_cases hlt : i < t.history.length
    · exact .inr (h.known_recent i hle hlt)
    · exact .inl (by omega)
  · obtain ⟨hold, hgen, hempty, hcol⟩ := h.collecting old done entries hp
    refine ⟨hold, hgen, hempty, fun mk' hdone => ?_, fun mk' hdone => ?_⟩
    · rw [hshards] at hdone
      obtain ⟨tag, htag, hknown, hcovers⟩ := hcol.done_cell mk' hdone
      refine ⟨tag, htag.mono [r], fun i hi => .inr (hknown i hi), fun i hi hkeyi => ?_⟩
      rw [hnth i (h.fsynced_lt hi)] at hkeyi
      exact hcovers i hi hkeyi
    · rw [hshards] at hdone
      exact hcol.other_cell mk' hdone

theorem push : Sound { t with machine := { t.machine with pending := false } } g :=
  { h with
    pending_lt := fun hp => absurd hp (by simp) }

theorem append (hphase : t.machine.phase = .draining) (hring : t.machine.ring ≠ []) :
    ∃ g', Sound (t.exec .append) g' := by
  have hlt : t.appended < t.history.length ∧
      (t.machine.pending = true → t.appended + 1 < t.history.length) := by
    rw [ring, h.sink, Option.getD_some] at hring
    have hlen : (t.history.drop t.appended).length = t.history.length - t.appended := length_drop
    by_cases hp : t.machine.pending = true
    · rw [if_pos hp, ← length_pos_iff, length_dropLast] at hring
      exact ⟨by omega, fun _ => by omega⟩
    · rw [if_neg hp, ← length_pos_iff] at hring
      exact ⟨by omega, fun hp' => absurd hp' hp⟩
  have hdrop : t.history.drop t.appended =
      nth t.history t.appended :: t.history.drop (t.appended + 1) := by
    rw [drop_eq_getElem_cons hlt.1]
    exact congrArg (· :: _) (Option.some.inj ((getElem?_eq_getElem hlt.1).symm.trans
      (getElem?_eq_nth hlt.1)))
  obtain ⟨pre, f, L, hseg, hlast, hbytes, hpre⟩ := h.current
  have hin : ((t.machine.generation, f), L) ∈ g.segments := hseg ▸ by simp
  have hbelow : ∀ p ∈ pre ++ [((t.machine.generation, f), L)], ∀ i ∈ p.2, i < t.appended :=
    hseg ▸ h.below
  have hdir := h.dir
  have hrising := h.dir.rising
  rw [hseg] at hdir hrising
  have hnths : nths t.history (L ++ [t.appended]) =
      nths t.history L ++ [nth t.history t.appended] := map_append
  let f' : WalFile := { f with bytes := f.bytes ++ encodeRecord (nth t.history t.appended) }
  have hbytes' : f'.bytes = segment (nths t.history (L ++ [t.appended])) := by
    rw [hnths, segment_append, ← hbytes]
    exact congrArg (f.bytes ++ ·) (append_nil _).symm
  have hexec : t.exec .append = { t with
      machine := { t.machine with
        store := { t.machine.store with walSink := some (t.history.drop (t.appended + 1)) }
        dir := t.machine.dir.append t.machine.generation (encodeRecord (nth t.history t.appended))
        dirty := true }
      appended := t.appended + 1 } := by
    rw [Traced.exec, exec, h.sink, Option.getD_some, hdrop]
    dsimp only [Traced.mutation]
    rw [append_nil]
  rw [hexec]
  refine ⟨{ g with segments := pre ++ [((t.machine.generation, f'), L ++ [t.appended])] }, ?_⟩
  refine
    { h with
      dir := hdir.modify hpre ⟨[], by rw [append_nil]; exact hbytes', tornTail_nil⟩ ?_
        (forall_mem_concat (h.dir.known_segments _ hin) (h.known_recent _ h.started_le hlt.1))
      current := ⟨pre, f', L ++ [t.appended], rfl, ?_, hbytes', hpre⟩
      store := h.store.congr rfl
      sink := rfl
      started_le := le_succ_of_le h.started_le
      appended_le := hlt.1
      pending_lt := hlt.2
      below := forall_mem_concat
        (fun p hp i hi => lt_succ_of_lt (hbelow p (mem_append_left _ hp) i hi))
        (forall_mem_concat (fun i hi => lt_succ_of_lt (h.below _ hin i hi)) (lt_succ_self _))
      survives := fun i hi => ⟨lt_succ_of_lt (h.survives i hi).1, ?_⟩
      recent := fun i hle hi => ?_
      collecting := fun old done entries hp => by rw [hphase] at hp; cases hp
      deleting := fun todo hp => by rw [hphase] at hp; cases hp }
  · rw [flatMap_append, flatMap_singleton] at hrising ⊢
    rw [← append_assoc]
    refine hrising.concat fun a ha => ?_
    rcases mem_append.1 ha with ha | ha
    · obtain ⟨p, hp, ha⟩ := mem_flatMap.1 ha
      exact hbelow p (mem_append_left _ hp) a ha
    · exact hbelow _ mem_concat_self a ha
  · refine (last?_modify hlast).trans ?_
    rw [if_pos rfl]
  · have hs := (h.survives i hi).2
    rw [hseg] at hs
    exact hs.modify (fun hheld => hheld.append [t.appended] rfl)
      (forall_mem_concat (fun k hk => .inl hk) (.inr (h.survives i hi).1))
  · by_cases heq : i = t.appended
    · rw [heq]
      exact .inr ⟨_, mem_concat_self, rfl, mem_concat_self⟩
    · have hi' : i < t.appended := by dsimp only at hi; omega
      exact (h.mem_fsynced_or hseg hpre hle hi').imp_right fun hip =>
        ⟨_, mem_concat_self, rfl, mem_append_left _ hip⟩

theorem fsync (dirty : Bool) (hphase : t.machine.phase = .draining) :
    ∃ g', Sound { t with
      machine := { t.machine with dir := t.machine.dir.fsync t.machine.generation, dirty := dirty }
      fsynced := t.fsynced ∪ {i | t.started ≤ i ∧ i < t.appended} } g' := by
  obtain ⟨pre, f, L, hseg, hlast, hbytes, hpre⟩ := h.current
  have hin : ((t.machine.generation, f), L) ∈ g.segments := hseg ▸ by simp
  have hdir := h.dir
  have hrising := h.dir.rising
  rw [hseg] at hdir hrising
  let f' : WalFile := { f with synced := f.bytes.length }
  have hfull : ∀ i ∈ L, HeldBy t.history ((t.machine.generation, f'), L) i := fun i hi =>
    heldBy_synced hi (le_of_eq (congrArg length hbytes.symm))
  have hsurvives : ∀ i, Survives t.history g.segments g.tag i →
      Survives t.history (pre ++ [((t.machine.generation, f'), L)]) g.tag i := by
    intro i hi
    rw [hseg] at hi
    exact hi.modify (fun ⟨j, hj, _⟩ => hfull i (mem_of_getElem? hj)) fun k hk => .inl hk
  refine ⟨{ g with segments := pre ++ [((t.machine.generation, f'), L)] }, ?_⟩
  refine
    { h with
      dir := hdir.modify hpre ⟨[], by rw [append_nil]; exact hbytes, tornTail_nil⟩ ?_
        (h.dir.known_segments _ hin)
      current := ⟨pre, f', L, rfl, ?_, hbytes, hpre⟩
      below := forall_mem_concat (fun p hp => h.below p (hseg ▸ mem_append_left _ hp))
        fun i hi => h.below _ hin i hi
      survives := fun i hi => ?_
      recent := fun i hle hi => .inl (.inr ⟨hle, hi⟩)
      fresh := fun mk i hkey hi hor => h.fresh mk i hkey hi ?_
      collecting := fun old done entries hp => by rw [hphase] at hp; cases hp
      deleting := fun todo hp => by rw [hphase] at hp; cases hp }
  · rw [flatMap_append] at hrising ⊢
    exact hrising
  · refine (last?_modify hlast).trans ?_
    rw [if_pos rfl]
  · rcases hi with hi | ⟨hle, hi⟩
    · exact ⟨(h.survives i hi).1, hsurvives i (h.survives i hi).2⟩
    · refine ⟨hi, ?_⟩
      rcases h.mem_fsynced_or hseg hpre hle hi with hf | hip
      · exact hsurvives i (h.survives i hf).2
      · exact .inl ⟨_, mem_concat_self, hfull i hip⟩
  · rcases hor with hle | hf | hrecent
    · exact .inl hle
    · exact .inr hf
    · exact .inl hrecent.1

theorem roll
    (hsynced : ∀ i, t.started ≤ i → i < t.appended → i ∈ t.fsynced) :
    ∃ g', Sound { t with
      machine := { t.machine with
        dir := t.machine.dir.openWal (t.machine.generation + 1)
        generation := t.machine.generation + 1
        phase := .collecting t.machine.generation 0 [] } } g' := by
  obtain ⟨-, f, -, -, hlast, -⟩ := h.current
  obtain ⟨hdir, hlast', hsnap, hpre⟩ := h.dir.openWal
    (fun x hx => lt_succ_of_le (le_of_last? hlast x hx)) (le_succ_of_le h.gen)
  have hgen : (t.machine.dir.openWal (t.machine.generation + 1)).snapshotGen <
      t.machine.generation + 1 := by
    rw [snapshotGen, hsnap]
    exact lt_succ_of_le h.gen
  refine ⟨{ g with segments := g.segments ++ [opened (t.machine.generation + 1)] }, ?_⟩
  refine
    { h with
      dir := hdir
      current := ⟨g.segments, {}, [], rfl, hlast', rfl, hpre⟩
      gen := le_of_lt hgen
      below := forall_mem_concat h.below fun i hi => by cases hi
      survives := fun i hi => ⟨(h.survives i hi).1, (h.survives i hi).2.openWal _⟩
      recent := fun i hle hi => .inl (hsynced i hle hi)
      collecting := fun old done entries hp => ?_
      deleting := fun todo hp => by cases hp }
  cases hp
  exact ⟨lt_succ_self _, hgen,
    forall_mem_concat (fun p hp hnum => absurd hnum (Nat.ne_of_lt (hpre p hp))) fun _ => rfl,
    fun mk hlt => absurd hlt (not_lt_zero _), fun mk _ => rfl⟩

theorem collect {old done now : ℕ} {entries : List StampedEntry}
    (hphase : t.machine.phase = .collecting old done entries)
    (hdone : done < t.machine.store.shards.length) :
    Sound { t with
      machine := { t.machine with
        phase := .collecting old (done + 1)
          (entries ++ (t.machine.store.shards.getD done .new).collectAllStamped now) } } g := by
  obtain ⟨hold, hgen, hempty, hcol⟩ := h.collecting old done entries hphase
  refine { h with
    collecting := fun old' done' entries' hp => ?_
    deleting := fun todo hp => by cases hp }
  cases hp
  refine ⟨hold, hgen, hempty, ?_⟩
  let inner := t.machine.store.shards.getD done .new
  have hinner : t.machine.store.shards[done]? = some inner := by
    rw [getElem?_eq_getElem hdone]
    exact congrArg some (getD_eq_getElem _ _ hdone).symm
  obtain ⟨hinv, hplain⟩ := h.store.shards inner (mem_of_getElem? hinner)
  have hshard : ∀ mk, shardOf mk.1 mk.2 t.machine.store.shards.length = done →
      t.machine.store.contents mk = inner.contents mk := fun mk hmk => by
    rw [Store.contents, Store.shard, hmk]
  have hlast : Lasting inner.contents := fun mk cell hcell => by
    refine h.lasting mk cell ?_
    rw [hshard mk (h.store.placed done inner hinner mk (by rw [hcell]; simp)), hcell]
  have happend : ∀ mk, collectedCell (entries ++ inner.collectAllStamped now) mk =
      ((inner.collectAllStamped now).map entryRecord).foldl replayCell
        (collectedCell entries) mk := fun mk => by
    rw [collectedCell, map_append, foldl_append]
    rfl
  have hother : ∀ mk, shardOf mk.1 mk.2 t.machine.store.shards.length ≠ done →
      collectedCell (entries ++ inner.collectAllStamped now) mk = collectedCell entries mk := by
    intro mk hmk
    rw [happend, foldl_collectAllStamped_of_none hinv hplain]
    by_contra hne
    exact hmk (h.store.placed done inner hinner mk hne)
  refine ⟨fun mk hlt => ?_, fun mk hle => ?_⟩
  · by_cases hmk : shardOf mk.1 mk.2 t.machine.store.shards.length = done
    · refine ⟨g.live mk, ?_, h.known_live mk, fun i hi hkey =>
        h.fresh mk i hkey (h.fsynced_lt hi) (.inr hi)⟩
      have hnone : collectedCell entries mk = none := hcol.other_cell mk (le_of_eq hmk.symm)
      rw [happend, foldl_collectAllStamped hinv hplain hlast now hnone, ← hshard mk hmk]
      exact h.live mk
    · rw [hother mk hmk]
      exact hcol.done_cell mk (by dsimp only at hlt; omega)
  · rw [hother mk (by dsimp only at hle; omega)]
    exact hcol.other_cell mk (by dsimp only at hle; omega)

theorem install {old : ℕ} {entries : List StampedEntry} {aux : List AuxEntry}
    (hphase : t.machine.phase = .collecting old t.machine.store.shards.length entries)
    (hfits : SnapshotFits entries aux) :
    ∃ g', Sound { t with
      machine := { t.machine with
        dir := t.machine.dir.install t.machine.generation (snapshotBytes entries aux)
        phase := .deleting (superseded
          (t.machine.dir.install t.machine.generation (snapshotBytes entries aux)) old
          t.machine.generation) } } g' := by
  obtain ⟨hold, hgen, hempty, hcol⟩ := h.collecting old _ entries hphase
  have hcell := fun mk => hcol.done_cell mk (shardOf_lt mk.1 mk.2 h.store.pos)
  choose tag htag hknown hcovers using hcell
  obtain ⟨pre, f, L, hseg, hlast, hbytes, hpre⟩ := h.current
  have hin : ((t.machine.generation, f), L) ∈ g.segments := hseg ▸ by simp
  obtain rfl : L = [] := hempty _ hin rfl
  have hsnap : (t.machine.dir.install t.machine.generation (snapshotBytes entries aux)).snapshots.last? =
      some (t.machine.generation, snapshotBytes entries aux) :=
    last?_add fun x hx => lt_of_le_of_lt (le_lastNumber _ x hx) hgen
  have hgen' : (t.machine.dir.install t.machine.generation (snapshotBytes entries aux)).snapshotGen =
      t.machine.generation := by
    rw [snapshotGen, lastNumber, hsnap]
    rfl
  have hsynced : ∀ i, t.started ≤ i → i < t.appended → i ∈ t.fsynced := fun i hle hi =>
    (h.mem_fsynced_or hseg hpre hle hi).resolve_right fun hip => by cases hip
  refine ⟨{ g with segments := [((t.machine.generation, f), [])], tag := tag }, ?_⟩
  refine
    { h with
      dir :=
        { h.dir with
          kept := ?_
          file := forall_mem_singleton.2 ⟨[], by rw [append_nil]; exact hbytes, tornTail_nil⟩
          rising := List.Pairwise.nil
          loaded := ?_
          known_segments := forall_mem_singleton.2 fun i hi => by cases hi
          known_tag := fun mk i hi => hknown mk i hi }
      current := ⟨[], f, [], rfl, hlast, hbytes, fun p hp => absurd hp (by simp)⟩
      gen := le_of_eq hgen'
      below := forall_mem_singleton.2 fun i hi => by cases hi
      survives := fun i hi => ⟨(h.survives i hi).1, .inr ⟨fun mk hkey => hcovers mk i hi hkey,
        forall_mem_singleton.2 fun k hk => by cases hk⟩⟩
      recent := fun i hle hi => .inl (hsynced i hle hi)
      collecting := fun old' done entries' hp => by cases hp
      deleting := fun todo hp => ?_ }
  · rw [kept, hgen']
    exact filter_last? hlast
  · refine ⟨entries.map entryRecord ++ aux.map auxRecord, ?_, fun r hr => ?_, fun mk => ?_⟩
    · rw [hsnap]
      exact loadSnapshot_snapshotBytes hfits
    · rcases mem_append.1 hr with hr | hr
      · obtain ⟨e, he, rfl⟩ := mem_map.1 hr
        refine ⟨⟨rfl, ?_⟩, fun stamp hstamp => ?_⟩
        · have hlen := hfits.length_putEntry_lt he
          rw [length_putEntry] at hlen
          omega
        · cases hstamp
          exact hfits.1 e he
      · obtain ⟨a, -, rfl⟩ := mem_map.1 hr
        exact ⟨trivial, fun stamp hstamp => by cases hstamp⟩
    · rw [foldl_append, foldl_replayCell_of_ne]
      · exact htag mk
      · intro r hr
        obtain ⟨a, -, rfl⟩ := mem_map.1 hr
        exact fun hkey => by cases hkey
  · cases hp
    exact ⟨⟨_, hsnap⟩, fun x hx => number_lt_of_superseded hold hx⟩

theorem delete {f : FileName} {todo : List FileName}
    (hphase : t.machine.phase = .deleting (f :: todo)) :
    Sound { t with
      machine := { t.machine with dir := removeFile t.machine.dir f, phase := .deleting todo } } g := by
  obtain ⟨⟨bytes, hsnap⟩, htodo⟩ := h.deleting _ hphase
  have hlt : f.number < t.machine.generation := htodo f mem_cons_self
  have hgen : t.machine.dir.snapshotGen = t.machine.generation := by
    rw [snapshotGen, lastNumber, hsnap]
    rfl
  have hne : (t.machine.generation != f.number) = true := bne_iff_ne.2 (ne_of_gt hlt)
  -- neither the newest snapshot nor a segment from its number on is touched
  have hdir : kept (removeFile t.machine.dir f) = kept t.machine.dir ∧
      (removeFile t.machine.dir f).snapshots.last? = t.machine.dir.snapshots.last? ∧
      ∀ x, t.machine.dir.wals.last? = some (t.machine.generation, x) →
        (removeFile t.machine.dir f).wals.last? = some (t.machine.generation, x) := by
    cases f with
    | wal n => exact ⟨kept_removeWal _ (hgen ▸ hlt), rfl, fun x hx => last?_retain hx hne⟩
    | snapshot n =>
      have hlast : (t.machine.dir.removeSnapshot n).snapshots.last? =
          t.machine.dir.snapshots.last? := (last?_retain hsnap hne).trans hsnap.symm
      have hgen' : (t.machine.dir.removeSnapshot n).snapshotGen = t.machine.dir.snapshotGen := by
        rw [snapshotGen, lastNumber, hlast]
        rfl
      refine ⟨?_, hlast, fun x hx => hx⟩
      rw [kept, removeFile, hgen']
      rfl
  obtain ⟨hkept, hlast, hwals⟩ := hdir
  obtain ⟨pre, x, L, hseg, hcur, hbytes, hpre⟩ := h.current
  refine { h with
    dir := { h.dir with
      kept := hkept.trans h.dir.kept
      loaded := ?_ }
    current := ⟨pre, x, L, hseg, hwals x hcur, hbytes, hpre⟩
    gen := ?_
    collecting := fun old done entries hp => by cases hp
    deleting := fun todo' hp => ?_ }
  · rw [hlast]
    exact h.dir.loaded
  · rw [snapshotGen, lastNumber, hlast]
    exact h.gen
  · cases hp
    exact ⟨⟨bytes, hlast.trans hsnap⟩, fun y hy => htodo y (mem_cons_of_mem f hy)⟩

theorem drain :
    Sound { t with machine := { t.machine with phase := .draining, dirty := false } } g :=
  { h with
    collecting := fun old done entries hp => by cases hp
    deleting := fun todo hp => by cases hp }

theorem crash (left : ℕ → ℕ) {shards : ℕ} (hshards : 0 < shards) (memberId : ℕ)
    (clock : ℕ → StoreEnv)
    (hdraws : ∀ records, (t.machine.dir.cut left).records = some records →
      DrawsInRange (withShardsSeed shards memberId)
        (records.zipIdx.map fun r => (clock r.2, r.1))) :
    ∃ g', Sound (t.exec (.crash left shards memberId clock)) g' := by
  have hcut := h.dir.cut left
  let d := t.machine.dir.cut left
  let segments := g.segments.map (cutPair left)
  obtain ⟨s, records, hrec, hrecords, hs, hinv, hlasting, hstamps, hputs, live, hlive⟩ :=
    hcut.recover hshards memberId clock
  have hbelow : ∀ f ∈ d.wals.files, f.1 < d.latestGeneration + 1 := fun f hf =>
    lt_succ_of_le (le_trans (le_lastNumber _ f hf) (le_max_left _ _))
  have hgen : d.snapshotGen ≤ d.latestGeneration + 1 := le_succ_of_le (le_max_right _ _)
  obtain ⟨hdir, hlast, hsnap, hpre⟩ := hcut.openWal hbelow hgen
  have hsink : s.walSink = none := hs ▸ replay_walSink rfl _
  have hclock := (replay_clock (fun r hr => by
    obtain ⟨x, hx, rfl⟩ := mem_map.1 hr
    exact hstamps x.1 (fst_mem_of_mem_zipIdx hx)) (hdraws records hrecords)).2
  have hexec : t.exec (.crash left shards memberId clock) =
      { machine := start d s
        history := t.history
        started := t.history.length
        appended := t.history.length
        fsynced := t.fsynced } := by
    rw [Traced.exec, exec, hrec]
    dsimp only [Traced.mutation]
    rw [append_nil]
  rw [hexec]
  let known : Set ℕ := {i | (∃ p ∈ segments, i ∈ p.2) ∨ ∃ mk, g.tag mk = some i}
  have hsub : known ⊆ g.known := by
    rintro i (⟨p, hp, hi⟩ | ⟨mk, hmk⟩)
    · exact hcut.known_segments p hp i hi
    · exact hcut.known_tag mk i hmk
  refine ⟨⟨segments ++ [opened (d.latestGeneration + 1)], g.tag, live, known⟩, ?_⟩
  refine
    { dir := { hdir with
        rise := hdir.rise.mono hsub
        lt_length := fun i hi => hdir.lt_length i (hsub hi)
        known_segments := forall_mem_concat (fun p hp i hi => .inl ⟨p, hp, hi⟩)
          fun i hi => by cases hi
        known_tag := fun mk i hi => .inr ⟨mk, hi⟩ }
      current := ⟨segments, {}, [], rfl, hlast, rfl, hpre⟩
      gen := ?_
      store := hinv.congr rfl
      lasting := hlasting
      sink := ?_
      started_le := le_refl _
      appended_le := le_refl _
      pending_lt := fun hp => absurd hp (by simp [start])
      below := forall_mem_concat
        (fun p hp i hi => h.dir.lt_length i (hcut.known_segments p hp i hi)) fun i hi => by cases hi
      survives := fun i hi => ⟨h.fsynced_lt hi,
        (h.dir.survives_cut left (h.survives i hi).2).openWal _⟩
      recent := fun i hle hi => absurd hi (not_lt.2 hle)
      live := fun mk => (hlive mk).1
      fresh := fun mk i hkey hi hor => ?_
      clock := fun i hi stamp hstamp => ?_
      known_live := fun mk i hi => ?_
      known_recent := fun i hle hi => absurd hi (not_lt.2 hle)
      collecting := fun old done entries hp => by cases hp
      deleting := fun todo hp => by cases hp }
  · rw [snapshotGen]
    dsimp only [start]
    rw [hsnap]
    exact hgen
  · dsimp only [start]
    rw [setWalSink, hsink, drop_length]
    rfl
  · have hsynced : i ∈ t.fsynced := hor.resolve_left (not_le.2 hi)
    exact (h.dir.survives_cut left (h.survives i hsynced).2).covers hkey (hlive mk).2.1
      (hlive mk).2.2.2
  · obtain ⟨r, hr, hput⟩ := hputs i hi stamp hstamp
    obtain ⟨j, hj, hget⟩ := getElem_of_mem hr
    have hmem : (clock j, r) ∈ records.zipIdx.map fun r => (clock r.2, r.1) :=
      mem_map.2 ⟨(r, j), mem_zipIdx_iff_getElem?.2 (hget ▸ getElem?_eq_getElem hj), rfl⟩
    have hle := hclock _ hmem stamp hput
    rw [← hs] at hle
    exact hle
  · rcases (hlive mk).2.2.1 with heq | ⟨p, hp, j, hj, heq⟩
    · exact .inr ⟨mk, heq ▸ hi⟩
    · cases heq.symm.trans hi
      exact .inl ⟨p, hp, hj⟩

end

end Sound

end BonsaiGrid.Persistence
