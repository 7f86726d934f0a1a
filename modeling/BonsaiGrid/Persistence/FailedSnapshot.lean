import BonsaiGrid.Persistence.Consistency

/-!
# A snapshot that fails

When writing the snapshot fails the thread goes on as if it had been written: it deletes the old
segment and everything below the new one, which is still empty.
-/

namespace BonsaiGrid.Persistence

open Store Machine Numbered List Nat Directory

/-! ## The files in all runs -/

/-- The current segment comes last, nothing has been appended to it while entries are collected,
and the snapshots are older then. -/
structure Tidy (m : Machine) : Prop where
  current : ∃ f, m.dir.wals.last? = some (m.generation, f) ∧
    ∀ old done entries, m.phase = .collecting old done entries → f.bytes = []
  gen : m.dir.snapshotGen ≤ m.generation
  collecting : ∀ old done entries, m.phase = .collecting old done entries →
    old < m.generation ∧ m.dir.snapshotGen < m.generation
  deleting : ∀ todo, m.phase = .deleting todo → ∀ f ∈ todo, f.number < m.generation

namespace Tidy

variable {m m' : Machine}

theorem congr (h : Tidy m) (hdir : m'.dir = m.dir) (hgen : m'.generation = m.generation)
    (hphase : m'.phase = m.phase) : Tidy m' where
  current := by rw [hdir, hgen, hphase]; exact h.current
  gen := by rw [hdir, hgen]; exact h.gen
  collecting := by rw [hdir, hgen, hphase]; exact h.collecting
  deleting := by rw [hgen, hphase]; exact h.deleting

theorem draining (hphase : m.phase = .draining) {f : WalFile}
    (hlast : m.dir.wals.last? = some (m.generation, f)) (hgen : m.dir.snapshotGen ≤ m.generation) :
    Tidy m where
  current := ⟨f, hlast, fun old done entries hp => by rw [hphase] at hp; cases hp⟩
  gen := hgen
  collecting := fun old done entries hp => by rw [hphase] at hp; cases hp
  deleting := fun todo hp => by rw [hphase] at hp; cases hp

theorem last?_modify (h : Tidy m) (change : WalFile → WalFile) :
    ∃ f, (m.dir.wals.modify m.generation change).last? = some (m.generation, f) := by
  obtain ⟨f, hlast, -⟩ := h.current
  exact ⟨_, Numbered.last?_modify hlast⟩

theorem openWal {d : Directory} {n : ℕ} (hlt : ∀ f ∈ d.wals.files, f.1 < n) :
    (d.openWal n).wals.last? = some (n, {}) ∧ (d.openWal n).snapshotGen = d.snapshotGen := by
  rw [openWal_of_lt hlt]
  exact ⟨last?_add hlt, rfl⟩

theorem start (d : Directory) (s : Store) : Tidy (start d s) := by
  obtain ⟨hlast, hgen⟩ := openWal (d := d) (n := d.latestGeneration + 1) fun f hf =>
    lt_succ_of_le (le_trans (le_lastNumber _ f hf) (le_max_left _ _))
  refine draining rfl hlast ?_
  dsimp only [Machine.start]
  rw [hgen]
  exact le_succ_of_le (le_max_right _ _)

variable [Crc32fast]

theorem step (h : Tidy m) {threshold : ℕ} {e : Event} (hen : m.Enabled threshold e) :
    Tidy (m.exec e) := by
  cases e with
  | put | remove | push => exact h.congr rfl rfl rfl
  | append =>
    rw [exec]
    split
    next => exact h
    next r records _ =>
      obtain ⟨f, hlast⟩ := h.last?_modify fun f => { f with bytes := f.bytes ++ encodeRecord r }
      exact draining hen.1 hlast h.gen
  | fsync =>
    obtain ⟨f, hlast⟩ := h.last?_modify fun f => { f with synced := f.bytes.length }
    exact draining hen.1 hlast h.gen
  | roll =>
    obtain ⟨f, hlast⟩ := h.last?_modify fun f => { f with synced := f.bytes.length }
    obtain ⟨hlast', hgen⟩ := openWal (d := m.dir.fsync m.generation) (n := m.generation + 1)
      fun x hx => lt_succ_of_le (le_of_last? hlast x hx)
    have hlt : ((m.dir.fsync m.generation).openWal (m.generation + 1)).snapshotGen <
        m.generation + 1 := by
      rw [hgen]
      exact lt_succ_of_le h.gen
    refine ⟨⟨{}, hlast', fun _ _ _ _ => rfl⟩, le_of_lt hlt, fun old done entries hp => ?_,
      fun todo hp => by cases hp⟩
    cases hp
    exact ⟨lt_succ_self _, hlt⟩
  | collect now =>
    obtain ⟨old, done, entries, hphase, -⟩ := hen
    obtain ⟨f, hlast, hempty⟩ := h.current
    rw [exec_collect hphase]
    refine ⟨⟨f, hlast, fun _ _ _ _ => hempty old done entries hphase⟩, h.gen,
      fun old' done' entries' hp => ?_, fun todo hp => by cases hp⟩
    cases hp
    exact h.collecting old done entries hphase
  | install =>
    obtain ⟨old, entries, hphase⟩ := hen
    obtain ⟨f, hlast, -⟩ := h.current
    obtain ⟨hold, hgen⟩ := h.collecting old _ entries hphase
    rw [exec_install hphase]
    refine ⟨⟨f, hlast, fun _ _ _ hp => (by cases hp)⟩, ?_, fun _ _ _ hp => (by cases hp),
      fun todo hp x hx => ?_⟩
    · have hsnap : (m.dir.install m.generation (snapshotBytes entries m.store.allAux)).snapshots.last?
          = some (m.generation, snapshotBytes entries m.store.allAux) :=
        last?_add fun x hx => lt_of_le_of_lt (le_lastNumber _ x hx) hgen
      rw [snapshotGen, lastNumber, hsnap]
      exact le_refl _
    · cases hp
      exact number_lt_of_superseded hold hx
  | installFails =>
    obtain ⟨old, entries, hphase⟩ := hen
    obtain ⟨f, hlast, -⟩ := h.current
    obtain ⟨hold, -⟩ := h.collecting old _ entries hphase
    rw [exec_installFails hphase]
    refine ⟨⟨f, hlast, fun _ _ _ hp => (by cases hp)⟩, h.gen, fun _ _ _ hp => (by cases hp),
      fun todo hp x hx => ?_⟩
    cases hp
    exact number_lt_of_superseded hold hx
  | delete =>
    obtain ⟨todo, hphase⟩ := hen
    obtain ⟨f, hlast, -⟩ := h.current
    cases todo with
    | nil =>
      rw [exec_delete_nil hphase]
      exact draining rfl hlast h.gen
    | cons x todo =>
      have hlt := h.deleting _ hphase
      have hne : (m.generation != x.number) = true :=
        bne_iff_ne.2 (ne_of_gt (hlt x mem_cons_self))
      rw [exec_delete_cons hphase]
      refine ⟨⟨f, ?_, fun _ _ _ hp => (by cases hp)⟩, ?_, fun _ _ _ hp => (by cases hp),
        fun todo' hp y hy => ?_⟩
      · cases x with
        | wal n => exact last?_retain hlast hne
        | snapshot n => exact hlast
      · cases x with
        | wal n => exact h.gen
        | snapshot n => exact le_trans (lastNumber_retain_le _ _) h.gen
      · cases hp
        exact hlt y (mem_cons_of_mem x hy)
  | crash left shards memberId clock =>
    obtain ⟨-, hrec⟩ := hen
    rw [exec]
    split
    next s _ => exact start _ s
    next hnone => exact absurd hnone hrec

end Tidy

/-! ## The step that fails -/

def Event.WhileDeleting : Event → Prop
  | .put .. => True
  | .remove .. => True
  | .push => True
  | .delete => True
  | _ => False

/-- All that is left beside the files to delete are empty segments. -/
def Leftover (d : Directory) (todo : List FileName) : Prop :=
  (∀ x ∈ d.wals.files, x.2.bytes = [] ∨ .wal x.1 ∈ todo) ∧
    ∀ x ∈ d.snapshots.files, .snapshot x.1 ∈ todo

/-- Every key is absent after some of its mutations, among them all those whose records had been
synced. -/
def NothingToRestore (t : Traced) : Prop :=
  ∀ map key, ∃ p ≤ t.history.length,
    (∀ i ∈ t.fsynced, ∀ r, t.history[i]? = some r → recordKey r = some (map, key) → i < p) ∧
      valueAfter (t.history.take p) (map, key) = none

theorem Leftover.removeFile {d : Directory} {f : FileName} {todo : List FileName}
    (h : Leftover d (f :: todo)) : Leftover (removeFile d f) todo := by
  cases f with
  | wal n =>
    refine ⟨fun x hx => ?_, fun x hx => ?_⟩
    · obtain ⟨hx, hne⟩ := mem_retain.1 hx
      refine (h.1 x hx).imp_right fun hmem => (mem_cons.1 hmem).resolve_left fun heq => ?_
      cases heq
      exact bne_iff_ne.1 hne rfl
    · exact (mem_cons.1 (h.2 x hx)).resolve_left (by simp)
  | snapshot n =>
    refine ⟨fun x hx => ?_, fun x hx => ?_⟩
    · exact (h.1 x hx).imp_right fun hmem => (mem_cons.1 hmem).resolve_left (by simp)
    · obtain ⟨hx, hne⟩ := mem_retain.1 hx
      refine (mem_cons.1 (h.2 x hx)).resolve_left fun heq => ?_
      cases heq
      exact bne_iff_ne.1 hne rfl

theorem Tidy.leftover {m : Machine} (h : Tidy m) {old done : ℕ} {entries : List StampedEntry}
    (hphase : m.phase = .collecting old done entries) :
    Leftover m.dir (superseded m.dir old m.generation) := by
  obtain ⟨f, hlast, hempty⟩ := h.current
  refine ⟨fun x hx => ?_, fun x hx => ?_⟩
  · by_cases heq : x.1 = m.generation
    · have hx' : x ∈ m.dir.wals.files.filter fun f => decide (m.generation ≤ f.1) :=
        mem_filter.2 ⟨hx, decide_eq_true (le_of_eq heq.symm)⟩
      rw [filter_last? hlast, mem_singleton] at hx'
      rw [hx']
      exact .inl (hempty old done entries hphase)
    · have hlt : x.1 < m.generation :=
        lt_of_le_of_ne (le_of_last? hlast x hx) heq
      refine .inr ?_
      by_cases hold : x.1 = old
      · rw [hold]
        exact mem_cons_self
      · refine mem_cons_of_mem _ (mem_append_left _ (mem_map.2 ⟨x, ?_, rfl⟩))
        exact mem_filter.2 ⟨mem_retain.2 ⟨hx, bne_iff_ne.2 hold⟩, decide_eq_true hlt⟩
  · have hlt : x.1 < m.generation := lt_of_le_of_lt (le_lastNumber _ x hx)
      (h.collecting old done entries hphase).2
    exact mem_cons_of_mem _ (mem_append_right _ (mem_map.2
      ⟨x, mem_filter.2 ⟨hx, decide_eq_true hlt⟩, rfl⟩))

/-- The ring holds the records that are not appended yet, and what is synced was appended. -/
structure Counted (t : Traced) : Prop where
  sink : t.machine.store.walSink = some (t.history.drop t.appended)
  appended_le : t.appended ≤ t.history.length
  fsynced_lt : ∀ i ∈ t.fsynced, i < t.appended

namespace Counted

variable {t : Traced}

theorem mutate (h : Counted t) {s : Store} {r : WalRecord}
    (hsink : s.walSink = t.machine.store.walSink.map (· ++ [r])) :
    Counted { t with
      machine := { t.machine with store := s, pending := true }, history := t.history ++ [r] } where
  sink := by
    rw [hsink, h.sink, drop_append_of_le_length h.appended_le]
    rfl
  appended_le := le_trans h.appended_le (by rw [length_append]; exact le_add_right _ _)
  fsynced_lt := h.fsynced_lt

theorem silent (h : Counted t) {t' : Traced} (hhist : t'.history = t.history ++ [])
    (hsink : t'.machine.store.walSink = t.machine.store.walSink) (happ : t'.appended = t.appended)
    (hsynced : ∀ i ∈ t'.fsynced, i ∈ t.fsynced ∨ i < t.appended) : Counted t' where
  sink := by rw [hsink, hhist, happ, append_nil]; exact h.sink
  appended_le := by rw [hhist, happ, append_nil]; exact h.appended_le
  fsynced_lt := fun i hi => by
    rw [happ]
    exact (hsynced i hi).elim (h.fsynced_lt i) id

end Counted

section Failure

variable [Crc32fast] {threshold : ℕ}

theorem Traced.Run.tidy {shards memberId : ℕ} {ok : Traced → Event → Prop} {t : Traced}
    (h : Traced.Run threshold shards memberId ok t) : Tidy t.machine :=
  Trace.Reaches.invariant (I := fun t => Tidy t.machine) h (fun _ _ hs hok => hs.step hok.1)
    (Tidy.start _ _)

namespace Counted

variable {t : Traced}

theorem append (h : Counted t) (hring : t.machine.ring ≠ []) : Counted (t.exec .append) := by
  have hlt : t.appended < t.history.length := by
    by_contra hge
    have hnil : t.history.drop t.appended = [] := drop_eq_nil_of_le (not_lt.1 hge)
    rw [ring, h.sink, hnil] at hring
    exact hring (by split <;> rfl)
  have hdrop := drop_eq_getElem_cons hlt
  have hexec : (t.machine.exec .append).store.walSink = some (t.history.drop (t.appended + 1)) := by
    rw [exec, h.sink, Option.getD_some, hdrop]
  refine ⟨?_, ?_, fun i hi => lt_succ_of_lt (h.fsynced_lt i hi)⟩
  · change (t.machine.exec .append).store.walSink = some ((t.history ++ []).drop (t.appended + 1))
    rw [hexec, append_nil]
  · change t.appended + 1 ≤ (t.history ++ []).length
    rw [append_nil]
    exact hlt

theorem step (h : Counted t) {e : Event} (hen : t.machine.Enabled threshold e) :
    Counted (t.exec e) := by
  cases e with
  | put | remove => exact h.mutate rfl
  | push => exact h.silent rfl rfl rfl fun i hi => .inl hi
  | append => exact h.append hen.2
  | fsync | roll => exact h.silent rfl rfl rfl fun i hi => hi.imp_right And.right
  | collect | install | installFails | delete =>
    exact h.silent rfl (congrArg walSink (exec_store trivial)) rfl fun _ => .inl
  | crash left shards memberId clock =>
    obtain ⟨-, hrec⟩ := hen
    obtain ⟨s, hs⟩ := Option.ne_none_iff_exists'.1 hrec
    have hsink : s.walSink = none := by
      rw [recover, Option.map_eq_some_iff] at hs
      obtain ⟨records, -, rfl⟩ := hs
      exact replay_walSink rfl _
    refine ⟨?_, ?_, fun i hi => lt_of_lt_of_le (h.fsynced_lt i hi) h.appended_le⟩
    · change (t.machine.exec (.crash left shards memberId clock)).store.walSink =
        some ((t.history ++ []).drop t.history.length)
      rw [append_nil, drop_length, exec, hs]
      dsimp only [start]
      rw [setWalSink, hsink]
      rfl
    · change t.history.length ≤ (t.history ++ []).length
      rw [append_nil]

end Counted

theorem Traced.Run.counted {shards memberId : ℕ} {ok : Traced → Event → Prop} {t : Traced}
    (h : Traced.Run threshold shards memberId ok t) : Counted t :=
  Trace.Reaches.invariant (I := Counted) h (fun _ _ hs hok => hs.step hok.1)
    ⟨rfl, le_refl _, fun _ hi => False.elim hi⟩

theorem Leftover.records {d : Directory} (h : Leftover d []) (left : ℕ → ℕ) :
    (d.cut left).records = some [] := by
  have hsnap : d.snapshots.files = [] :=
    eq_nil_iff_forall_not_mem.2 fun x hx => absurd (h.2 x hx) (by simp)
  have hlast : (d.cut left).snapshots.last? = none := by
    rw [last?, show (d.cut left).snapshots = d.snapshots from rfl, hsnap]
    rfl
  have hwal : ∀ gen, (d.cut left).walRecords gen = [] := fun gen => by
    refine flatMap_eq_nil_iff.2 fun x hx => ?_
    obtain ⟨y, hy, rfl⟩ := mem_map.1 (mem_of_mem_filter hx)
    rw [(h.1 y hy).resolve_right (by simp), take_nil]
    rfl
  rw [Directory.records, hwal, hlast]
  rfl

/-- A state while the thread deletes after a failure in the state `t`. -/
structure Emptying (t t' : Traced) : Prop where
  fsynced : t'.fsynced = t.fsynced
  history : ∃ more, t'.history = t.history ++ more
  phase : ∃ todo, Leftover t'.machine.dir todo ∧
    (t'.machine.phase = .deleting todo ∨ t'.machine.phase = .draining ∧ todo = [])

variable {t t' : Traced}

theorem Emptying.step (h : Emptying t t') {e : Event}
    (hen : t'.machine.Enabled threshold e) (he : e.WhileDeleting) : Emptying t (t'.exec e) := by
  obtain ⟨more, hmore⟩ := h.history
  obtain ⟨todo, hleft, hphase⟩ := h.phase
  have hhistory : ∃ more, (t'.exec e).history = t.history ++ more :=
    ⟨more ++ Traced.mutation t'.machine e, by rw [← append_assoc, ← hmore]; rfl⟩
  cases e with
  | put | remove | push => exact ⟨h.fsynced, hhistory, todo, hleft, hphase⟩
  | delete =>
    refine ⟨h.fsynced, hhistory, ?_⟩
    obtain ⟨todo', hphase'⟩ := hen
    obtain rfl : todo' = todo := by
      rcases hphase with heq | ⟨heq, -⟩
      · exact Phase.deleting.inj (hphase'.symm.trans heq)
      · cases hphase'.symm.trans heq
    change ∃ todo, Leftover (t'.machine.exec .delete).dir todo ∧
      ((t'.machine.exec .delete).phase = .deleting todo ∨
        (t'.machine.exec .delete).phase = .draining ∧ todo = [])
    cases todo' with
    | nil =>
      rw [exec_delete_nil hphase']
      exact ⟨[], hleft, .inr ⟨rfl, rfl⟩⟩
    | cons f todo =>
      rw [exec_delete_cons hphase']
      exact ⟨todo, hleft.removeFile, .inl rfl⟩
  | append | fsync | roll | collect | install | installFails | crash => exact he.elim

theorem Emptying.of_failure (h : Tidy t.machine)
    (hfails : t.machine.Enabled threshold .installFails)
    (hstep : Trace.Reaches Traced.exec (fun t e => t.machine.Enabled threshold e ∧ e.WhileDeleting)
      (t.exec .installFails) t') : Emptying t t' := by
  obtain ⟨old, entries, hphase⟩ := hfails
  refine Trace.Reaches.invariant (I := Emptying t) hstep (fun _ _ hs hok => hs.step hok.1 hok.2)
    ⟨rfl, ⟨[], rfl⟩, ?_⟩
  change ∃ todo, Leftover (t.machine.exec .installFails).dir todo ∧
    ((t.machine.exec .installFails).phase = .deleting todo ∨
      (t.machine.exec .installFails).phase = .draining ∧ todo = [])
  rw [exec_installFails hphase]
  exact ⟨_, h.leftover hphase, .inl rfl⟩

theorem Emptying.recover (h : Emptying t t') (hdone : t'.machine.phase = .draining)
    (left : ℕ → ℕ) (s : Store) (clock : ℕ → StoreEnv) :
    (t'.machine.dir.cut left).recover s clock = some s := by
  obtain ⟨todo, hleft, hphase⟩ := h.phase
  obtain rfl : todo = [] := by
    rcases hphase with heq | ⟨-, heq⟩
    · cases hdone.symm.trans heq
    · exact heq
  rw [Directory.recover, hleft.records left]
  rfl

/-- Whatever the run before it, the directory that a failed snapshot leaves recovers to nothing, so
all synced mutations are restored if there is nothing to restore. -/
theorem failed_snapshot_restores {shards memberId : ℕ} {t t' : Traced}
    (h : Traced.Run threshold shards memberId (fun _ _ => True) t)
    (hfails : t.machine.Enabled threshold .installFails) (hnothing : NothingToRestore t)
    (hstep : Trace.Reaches Traced.exec (fun t e => t.machine.Enabled threshold e ∧ e.WhileDeleting)
      (t.exec .installFails) t')
    (hdone : t'.machine.phase = .draining) : t'.Consistent := by
  have hend := Emptying.of_failure h.tidy hfails hstep
  obtain ⟨more, hmore⟩ := hend.history
  intro left shards memberId clock hshards
  obtain ⟨hinv, hempty⟩ := inv_withShardsSeed hshards memberId
  refine ⟨withShardsSeed shards memberId, hend.recover hdone left _ clock, fun env map key => ?_⟩
  obtain ⟨p, hp, hsynced, hval⟩ := hnothing map key
  have hlt : ∀ i ∈ t.fsynced, i < t.history.length := fun i hi =>
    lt_of_lt_of_le (h.counted.fsynced_lt i hi) h.counted.appended_le
  refine ⟨p, ?_, fun i hi r hr hkey => ?_, ?_⟩
  · rw [hmore, length_append]
    exact le_add_right_of_le hp
  · rw [hend.fsynced] at hi
    refine hsynced i hi r ?_ hkey
    rwa [hmore, List.getElem?_append_left (hlt i hi)] at hr
  · rw [hmore, take_append_of_le_length hp, hval, (hinv.get env map key).2.2, hempty]
    rfl

end Failure

section Runs

theorem failure_events {t : Traced} {f : WalFile} {entries : List StampedEntry}
    (hphase : t.machine.phase = .collecting 1 1 entries) (hgen : t.machine.generation = 2)
    (hshards : t.machine.store.shards.length = 1)
    (hwals : t.machine.dir.wals.files = [(1, f), (2, {})])
    (hsnapshots : t.machine.dir.snapshots = .empty) :
    t.machine.Enabled 1 .installFails ∧
      let t' := (t.exec .installFails).exec .delete |>.exec .delete
      Trace.Reaches Traced.exec (fun t e => t.machine.Enabled 1 e ∧ e.WhileDeleting)
        (t.exec .installFails) t' ∧ t'.machine.phase = .draining := by
  have hsuper : superseded t.machine.dir 1 2 = [.wal 1] := by
    rw [superseded, removeWal, retain]
    dsimp only
    rw [hwals, hsnapshots]
    rfl
  have hfails : (t.exec .installFails).machine.phase = .deleting [.wal 1] := by
    refine (congrArg phase (exec_installFails hphase)).trans ?_
    rw [hgen, hsuper]
  have hdelete : ((t.exec .installFails).exec .delete).machine.phase = .deleting [] :=
    congrArg phase (exec_delete_cons hfails)
  have hallowed : Trace.Allowed Traced.exec (fun t e => t.machine.Enabled 1 e ∧ e.WhileDeleting)
      (t.exec .installFails) [.delete, .delete] :=
    ⟨⟨⟨_, hfails⟩, trivial⟩, ⟨⟨_, hdelete⟩, trivial⟩, trivial⟩
  exact ⟨⟨1, entries, by rw [hphase, hshards]⟩, .of_allowed _ hallowed,
    congrArg phase (exec_delete_nil hdelete)⟩

def rolledRemove : List Event :=
  [.put ⟨⟨5, 0⟩, 1000⟩ orders [1] [10], .push, .remove ⟨⟨5, 0⟩, 1001⟩ orders [1], .push, .append,
    .append, .roll, .collect 5]

theorem failed_snapshot_restores_removed :
    let t := rolledRemove.foldl Traced.exec (Traced.start 1 3)
    t.fsynced.Nonempty ∧ ((t.exec .installFails).exec .delete |>.exec .delete).Consistent := by
  have hshards : (rolledRemove.foldl Traced.exec (Traced.start 1 3)).machine.store.shards.length = 1 :=
    (length_set ..).trans (length_set ..)
  have hallowed : Trace.Allowed Traced.exec (fun t e => t.machine.Enabled 1 e ∧ True) (Traced.start 1 3)
      rolledRemove := by
    refine ⟨⟨rfl, trivial⟩, ⟨rfl, trivial⟩, ⟨rfl, trivial⟩, ⟨rfl, trivial⟩,
      ⟨⟨rfl, cons_ne_nil _ _⟩, trivial⟩, ⟨⟨rfl, cons_ne_nil _ _⟩, trivial⟩,
      ⟨⟨rfl, ?_⟩, trivial⟩, ⟨⟨1, 0, [], rfl, ?_⟩, trivial⟩, trivial⟩
    · decide +kernel
    · exact Nat.lt_of_lt_of_eq Nat.one_pos hshards.symm
  obtain ⟨hfails, hstep, hdone⟩ := failure_events (t := rolledRemove.foldl Traced.exec (Traced.start 1 3))
    rfl rfl hshards rfl rfl
  refine ⟨⟨0, .inr ⟨le_refl 0, succ_pos 1⟩⟩,
    failed_snapshot_restores (.of_allowed rolledRemove hallowed) hfails (fun map key => ?_) hstep hdone⟩
  refine ⟨2, le_refl 2, fun i hi r hr _ => (nth_of_getElem? hr).1, ?_⟩
  change (if some (orders, [1]) = some (map, key) then none
    else if some (orders, [1]) = some (map, key) then some [10] else none) = none
  split <;> simp_all

def rolledPut : List Event :=
  [.put ⟨⟨5, 0⟩, 1000⟩ orders [1] [10], .push, .append, .roll, .collect 5]

/-- The value is lost, although its record had been synced. -/
theorem failed_snapshot_loses_put :
    let t := rolledPut.foldl Traced.exec (Traced.start 1 3)
    let t' := (t.exec .installFails).exec .delete |>.exec .delete
    Traced.Run 1 1 3 (fun _ _ => True) t ∧ t.machine.Enabled 1 .installFails ∧
      Trace.Reaches Traced.exec (fun t e => t.machine.Enabled 1 e ∧ e.WhileDeleting)
        (t.exec .installFails) t' ∧ t'.machine.phase = .draining ∧ ¬ t'.Consistent := by
  have hshards : (rolledPut.foldl Traced.exec (Traced.start 1 3)).machine.store.shards.length = 1 :=
    length_set ..
  have hallowed : Trace.Allowed Traced.exec (fun t e => t.machine.Enabled 1 e ∧ True) (Traced.start 1 3)
      rolledPut := by
    refine ⟨⟨rfl, trivial⟩, ⟨rfl, trivial⟩, ⟨⟨rfl, cons_ne_nil _ _⟩, trivial⟩,
      ⟨⟨rfl, ?_⟩, trivial⟩, ⟨⟨1, 0, [], rfl, ?_⟩, trivial⟩, trivial⟩
    · decide +kernel
    · exact Nat.lt_of_lt_of_eq Nat.one_pos hshards.symm
  have hrun : Traced.Run 1 1 3 (fun _ _ => True) (rolledPut.foldl Traced.exec (Traced.start 1 3)) :=
    .of_allowed rolledPut hallowed
  obtain ⟨hfails, hstep, hdone⟩ := failure_events (t := rolledPut.foldl Traced.exec (Traced.start 1 3))
    rfl rfl hshards rfl rfl
  refine ⟨hrun, hfails, hstep, hdone, fun hcons => ?_⟩
  obtain ⟨s, hs, hget⟩ := hcons (fun _ => 0) 1 3 (fun _ => ⟨⟨0, 0⟩, 0⟩) Nat.one_pos
  obtain rfl : withShardsSeed 1 3 = s := Option.some.inj hs
  obtain ⟨p, hp, hsynced, hval⟩ := hget ⟨⟨0, 0⟩, 0⟩ orders [1]
  obtain ⟨hinv, hempty⟩ := inv_withShardsSeed (n := 1) Nat.one_pos 3
  have hpos : 0 < p := hsynced 0 (.inr ⟨Nat.le_refl 0, Nat.one_pos⟩) _ rfl rfl
  have hle : p ≤ 1 := hp
  obtain rfl : p = 1 := by omega
  cases hval

end Runs

end BonsaiGrid.Persistence
