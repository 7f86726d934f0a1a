import BonsaiGrid.Persistence.FailedSnapshot
import BonsaiGrid.Store.Calls

/-!
# Recovery of the structures

A store whose calls are on structures only, with the directory to which the records of its calls
go at once.
-/

namespace BonsaiGrid.Persistence

open Store Numbered Structures List Directory Nat

/-- A store, its directory, and the ids that its generators handed out. -/
structure Journal where
  store : Store
  dir : Directory
  generation : ℕ
  handed : List (Str × Int64) := []

inductive JournalEvent where
  | call (c : StructureCall)
  /-- roll, write a snapshot, and delete what it supersedes -/
  | snapshot (now : ℕ)

variable (s : Store)

def batchIds (name : Str) (batch : Int32) : List (Str × Int64) :=
  let r := (s.flakeBatch name batch).2
  (range r.2.2.toNatClampNeg).map fun i => (name, r.1 + Int64.ofNat i * r.2.1)

def callIds : StructureCall → List (Str × Int64)
  | .flakeBatch name batch => batchIds s name batch
  | _ => []

def truncate (d : Directory) (gen : ℕ) (bytes : Bytes) : Directory :=
  let d := ((d.fsync gen).openWal (gen + 1)).install (gen + 1) bytes
  (superseded d gen (gen + 1)).foldl removeFile d

namespace Journal

def start (shards memberId : ℕ) : Journal where
  store := (withShardsSeed shards memberId).setWalSink
  dir := ({} : Directory).openWal 1
  generation := 1

variable [Crc32fast] (j : Journal)

def exec : JournalEvent → Journal
  | .call c =>
    let s := j.store.callStructure c
    { store := { s with walSink := some [] }
      dir := (s.walSink.getD []).foldl (fun d r => d.append j.generation (encodeRecord r)) j.dir
      generation := j.generation
      handed := j.handed ++ callIds j.store c }
  | .snapshot now =>
    { j with
      dir := truncate j.dir j.generation
        (snapshotBytes (j.store.allEntriesStamped now) j.store.allAux)
      generation := j.generation + 1 }

/-- A new store recovers from the directory, answers every query on structures as the store does,
and hands out no id that the store handed out. -/
def Recovers : Prop :=
  ∀ shards memberId clock, 0 < shards →
    ∃ r, j.dir.recover (withShardsSeed shards memberId) clock = some r ∧
      (∀ q, r.aux.ask q = j.store.aux.ask q) ∧
      ∀ name batch, ∀ id ∈ batchIds r name batch, id ∉ j.handed

/-- The states of the runs from an empty directory whose events all meet `ok`. -/
def Run (shards memberId : ℕ) (ok : Journal → JournalEvent → Prop) : Journal → Prop :=
  Trace.Reaches exec ok (start shards memberId)

/-- No ids are handed out, snapshots are taken while there is no estimator, and the lengths of
records and of the section of a snapshot fit their headers. -/
def Covered : JournalEvent → Prop
  | .call c => (∀ name batch, c ≠ .flakeBatch name batch) ∧
      ∀ r ∈ (j.store.callStructure c).walSink.getD [], Fits r
  | .snapshot _ => (∀ name, j.store.aux.hlls.lookup name = none) ∧
      (counted putAux j.store.allAux).length < 2 ^ 32

end Journal

/-! ## The files -/

section Files

variable {d : Directory} {gen : ℕ}

theorem files_foldl_removeFile (todo : List FileName) (d : Directory) :
    (todo.foldl removeFile d).wals.files = d.wals.files.filter (fun f => decide (.wal f.1 ∉ todo)) ∧
      (todo.foldl removeFile d).snapshots.files =
        d.snapshots.files.filter fun f => decide (.snapshot f.1 ∉ todo) := by
  induction todo generalizing d with
  | nil => simp
  | cons f todo ih =>
    rw [foldl_cons, (ih _).1, (ih _).2]
    cases f with
    | wal n =>
      refine ⟨?_, filter_congr fun x _ => by simp⟩
      rw [removeFile, removeWal, retain, filter_filter]
      exact filter_congr fun x _ => by
        by_cases hx : x.1 = n <;> simp [hx, bne]
    | snapshot n =>
      refine ⟨filter_congr fun x _ => by simp, ?_⟩
      rw [removeFile, removeSnapshot, retain, filter_filter]
      exact filter_congr fun x _ => by
        by_cases hx : x.1 = n <;> simp [hx, bne]

theorem files_truncate (bytes : Bytes) {f : WalFile} (hwals : d.wals.files = [(gen, f)])
    (hsnap : ∀ x ∈ d.snapshots.files, x.1 ≤ gen) :
    (truncate d gen bytes).wals.files = [(gen + 1, {})] ∧
      (truncate d gen bytes).snapshots.files = [(gen + 1, bytes)] := by
  let d₁ := ((d.fsync gen).openWal (gen + 1)).install (gen + 1) bytes
  have hfsync : (d.fsync gen).wals.files = [(gen, { f with synced := f.bytes.length })] := by
    rw [fsync, Numbered.modify]
    dsimp only
    rw [hwals, map_singleton, if_pos rfl]
  have hbelow : ∀ x ∈ (d.fsync gen).wals.files, x.1 < gen + 1 := fun x hx => by
    rw [hfsync] at hx
    rw [mem_singleton.1 hx]
    exact lt_succ_self gen
  have hopen := openWal_of_lt hbelow
  have hwals₁ : d₁.wals.files = [(gen, { f with synced := f.bytes.length }), (gen + 1, {})] := by
    change ((d.fsync gen).openWal (gen + 1)).wals.files = _
    rw [hopen]
    refine (files_add hbelow).trans ?_
    rw [hfsync]
    rfl
  have hsnap₁ : d₁.snapshots.files = d.snapshots.files ++ [(gen + 1, bytes)] := by
    change (((d.fsync gen).openWal (gen + 1)).snapshots.add (gen + 1) bytes).files = _
    rw [hopen]
    exact files_add fun x hx => lt_succ_of_le (hsnap x hx)
  obtain ⟨hwals₂, hsnap₂⟩ := files_foldl_removeFile (superseded d₁ gen (gen + 1)) d₁
  have hkeep : ∀ f ∈ superseded d₁ gen (gen + 1), f.number < gen + 1 := fun f =>
    number_lt_of_superseded (lt_succ_self gen)
  refine ⟨hwals₂.trans ?_, hsnap₂.trans ?_⟩
  · rw [hwals₁, filter_cons_of_neg, filter_cons_of_pos, filter_nil]
    · exact decide_eq_true fun hmem => lt_irrefl _ (hkeep _ hmem)
    · rw [decide_eq_true_eq, not_not]
      exact mem_cons_self
  · have hold : d.snapshots.files.filter
        (fun f => decide (.snapshot f.1 ∉ superseded d₁ gen (gen + 1))) = [] := by
      refine filter_eq_nil_iff.2 fun x hx => ?_
      rw [decide_eq_true_eq, not_not]
      refine mem_cons_of_mem _ (mem_append_right _ (mem_map.2 ⟨x, ?_, rfl⟩))
      rw [hsnap₁]
      exact mem_filter.2 ⟨mem_append_left _ hx,
        decide_eq_true (lt_succ_of_le (hsnap x hx))⟩
    rw [hsnap₁, filter_append, hold, nil_append, filter_cons_of_pos, filter_nil]
    exact decide_eq_true fun hmem => lt_irrefl _ (hkeep _ hmem)

end Files

/-! ## Installing records -/

def installRecord (a : Structures) : WalRecord → Structures
  | .auxState kind name state => a.installAux kind name state
  | _ => a

theorem aux_replay (records : List (StoreEnv × WalRecord)) :
    (replay s records).aux = (records.map Prod.snd).foldl installRecord s.aux := by
  induction records generalizing s with
  | nil => rfl
  | cons r records ih =>
    have hstep : (applyRecord s r.1 r.2).aux = installRecord s.aux r.2 := by
      cases r.2 <;> rfl
    exact (ih _).trans (by rw [hstep]; rfl)

section Aux

variable {s t : Structures}

theorem view_foldl_installAux {names : List (AuxKind × Str)}
    (hthere : ∀ kn ∈ names, s.Present kn.1 kn.2)
    (hfits : ∀ kn ∈ names, (s.serializeAux kn.1 kn.2).length < 2 ^ 32) (t : Structures)
    (kind : AuxKind) (name : Str) :
    ((names.map fun kn => auxRecord (kn.1, kn.2, s.serializeAux kn.1 kn.2)).foldl installRecord
      t).view kind name = if (kind, name) ∈ names then s.view kind name else t.view kind name := by
  induction names generalizing t with
  | nil => rfl
  | cons kn names ih =>
    rw [map_cons, foldl_cons, ih (fun x hx => hthere x (mem_cons_of_mem kn hx))
      fun x hx => hfits x (mem_cons_of_mem kn hx)]
    by_cases hmem : (kind, name) ∈ names
    · rw [if_pos hmem, if_pos (mem_cons_of_mem kn hmem)]
    · rw [if_neg hmem]
      have hstep : installRecord t (auxRecord (kn.1, kn.2, s.serializeAux kn.1 kn.2)) =
          t.installAux kn.1 kn.2 (s.serializeAux kn.1 kn.2) := rfl
      by_cases heq : (kind, name) = kn
      · subst heq
        rw [if_pos mem_cons_self]
        exact view_installAux_of_present t (hthere _ mem_cons_self)
          (hfits _ mem_cons_self)
      · rw [if_neg fun h => (mem_cons.1 h).elim heq hmem]
        refine view_installAux_of_ne t _ ?_
        by_contra hsame
        rw [not_or, not_not, not_not] at hsame
        exact heq (Prod.ext hsame.1 hsame.2)

theorem view_foldl_allAux (hhll : ∀ name, s.hlls.lookup name = none)
    (hfits : (counted putAux s.allAux).length < 2 ^ 32) (kind : AuxKind) (name : Str) :
    ((s.allAux.map auxRecord).foldl installRecord {}).view kind name = s.view kind name := by
  have hmap : s.allAux.map auxRecord =
      s.auxNames.map fun kn => auxRecord (kn.1, kn.2, s.serializeAux kn.1 kn.2) := by
    rw [Structures.allAux, map_map]
    rfl
  have hthere : ∀ kn ∈ s.auxNames, s.Present kn.1 kn.2 := fun kn hkn =>
    (mem_auxNames.1 hkn).2
  have hlen : ∀ kn ∈ s.auxNames, (s.serializeAux kn.1 kn.2).length < 2 ^ 32 := fun kn hkn => by
    have hmem : (kn.1, kn.2, s.serializeAux kn.1 kn.2) ∈ s.allAux := mem_map.2 ⟨kn, hkn, rfl⟩
    have hle := length_le_flatten putAux hmem
    rw [length_putAux] at hle
    rw [length_counted] at hfits
    dsimp only at hle
    omega
  rw [hmap, view_foldl_installAux hthere hlen]
  split
  next => rfl
  next hnot =>
    refine (view_of_absent fun hpresent =>
      hnot (mem_auxNames.2 ⟨?_, hpresent⟩)).symm
    rintro rfl
    rw [Structures.Present, hhll] at hpresent
    cases hpresent

end Aux

/-! ## Runs -/

section Runs

variable [Crc32fast]

/-- The directory holds the records of a snapshot and those appended after it, and there is
nothing in the shards. -/
structure Journaled (j : Journal) (base records : List WalRecord) : Prop where
  sink : j.store.walSink = some []
  shards : ∀ inner ∈ j.store.shards, inner = .new
  wals : ∃ f, j.dir.wals.files = [(j.generation, f)] ∧ f.bytes = segment records
  fits : ∀ r ∈ records, Fits r
  snapshots : j.dir.snapshots.files = [] ∧ base = [] ∨
    ∃ bytes, j.dir.snapshots.files = [(j.generation, bytes)] ∧ loadSnapshot bytes = some base

theorem files_foldl_append (records : List WalRecord) {d : Directory} {gen : ℕ} {f : WalFile}
    (h : d.wals.files = [(gen, f)]) :
    let d' := records.foldl (fun d r => d.append gen (encodeRecord r)) d
    d'.snapshots = d.snapshots ∧
      d'.wals.files = [(gen, { f with bytes := f.bytes ++ segment records })] := by
  induction records generalizing d f with
  | nil =>
    refine ⟨rfl, h.trans ?_⟩
    rw [show segment [] = [] from rfl, append_nil]
  | cons r records ih =>
    have hstep : (d.append gen (encodeRecord r)).wals.files =
        [(gen, { f with bytes := f.bytes ++ encodeRecord r })] := by
      rw [append, Numbered.modify]
      dsimp only
      rw [h, map_singleton, if_pos rfl]
    obtain ⟨hsnap, hwals⟩ := ih hstep
    refine ⟨hsnap, hwals.trans ?_⟩
    rw [append_assoc]
    rfl

namespace Journaled

variable {j : Journal} {base records : List WalRecord}

theorem start (shards memberId : ℕ) : Journaled (Journal.start shards memberId) [] [] where
  sink := rfl
  shards := fun _ hinner => eq_of_mem_replicate hinner
  wals := ⟨{}, rfl, rfl⟩
  fits := fun _ hr => absurd hr not_mem_nil
  snapshots := Or.inl ⟨rfl, rfl⟩

section

variable (h : Journaled j base records)

include h

theorem records_eq : j.dir.records = some (base ++ records) := by
  obtain ⟨f, hwals, hbytes⟩ := h.wals
  have hread : readSegment f.bytes = records := by
    rw [hbytes, ← append_nil (segment records), readSegment_segment h.fits tornTail_nil]
  have hwal : ∀ gen ≤ j.generation, j.dir.walRecords gen = records := fun gen hgen => by
    have hfilter : [(j.generation, f)].filter (fun f => decide (gen ≤ f.1)) = [(j.generation, f)] :=
      filter_cons_of_pos (decide_eq_true hgen)
    rw [walRecords, hwals, hfilter, flatMap_singleton, hread]
  rcases h.snapshots with ⟨hfiles, rfl⟩ | ⟨bytes, hfiles, hload⟩
  · have hlast : j.dir.snapshots.last? = none := by rw [last?, hfiles]; rfl
    rw [Directory.records, Directory.snapshotGen, lastNumber, hlast,
      Option.elim_none, hwal _ (zero_le _)]
    rfl
  · have hlast : j.dir.snapshots.last? = some (j.generation, bytes) := by
      rw [last?, hfiles]
      rfl
    rw [Directory.records, Directory.snapshotGen, lastNumber, hlast, Option.elim_some,
      Option.elim_some, hload, hwal _ (le_refl _)]
    rfl

theorem recover (s : Store) (clock : ℕ → StoreEnv) :
    ∃ r, j.dir.recover s clock = some r ∧
      r.aux = (base ++ records).foldl installRecord s.aux := by
  refine ⟨_, by rw [Directory.recover, h.records_eq]; rfl, ?_⟩
  rw [aux_replay, map_map, show (Prod.snd ∘ fun r : WalRecord × ℕ => (clock r.2, r.1)) =
    Prod.fst from rfl, zipIdx_map_fst]

theorem call {c : StructureCall}
    (hfits : ∀ r ∈ (j.store.callStructure c).walSink.getD [], Fits r) :
    Journaled (j.exec (.call c)) base (records ++ (j.store.callStructure c).walSink.getD []) := by
  obtain ⟨f, hwals, hbytes⟩ := h.wals
  obtain ⟨hsnap, hwals'⟩ := files_foldl_append ((j.store.callStructure c).walSink.getD []) hwals
  have hsnap' : (j.exec (.call c)).dir.snapshots = j.dir.snapshots := hsnap
  have hshards : (j.store.callStructure c).shards = j.store.shards := by
    have hcalled := called_callStructure j.store c
    generalize j.store.callStructure c = s at hcalled
    cases hcalled <;> rfl
  exact
    { sink := rfl
      shards := fun inner hinner => h.shards inner (hshards ▸ hinner)
      wals := ⟨_, hwals', by rw [segment_append, ← hbytes]⟩
      fits := fun r hr => (mem_append.1 hr).elim (h.fits r) (hfits r)
      snapshots := by
        rw [hsnap']
        exact h.snapshots }

theorem allEntriesStamped_eq_nil (now : ℕ) :
    j.store.allEntriesStamped now = [] := by
  obtain ⟨hinv, hplain, hempty⟩ := Inner.inv_new
  refine flatMap_eq_nil_iff.2 fun inner hinner => ?_
  rw [h.shards inner hinner]
  refine eq_nil_iff_forall_not_mem.2 fun e he => ?_
  obtain ⟨c, hc, -⟩ := (hinv.mem_collectAllStamped hplain).1 he
  cases hc

theorem snapshot (now : ℕ)
    (hfits : (counted putAux j.store.allAux).length < 2 ^ 32) :
    Journaled (j.exec (.snapshot now)) (j.store.allAux.map auxRecord) [] := by
  obtain ⟨f, hwals, -⟩ := h.wals
  have hsnap : ∀ x ∈ j.dir.snapshots.files, x.1 ≤ j.generation := fun x hx => by
    rcases h.snapshots with ⟨hfiles, -⟩ | ⟨bytes, hfiles, -⟩
    · rw [hfiles] at hx
      cases hx
    · rw [hfiles] at hx
      rw [mem_singleton.1 hx]
  obtain ⟨hwals', hsnap'⟩ := files_truncate
    (snapshotBytes (j.store.allEntriesStamped now) j.store.allAux) hwals hsnap
  refine
    { h with
      wals := ⟨{}, hwals', rfl⟩
      fits := fun r hr => absurd hr not_mem_nil
      snapshots := Or.inr ⟨_, hsnap', ?_⟩ }
  rw [h.allEntriesStamped_eq_nil now]
  exact loadSnapshot_snapshotBytes ⟨fun e he => absurd he not_mem_nil, by decide, hfits⟩

end

end Journaled

/-- Snapshot and log give the structures of the store, and no id was handed out. -/
structure JournalOk (j : Journal) (base records : List WalRecord) : Prop
    extends Journaled j base records where
  view : ∀ kind name,
    ((base ++ records).foldl installRecord {}).view kind name = j.store.aux.view kind name
  handed : j.handed = []

namespace JournalOk

variable {j : Journal} {base records : List WalRecord}

section

variable (h : JournalOk j base records)

include h

theorem recovers : j.Recovers := by
  intro shards memberId clock hshards
  obtain ⟨r, hr, haux⟩ := h.toJournaled.recover (withShardsSeed shards memberId) clock
  refine ⟨r, hr, fun q => ask_eq_of_view (fun kind name => ?_) q, fun _ _ id _ => ?_⟩
  · rw [haux]
    exact h.view kind name
  · rw [h.handed]
    exact not_mem_nil

theorem call {c : StructureCall} (hok : j.Covered (.call c)) :
    JournalOk (j.exec (.call c)) base (records ++ (j.store.callStructure c).walSink.getD []) := by
  obtain ⟨hids, hfits⟩ := hok
  have hlogged := h.toJournaled.call hfits
  refine { hlogged with view := fun kind' name' => ?_, handed := ?_ }
  · change _ = (j.store.callStructure c).aux.view kind' name'
    have hcalled := called_callStructure j.store c
    generalize j.store.callStructure c = s at hcalled hfits ⊢
    cases hcalled with
    | nothing =>
      rw [h.sink, Option.getD_some, append_nil]
      exact h.view kind' name'
    | @emitted _ aux kind name _ htouched =>
      have hsink : (emitAux { j.store with aux := aux } kind name).walSink.getD [] =
          [.auxState kind name (aux.serializeAux kind name)] := by
        change (Option.map _ j.store.walSink).getD [] = _
        rw [h.sink]
        rfl
      rw [hsink] at hfits ⊢
      have hlen : (aux.serializeAux kind name).length < 2 ^ 32 := by
        have hpayload := (hfits _ (mem_singleton_self _)).1
        simp only [payload, length_cons, length_append, Blob.length_put] at hpayload
        omega
      rw [← append_assoc, foldl_append]
      exact htouched.view_installAux h.view hlen kind' name'
    | batch name batch => exact absurd rfl (hids name batch)
  · change j.handed ++ callIds j.store c = []
    rw [h.handed]
    cases c with
    | flakeBatch name batch => exact absurd rfl (hids name batch)
    | _ => rfl

theorem snapshot {now : ℕ} (hok : j.Covered (.snapshot now)) :
    JournalOk (j.exec (.snapshot now)) (j.store.allAux.map auxRecord) [] :=
  { h.toJournaled.snapshot now hok.2 with
    view := fun kind name => by
      rw [append_nil]
      exact view_foldl_allAux hok.1 hok.2 kind name
    handed := h.handed }

end

theorem start (shards memberId : ℕ) : JournalOk (Journal.start shards memberId) [] [] :=
  { Journaled.start shards memberId with
    view := fun _ _ => rfl
    handed := rfl }

end JournalOk

theorem Journal.Run.ok {shards memberId : ℕ} {j : Journal}
    (h : Journal.Run shards memberId Journal.Covered j) :
    ∃ base records, JournalOk j base records :=
  Trace.Reaches.invariant (I := fun j => ∃ base records, JournalOk j base records) h
    (fun j e ⟨_, _, hj⟩ hok => by
      cases e with
      | call c => exact ⟨_, _, hj.call hok⟩
      | snapshot now => exact ⟨_, _, hj.snapshot hok⟩) ⟨_, _, .start shards memberId⟩

/-- In every run whose events are covered, the structures survive recovery. -/
theorem structures_recover {shards memberId : ℕ} {j : Journal}
    (h : Journal.Run shards memberId Journal.Covered j) : j.Recovers :=
  have ⟨_, _, hj⟩ := h.ok
  hj.recovers

end Runs

theorem fits_hll (s : Structures) {name : Str} (h : name.bytes.length < 2 ^ 16) :
    Fits (.auxState .hll name (s.serializeAux .hll name)) := by
  have hlen : (s.serializeAux .hll name).length ≤ 2 ^ 14 := by
    rw [serializeAux]
    cases s.hlls.lookup name with
    | none => exact zero_le _
    | some h => exact le_of_eq h.length_regs
  refine ⟨?_, trivial⟩
  rw [payload, length_cons, length_append, Blob.length_put, Blob.length_put]
  omega

def coveredEvents : List JournalEvent :=
  [.call (.queueOffer orders [1]), .call (.pnAdd orders 5 true), .snapshot 9,
    .call (.queueOffer orders [2]), .call (.queuePoll orders)]

theorem structures_recover_around_snapshot :
    let j := coveredEvents.foldl Journal.exec (Journal.start 1 3)
    j.store.aux.queuePeek orders = some [2] ∧ j.store.aux.pnGet orders = 5 ∧ j.Recovers := by
  refine ⟨by decide +kernel, by decide +kernel,
    structures_recover (.of_allowed coveredEvents ?_ : Journal.Run 1 3 Journal.Covered _)⟩
  refine ⟨⟨fun _ _ h => (by cases h), by decide +kernel⟩,
    ⟨fun _ _ h => (by cases h), by decide +kernel⟩, ⟨fun _ => rfl, by decide +kernel⟩,
    ⟨fun _ _ h => (by cases h), by decide +kernel⟩,
    ⟨fun _ _ h => (by cases h), by decide +kernel⟩, trivial⟩

/-- A batch of ids is handed out again after recovery, and a snapshot loses an estimator. -/
theorem structures_lost :
    let handing := (Journal.start 1 3).exec (.call (.flakeBatch orders 1))
    let sketched := ((Journal.start 1 3).exec (.call (.hllAdd orders 7))).exec (.snapshot 9)
    Journal.Run 1 3 (fun _ _ => True) handing ∧ ¬ handing.Recovers ∧
      Journal.Run 1 3 (fun _ _ => True) sketched ∧
      (sketched.store.aux.hlls.lookup orders).isSome = true ∧
      ∀ clock, ∃ r, sketched.dir.recover (withShardsSeed 1 3) clock = some r ∧
        r.aux.hlls.lookup orders = none := by
  have hstart := Journaled.start 1 3
  refine ⟨?_, fun h => ?_, ?_, ?_, fun clock => ?_⟩
  · exact .of_allowed [JournalEvent.call (.flakeBatch orders 1)] ⟨trivial, trivial⟩
  · obtain ⟨r, hr, -, hids⟩ := h 1 3 (fun _ => ⟨⟨0, 0⟩, 0⟩) Nat.one_pos
    have hrecords := (hstart.call (c := .flakeBatch orders 1) (by decide)).records_eq
    cases hr
    exact hids orders 1 (orders, 1) (by decide) (by decide)
  · exact .of_allowed [JournalEvent.call (.hllAdd orders 7), .snapshot 9]
      ⟨trivial, trivial, trivial⟩
  · rfl
  · have hlogged := (hstart.call (c := .hllAdd orders 7) ?_).snapshot 9 ?_
    · obtain ⟨r, hr, haux⟩ := hlogged.recover (withShardsSeed 1 3) clock
      exact ⟨r, hr, by rw [haux]; rfl⟩
    · intro r hr
      rw [mem_singleton.1 hr]
      exact fits_hll _ (by decide)
    · exact (by decide : 4 < 2 ^ 32)

end BonsaiGrid.Persistence
