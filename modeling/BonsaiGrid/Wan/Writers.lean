import BonsaiGrid.Lib.Outbox
import BonsaiGrid.Persistence.Replay
import BonsaiGrid.Wan.Record

/-!
# Writers of one store

Several threads put and remove at one store with a log and a peer. A call draws its stamp, changes
the shard and hands its record to the log and to the peer in steps of its own, and the steps of the
other threads come in between.
-/

namespace BonsaiGrid.Wan

open Store Persistence Function Outbox List Nat Inner

inductive Writer where
  | idle
  | putCalled (map : Str) (key val : Bytes)
  | putStamped (map : Str) (key val : Bytes) (stamp : ℕ)
  | putApplied (map : Str) (key val : Bytes) (stamp : ℕ)
  | putLogged (map : Str) (key val : Bytes) (stamp : ℕ)
  | removeCalled (map : Str) (key : Bytes)
  | removeApplied (map : Str) (key : Bytes)
  | removeStamped (map : Str) (key : Bytes) (stamp : ℕ)
  | removeLogged (map : Str) (key : Bytes) (stamp : ℕ)
deriving DecidableEq

namespace Writer

def stamp : Writer → Option ℕ
  | .putStamped _ _ _ stamp => some stamp
  | .putApplied _ _ _ stamp => some stamp
  | .putLogged _ _ _ stamp => some stamp
  | _ => none

def unlogged : Writer → Option WalRecord
  | .putApplied map key val stamp => some (.mapPut stamp 0 map key val)
  | .removeApplied map key => some (.mapRemove 0 map key)
  | .removeStamped map key _ => some (.mapRemove 0 map key)
  | _ => none

def unsent : Writer → Option WalRecord
  | .putApplied map key val stamp => some (.mapPut stamp 0 map key val)
  | .putLogged map key val stamp => some (.mapPut stamp 0 map key val)
  | .removeApplied map key => some (.mapRemove 0 map key)
  | .removeStamped map key _ => some (.mapRemove 0 map key)
  | .removeLogged map key _ => some (.mapRemove 0 map key)
  | _ => none

end Writer

structure Writers (τ : Type) where
  store : Store
  threads : τ → Writer
  unlogged : List (τ × WalRecord) := []
  unsent : List (τ × WalRecord) := []

inductive WriterEvent where
  | put (map : Str) (key val : Bytes)
  | remove (map : Str) (key : Bytes)
  /-- the next step of the call -/
  | step (env : StoreEnv)

def applyRemove (s : Store) (env : StoreEnv) (map : Str) (key : Bytes) : Store :=
  s.setShard map key ((s.shard map key).remove env.toEnv map key).1

namespace Writers

variable {τ : Type} [DecidableEq τ] (w : Writers τ) (t : τ) (state : Writer)

def goes (store : Store) : Writers τ :=
  { w with store := store, threads := update w.threads t state }

def changed (store : Store) (r : WalRecord) : Writers τ :=
  { w.goes t state store with
    unlogged := w.unlogged ++ [(t, r)]
    unsent := w.unsent ++ [(t, r)] }

def logs (r : WalRecord) : Writers τ :=
  { w.goes t state (w.store.emitWal r) with unlogged := without t w.unlogged }

def sends (r : WalRecord) : Writers τ :=
  { w.goes t .idle (w.store.emitWan r) with unsent := without t w.unsent }

def step (env : StoreEnv) : Writers τ :=
  match w.threads t with
  | .idle => w
  | .putCalled map key val =>
    let (store, stamp) := w.store.nextStamp env
    w.goes t (.putStamped map key val stamp) store
  | .putStamped map key val stamp =>
    w.changed t (.putApplied map key val stamp)
      (w.store.putStamped env map key val 0 stamp).1 (.mapPut stamp 0 map key val)
  | .putApplied map key val stamp =>
    w.logs t (.putLogged map key val stamp) (.mapPut stamp 0 map key val)
  | .putLogged map key val stamp => w.sends t (.mapPut stamp 0 map key val)
  | .removeCalled map key =>
    w.changed t (.removeApplied map key) (applyRemove w.store env map key)
      (.mapRemove 0 map key)
  | .removeApplied map key =>
    let (store, stamp) := w.store.nextStamp env
    w.goes t (.removeStamped map key stamp) store
  | .removeStamped map key stamp =>
    w.logs t (.removeLogged map key stamp) (.mapRemove stamp map key)
  | .removeLogged map key stamp => w.sends t (.mapRemove stamp map key)

def exec (e : τ × WriterEvent) : Writers τ :=
  match e.2, w.threads e.1 with
  | .put map key val, .idle => w.goes e.1 (.putCalled map key val) w.store
  | .remove map key, .idle => w.goes e.1 (.removeCalled map key) w.store
  | .step env, _ => w.step e.1 env
  | _, _ => w

def start (shards memberId : ℕ) : Writers τ where
  store := (withShardsSeed shards memberId).setWalSink.setWanSink
  threads := fun _ => .idle

variable {w t}

/-- The steps of a call, one after the other. -/
def alone (w : Writers τ) (t : τ) (call : WriterEvent) (env : StoreEnv) : Writers τ :=
  ((t, call) :: replicate 4 (t, .step env)).foldl exec w

/-- Undisturbed, the steps of a put are the put of the store. -/
theorem steps_put (hidle : w.threads t = .idle) (env : StoreEnv) (map : Str) (key val : Bytes) :
    (w.alone t (.put map key val) env).store = (w.store.put env map key val).1 ∧
      (w.alone t (.put map key val) env).threads = w.threads := by
  simp [alone, replicate, exec, hidle, step, goes, changed, logs, sends, putStamped,
    Store.put, putTtl, emit]

theorem steps_remove (hidle : w.threads t = .idle) (env : StoreEnv) (map : Str) (key : Bytes) :
    (w.alone t (.remove map key) env).store = (w.store.remove env map key).1 ∧
      (w.alone t (.remove map key) env).threads = w.threads := by
  simp [alone, replicate, exec, hidle, step, goes, changed, logs, sends, applyRemove,
    Store.remove, emit]

end Writers

/-! ## What the log and the peer have -/

variable {τ : Type} (w : Writers τ)

def Writers.recovered (shards memberId : ℕ) (clock : ℕ → StoreEnv) :
    Store :=
  replay (withShardsSeed shards memberId)
    ((w.store.walSink.getD []).zipIdx.map fun r => (clock r.2, r.1))

def Writers.peer (shards memberId : ℕ) (clock : ℕ → StoreEnv) : Store :=
  applyBatch (withShardsSeed shards memberId)
    ((w.store.wanSink.getD []).zipIdx.map fun r => (clock r.2, publish r.1))

/-- Store, log and peer have the same value for every key. -/
def Writers.Agree : Prop :=
  ∀ shards memberId clock, 0 < shards → ∀ (env : StoreEnv) map key,
    ((w.recovered shards memberId clock).get env map key).2 = (w.store.get env map key).2 ∧
      ((w.peer shards memberId clock).get env map key).2 = (w.store.get env map key).2

def conflicts : WalRecord → WalRecord → Bool
  | .mapPut _ _ map key _, .mapRemove _ map' key' => (map, key) = (map', key')
  | .mapRemove _ map key, .mapPut _ _ map' key' _ => (map, key) = (map', key')
  | _, _ => false

namespace Writers

variable {τ : Type} [DecidableEq τ]

/-- No change of the outbox ahead of that of the thread conflicts with it. -/
def InOrder (t : τ) (outbox : List (τ × WalRecord)) (r : WalRecord) : Prop :=
  ∀ e ∈ ahead t outbox, conflicts e.2 r = false

instance (t : τ) (outbox : List (τ × WalRecord)) (r : WalRecord) :
    Decidable (InOrder t outbox r) :=
  inferInstanceAs (Decidable (∀ e ∈ ahead t outbox, conflicts e.2 r = false))

variable (w : Writers τ)

/-- A stamp is drawn in range; a put changes the store while its stamp is above that of
the entry; puts and removals of one key are logged, and are sent, in the order in which
they changed the store. -/
def MayStep (t : τ) (env : StoreEnv) : Writer → Prop
  | .putCalled _ _ _ => InRange w.store.stampSeq env.wallMs
  | .putStamped map key _ stamp => ∀ c ∈ w.store.contents (map, key), c.stamp < stamp
  | .putApplied map key val stamp => InOrder t w.unlogged (.mapPut stamp 0 map key val)
  | .putLogged map key val stamp => InOrder t w.unsent (.mapPut stamp 0 map key val)
  | .removeApplied _ _ => InRange w.store.stampSeq env.wallMs
  | .removeStamped map key stamp => InOrder t w.unlogged (.mapRemove stamp map key)
  | .removeLogged map key stamp => InOrder t w.unsent (.mapRemove stamp map key)
  | .idle => True
  | .removeCalled _ _ => True

def Allows (e : τ × WriterEvent) : Prop :=
  match e.2 with
  | .put _ key val => key.length + val.length < 2 ^ 32
  | .remove _ _ => True
  | .step env => w.MayStep e.1 env (w.threads e.1)

instance  (t : τ) (env : StoreEnv) : (x : Writer) → Decidable (w.MayStep t env x)
  | .putCalled .. | .removeApplied .. => inferInstanceAs (Decidable (InRange _ _))
  | .putStamped map key _ stamp =>
    inferInstanceAs (Decidable (∀ c ∈ w.store.contents (map, key), c.stamp < stamp))
  | .putApplied .. | .putLogged .. | .removeStamped .. | .removeLogged .. =>
    inferInstanceAs (Decidable (InOrder _ _ _))
  | .idle | .removeCalled .. => isTrue trivial

instance  : (e : τ × WriterEvent) → Decidable (w.Allows e)
  | (_, .put ..) => inferInstanceAs (Decidable (_ < _))
  | (_, .remove ..) => isTrue trivial
  | (t, .step env) => inferInstanceAs (Decidable (w.MayStep t env (w.threads t)))

end Writers

variable {r : WalRecord}

section Records

theorem mergeCell_comm (c : Option Cell) {x y : Cell} (h : x.stamp ≠ y.stamp) :
    Inner.mergeCell (some (Inner.mergeCell c x true)) y true =
      Inner.mergeCell (some (Inner.mergeCell c y true)) x true := by
  cases c with
  | none | some c => grind [mergeCell]

theorem commutes_of_not_conflicts {r r' : WalRecord} (h : conflicts r r' = false)
    (hstamp : ∀ s s' ttl ttl' m m' k k' v v', r = .mapPut s ttl m k v → r' = .mapPut s' ttl' m' k' v' →
      s ≠ s') : Outbox.Commutes replayCell r r' := by
  intro c
  cases r with
  | auxState kind name state => rfl
  | mapPut s ttl m k v =>
    cases r' with
    | auxState kind name state => rfl
    | mapPut s' ttl' m' k' v' =>
      have hne := hstamp _ _ _ _ _ _ _ _ _ _ rfl rfl
      by_cases hmk : (m, k) = (m', k')
      · cases hmk
        simp only [replayCell, update_self, update_idem]
        rw [mergeCell_comm _ hne]
      · simp only [replayCell, update_of_ne hmk, update_of_ne (Ne.symm hmk)]
        exact update_comm hmk _ _ c
    | mapRemove s' m' k' =>
      have hmk : (m, k) ≠ (m', k') := of_decide_eq_false h
      simp only [replayCell, update_of_ne hmk]
      exact update_comm hmk _ _ c
  | mapRemove s m k =>
    cases r' with
    | auxState kind name state => rfl
    | mapPut s' ttl' m' k' v' =>
      have hmk : (m, k) ≠ (m', k') := of_decide_eq_false h
      simp only [replayCell, update_of_ne hmk.symm]
      exact update_comm hmk _ _ c
    | mapRemove s' m' k' =>
      by_cases hmk : (m, k) = (m', k')
      · cases hmk
        rfl
      · exact update_comm hmk _ _ c

theorem applyRecord_publish {s : Store} (h : s.Inv) (hlast : Lasting s.contents) (env : StoreEnv)
    (hr : WalRecord.Plain r) :
    (applyRecord s env (publish r)).Inv ∧
      (applyRecord s env (publish r)).contents = replayCell s.contents r := by
  cases r with
  | mapPut stamp ttlMs map key value =>
    obtain ⟨rfl, hfit⟩ := hr
    obtain ⟨hinv, hcont⟩ := h.applyWan_put env map key value 0 stamp hfit
    rw [hlast.seen] at hcont
    exact ⟨hinv, hcont⟩
  | mapRemove stamp map key => exact h.applyWan_remove env map key [] 0 stamp
  | auxState kind name state =>
    dsimp only [applyRecord, publish]
    cases AuxKind.ofCode kind.code with
    | none => exact ⟨h, rfl⟩
    | some kind => exact ⟨h.congr rfl, contents_congr rfl⟩

theorem applyBatch_contents {s : Store} (h : s.Inv) (hlast : Lasting s.contents)
    {records : List (StoreEnv × WalRecord)} (hr : ∀ r ∈ records, WalRecord.Plain r.2) :
    (applyBatch s (records.map fun r => (r.1, publish r.2))).Inv ∧
      Lasting (applyBatch s (records.map fun r => (r.1, publish r.2))).contents ∧
      (applyBatch s (records.map fun r => (r.1, publish r.2))).contents =
        (records.map Prod.snd).foldl replayCell s.contents := by
  induction records generalizing s with
  | nil => exact ⟨h, hlast, rfl⟩
  | cons r records ih =>
    obtain ⟨hinv, hcont⟩ := applyRecord_publish h hlast r.1 (hr r mem_cons_self)
    obtain ⟨hinv', hlast', hcont'⟩ := ih hinv (hcont ▸ hlast.replayCell r.2)
      fun x hx => hr x (mem_cons_of_mem r hx)
    refine ⟨hinv', hlast', hcont'.trans ?_⟩
    rw [hcont]
    rfl

end Records

/-! ## Runs -/

/-- The records of a sink and the changes that are due make up the contents. -/
def Fed (sink : Option (List WalRecord)) (outbox : List (τ × WalRecord))
    (due : τ → Option WalRecord) (c : Contents) : Prop :=
  ∃ records, sink = some records ∧ (∀ r ∈ records, WalRecord.Plain r) ∧
    Outbox.Ok replayCell (fun _ => none) records outbox due c

/-- The stamps under way are not ahead of the clock, and no two threads have the same. -/
def Stamped (threads : τ → Writer) (seq : ℕ) : Prop :=
  ∀ t s, (threads t).stamp = some s →
    s / 2 ^ 7 ≤ seq / 2 ^ 7 ∧ ∀ t', t' ≠ t → (threads t').stamp ≠ some s

def Writer.Fits : Writer → Prop
  | .putCalled _ key val => key.length + val.length < 2 ^ 32
  | .putStamped _ key val _ => key.length + val.length < 2 ^ 32
  | .putApplied _ key val _ => key.length + val.length < 2 ^ 32
  | .putLogged _ key val _ => key.length + val.length < 2 ^ 32
  | _ => True

section Threads

variable {τ : Type} [DecidableEq τ] {threads : τ → Writer} {seq seq' : ℕ} {t : τ} {state : Writer}

theorem Stamped.keep (h : Stamped threads seq) (hseq : seq / 2 ^ 7 ≤ seq' / 2 ^ 7)
    (hstate : ∀ s, state.stamp = some s → (threads t).stamp = some s) :
    Stamped (update threads t state) seq' := by
  have hold : ∀ t' s, (update threads t state t').stamp = some s →
      (threads t').stamp = some s := by
    intro t' s hs
    by_cases ht : t' = t
    · rw [ht, update_self] at hs
      rw [ht]
      exact hstate s hs
    · rwa [update_of_ne ht] at hs
  intro t' s hs
  obtain ⟨hle, hother⟩ := h t' s (hold t' s hs)
  exact ⟨le_trans hle hseq, fun u hu hu' => hother u hu (hold u s hu')⟩

theorem Stamped.draw (h : Stamped threads seq) {stamp : ℕ} (hnew : seq / 2 ^ 7 < stamp / 2 ^ 7)
    (hstate : state.stamp = some stamp) : Stamped (update threads t state) stamp := by
  have hbelow : ∀ t' s, (threads t').stamp = some s → s ≠ stamp := by
    rintro t' s hs rfl
    exact not_lt.2 (h t' s hs).1 hnew
  intro t' s hs
  by_cases ht : t' = t
  · rw [ht, update_self, hstate] at hs
    cases hs
    refine ⟨le_refl _, fun u hu hu' => ?_⟩
    rw [ht] at hu
    rw [update_of_ne hu] at hu'
    exact hbelow u stamp hu' rfl
  · rw [update_of_ne ht] at hs
    obtain ⟨hle, hother⟩ := h t' s hs
    refine ⟨le_trans hle (le_of_lt hnew), fun u hu hu' => ?_⟩
    by_cases hut : u = t
    · rw [hut, update_self, hstate] at hu'
      exact hbelow t' s hs (Option.some.inj hu').symm
    · rw [update_of_ne hut] at hu'
      exact hother u hu hu'

variable {outbox : List (τ × WalRecord)}

theorem Stamped.commutes (h : Stamped threads seq) {due : Writer → Option WalRecord}
    (hdue : ∀ x s ttl m k v, due x = some (.mapPut s ttl m k v) → x.stamp = some s)
    (hmem : ∀ t r, (t, r) ∈ outbox ↔ due (threads t) = some r) (hr : due (threads t) = some r)
    (hok : ∀ e ∈ ahead t outbox, conflicts e.2 r = false) :
    ∀ e ∈ ahead t outbox, Outbox.Commutes replayCell e.2 r := by
  intro e he
  obtain ⟨hin, hne⟩ := mem_of_mem_ahead he
  refine commutes_of_not_conflicts (hok e he) fun s s' _ _ _ _ _ _ _ _ hput hput' heq => ?_
  have hother := hdue _ _ _ _ _ _ (((hmem e.1 e.2).1 hin).trans (congrArg some hput))
  have hself := hdue _ _ _ _ _ _ (hr.trans (congrArg some hput'))
  exact (h t s' hself).2 e.1 hne (heq ▸ hother)

theorem Fed.apply {sink : Option (List WalRecord)}
    {due due' : τ → Option WalRecord} {c : Contents} (h : Fed sink outbox due c)
    (hnone : due t = none) (hdue : due' = update due t (some r)) :
    Fed sink (outbox ++ [(t, r)]) due' (replayCell c r) := by
  obtain ⟨records, hsink, hplain, hok⟩ := h
  exact ⟨records, hsink, hplain, hok.apply hnone hdue⟩

theorem Fed.publish {sink : Option (List WalRecord)}
    {due due' : τ → Option WalRecord} {c : Contents} (h : Fed sink outbox due c) {r a : WalRecord}
    (hsome : due t = some a) (hplain : WalRecord.Plain r)
    (hform : ∀ c, replayCell c r = replayCell c a)
    (hcomm : ∀ e ∈ ahead t outbox, Outbox.Commutes replayCell e.2 a)
    (hdue : due' = update due t none) :
    Fed (sink.map (· ++ [r])) (without t outbox) due' c := by
  obtain ⟨records, rfl, hrecords, hok⟩ := h
  exact ⟨records ++ [r], rfl, forall_mem_concat hrecords hplain,
    hok.publish hsome hform hcomm hdue⟩

end Threads

theorem Writer.stamp_of_unlogged {x : Writer} {s ttl : ℕ} {m : Str} {k v : Bytes}
    (h : x.unlogged = some (.mapPut s ttl m k v)) : x.stamp = some s := by
  cases x with
  | putApplied map key val stamp =>
    cases h
    rfl
  | _ => cases h

theorem Writer.stamp_of_unsent {x : Writer} {s ttl : ℕ} {m : Str} {k v : Bytes}
    (h : x.unsent = some (.mapPut s ttl m k v)) : x.stamp = some s := by
  cases x with
  | putApplied map key val stamp | putLogged map key val stamp =>
    cases h
    rfl
  | _ => cases h

namespace Writers

variable {τ : Type}

structure Inv (w : Writers τ) : Prop where
  store : w.store.Inv
  lasting : Lasting w.store.contents
  log : Fed w.store.walSink w.unlogged (fun t => (w.threads t).unlogged) w.store.contents
  peer : Fed w.store.wanSink w.unsent (fun t => (w.threads t).unsent) w.store.contents
  stamps : Stamped w.threads w.store.stampSeq
  fits : ∀ t, (w.threads t).Fits

theorem inv_start {shards : ℕ} (hpos : 0 < shards) (memberId : ℕ) :
    Inv (start shards memberId : Writers τ) := by
  obtain ⟨hinv, hempty⟩ := inv_withShardsSeed hpos memberId
  have hcont : (start shards memberId : Writers τ).store.contents = fun _ => none :=
    (contents_congr rfl).trans hempty
  have hfed : Fed (some []) ([] : List (τ × WalRecord)) (fun _ => none)
      (start shards memberId : Writers τ).store.contents := by
    refine ⟨[], rfl, fun r hr => absurd hr not_mem_nil, ?_, nodup_nil, fun t a => ?_⟩
    · exact hcont
    · simp
  refine ⟨hinv.congr rfl, fun mk c hc => ?_, hfed, hfed, fun t s hs => (by cases hs),
    fun t => trivial⟩
  rw [hcont] at hc
  cases hc

theorem Inv.agree {w : Writers τ} (h : w.Inv) (hidle : ∀ t, w.threads t = .idle) : w.Agree := by
  intro shards memberId clock hpos env map key
  obtain ⟨hfresh, hempty⟩ := inv_withShardsSeed hpos memberId
  have hlast : Lasting (withShardsSeed shards memberId).contents := by
    rw [hempty]
    exact fun mk c hc => by cases hc
  have hget : ∀ {s : Store}, s.Inv → Lasting s.contents → s.contents = w.store.contents →
      (s.get env map key).2 = (w.store.get env map key).2 := by
    intro s hs hl hc
    rw [(hs.get env map key).2.2, (h.store.get env map key).2.2, hl.seen, h.lasting.seen, hc]
  have hrecords : ∀ {sink : Option (List WalRecord)} {outbox : List (τ × WalRecord)}
      {due : Writer → Option WalRecord}, due .idle = none →
      Fed sink outbox (fun t => due (w.threads t)) w.store.contents →
      (∀ r ∈ (sink.getD []).zipIdx.map fun r => (clock r.2, r.1), WalRecord.Plain r.2) ∧
        ((sink.getD []).zipIdx.map fun r => (clock r.2, r.1)).map Prod.snd = sink.getD [] ∧
        w.store.contents = (sink.getD []).foldl replayCell fun _ => none := by
    rintro sink outbox due hdue ⟨records, rfl, hplain, hok⟩
    refine ⟨fun r hr => ?_, ?_, hok.eq fun t => by rw [hidle t, hdue]⟩
    · obtain ⟨x, hx, rfl⟩ := mem_map.1 hr
      exact hplain _ (fst_mem_of_mem_zipIdx hx)
    · rw [map_map]
      exact zipIdx_map_fst 0 records
  obtain ⟨hplain, hmap, hcont⟩ := hrecords rfl h.log
  obtain ⟨hplain', hmap', hcont'⟩ := hrecords rfl h.peer
  obtain ⟨hinv, hl, hc⟩ := replay_contents hfresh hlast hplain
  obtain ⟨hinv', hl', hc'⟩ := applyBatch_contents hfresh hlast hplain'
  rw [hmap, hempty, ← hcont] at hc
  rw [hmap', hempty, ← hcont'] at hc'
  rw [map_map] at hinv' hl' hc'
  exact ⟨hget hinv hl hc, hget hinv' hl' hc'⟩

variable [DecidableEq τ] {w : Writers τ} {t : τ} {state : Writer} {s : Store} {r : WalRecord}

theorem due_update (f : Writer → Option WalRecord) (threads : τ → Writer) (t : τ)
    (state : Writer) :
    (fun t' => f (update threads t state t')) =
      update (fun t' => f (threads t')) t (f state) :=
  comp_update f threads t state

theorem due_update_of_eq {f : Writer → Option WalRecord} {threads : τ → Writer} {t : τ}
    {state : Writer} (h : f state = f (threads t)) :
    (fun t' => f (update threads t state t')) = fun t' => f (threads t') := by
  rw [due_update, h]
  exact update_eq_self t _

theorem fits_update (h : ∀ t, (w.threads t).Fits) (hstate : state.Fits) (t' : τ) :
    (update w.threads t state t').Fits := by
  by_cases ht : t' = t
  · rw [ht, update_self]
    exact hstate
  · rw [update_of_ne ht]
    exact h t'

theorem Inv.goes (h : w.Inv) (hs : s.shards = w.store.shards)
    (hwal : s.walSink = w.store.walSink) (hwan : s.wanSink = w.store.wanSink)
    (hlog : state.unlogged = (w.threads t).unlogged)
    (hsent : state.unsent = (w.threads t).unsent)
    (hstamps : Stamped (update w.threads t state) s.stampSeq) (hfits : state.Fits) :
    (w.goes t state s).Inv := by
  have hcont : s.contents = w.store.contents := contents_congr hs
  refine ⟨h.store.congr hs, hcont ▸ h.lasting, ?_, ?_, hstamps, fits_update h.fits hfits⟩
  · change Fed s.walSink _ (fun t' => (update w.threads t state t').unlogged) s.contents
    rw [due_update_of_eq hlog, hwal, hcont]
    exact h.log
  · change Fed s.wanSink _ (fun t' => (update w.threads t state t').unsent) s.contents
    rw [due_update_of_eq hsent, hwan, hcont]
    exact h.peer

theorem Inv.changed (h : w.Inv) (hs : s.Inv) (hcont : s.contents = replayCell w.store.contents r)
    (hwal : s.walSink = w.store.walSink) (hwan : s.wanSink = w.store.wanSink)
    (hseq : s.stampSeq = w.store.stampSeq) (hlog : (w.threads t).unlogged = none)
    (hsent : (w.threads t).unsent = none) (hlog' : state.unlogged = some r)
    (hsent' : state.unsent = some r) (hstamp : state.stamp = (w.threads t).stamp)
    (hfits : state.Fits) : (w.changed t state s r).Inv := by
  refine ⟨hs, hcont ▸ h.lasting.replayCell r, ?_, ?_, ?_, fits_update h.fits hfits⟩
  · change Fed s.walSink _ (fun t' => (update w.threads t state t').unlogged) s.contents
    rw [hwal, hcont]
    exact h.log.apply hlog (by rw [due_update, hlog'])
  · change Fed s.wanSink _ (fun t' => (update w.threads t state t').unsent) s.contents
    rw [hwan, hcont]
    exact h.peer.apply hsent (by rw [due_update, hsent'])
  · exact h.stamps.keep (le_of_eq (congrArg (· / 2 ^ 7) hseq.symm))
      fun s hs => hstamp ▸ hs

theorem Inv.logs (h : w.Inv) {a : WalRecord} (hdue : (w.threads t).unlogged = some a)
    (hplain : WalRecord.Plain r) (hform : ∀ c, replayCell c r = replayCell c a)
    (hok : ∀ e ∈ ahead t w.unlogged, conflicts e.2 a = false)
    (hlog : state.unlogged = none) (hsent : state.unsent = (w.threads t).unsent)
    (hstamp : state.stamp = (w.threads t).stamp) (hfits : state.Fits) :
    (w.logs t state r).Inv := by
  have hcomm : ∀ e ∈ ahead t w.unlogged, Outbox.Commutes replayCell e.2 a := by
    obtain ⟨_, _, _, hok'⟩ := h.log
    exact h.stamps.commutes (fun _ _ _ _ _ _ => Writer.stamp_of_unlogged) hok'.mem hdue hok
  refine ⟨h.store.congr rfl, h.lasting, ?_, ?_, ?_, fits_update h.fits hfits⟩
  · exact h.log.publish hdue hplain hform hcomm (by rw [← hlog]; exact due_update _ _ _ _)
  · change Fed w.store.wanSink _ (fun t' => (update w.threads t state t').unsent) _
    rw [due_update_of_eq hsent]
    exact h.peer
  · exact h.stamps.keep (le_refl _) fun s hs => hstamp ▸ hs

theorem Inv.sends (h : w.Inv) {a : WalRecord} (hdue : (w.threads t).unsent = some a)
    (hplain : WalRecord.Plain r) (hform : ∀ c, replayCell c r = replayCell c a)
    (hok : ∀ e ∈ ahead t w.unsent, conflicts e.2 a = false)
    (hlog : (w.threads t).unlogged = none) : (w.sends t r).Inv := by
  have hcomm : ∀ e ∈ ahead t w.unsent, Outbox.Commutes replayCell e.2 a := by
    obtain ⟨_, _, _, hok'⟩ := h.peer
    exact h.stamps.commutes (fun _ _ _ _ _ _ => Writer.stamp_of_unsent) hok'.mem hdue hok
  refine ⟨h.store.congr rfl, h.lasting, ?_, ?_, ?_, fits_update h.fits trivial⟩
  · change Fed w.store.walSink _ (fun t' => (update w.threads t .idle t').unlogged) _
    rw [due_update_of_eq (show Writer.unlogged .idle = _ from hlog.symm)]
    exact h.log
  · exact h.peer.publish hdue hplain hform hcomm (due_update _ _ _ .idle)
  · exact h.stamps.keep (le_refl _) fun s hs => by cases hs

theorem conflicts_remove (r : WalRecord) (stamp stamp' : ℕ) (map : Str) (key : Bytes) :
    conflicts r (.mapRemove stamp map key) = conflicts r (.mapRemove stamp' map key) := by
  cases r with
  | _ => rfl

theorem Inv.step (h : w.Inv) {env : StoreEnv} (hok : w.Allows (t, .step env)) :
    (w.step t env).Inv := by
  have hfits := h.fits t
  have hmay : w.MayStep t env (w.threads t) := hok
  rw [Writers.step]
  cases hstate : w.threads t with
  | idle => exact h
  | putCalled map key val =>
    rw [hstate] at hmay hfits
    exact h.goes rfl rfl rfl (by rw [hstate]; rfl) (by rw [hstate]; rfl)
      (h.stamps.draw (clock_lt_nextStampAt w.store.memberId hmay) rfl) hfits
  | putStamped map key val stamp =>
    rw [hstate] at hmay hfits
    obtain ⟨hinv, hcont⟩ := h.store.putStamped env map key val 0 stamp hfits
    refine h.changed hinv (hcont.trans ?_) rfl rfl rfl (by rw [hstate]; rfl) (by rw [hstate]; rfl)
      rfl rfl (by rw [hstate]; rfl) hfits
    -- the stamp is above that of the entry, so a merge takes the new value too
    cases hc : w.store.contents (map, key) with
    | none => simp [replayCell, hc, mergeCell, deadline]
    | some c => simp [replayCell, hc, mergeCell, deadline, hmay c hc]
  | putApplied map key val stamp =>
    rw [hstate] at hmay hfits
    exact h.logs (by rw [hstate]; rfl) ⟨rfl, hfits⟩ (fun _ => rfl) hmay rfl (by rw [hstate]; rfl)
      (by rw [hstate]; rfl) hfits
  | putLogged map key val stamp =>
    rw [hstate] at hmay hfits
    exact h.sends (by rw [hstate]; rfl) ⟨rfl, hfits⟩ (fun _ => rfl) hmay (by rw [hstate]; rfl)
  | removeCalled map key =>
    obtain ⟨hs, -⟩ := remove_sets (h.store.shard map key) env.toEnv map key
    obtain ⟨hinv, hcont⟩ := h.store.setShard hs rfl
    exact h.changed hinv hcont rfl rfl rfl (by rw [hstate]; rfl) (by rw [hstate]; rfl) rfl rfl
      (by rw [hstate]; rfl) trivial
  | removeApplied map key =>
    rw [hstate] at hmay
    exact h.goes rfl rfl rfl (by rw [hstate]; rfl) (by rw [hstate]; rfl)
      (h.stamps.keep (le_of_lt (clock_lt_nextStampAt w.store.memberId hmay))
        fun s hs => by cases hs) trivial
  | removeStamped map key stamp =>
    rw [hstate] at hmay
    have hdue : (w.threads t).unlogged = some (.mapRemove 0 map key) := by rw [hstate]; rfl
    exact h.logs hdue trivial (fun _ => rfl)
      (fun e he => (conflicts_remove e.2 0 stamp map key).trans (hmay e he)) rfl
      (by rw [hstate]; rfl) (by rw [hstate]; rfl) trivial
  | removeLogged map key stamp =>
    rw [hstate] at hmay
    have hdue : (w.threads t).unsent = some (.mapRemove 0 map key) := by rw [hstate]; rfl
    exact h.sends hdue trivial (fun _ => rfl)
      (fun e he => (conflicts_remove e.2 0 stamp map key).trans (hmay e he)) (by rw [hstate]; rfl)

theorem Inv.exec (h : w.Inv) {e : τ × WriterEvent} (hok : w.Allows e) : (w.exec e).Inv := by
  obtain ⟨t, e⟩ := e
  cases e with
  | put map key val =>
    cases hidle : w.threads t with
    | idle =>
      simp only [Writers.exec, hidle]
      exact h.goes rfl rfl rfl (by rw [hidle]; rfl) (by rw [hidle]; rfl)
        (h.stamps.keep (le_refl _) fun s hs => by cases hs) hok
    | _ =>
      simp only [Writers.exec, hidle]
      exact h
  | remove map key =>
    cases hidle : w.threads t with
    | idle =>
      simp only [Writers.exec, hidle]
      exact h.goes rfl rfl rfl (by rw [hidle]; rfl) (by rw [hidle]; rfl)
        (h.stamps.keep (le_refl _) fun s hs => by cases hs) trivial
    | _ =>
      simp only [Writers.exec, hidle]
      exact h
  | step env => exact h.step hok

end Writers

/-- In every run whose steps are taken in order, store, log and peer agree once all calls
have returned. -/
theorem writers_agree {τ : Type} [DecidableEq τ] {shards : ℕ} (hpos : 0 < shards) (memberId : ℕ)
    (w : Writers τ) (h : Trace.Reaches Writers.exec Writers.Allows (.start shards memberId) w)
    (hidle : ∀ t, w.threads t = .idle) : w.Agree :=
  (h.invariant (fun _ _ hw hok => hw.exec hok) (Writers.inv_start hpos memberId)).agree hidle

theorem valid_shelf : Utf8.valid [115] = true := by decide

def shelf : Str := ⟨[115], valid_shelf⟩

def tick : WriterEvent := .step ⟨⟨0, 0⟩, 1000⟩

def pairOfWriters (events : List (Bool × WriterEvent)) : Writers Bool :=
  events.foldl Writers.exec (.start 1 3)

/-- Two puts of one key change the store in the order of their stamps and are logged the
other way round; then another key is removed. -/
def crossingPuts : List (Bool × WriterEvent) :=
  [(false, .put shelf [7] [1]), (true, .put shelf [7] [2]), (false, tick), (true, tick),
    (false, tick), (true, tick), (true, tick), (false, tick), (false, tick), (true, tick),
    (true, .remove shelf [8]), (true, tick), (true, tick), (true, tick), (true, tick)]

theorem writers_agree_crossing :
    ((pairOfWriters crossingPuts).store.get ⟨⟨0, 0⟩, 0⟩ shelf [7]).2 = some [2] ∧
      (pairOfWriters crossingPuts).Agree :=
  ⟨by decide +kernel, writers_agree Nat.one_pos 3 _
    (.of_allowed crossingPuts (by decide +kernel)) fun t => by cases t <;> decide +kernel⟩

def overtakenPut : List (Bool × WriterEvent) :=
  [(false, .put shelf [7] [1]), (true, .put shelf [7] [2]), (false, tick), (true, tick),
    (true, tick), (true, tick), (true, tick), (false, tick), (false, tick), (false, tick)]

def overtakenRecord : List (Bool × WriterEvent) :=
  [(false, .put shelf [7] [1]), (true, .remove shelf [7]), (false, tick), (false, tick),
    (true, tick), (true, tick), (true, tick), (true, tick), (false, tick), (false, tick)]

def Writers.values (w : Writers Bool) : List (Option Bytes) :=
  [w.store, w.recovered 1 4 fun _ => ⟨⟨0, 0⟩, 0⟩, w.peer 1 5 fun _ => ⟨⟨0, 0⟩, 0⟩].map
    fun s => (s.get ⟨⟨0, 0⟩, 0⟩ shelf [7]).2

/-- All calls have returned, and the log and the peer have another value than the store. -/
theorem writers_disagree :
    ((∀ t, (pairOfWriters overtakenPut).threads t = .idle) ∧
      (pairOfWriters overtakenPut).values = [some [1], some [2], some [2]] ∧
      ¬ (pairOfWriters overtakenPut).Agree) ∧
    (∀ t, (pairOfWriters overtakenRecord).threads t = .idle) ∧
      (pairOfWriters overtakenRecord).values = [none, some [1], some [1]] ∧
      ¬ (pairOfWriters overtakenRecord).Agree := by
  refine ⟨⟨fun t => by cases t <;> decide +kernel, by decide +kernel, fun h => ?_⟩,
    fun t => by cases t <;> decide +kernel, by decide +kernel, fun h => ?_⟩
  all_goals
    have hlog := (h 1 4 (fun _ => ⟨⟨0, 0⟩, 0⟩) Nat.one_pos ⟨⟨0, 0⟩, 0⟩ shelf [7]).1
    revert hlog
    decide +kernel

end BonsaiGrid.Wan
