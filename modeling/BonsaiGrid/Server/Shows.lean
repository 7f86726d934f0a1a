import BonsaiGrid.Server.Dispatch

/-!
# Requests to the store of shards

The handlers run over any store that has the calls of `StoreOps`. What is proved of them elsewhere
is proved over `Shown`, where a map is a dictionary; here the dispatch is run side by side over the
store of shards and over the dictionaries that it shows, and both give the same replies and stay in
step.

The listing of a map has an order, which in a store of shards is that of its slots. A request lists
before it writes, if it does both, so it is enough that the dictionaries are in that order when it
arrives; there always are such dictionaries. The counter of a map also counts entries that have
expired and have not been met since, so that the requests for a size are left out while there are
any.
-/

namespace BonsaiGrid.Server

open Fault Protocol Security Store

/-! ## What fits -/

/-- A key and a value that a record of the slab has room for. -/
def FitsRecord (key val : Bytes) : Prop := key.length + val.length < 2 ^ 32

/-- What the call writes fits a record, its deadline does not wrap, and where it asks for the size
of the map nothing there has expired. -/
def MapCall.Fits (env : StoreEnv) (s : Store) (map : Str) : MapCall → Prop
  | put key value ttlMs _ | putIfAbsent key value ttlMs =>
    FitsRecord key value ∧ (0 < ttlMs → env.now + ttlMs < 2 ^ 64)
  | replace key value => FitsRecord key value
  | putAll entries => ∀ x ∈ entries, FitsRecord x.1 x.2
  | size | isEmpty => ∀ key c, s.contents (map, key) = some c → c.live env.now = true
  | _ => True

def Mutation.Fits : Mutation → Prop
  | put _ key value => FitsRecord key value
  | remove _ _ => True

def Request.Fits {e : Engine} (env : StoreEnv) (s : State e Store) : Request → Prop
  | .map name c => c.Fits env s.store name
  | .commit txn => ∀ x ∈ s.txns.mutations txn, x.Fits
  | .sql text => ∀ map rows m, e.parse text = .ok (some (.insert map rows)) →
      s.catalog.lookup map = some m → ∀ x ∈ rows.filterMap (e.insertEntry m), FitsRecord x.1 x.2
  | _ => True

/-! ## The calls of a request -/

section Calls

variable {env : StoreEnv} {s : Store} {t : Shown} {map : Str}

theorem putAll_shows (h : Shows env.now s t) {entries : Entries}
    (hfit : ∀ x ∈ entries, FitsRecord x.1 x.2) :
    Shows env.now ((Store.ops env).putAll s map entries) (Shown.ops.putAll t map entries) := by
  rw [StoreOps.putAll, StoreOps.putAll]
  induction entries generalizing s t with
  | nil => exact h
  | cons x entries ih =>
    rw [List.forall_mem_cons] at hfit
    exact ih (h.putTtl map hfit.1 fun hpos => absurd hpos (Nat.lt_irrefl 0)).1 hfit.2

theorem getAll_shows (map : Str) (h : Shows env.now s t) (keys : List Bytes) :
    Shows env.now ((Store.ops env).getAll s map keys).1 (Shown.ops.getAll t map keys).1 ∧
      ((Store.ops env).getAll s map keys).2 = (Shown.ops.getAll t map keys).2 := by
  induction keys generalizing s t with
  | nil => exact ⟨h, rfl⟩
  | cons key keys ih =>
    obtain ⟨hget, hval⟩ := h.get map key
    obtain ⟨hrest, hvals⟩ := ih hget
    refine ⟨hrest, ?_⟩
    rw [StoreOps.getAll, StoreOps.getAll]
    dsimp only
    rw [hval, hvals]
    rfl

theorem commit_shows (h : Shows env.now s t) {mutations : List Mutation}
    (hfit : ∀ x ∈ mutations, x.Fits) :
    Shows env.now (mutations.foldl (Mutation.apply (Store.ops env)) s)
      (mutations.foldl (Mutation.apply Shown.ops) t) := by
  induction mutations generalizing s t with
  | nil => exact h
  | cons x mutations ih =>
    rw [List.forall_mem_cons] at hfit
    refine ih ?_ hfit.2
    cases x with
    | put map key value =>
      exact (h.putTtl map hfit.1 fun hpos => absurd hpos (Nat.lt_irrefl 0)).1
    | remove map key => exact (h.remove map key).1

variable (e : Engine) (schemas : Dict ℤ e.Schema)

theorem matching_lists (h : Lists env s t) (predicate : Option Bytes) :
    matching e (Store.ops env) schemas s map predicate =
      matching e Shown.ops schemas t map predicate := by
  cases predicate with
  | none => rw [matching, matching, h.entries]
  | some predicate => rw [matching, matching, h.entries]

/-- In step, with the same reply. -/
def InStep {α : Type} (env : StoreEnv) (x : Store × α) (y : Shown × α) : Prop :=
  Shows env.now x.1 y.1 ∧ x.2 = y.2

theorem MapCall.run_shows (h : Lists env s t) {c : MapCall} (hfit : c.Fits env s map) :
    Agree (InStep env) (c.run e (Store.ops env) schemas s map)
      (c.run e Shown.ops schemas t map) := by
  have hs := h.toShows
  cases c with
  | put key value ttlMs old =>
    obtain ⟨hput, hret⟩ := hs.putTtl map hfit.1 hfit.2
    exact .ok ⟨hput, congrArg (fun v => old.reply e v) hret⟩
  | putIfAbsent key value ttlMs =>
    obtain ⟨hput, hret⟩ := hs.putIfAbsent map hfit.1 hfit.2
    exact .ok ⟨hput, congrArg Reply.data hret⟩
  | replace key value =>
    obtain ⟨hput, hret⟩ := hs.replace map hfit
    exact .ok ⟨hput, congrArg Reply.data hret⟩
  | putAll entries => exact .ok ⟨putAll_shows hs hfit, rfl⟩
  | remove key old =>
    obtain ⟨hrem, hret⟩ := hs.remove map key
    exact .ok ⟨hrem, congrArg (fun v => old.reply e v) hret⟩
  | removeIf key expected =>
    cases expected with
    | none =>
      obtain ⟨hrem, hret⟩ := hs.remove map key
      exact .ok ⟨hrem, congrArg (fun v : Option Bytes => Reply.flag v.isSome) hret⟩
    | some expected =>
      obtain ⟨hget, hret⟩ := hs.get map key
      rw [MapCall.run, MapCall.run, hret]
      split
      · exact .ok ⟨(hget.remove map key).1, rfl⟩
      · exact .ok ⟨hget, rfl⟩
  | clear => exact .ok ⟨hs.clear, rfl⟩
  | get key =>
    obtain ⟨hget, hret⟩ := hs.get map key
    exact .ok ⟨hget, congrArg Reply.data hret⟩
  | getAll keys =>
    obtain ⟨hget, hret⟩ := getAll_shows map hs keys
    exact .ok ⟨hget, congrArg Reply.entryList hret⟩
  | containsKey key =>
    obtain ⟨hget, hret⟩ := hs.containsKey map key
    exact .ok ⟨hget, congrArg Reply.flag hret⟩
  | containsValue value => exact .ok ⟨hs, congrArg Reply.flag hs.containsValue⟩
  | size => exact .ok ⟨hs, congrArg Reply.int (hs.size hfit)⟩
  | isEmpty =>
    refine .ok ⟨hs, congrArg Reply.flag ?_⟩
    rw [StoreOps.isEmpty, StoreOps.isEmpty, hs.size hfit]
  | list part predicate =>
    rw [MapCall.run, MapCall.run, matching_lists e schemas h]
    exact Agree.bind_same fun entries _ => .ok ⟨hs, rfl⟩
  | project projection predicate =>
    rw [MapCall.run, MapCall.run]
    refine Agree.bind_same fun found _ => ?_
    cases found with
    | none => exact .ok ⟨hs, rfl⟩
    | some found =>
      dsimp only
      rw [matching_lists e schemas h]
      exact Agree.bind_same fun entries _ => Agree.bind_same fun items _ => .ok ⟨hs, rfl⟩
  | aggregate aggregator predicate =>
    rw [MapCall.run, MapCall.run]
    refine Agree.bind_same fun found _ => ?_
    cases found with
    | none => exact .ok ⟨hs, rfl⟩
    | some found =>
      dsimp only
      rw [matching_lists e schemas h]
      exact Agree.bind_same fun entries _ => Agree.bind_same fun value _ => .ok ⟨hs, rfl⟩
  | executeOnKey => exact .ok ⟨hs, rfl⟩

end Calls

/-! ## Requests -/

/-- The state with the dictionaries in the place of the store. -/
def State.shown {e : Engine} (s : State e Store) (t : Shown) : State e Shown where
  store := t
  schemas := s.schemas
  txns := s.txns
  catalog := s.catalog
  cluster := s.cluster
  rest := s.rest

section Requests

variable {e : Engine} {env : StoreEnv} {s : State e Store} {t : Shown}

/-- Nothing but the store differs, and the stores are in step. -/
def SameState {α : Type} (env : StoreEnv) (x : State e Store × α) (y : State e Shown × α) : Prop :=
  ∃ t, Shows env.now x.1.store t ∧ y = (x.1.shown t, x.2)

theorem selectRows_lists (h : Lists env s.store t) (map : Str) (star : Bool) (sel : e.Select) :
    selectRows e (Store.ops env) s map star sel =
      selectRows e Shown.ops (s.shown t) map star sel := by
  rw [selectRows, selectRows, State.shown, h.entries]

theorem joinedRows_lists (h : Lists env s.store t) (map right : Str) (sel : e.Select) :
    joinedRows e (Store.ops env) s map right sel =
      joinedRows e Shown.ops (s.shown t) map right sel := by
  rw [joinedRows, joinedRows, State.shown, h.entries, h.entries]

theorem Statement.run_shows (h : Lists env s.store t)
    {st : Statement e.Select e.Mapping e.Row e.Job}
    (hfit : ∀ map rows m, st = .insert map rows → s.catalog.lookup map = some m →
      ∀ x ∈ rows.filterMap (e.insertEntry m), FitsRecord x.1 x.2) :
    Agree (SameState env) (st.run e (Store.ops env) s) (st.run e Shown.ops (s.shown t)) := by
  have hs := h.toShows
  cases st with
  | select map join star sel =>
    cases join with
    | some right =>
      rw [Statement.run, Statement.run, joinedRows_lists h]
      exact Agree.bind_same fun table _ => .ok ⟨t, hs, rfl⟩
    | none =>
      rw [Statement.run, Statement.run, selectRows_lists h]
      exact Agree.bind_same fun table _ => .ok ⟨t, hs, rfl⟩
  | createMapping name mapping => exact .ok ⟨t, hs, rfl⟩
  | insert map rows =>
    rw [Statement.run, Statement.run, show (s.shown t).catalog = s.catalog from rfl]
    cases hm : s.catalog.lookup map with
    | none => exact .ok ⟨t, hs, rfl⟩
    | some m => exact .ok ⟨_, putAll_shows hs (hfit map rows m rfl hm), rfl⟩
  | createJob job => exact .ok ⟨t, hs, rfl⟩

theorem tryFastGet_shows (h : Lists env s.store t) (p : Principal) (msg : Bytes) :
    Agree (fun x y => (x = none ∧ y = none) ∨ ∃ a b, x = some a ∧ y = some b ∧ InStep env a b)
      (tryFastGet e (Store.ops env) s.store p msg) (tryFastGet e Shown.ops t p msg) := by
  refine Agree.bind_same fun found _ => ?_
  cases found with
  | none => exact .ok (.inl ⟨rfl, rfl⟩)
  | some found =>
    obtain ⟨hget, hret⟩ := h.toShows.get found.1 found.2
    exact .ok (.inr ⟨_, _, rfl, rfl, hget, congrArg Reply.data hret⟩)

variable [Pbkdf2] (cfg : Cfg)

/-- A request over the store of shards and over the dictionaries that it shows: the same replies,
or the same fault, and the stores are in step again. -/
theorem Request.run_shows (h : Lists env s.store t) {r : Request} (hfit : r.Fits env s) :
    Agree (SameState env) (r.run e (Store.ops env) s cfg) (r.run e Shown.ops (s.shown t) cfg) := by
  have hs := h.toShows
  cases r with
  | map name c =>
    refine (c.run_shows e s.schemas h hfit).bind fun x y hxy => .ok ⟨y.1, hxy.1, ?_⟩
    rw [hxy.2]
    rfl
  | call c =>
    obtain ⟨hcall, hret⟩ := hs.call c
    refine .ok ⟨_, hcall, ?_⟩
    rw [hret]
    rfl
  | ask q =>
    refine .ok ⟨t, hs, ?_⟩
    rw [show (Shown.ops.ask (s.shown t).store q) = (Store.ops env).ask s.store q from
      congrArg (fun a => Structures.ask a q) hs.structures]
  | commit txn => exact .ok ⟨_, commit_shows hs hfit, rfl⟩
  | transactionalPut txn name key value =>
    obtain ⟨hget, hret⟩ := hs.get name key
    refine .ok ⟨_, hget, ?_⟩
    rw [hret]
    rfl
  | sql text =>
    refine Agree.bind_same fun statement hparse => ?_
    cases statement with
    | none => exact .ok ⟨t, hs, rfl⟩
    | some st =>
      refine st.run_shows h fun map rows m heq hm => ?_
      exact hfit map rows m (by rw [hparse, heq]) hm
  | sendSchema frames => exact Agree.bind_same fun schema _ => .ok ⟨t, hs, rfl⟩
  | authentication req => exact Agree.bind_same fun reply _ => .ok ⟨t, hs, rfl⟩
  | service c => exact Agree.bind_same fun x _ => .ok ⟨t, hs, rfl⟩
  | replicaCount | createTransaction | rollback | sqlClose | sqlFetch | fetchSchema | clusterView
  | registration | ack => exact .ok ⟨t, hs, rfl⟩

theorem dispatch_shows (h : Lists env s.store t) {req : List Frame}
    (hfit : ∀ corr type r, Admits s.cluster req corr type r → r.Fits env s) :
    Agree (SameState env) (dispatch e (Store.ops env) s cfg req)
      (dispatch e Shown.ops (s.shown t) cfg req) := by
  rw [dispatch, dispatch, show (s.shown t).cluster = s.cluster from rfl]
  refine Agree.bind_same fun corr hcorr => Agree.bind_same fun type htype => ?_
  split
  next => exact .ok ⟨t, h.toShows, rfl⟩
  next hgate =>
    refine Agree.bind_same fun r hr => Request.run_shows cfg h (hfit corr type r ?_)
    exact ⟨hcorr, htype, fun hgated => by simpa [hgated] using hgate, hr⟩

/-- **The dispatch of a message over the store of shards is the one over dictionaries.** For every
store in order there are dictionaries over which every message that fits, of any principal, gets the
same replies, or stops the thread with the same fault, and leaves the two in step. -/
theorem dispatchBytes_shows (hinv : s.store.Inv) (env : StoreEnv) :
    ∃ t, Lists env s.store t ∧ ∀ (peerCert : Option Bytes) (p : Principal) (msg : Bytes),
      (∀ frames rest, readMessage msg = .ok (some (frames, rest)) →
        ∀ corr type r, Admits s.cluster frames corr type r → r.Fits env s) →
      Agree (SameState env) (dispatchBytes e (Store.ops env) cfg peerCert s p msg)
        (dispatchBytes e Shown.ops cfg peerCert (s.shown t) p msg) := by
  obtain ⟨t, h⟩ := hinv.exists_lists env
  refine ⟨t, h, fun peerCert p msg hfit => ?_⟩
  rw [dispatchBytes, dispatchBytes]
  refine Agree.bind_same fun p' _ => (tryFastGet_shows h p' msg).bind fun x y hxy => ?_
  rcases hxy with ⟨rfl, rfl⟩ | ⟨a, b, rfl, rfl, hab⟩
  · refine Agree.bind_same fun read hread => ?_
    rcases read with _ | ⟨frames, rest⟩
    · exact .ok ⟨t, h.toShows, rfl⟩
    · refine Agree.bind_same fun denied _ => ?_
      cases denied with
      | some denied => exact .ok ⟨t, h.toShows, rfl⟩
      | none =>
        refine (dispatch_shows cfg h (hfit frames rest hread)).bind fun x y hxy => ?_
        obtain ⟨t', ht', rfl⟩ := hxy
        exact .ok ⟨t', ht', rfl⟩
  · refine .ok ⟨b.1, hab.1, ?_⟩
    rw [← hab.2]
    rfl

end Requests

end BonsaiGrid.Server
