import BonsaiGrid.Server.Authorization
import BonsaiGrid.Server.Text

/-!
# Near caches

A client that keeps entries of a map in a near cache registers for the invalidations of the map.
The handler of a request queues them once the entry has changed.
-/

namespace BonsaiGrid.Server

open Fault Protocol Security Store Shown List AList

abbrev ConnId := ℕ

/-- `TopicSub`: a registration, with the correlation id that its events carry. -/
structure TopicSub where
  conn : ConnId
  corr : ℤ
deriving DecidableEq, Repr

/-- An invalidation of a key, as it is encoded for a registration. -/
structure Invalidation where
  corr : ℤ
  key : Bytes
deriving DecidableEq, Repr

structure EventBroker where
  nearCaches : Dict Str (List TopicSub) := ∅
  queues : Dict ConnId (List Invalidation) := ∅

namespace EventBroker

variable (b : EventBroker)

def subs (map : Str) : List TopicSub := (b.nearCaches.lookup map).getD []

def queue (conn : ConnId) : List Invalidation := (b.queues.lookup conn).getD []

def registerNearCache (map : Str) (conn : ConnId) (corr : ℤ) : EventBroker :=
  { b with nearCaches := b.nearCaches.insert map (b.subs map ++ [⟨conn, corr⟩]) }

def hasNearCache (map : Str) : Bool := ! (b.subs map).isEmpty

def push (queues : Dict ConnId (List Invalidation)) (conn : ConnId) (event : Invalidation) :
    Dict ConnId (List Invalidation) :=
  queues.insert conn ((queues.lookup conn).getD [] ++ [event])

def invalidate (map : Str) (key : Bytes) : EventBroker :=
  { b with
    queues := (b.subs map).foldl
      (fun queues s => push queues s.conn ⟨s.corr, key⟩) b.queues }

def drain (conn : ConnId) : EventBroker :=
  { b with queues := b.queues.erase conn }

def dropConn (conn : ConnId) : EventBroker :=
  { b with
    queues := b.queues.erase conn
    nearCaches := Dict.mapVal (fun subs => subs.filter fun s => s.conn ≠ conn) b.nearCaches }

end EventBroker

inductive ClientRequest
  /-- a message of the binary protocol that the principal may send -/
  | message (req : List Frame)
  | memcache (cmd : Bytes) (nowUnix : ℕ)
  | resp (cmd : Bytes)

inductive ClientReply (e : Engine)
  | message (replies : List (Reply e))
  | text (out : Bytes) (close : Bool)

/-- The member: what the requests act on, the broker, and the counter of the memcached versions. -/
structure NearServer (e : Engine) (σ : Type) where
  state : State e σ
  broker : EventBroker
  cas : ℕ := 0

inductive NearEvent
  | request (conn : ConnId) (r : ClientRequest)
  | drain (conn : ConnId)
  | dropConn (conn : ConnId)

section Serve

variable {σ : Type} {e : Engine} (ops : StoreOps σ)

/-- What the arm of a message type does with the broker, where `s` is the store before the
request. -/
def notify (s : σ) (b : EventBroker) (conn : ConnId) (corr type : ℤ) : Request → EventBroker
  | .map name (.put key _ _ _) =>
    if (type = 65792 ∨ type = 69376) ∧ b.hasNearCache name then b.invalidate name key else b
  | .map name (.remove key _) =>
    if (type = 66304 ∨ type = 67840) ∧ (ops.remove s name key).2.isSome ∧
        b.hasNearCache name then
      b.invalidate name key
    else b
  | .service (.registerNearCache map) => b.registerNearCache map conn corr
  | _ => b

variable [Pbkdf2] (cfg : Cfg)

def dispatchNotify (s : State e σ) (b : EventBroker) (conn : ConnId) (req : List Frame) :
    Except Fault (State e σ × EventBroker × List (Reply e)) :=
  dispatchTo s.cluster req (s, b, [noQuorum e]) fun corr type request => do
    let r ← request.run e ops s cfg
    return (r.1, notify ops s.store b conn corr type request, r.2)

variable [Resp.Allocator] (version : String)

namespace NearServer

def serve (w : NearServer e σ) (conn : ConnId) :
    ClientRequest → Except Fault (NearServer e σ × ClientReply e)
  | .message req => do
      let r ← dispatchNotify ops cfg w.state w.broker conn req
      return ({ w with state := r.1, broker := r.2.1 }, .message r.2.2)
  | .memcache cmd nowUnix => do
      let command ← Memcache.parse cmd
      let r := Memcache.execute ops w.state.store w.cas nowUnix version command
      return ({ w with state := { w.state with store := r.store }, cas := r.cas },
        .text r.out r.close)
  | .resp cmd => do
      let r ← Resp.handle ops w.state.store cmd
      return ({ w with state := { w.state with store := r.1 } }, .text r.2.1 r.2.2)

def exec (w : NearServer e σ) : NearEvent → NearServer e σ
  | .request conn r =>
    match w.serve ops cfg version conn r with
    | .ok (w', _) => w'
    | .error _ => w
  | .drain conn => { w with broker := w.broker.drain conn }
  | .dropConn conn => { w with broker := w.broker.dropConn conn }

end NearServer

end Serve

/-! ## The broker -/

namespace EventBroker

variable {b : EventBroker} {map m : Str} {conn c : ConnId} {corr : ℤ} {key : Bytes} {s : TopicSub}

theorem queue_push (queues : Dict ConnId (List Invalidation)) (event : Invalidation) :
    ((push queues conn event).lookup c).getD [] =
      (queues.lookup c).getD [] ++ if conn = c then [event] else [] := by
  by_cases hc : conn = c
  · subst hc
    rw [push, lookup_insert, if_pos rfl, Option.getD_some]
  · rw [push, lookup_insert_ne (Ne.symm hc), if_neg hc, append_nil]

theorem queue_invalidate : (b.invalidate map key).queue c = b.queue c ++
    ((b.subs map).filter fun s => s.conn = c).map fun s =>
      ⟨s.corr, key⟩ := by
  rw [queue, queue, invalidate]
  generalize b.queues = queues
  induction b.subs map generalizing queues with
  | nil => simp
  | cons s subs ih =>
    rw [foldl_cons, ih, queue_push]
    by_cases hs : s.conn = c
    · simp [hs]
    · simp [hs]

theorem hasNearCache_of_mem (h : s ∈ b.subs map) : b.hasNearCache map = true := by
  rw [hasNearCache, Bool.not_eq_true', isEmpty_eq_false_iff]
  exact ne_nil_of_mem h

theorem mem_subs_registerNearCache :
    s ∈ (b.registerNearCache map conn corr).subs m ↔
      s ∈ b.subs m ∨ m = map ∧ s = ⟨conn, corr⟩ := by
  by_cases hm : m = map
  · subst hm
    simp [registerNearCache, subs, lookup_insert]
  · simp [registerNearCache, subs, lookup_insert_ne hm, hm]

theorem mem_subs_dropConn : s ∈ (b.dropConn conn).subs m ↔ s ∈ b.subs m ∧ s.conn ≠ conn := by
  rw [subs, subs, dropConn, Dict.lookup_mapVal]
  cases b.nearCaches.lookup m with
  | none | some subs => simp

theorem subset_subs_notify {σ : Type} {ops : StoreOps σ} {t : σ} {type : ℤ} {r : Request}
    (h : s ∈ b.subs m) : s ∈ (notify ops t b conn corr type r).subs m := by
  fun_cases notify ops t b conn corr type r with
  | case1 | case2 | case3 | case4 => exact h
  | case5 => exact mem_subs_registerNearCache.mpr (.inl h)
  | case6 => exact h

end EventBroker

/-! ## Requests -/

namespace NearServer

variable {e : Engine} {w w' : NearServer e Shown} {conn c : ConnId} {corr : ℤ} {map : Str}
  {key : Bytes} {r : ClientRequest} {reply : ClientReply e}

def value (w : NearServer e Shown) (map : Str) (key : Bytes) : Option Bytes :=
  (w.state.store.maps map).lookup key

/-- The connection has registered for the map, and its events carry `corr`. -/
def Registered (w : NearServer e Shown) (map : Str) (conn : ConnId) (corr : ℤ) : Prop :=
  ⟨conn, corr⟩ ∈ w.broker.subs map

/-- The request is a put, a set, a remove or a delete, or it does not put or remove in a map that has
registrations. -/
def Announces [Resp.Allocator] (w : NearServer e Shown) : ClientRequest → Prop
  | .message req => ∀ type r, msgType req = .ok type → decode req type = .ok r →
      (type = 65792 ∨ type = 69376) ∨ (type = 66304 ∨ type = 67840) ∨
        ∀ m, w.broker.hasNearCache m →
          (m, .put) ∉ r.accesses e w.state ∧ (m, .remove) ∉ r.accesses e w.state
  | .memcache cmd _ => ∀ command, Memcache.parse cmd = .ok command → command.writes →
      w.broker.hasNearCache Memcache.mapName = false
  | .resp cmd => ∀ args, Resp.parse cmd = .ok (some args) → Resp.writes args →
      w.broker.hasNearCache Resp.mapName = false

def Told (w w' : NearServer e Shown) (conn : ConnId) (corr : ℤ) (key : Bytes) : Prop :=
  ∃ events, w'.broker.queue conn = w.broker.queue conn ++ events ∧
    ∃ x ∈ events, x.key = key ∧ x.corr = corr

theorem told_invalidate (hreg : w.Registered map c corr)
    (hbroker : w'.broker = w.broker.invalidate map key) : Told w w' c corr key := by
  refine ⟨_, by rw [hbroker, EventBroker.queue_invalidate], _, mem_map_of_mem
    (mem_filter.mpr ⟨hreg, decide_eq_true rfl⟩), rfl, rfl⟩

section Served

variable [Pbkdf2] [Resp.Allocator] {cfg : Cfg} {version : String} {req : List Frame}

theorem of_serve_message (h : w.serve ops cfg version conn (.message req) = .ok (w', reply)) :
    (w' = w ∧ ∃ type, msgType req = .ok type ∧ isQuorumGatedWrite type) ∨
      ∃ corr type r replies, correlationId req = .ok corr ∧ msgType req = .ok type ∧
      decode req type = .ok r ∧ r.run e ops w.state cfg = .ok (w'.state, replies) ∧
      w'.broker = notify ops w.state.store w.broker conn corr type r := by
  obtain ⟨⟨s', b', replies⟩, hdispatch, h⟩ := bind_eq_ok.mp h
  cases h
  rcases dispatchTo_eq_ok hdispatch with ⟨heq, htype⟩ | ⟨corr, type, r, hadmits, harm⟩
  · cases heq
    exact .inl ⟨rfl, htype⟩
  · obtain ⟨⟨s'', replies'⟩, hrun, harm⟩ := bind_eq_ok.mp harm
    cases harm
    exact .inr ⟨corr, type, r, _, hadmits.correlated, hadmits.typed, hadmits.decoded, hrun, rfl⟩

theorem told_of_message (hann : w.Announces (.message req))
    (h : w.serve ops cfg version conn (.message req) = .ok (w', reply))
    (hchange : w'.value map key ≠ w.value map key) (hreg : w.Registered map c corr) :
    Told w w' c corr key := by
  have hhas := EventBroker.hasNearCache_of_mem hreg
  rcases of_serve_message h with ⟨rfl, -⟩ | ⟨corr', type, r, replies, -, htype, hr, hrun, hbroker⟩
  · exact absurd rfl hchange
  · rcases hann type r htype hr with hput | hremove | hother
    · obtain ⟨name, k, v, ttlMs, old, rfl, -, -⟩ := decode_mapPut hput hr
      obtain ⟨⟨t, out⟩, hcall, hrun⟩ := bind_eq_ok.mp hrun
      cases hcall
      have hstate := congrArg (fun p => p.1.store) (Except.ok.inj hrun)
      rw [value, ← hstate] at hchange
      obtain ⟨rfl, rfl, -⟩ := lookup_setMap (fun _ => lookup_insert_ne) hchange
      exact told_invalidate hreg (hbroker.trans (if_pos ⟨hput, hhas⟩))
    · obtain ⟨name, k, old, rfl⟩ := decode_mapRemove hremove hr
      obtain ⟨⟨t, out⟩, hcall, hrun⟩ := bind_eq_ok.mp hrun
      cases hcall
      have hstate := congrArg (fun p => p.1.store) (Except.ok.inj hrun)
      rw [value, ← hstate] at hchange
      obtain ⟨rfl, rfl, hgone⟩ := lookup_setMap (fun _ => lookup_erase_ne) hchange
      have hthere : ((w.state.store.maps map).lookup key).isSome := by
        rw [Option.isSome_iff_ne_none]
        exact fun hnone => hchange ((hgone.trans (lookup_erase _ _)).trans hnone.symm)
      exact told_invalidate hreg (hbroker.trans (if_pos ⟨hremove, hthere, hhas⟩))
    · obtain ⟨hput, hremove⟩ := hother map hhas
      exact absurd (Request.lookup_eq hrun hput hremove key) hchange

theorem told_of_change (hann : w.Announces r)
    (h : w.serve ops cfg version conn r = .ok (w', reply))
    (hchange : w'.value map key ≠ w.value map key) (hreg : w.Registered map c corr) :
    Told w w' c corr key := by
  have hhas := EventBroker.hasNearCache_of_mem hreg
  cases r with
  | message req => exact told_of_message hann h hchange hreg
  | memcache cmd nowUnix =>
    obtain ⟨command, hparse, h⟩ := bind_eq_ok.mp h
    cases h
    refine absurd ?_ hchange
    rw [value, value]
    by_cases hwrites : command.writes
    · have hne : map ≠ Memcache.mapName := by
        rintro rfl
        rw [hann command hparse hwrites] at hhas
        cases hhas
      rw [Memcache.maps_execute hne]
    · rw [Memcache.store_execute_of_not_writes (Bool.eq_false_iff.mpr hwrites)]
  | resp cmd =>
    obtain ⟨x, hx, h⟩ := bind_eq_ok.mp h
    cases h
    refine absurd ?_ hchange
    rw [value, value]
    obtain ⟨parsed, hparse, hx⟩ := bind_eq_ok.mp hx
    cases parsed with
    | none =>
      cases hx
      rfl
    | some args =>
      cases hx
      by_cases hwrites : Resp.writes args
      · have hne : map ≠ Resp.mapName := by
          rintro rfl
          rw [hann args hparse hwrites] at hhas
          cases hhas
        rw [Resp.maps_execute hne]
      · rw [Resp.store_execute_of_not_writes (Bool.eq_false_iff.mpr hwrites)]

/-! ## Registrations -/

theorem Registered.exec (h : w.Registered map c corr) {ev : NearEvent} (hev : ev ≠ .dropConn c) :
    (w.exec ops cfg version ev).Registered map c corr := by
  cases ev with
  | request conn r =>
    rw [NearServer.exec]
    split
    next w' reply hserve =>
      cases r with
      | message req =>
        rcases of_serve_message hserve with ⟨rfl, -⟩ | ⟨_, _, _, _, -, -, -, -, hbroker⟩
        · exact h
        · rw [Registered, hbroker]
          exact EventBroker.subset_subs_notify h
      | memcache cmd nowUnix =>
        obtain ⟨command, -, hserve⟩ := bind_eq_ok.mp hserve
        cases hserve
        exact h
      | resp cmd =>
        obtain ⟨x, -, hserve⟩ := bind_eq_ok.mp hserve
        cases hserve
        exact h
    next => exact h
  | drain conn => exact h
  | dropConn conn =>
    exact EventBroker.mem_subs_dropConn.mpr ⟨h, fun heq => hev (by rw [← heq])⟩

structure Registers (cfg : Cfg) (version : String) (w : NearServer e Shown) (req : List Frame)
    (conn : ConnId) (map : Str) (corr : ℤ) (w' : NearServer e Shown) : Prop where
  type : msgType req = .ok 81664
  corr : correlationId req = .ok corr
  name : decodeName req = .ok map
  served : ∃ reply, w.serve ops cfg version conn (.message req) = .ok (w', reply)

theorem Registers.registered (h : Registers cfg version w req c map corr w') :
    w'.Registered map c corr := by
  obtain ⟨htype, hcorr, hname, reply, hserved⟩ := h
  rcases of_serve_message hserved with ⟨-, type, htype', hgated⟩ |
    ⟨corr', type, r, replies, hcorr', htype', hr, -, hbroker⟩
  · rw [htype] at htype'
    cases htype'
    cases hgated
  · rw [htype] at htype'
    cases htype'
    rw [hcorr] at hcorr'
    cases hcorr'
    have hdecode : decode req 81664 = .ok (.service (.registerNearCache map)) := by
      rw [decode, show Op.ofCode 81664 = some (.service .addNearCacheInvalidationListener) from
        by decide]
      simp only [Op.decode, ServiceOp.decode, hname, ok_bind]
      rfl
    rw [hdecode] at hr
    cases hr
    rw [Registered, hbroker]
    exact EventBroker.mem_subs_registerNearCache.mpr (.inr ⟨rfl, rfl⟩)

/-- The near caches of a member. A connection registers for a map and stays; then, in every
run, each request that meets the condition and changes or removes the value of a key of
the map queues an invalidation of this key for the connection. -/
theorem near_caches_invalidated {w₀ w₁ : NearServer e Shown} {req : List Frame}
    (hreg : Registers cfg version w₀ req c map corr w₁)
    (hrun : Trace.Reaches (NearServer.exec ops cfg version) (fun _ ev => ev ≠ .dropConn c)
      w₁ w)
    (hann : w.Announces r) (hserve : w.serve ops cfg version conn r = .ok (w', reply))
    (hchange : w'.value map key ≠ w.value map key) : Told w w' c corr key := by
  have hregistered : w.Registered map c corr :=
    hrun.invariant (I := fun w => w.Registered map c corr) (fun _ _ h hev => h.exec hev)
      hreg.registered
  exact told_of_change hann hserve hchange hregistered

theorem exists_serve (h : (w.serve ops cfg version conn r).isOk = true) :
    ∃ reply, w.serve ops cfg version conn r =
      .ok (w.exec ops cfg version (.request conn r), reply) := by
  rw [exec]
  cases hserve : w.serve ops cfg version conn r with
  | error f =>
    rw [hserve] at h
    cases h
  | ok x => exact ⟨x.2, rfl⟩

end Served

/-! ## A member with a near cache -/

def framesOf (type : ℕ) (fixed : Bytes) (contents : List Bytes) : List Frame :=
  ⟨unfragmented, writeI32Le type ++ replicate 12 0 ++ fixed⟩ ::
    contents.map fun content => ⟨0, content⟩

abbrev gigabyte : Resp.Allocator := .upTo (2 ^ 30)

def after (w : NearServer idle Shown) (conn : ConnId) (r : ClientRequest) :
    NearServer idle Shown :=
  @exec Shown idle ops noHash secured gigabyte "0" w (.request conn r)

def unregistered : NearServer idle Shown := { state := oneEntry, broker := {} }

def register : List Frame := framesOf 81664 [] [mapName.bytes]

def watched : NearServer idle Shown := unregistered.after 5 (.message register)

def setFrames : List Frame := framesOf 69376 (replicate 16 0) [mapName.bytes, [1], [11]]

theorem near_caches_invalidated_set :
    (watched.after 9 (.message setFrames)).value mapName [1] = some [11] ∧
      watched.value mapName [1] = some [10] ∧
      Told watched (watched.after 9 (.message setFrames)) 5 0 [1] := by
  have hregisters :
      @Registers idle noHash gigabyte secured "0" unregistered register 5 mapName 0 watched :=
    @Registers.mk idle noHash gigabyte secured "0" unregistered register 5 mapName 0 watched
      (by decide +kernel) (by decide +kernel) (by decide +kernel)
      (@exists_serve idle unregistered 5 _ noHash gigabyte secured "0" (by decide +kernel))
  have hannounces : @Announces idle gigabyte watched (.message setFrames) := by
    intro type r htype hr
    cases htype
    exact .inl (.inr rfl)
  obtain ⟨reply, hserve⟩ := @exists_serve idle watched 9 (.message setFrames) noHash gigabyte
    secured "0" (by decide +kernel)
  refine ⟨by decide +kernel, by decide +kernel, ?_⟩
  exact @near_caches_invalidated idle watched _ 9 5 0 mapName [1] _ reply noHash gigabyte secured
    "0" unregistered watched register hregisters .refl hannounces hserve (by decide +kernel)

/-- The request changes a value of the map, and nothing is queued for the near cache. -/
def Missed (key : Bytes) (r : ClientRequest) : Prop :=
  (watched.after 9 r).value mapName key ≠ watched.value mapName key ∧
    (watched.after 9 r).broker.queue 5 = []

instance (key : Bytes) (r : ClientRequest) : Decidable (Missed key r) :=
  inferInstanceAs (Decidable (_ ∧ _))

/-- A `MapPutIfAbsent`, a `MapReplace`, a `MapClear`, a `MapPutAll`, a cache put and the commit of a
transaction change the map, and the near cache is not told. -/
theorem near_caches_missed :
    Missed [2] (.message (framesOf 69120 (List.replicate 16 0) [mapName.bytes, [2], [20]])) ∧
    Missed [1] (.message (framesOf 66560 (List.replicate 16 0) [mapName.bytes, [1], [11]])) ∧
    Missed [1] (.message (framesOf 77056 [] [mapName.bytes])) ∧
    Missed [1] (.message (framesOf 76800 [] [mapName.bytes, [], [1], [11]])) ∧
    Missed [1] (.message (framesOf 1250048 (List.replicate 5 0) [mapName.bytes, [1], [11]])) ∧
    Missed [2] (.message (framesOf 1376512 (LittleEndian.encode 8 7 ++ LittleEndian.encode 8 7)
      [])) := by
  decide +kernel

end NearServer

end BonsaiGrid.Server
