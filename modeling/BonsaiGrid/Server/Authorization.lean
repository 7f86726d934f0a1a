import BonsaiGrid.Server.Mediation

/-!
# The check and the accesses

The check of a request is about one resource and one action. It is compared with what the request
reads and changes: a commit and an SQL statement reach maps that it does not look at.
-/

namespace BonsaiGrid.Server

open Fault Protocol Security Store Shown List

/-- The map of the store is the map with the name, or the replicated map with the name. -/
def Names (n name : Str) : Prop := n = name ∨ n = repl name

/-- The principal is authorized for the action on the map. -/
def Authorized (p : Principal) (n : Str) (a : Action) : Prop :=
  ∃ name, Names n name ∧ p.authorize .map name a

/-- What the message does to the maps is what it is checked for: each action on a map that its
request makes is the action that is looked up in the table for its type, and the map is the one
that its second frame names. -/
def Checked (e : Engine) (s : State e Shown) (msg : Bytes) : Prop :=
  ∀ frames len corr type r, readMessage msg = .ok (some (frames, len)) →
    Admits s.cluster frames corr type r → ∀ m a, r.Makes e s m a →
      classify type = .data .map a ∧ Names m (resourceName frames)

def disclosed {e : Engine} :
    Except Fault (State e Shown × Principal × List (Reply e)) → Option (List (Reply e))
  | .ok r => some (r.2.2.filterMap Reply.entryData)
  | .error _ => none

/-- The data that the message gets depends on what the map holds. -/
def Discloses [Pbkdf2] (e : Engine) (cfg : Cfg) (peerCert : Option Bytes) (s : State e Shown)
    (p : Principal) (msg : Bytes) (m : Str) : Prop :=
  ∃ d, disclosed (dispatchBytes e ops cfg peerCert (s.setMap m d) p msg) ≠
    disclosed (dispatchBytes e ops cfg peerCert s p msg)

/-! ## An authentication is a message of its type -/

theorem readMessageFrom_isPrefix {bytes : Bytes} {fuel off len : ℕ} {frames out : List Frame}
    (h : readMessageFrom bytes fuel frames off = .ok (some (out, len))) : frames <+: out := by
  induction fuel generalizing frames off with
  | zero => cases h
  | succ fuel ih =>
    obtain ⟨header, -, h⟩ := bind_eq_ok.mp h
    cases header with
    | none => cases h
    | some header =>
      obtain ⟨stop, -, h⟩ := bind_eq_ok.mp h
      obtain ⟨content, -, h⟩ := bind_eq_ok.mp h
      split at h
      · cases h
        exact prefix_append _ _
      · exact (prefix_append _ _).trans (ih h)

variable {frames : List Frame}

theorem content_of_frameAt {msg c₀ : Bytes} {off len : ℕ}
    (hframe : frameAt msg 0 = .ok (some (c₀, off)))
    (hread : readMessage msg = .ok (some (frames, len))) : content frames 0 = .ok c₀ := by
  rw [readMessage, readMessageFrom] at hread
  obtain ⟨header, hheader, hframe⟩ := bind_eq_ok.mp hframe
  rw [hheader, ok_bind] at hread
  cases header with
  | none => cases hframe
  | some header =>
    obtain ⟨stop, hstop, hframe⟩ := bind_eq_ok.mp hframe
    obtain ⟨content₀, hcontent, hframe⟩ := bind_eq_ok.mp hframe
    cases hframe
    dsimp only at hread
    rw [hstop, ok_bind, hcontent] at hread
    have hpre : [⟨header.2, c₀⟩] <+: frames := by
      split at hread
      · cases hread
        exact prefix_refl _
      · exact readMessageFrom_isPrefix hread
    obtain ⟨rest, rfl⟩ := hpre
    rfl

theorem authRequest_eq_some {msg : Bytes} {req : AuthRequest}
    (h : authRequest msg = .ok (some req)) :
    (∀ p, fastGet p msg = .ok none) ∧ ∀ frames len,
      readMessage msg = .ok (some (frames, len)) → msgType frames = .ok 256 := by
  obtain ⟨found, hframe, h⟩ := bind_eq_ok.mp h
  cases found with
  | none => cases h
  | some found =>
    dsimp only at h
    split at h
    · cases h
    next hlen =>
      obtain ⟨type, htype, h⟩ := bind_eq_ok.mp h
      split at h
      · cases h
      next hauth =>
        have hauth : type = 256 := not_not.mp hauth
        subst hauth
        constructor
        · intro p
          rw [fastGet, hframe, ok_bind]
          dsimp only
          split
          · rfl
          · rw [htype]
            rfl
        · intro frames len hread
          rw [msgType, content_of_frameAt hframe hread, ok_bind, htype]

theorem frameAt_of_readMessage {msg : Bytes} {len : ℕ}
    (hread : readMessage msg = .ok (some (frames, len))) :
    ∃ c₀ off, frameAt msg 0 = .ok (some (c₀, off)) ∧ content frames 0 = .ok c₀ := by
  have hread' := hread
  rw [readMessage, readMessageFrom] at hread
  obtain ⟨header, hheader, hread⟩ := bind_eq_ok.mp hread
  cases header with
  | none => cases hread
  | some header =>
    obtain ⟨stop, hstop, hread⟩ := bind_eq_ok.mp hread
    obtain ⟨c₀, hcontent, -⟩ := bind_eq_ok.mp hread
    have hframe : frameAt msg 0 = .ok (some (c₀, stop)) := by
      rw [frameAt, hheader, ok_bind]
      dsimp only
      rw [hstop, ok_bind, hcontent]
      rfl
    exact ⟨c₀, stop, hframe, content_of_frameAt hframe hread'⟩

section Fast

variable {msg : Bytes} {len : ℕ} {type : ℤ} (hread : readMessage msg = .ok (some (frames, len)))
  (htype : msgType frames = .ok type)

include hread htype

theorem authRequest_of_ne (h : type ≠ 256) : authRequest msg = .ok none := by
  obtain ⟨c₀, off, hframe, hcontent⟩ := frameAt_of_readMessage hread
  rw [msgType, hcontent, ok_bind] at htype
  rw [authRequest, hframe, ok_bind]
  dsimp only
  split
  · rfl
  · rw [htype, ok_bind, if_pos h]
    rfl

theorem fastGet_of_ne (h : type ≠ 66048) (p : Principal) : fastGet p msg = .ok none := by
  obtain ⟨c₀, off, hframe, hcontent⟩ := frameAt_of_readMessage hread
  rw [msgType, hcontent, ok_bind] at htype
  rw [fastGet, hframe, ok_bind]
  dsimp only
  split
  · rfl
  · rw [htype, ok_bind, if_pos h]
    rfl

end Fast

theorem authorized_of_fastGet {p : Principal} {msg : Bytes} {name : Str} {key : Bytes}
    (h : fastGet p msg = .ok (some (name, key))) : Authorized p name .read := by
  obtain ⟨first, -, h⟩ := bind_eq_ok.mp h
  cases first with
  | none => cases h
  | some first =>
    dsimp only at h
    split at h
    · cases h
    · obtain ⟨type, -, h⟩ := bind_eq_ok.mp h
      split at h
      · cases h
      · obtain ⟨second, -, h⟩ := bind_eq_ok.mp h
        cases second with
        | none => cases h
        | some second =>
          obtain ⟨third, -, h⟩ := bind_eq_ok.mp h
          cases third with
          | none => cases h
          | some third =>
            dsimp only at h
            split at h
            · cases h
            · split at h
              next hread =>
                cases h
                exact ⟨name, .inl rfl, hread⟩
              next => cases h

/-! ## What a decoded request can make -/

section Decoded

variable {e : Engine} {s : State e Shown} {type : ℤ} {r : Request} {m : Str} {a : Action}

theorem resourceName_of_decodeName {name : Str} (h : decodeName frames = .ok name) :
    resourceName frames = name := by
  obtain ⟨bytes, hbytes, h⟩ := bind_eq_ok.mp h
  obtain ⟨f, hf, heq⟩ := bind_eq_ok.mp hbytes
  cases heq
  rw [index] at hf
  rw [decodeString] at h
  split at hf
  next g hg =>
    cases hf
    split at h
    next name' hname =>
      cases h
      rw [resourceName, hg, Option.bind_some, hname]
      rfl
    next => cases h
  next => cases hf

theorem MapOp.classify_code (op : MapOp) : classify op.code = .data .map (mapAction op.code) := by
  cases op
  all_goals decide

theorem MapOp.tells_of_call {op : MapOp} {c : MapCall} (h : op.call frames = .ok c)
    (hread : .read ∈ c.actions) : mapAction op.code = .read ∨ c.tells = true := by
  cases op with
  | put | putIfAbsent =>
    obtain ⟨thread, -, h⟩ := bind_eq_ok.mp h
    obtain ⟨ttl, -, h⟩ := bind_eq_ok.mp h
    obtain ⟨key, -, h⟩ := bind_eq_ok.mp h
    obtain ⟨value, -, h⟩ := bind_eq_ok.mp h
    cases h
    exact .inr rfl
  | set =>
    obtain ⟨thread, -, h⟩ := bind_eq_ok.mp h
    obtain ⟨ttl, -, h⟩ := bind_eq_ok.mp h
    obtain ⟨key, -, h⟩ := bind_eq_ok.mp h
    obtain ⟨value, -, h⟩ := bind_eq_ok.mp h
    cases h
    simp [MapCall.actions] at hread
  | replace =>
    obtain ⟨thread, -, h⟩ := bind_eq_ok.mp h
    obtain ⟨key, -, h⟩ := bind_eq_ok.mp h
    obtain ⟨value, -, h⟩ := bind_eq_ok.mp h
    cases h
    exact .inr rfl
  | executeOnKey =>
    obtain ⟨thread, -, h⟩ := bind_eq_ok.mp h
    obtain ⟨processor, -, h⟩ := bind_eq_ok.mp h
    obtain ⟨key, -, h⟩ := bind_eq_ok.mp h
    cases h
    simp [MapCall.actions] at hread
  | remove =>
    obtain ⟨thread, -, h⟩ := bind_eq_ok.mp h
    obtain ⟨key, -, h⟩ := bind_eq_ok.mp h
    cases h
    exact .inr rfl
  | delete =>
    obtain ⟨thread, -, h⟩ := bind_eq_ok.mp h
    obtain ⟨key, -, h⟩ := bind_eq_ok.mp h
    cases h
    simp [MapCall.actions] at hread
  | clear | putAll =>
    cases h
    simp [MapCall.actions] at hread
  | _ => exact .inl (by decide)

theorem CacheOp.tells_of_call {op : CacheOp} {c : MapCall} (h : op.call frames = .ok c)
    (hread : .read ∈ c.actions) : c.tells = true := by
  cases op with
  | get =>
    obtain ⟨key, -, h⟩ := bind_eq_ok.mp h
    cases h
    rfl
  | put =>
    obtain ⟨old, -, h⟩ := bind_eq_ok.mp h
    obtain ⟨completion, -, h⟩ := bind_eq_ok.mp h
    obtain ⟨key, -, h⟩ := bind_eq_ok.mp h
    obtain ⟨value, -, h⟩ := bind_eq_ok.mp h
    cases h
    cases old with
    | true => rfl
    | false => simp [MapCall.actions] at hread
  | remove =>
    obtain ⟨key, -, h⟩ := bind_eq_ok.mp h
    cases h
    simp [MapCall.actions] at hread

theorem ReplicatedOp.tells_of_call {op : ReplicatedOp} {c : MapCall} (h : op.call frames = .ok c)
    (hread : .read ∈ c.actions) : c.tells = true := by
  cases op with
  | put =>
    obtain ⟨key, -, h⟩ := bind_eq_ok.mp h
    obtain ⟨value, -, h⟩ := bind_eq_ok.mp h
    cases h
    rfl
  | get | remove =>
    obtain ⟨key, -, h⟩ := bind_eq_ok.mp h
    cases h
    rfl
  | containsKey | containsValue =>
    obtain ⟨key, -, h⟩ := bind_eq_ok.mp h
    cases h
    simp [MapCall.actions] at hread
  | keySet | values | entrySet =>
    cases h
    rfl
  | size | isEmpty | clear =>
    cases h
    simp [MapCall.actions] at hread

/-- Where a request comes from that is decoded from the frames as one of the type: the class of the
type, and for a call on a map its name. -/
inductive Source (frames : List Frame) (type : ℤ) : Request → Prop
  | map {name n : Str} {c : MapCall} {a : Action} : decodeName frames = .ok name →
      Names n name → classify type = .data .map a → a ≠ .admin →
      (.read ∈ c.actions → a = .read ∨ c.tells = true) → Source frames type (.map n c)
  | transactionalPut {txn : ℤ × ℤ} {name : Str} {key value : Bytes} :
      decodeName frames = .ok name → classify type = .data .map .put →
      Source frames type (.transactionalPut txn name key value)
  | commit {txn : ℤ × ℤ} : classify type = .infra → Source frames type (.commit txn)
  | sql {text : Str} : classify type = .data .sql .put → Source frames type (.sql text)
  /-- a request that has nothing to do with the maps -/
  | other {r : Request} : (∀ (e : Engine) (s : State e Shown), r.writes e s = []) →
      (∀ (e : Engine) (s : State e Shown) m, ¬ r.Reads e s m) → Source frames type r

theorem source_of_structure {op : StructureOp} (h : op.decode frames = .ok r) :
    Source frames type r := by
  cases op
  all_goals
    repeat obtain ⟨_, -, h⟩ := bind_eq_ok.mp h
    cases h
    exact .other (fun _ _ => rfl) fun _ _ _ => id

theorem source_of_client {op : ClientOp} (h : op.decode frames = .ok r) :
    Source frames type r := by
  cases op
  all_goals
    repeat obtain ⟨_, -, h⟩ := bind_eq_ok.mp h
    cases h
    exact .other (fun _ _ => rfl) fun _ _ _ => id

theorem source_of_decode (h : decode frames type = .ok r) : Source frames type r := by
  rw [decode] at h
  cases hop : Op.ofCode type with
  | none =>
    rw [hop] at h
    dsimp only at h
    split at h
    · cases h
      exact .other (fun _ _ => rfl) fun _ _ _ => id
    · split at h
      · cases h
        exact .other (fun _ _ => rfl) fun _ _ _ => id
      · cases h
  | some op =>
    rw [hop] at h
    have hcode := Op.code_of_ofCode hop
    subst hcode
    cases op with
    | map op =>
      obtain ⟨name, hname, h⟩ := bind_eq_ok.mp h
      obtain ⟨call, hcall, h⟩ := bind_eq_ok.mp h
      cases h
      exact .map hname (.inl rfl) op.classify_code (mapAction_ne_admin _)
        (op.tells_of_call hcall)
    | cache op =>
      obtain ⟨name, hname, h⟩ := bind_eq_ok.mp h
      obtain ⟨call, hcall, h⟩ := bind_eq_ok.mp h
      cases h
      have hclass : classify op.code = .data .map .put := by
        cases op
        all_goals decide
      exact .map hname (.inl rfl) hclass (by decide)
        fun hread => .inr (op.tells_of_call hcall hread)
    | replicated op =>
      obtain ⟨name, hname, h⟩ := bind_eq_ok.mp h
      obtain ⟨call, hcall, h⟩ := bind_eq_ok.mp h
      cases h
      have hclass : classify op.code = .data .map .put := by
        cases op
        all_goals decide
      exact .map hname (.inr rfl) hclass (by decide)
        fun hread => .inr (op.tells_of_call hcall hread)
    | aux op => exact source_of_structure h
    | txn op =>
      cases op with
      | create | xaCreate =>
        cases h
        exact .other (fun _ _ => rfl) fun _ _ _ => id
      | commit =>
        obtain ⟨txn, -, h⟩ := bind_eq_ok.mp h
        cases h
        exact .commit (by decide)
      | rollback =>
        obtain ⟨txn, -, h⟩ := bind_eq_ok.mp h
        cases h
        exact .other (fun _ _ => rfl) fun _ _ _ => id
      | mapPut =>
        obtain ⟨txn, -, h⟩ := bind_eq_ok.mp h
        obtain ⟨name, hname, h⟩ := bind_eq_ok.mp h
        obtain ⟨key, -, h⟩ := bind_eq_ok.mp h
        obtain ⟨value, -, h⟩ := bind_eq_ok.mp h
        cases h
        exact .transactionalPut hname (by decide)
    | sql op =>
      cases op with
      | execute =>
        obtain ⟨text, -, h⟩ := bind_eq_ok.mp h
        cases h
        exact .sql (by decide)
      | close | fetch =>
        cases h
        exact .other (fun _ _ => rfl) fun _ _ _ => id
    | client op => exact source_of_client h
    | service op =>
      obtain ⟨call, -, h⟩ := bind_eq_ok.mp h
      cases h
      exact .other (fun _ _ => rfl) fun _ _ _ => id

theorem Request.not_makes (hwrites : r.writes e s = []) (hreads : ¬ r.Reads e s m) :
    ¬ r.Makes e s m a := by
  cases a with
  | read => exact hreads
  | put =>
    rintro ⟨k, v, hlast, -⟩
    rw [hwrites] at hlast
    cases hlast
  | remove =>
    rintro ⟨k, hlast, -⟩
    rw [hwrites] at hlast
    cases hlast
  | _ => exact id

/-- A call on a map makes something of this map only. -/
theorem MapCall.map_of_makes {n : Str} {c : MapCall} (h : (Request.map n c).Makes e s m a) :
    m = n := by
  have hlast : ∀ {k v}, lastAt m k ((Request.map n c).writes e s) = some v → m = n := by
    intro k v hlast
    obtain ⟨x, hx, hleaves⟩ := exists_of_lastAt hlast
    have haccess := MapCall.access_of_writes hx
    rw [Mutation.access_of_leaves hleaves] at haccess
    obtain ⟨action, -, heq⟩ := mem_map.mp haccess
    exact (congrArg Prod.fst heq).symm
  cases a with
  | read => exact h.1
  | put =>
    obtain ⟨k, v, hk, -⟩ := h
    exact hlast hk
  | remove =>
    obtain ⟨k, hk, -⟩ := h
    exact hlast hk
  | _ => cases h

theorem names_of_makes {a' : Action} (h : Source frames type r)
    (hclass : classify type = .data .map a') (hmakes : r.Makes e s m a) :
    Names m (resourceName frames) := by
  cases h with
  | map hname hnames _ _ _ =>
    rw [resourceName_of_decodeName hname, MapCall.map_of_makes hmakes]
    exact hnames
  | transactionalPut hname _ =>
    rw [resourceName_of_decodeName hname]
    cases a with
    | read => exact .inl hmakes
    | put =>
      obtain ⟨k, v, hlast, -⟩ := hmakes
      cases hlast
    | remove =>
      obtain ⟨k, hlast, -⟩ := hmakes
      cases hlast
    | _ => cases hmakes
  | commit hinfra =>
    rw [hclass] at hinfra
    cases hinfra
  | sql hsql =>
    rw [hclass] at hsql
    cases hsql
  | other hwrites hreads => exact absurd hmakes (Request.not_makes (hwrites e s) (hreads e s m))

/-- What makes something of a map is not kept for administrators. -/
theorem class_of_makes (h : Source frames type r) (hmakes : r.Makes e s m a) :
    classify type = .infra ∨ ∃ rt a', classify type = .data rt a' ∧ a' ≠ .admin := by
  cases h with
  | map _ _ hclass hne _ => exact .inr ⟨_, _, hclass, hne⟩
  | transactionalPut _ hclass | sql hclass => exact .inr ⟨_, _, hclass, by decide⟩
  | commit hclass => exact .inl hclass
  | other hwrites hreads => exact absurd hmakes (Request.not_makes (hwrites e s) (hreads e s m))

theorem ne_authentication_of_makes (h : decode frames type = .ok r) (hmakes : r.Makes e s m a) :
    type ≠ 256 := by
  rintro rfl
  obtain ⟨req, -, h⟩ := bind_eq_ok.mp h
  cases h
  exact Request.not_makes rfl id hmakes

theorem read_of_get (h : decode frames 66048 = .ok r) (hmakes : r.Makes e s m a) : a = .read := by
  obtain ⟨name, -, h⟩ := bind_eq_ok.mp h
  obtain ⟨call, hcall, h⟩ := bind_eq_ok.mp h
  obtain ⟨thread, -, hcall⟩ := bind_eq_ok.mp hcall
  obtain ⟨key, -, hcall⟩ := bind_eq_ok.mp hcall
  cases hcall
  cases h
  cases a with
  | read => rfl
  | put =>
    obtain ⟨k, v, hlast, -⟩ := hmakes
    cases hlast
  | remove =>
    obtain ⟨k, hlast, -⟩ := hmakes
    cases hlast
  | _ => cases hmakes

end Decoded

/-! ## What is served -/

section Served

variable [Pbkdf2] {e : Engine} {cfg : Cfg} {peerCert : Option Bytes} {s s' : State e Shown}
  {p p₁ p' : Principal} {msg : Bytes} {len : ℕ} {corr type : ℤ} {r : Request}
  {replies : List (Reply e)}

omit [Pbkdf2] in
theorem authzDenial_eq_none (h : authzDenial e frames p = .ok none) :
    ∃ type, msgType frames = .ok type ∧ allowed type (resourceName frames) p := by
  obtain ⟨type, htype, h⟩ := bind_eq_ok.mp h
  split at h
  next hallowed => exact ⟨type, htype, hallowed⟩
  next =>
    obtain ⟨corr, -, h⟩ := bind_eq_ok.mp h
    cases h

/-- An allowed message that is neither an authentication nor a get runs its request. -/
theorem dispatchBytes_eq (hread : readMessage msg = .ok (some (frames, len)))
    (hadmits : Admits s.cluster frames corr type r)
    (hallowed : allowed type (resourceName frames) p) (hauth : type ≠ 256) (hget : type ≠ 66048) :
    dispatchBytes e ops cfg peerCert s p msg =
      r.run e ops s cfg >>= fun x => pure (x.1, p, x.2) := by
  have hdenial : authzDenial e frames p = .ok none := by
    rw [authzDenial, hadmits.typed, ok_bind, if_pos hallowed]
    rfl
  rw [dispatchBytes, maybeRebindPrincipal, authRequest_of_ne hread hadmits.typed hauth, ok_bind]
  dsimp only
  rw [pure_bind, tryFastGet, fastGet_of_ne hread hadmits.typed hget, ok_bind]
  dsimp only
  rw [pure_bind]
  dsimp only
  rw [hread, ok_bind]
  dsimp only
  rw [hdenial, ok_bind]
  dsimp only
  rw [dispatch, hadmits.dispatchTo]

theorem dispatchBytes_of_run (hread : readMessage msg = .ok (some (frames, len)))
    (hadmits : Admits s.cluster frames corr type r)
    (hallowed : allowed type (resourceName frames) p) (hauth : type ≠ 256) (hget : type ≠ 66048)
    (hrun : r.run e ops s cfg = .ok (s', replies)) :
    dispatchBytes e ops cfg peerCert s p msg = .ok (s', p, replies) := by
  rw [dispatchBytes_eq hread hadmits hallowed hauth hget, hrun]
  rfl

theorem dispatchBytes_eq_ok (hp : maybeRebindPrincipal cfg peerCert p msg = .ok p₁)
    (h : dispatchBytes e ops cfg peerCert s p msg = .ok (s', p', replies)) :
    s' = s ∨ ∃ frames len corr type r, readMessage msg = .ok (some (frames, len)) ∧
      Admits s.cluster frames corr type r ∧ allowed type (resourceName frames) p₁ ∧
      r.run e ops s cfg = .ok (s', replies) := by
  rw [dispatchBytes, hp, ok_bind] at h
  obtain ⟨found, hfast, h⟩ := bind_eq_ok.mp h
  cases found with
  | some found =>
    left
    cases h
    obtain ⟨found', -, hfast⟩ := bind_eq_ok.mp hfast
    cases found' with
    | none => cases hfast
    | some found' =>
      cases hfast
      rfl
  | none =>
    obtain ⟨message, hread, h⟩ := bind_eq_ok.mp h
    cases message with
    | none =>
      cases h
      exact .inl rfl
    | some message =>
      obtain ⟨frames, len⟩ := message
      obtain ⟨denied, hdenied, h⟩ := bind_eq_ok.mp h
      cases denied with
      | some denied =>
        cases h
        exact .inl rfl
      | none =>
        obtain ⟨type, htype, hallowed⟩ := authzDenial_eq_none hdenied
        obtain ⟨⟨s₁, replies₁⟩, hrun, h⟩ := bind_eq_ok.mp h
        cases h
        rcases dispatchTo_eq_ok hrun with ⟨heq, -⟩ | ⟨corr, type', r, hadmits, hrun⟩
        · cases heq
          exact .inl rfl
        · have hsame := hadmits.typed
          rw [htype] at hsame
          cases hsame
          exact .inr ⟨frames, len, corr, type, r, hread, hadmits, hallowed, hrun⟩

omit [Pbkdf2] in
theorem disclosed_bind (x : Except Fault (State e Shown × List (Reply e))) (p : Principal) :
    disclosed (x >>= fun r => pure (r.1, p, r.2)) = entryData x := by
  cases x with
  | error f | ok r => rfl

theorem dispatch_setMap {m : Str} {d : Dict Bytes Bytes}
    (h : ∀ corr type r, Admits s.cluster frames corr type r → ¬ r.Reads e s m) :
    entryData (dispatch e ops (s.setMap m d) cfg frames) =
      entryData (dispatch e ops s cfg frames) := by
  rw [dispatch, dispatch, dispatchTo, dispatchTo]
  cases hcorr : correlationId frames with
  | error f => rfl
  | ok corr =>
    cases htype : msgType frames with
    | error f => rfl
    | ok type =>
      rw [ok_bind, ok_bind, ok_bind, ok_bind]
      by_cases hgate : isQuorumGatedWrite type = true ∧ (! s.cluster.hasQuorum) = true
      · have hgate' : isQuorumGatedWrite type = true ∧
          (! (s.setMap m d).cluster.hasQuorum) = true := hgate
        rw [if_pos hgate, if_pos hgate']
        rfl
      · have hgate' : ¬ (isQuorumGatedWrite type = true ∧
          (! (s.setMap m d).cluster.hasQuorum) = true) := hgate
        rw [if_neg hgate, if_neg hgate']
        cases hr : decode frames type with
        | error f => rfl
        | ok r =>
          refine Request.entryData_setMap (h corr type r ⟨hcorr, htype, fun hgated => ?_, hr⟩) d
          by_contra hnone
          exact hgate ⟨hgated, by simpa using hnone⟩

/-- A message gets the same data whatever a map holds that it does not read. -/
theorem disclosed_setMap (hp : maybeRebindPrincipal cfg peerCert p msg = .ok p₁) {m : Str}
    (hfast : ∀ name key, fastGet p₁ msg = .ok (some (name, key)) → name ≠ m)
    (hreads : ∀ frames len corr type r, readMessage msg = .ok (some (frames, len)) →
      Admits s.cluster frames corr type r → allowed type (resourceName frames) p₁ →
      ¬ r.Reads e s m) (d : Dict Bytes Bytes) :
    disclosed (dispatchBytes e ops cfg peerCert (s.setMap m d) p msg) =
      disclosed (dispatchBytes e ops cfg peerCert s p msg) := by
  rw [dispatchBytes, dispatchBytes, hp, ok_bind, ok_bind, tryFastGet, tryFastGet]
  cases hfound : fastGet p₁ msg with
  | error f => rfl
  | ok found =>
    cases found with
    | some found =>
      obtain ⟨name, key⟩ := found
      have hget : (ops.get (s.setMap m d).store name key).2 =
          (ops.get s.store name key).2 := by
        change ((s.store.setMap m d).maps name).lookup key = _
        rw [maps_setMap_of_ne (hfast name key hfound)]
        rfl
      change some ([Reply.data (ops.get (s.setMap m d).store name key).2].filterMap
        Reply.entryData) = _
      rw [hget]
      rfl
    | none =>
      cases hread : readMessage msg with
      | error f => rfl
      | ok found =>
        cases found with
        | none => rfl
        | some found =>
          obtain ⟨frames, len⟩ := found
          cases hdenied : authzDenial e frames p₁ with
          | error f => simp only [ok_bind, pure_bind, hdenied]; rfl
          | ok denied =>
            cases denied with
            | some denied => simp only [ok_bind, pure_bind, hdenied]; rfl
            | none =>
              simp only [ok_bind, pure_bind, hdenied]
              rw [disclosed_bind, disclosed_bind]
              obtain ⟨type, htype, hallowed⟩ := authzDenial_eq_none hdenied
              refine dispatch_setMap fun corr type' r hadmits => ?_
              have hsame := hadmits.typed
              rw [htype] at hsame
              cases hsame
              exact hreads frames len corr type r hread hadmits hallowed

/-- The principal changes with an authentication only. -/
theorem rebind_cases (hp : maybeRebindPrincipal cfg peerCert p msg = .ok p₁) :
    p₁ = p ∨ (∀ q, fastGet q msg = .ok none) ∧
      ∀ frames len, readMessage msg = .ok (some (frames, len)) → msgType frames = .ok 256 := by
  obtain ⟨found, hauth, hp⟩ := bind_eq_ok.mp hp
  cases found with
  | none =>
    cases hp
    exact .inl rfl
  | some req => exact .inr (authRequest_eq_some hauth)

end Served

/-! ## Mediation -/

/-- A principal whom the check lets through, and who has no other grant than the one it asks for. -/
def bare (decision : Decision) (name : Str) : Principal where
  grants := match decision with
    | .data rt action =>
      [⟨rt, ⟨name.bytes ++ [42], Utf8.valid_append name.valid (by decide)⟩, [action]⟩]
    | _ => []
  isAdmin := false

theorem authorize_bare (rt : ResourceType) (action : Action) (name : Str) :
    (bare (.data rt action) name).authorize rt name action = true := by
  have hmatches : nameMatches ⟨name.bytes ++ [42], Utf8.valid_append name.valid (by decide)⟩ name =
      true := by
    rw [nameMatches]
    split
    · rfl
    · simp
  simp [bare, Principal.authorize, ActionSet.permits, hmatches]

theorem decision_of_authorized {decision : Decision} (hadmin : ∀ rt, decision ≠ .data rt .admin)
    {name n : Str} {a : Action} (h : Authorized (bare decision name) n a) :
    decision = .data .map a := by
  obtain ⟨name', -, h⟩ := h
  cases decision with
  | data rt action =>
    have hne : action ≠ .admin := fun heq => hadmin rt (by rw [heq])
    simp only [Principal.authorize, bare, Bool.false_or, any_cons, any_nil, Bool.or_false,
      Bool.and_eq_true, decide_eq_true_eq, ActionSet.permits, mem_singleton] at h
    obtain ⟨⟨rfl, haction⟩, -⟩ := h
    rcases haction with rfl | hadmin
    · rfl
    · exact absurd hadmin.symm hne
  | _ => simp [Principal.authorize, bare] at h

section Mediation

variable [Pbkdf2] {e : Engine} {cfg : Cfg} {peerCert : Option Bytes} {s : State e Shown}
  {p p₁ : Principal} {msg : Bytes} {len : ℕ} {corr type : ℤ} {r : Request} {m : Str} {a : Action}

theorem Checked.authorized (h : Checked e s msg)
    (hp : maybeRebindPrincipal cfg peerCert p msg = .ok p₁)
    (hread : readMessage msg = .ok (some (frames, len)))
    (hadmits : Admits s.cluster frames corr type r)
    (hallowed : allowed type (resourceName frames) p₁) (hmakes : r.Makes e s m a) :
    Authorized p m a := by
  rcases rebind_cases hp with rfl | ⟨-, hauth⟩
  · obtain ⟨hclass, hnames⟩ := h frames len corr type r hread hadmits m a hmakes
    rw [allowed, hclass] at hallowed
    exact ⟨_, hnames, hallowed⟩
  · have htype := hadmits.typed
    rw [hauth frames len hread] at htype
    cases htype
    exact absurd rfl (ne_authentication_of_makes hadmits.decoded hmakes)

omit [Pbkdf2] in
theorem allowed_bare (h : Source frames type r) (hmakes : r.Makes e s m a) (name : Str) :
    allowed type name (bare (classify type) name) := by
  rw [allowed]
  rcases class_of_makes h hmakes with hinfra | ⟨rt, a', hdata, -⟩
  · rw [hinfra]
  · rw [hdata]
    exact authorize_bare rt a' name

omit [Pbkdf2] in
theorem tells_of_makes (h : Source frames type r) (hread : r.Makes e s m .read)
    (hclass : classify type ≠ .data .map .read) (name : Str) (c : MapCall)
    (hr : r = .map name c) : c.tells = true := by
  cases h with
  | map _ _ hdata _ htells =>
    cases hr
    refine (htells hread.2).resolve_left fun heq => ?_
    rw [heq] at hdata
    exact hclass hdata
  | other _ hreads => exact absurd hread (hreads e s m)
  | _ => cases hr

/-- What is made without being checked is made for the principal whom the check lets through. -/
theorem class_of_mediated (hall : ∀ p : Principal, p.isAdmin = false → ∀ m,
      (Discloses e cfg peerCert s p msg m → Authorized p m .read) ∧
      ∀ s' p' replies, dispatchBytes e ops cfg peerCert s p msg = .ok (s', p', replies) →
        ((∃ k v, (s'.store.maps m).lookup k = some v ∧ (s.store.maps m).lookup k ≠ some v) →
          Authorized p m .put) ∧
        ((∃ k, (s'.store.maps m).lookup k = none ∧ (s.store.maps m).lookup k ≠ none) →
          Authorized p m .remove))
    (hread : readMessage msg = .ok (some (frames, len)))
    (hadmits : Admits s.cluster frames corr type r) (hmakes : r.Makes e s m a) :
    classify type = .data .map a := by
  by_contra hne
  have hsource := source_of_decode hadmits.decoded
  have hallowed := allowed_bare hsource hmakes (resourceName frames)
  have hauth := ne_authentication_of_makes hadmits.decoded hmakes
  have hget : type ≠ 66048 := by
    rintro rfl
    cases read_of_get hadmits.decoded hmakes
    exact hne (by decide)
  have hserved := hall (bare (classify type) (resourceName frames)) rfl m
  have hadmin : ∀ rt, classify type ≠ .data rt .admin := by
    intro rt heq
    rcases class_of_makes hsource hmakes with hinfra | ⟨rt', a', hdata, hnot⟩
    · rw [hinfra] at heq
      cases heq
    · rw [hdata] at heq
      cases heq
      exact hnot rfl
  suffices hauthorized : Authorized (bare (classify type) (resourceName frames)) m a from
    hne (decision_of_authorized hadmin hauthorized)
  cases a with
  | read =>
    obtain ⟨d, hd⟩ : ∃ d, entryData (r.run e ops (s.setMap m d) cfg) ≠
        entryData (r.run e ops s cfg) :=
      Request.exists_entryData_ne hmakes (tells_of_makes hsource hmakes hne)
    refine hserved.1 ⟨d, ?_⟩
    have hadmits' : Admits (s.setMap m d).cluster frames corr type r := hadmits
    rw [dispatchBytes_eq hread hadmits' hallowed hauth hget,
      dispatchBytes_eq hread hadmits hallowed hauth hget, disclosed_bind, disclosed_bind]
    exact hd
  | put =>
    have hmakes' := hmakes
    obtain ⟨k, v, hlast, -⟩ := hmakes
    obtain ⟨⟨s', replies⟩, hrun⟩ :=
      Request.returns_of_writes cfg (Request.writes_ne_nil hlast)
    exact (hserved.2 s' _ replies
      (dispatchBytes_of_run hread hadmits hallowed hauth hget hrun)).1
      ((Request.makes_put_iff hrun m).mpr hmakes')
  | remove =>
    have hmakes' := hmakes
    obtain ⟨k, hlast, -⟩ := hmakes
    obtain ⟨⟨s', replies⟩, hrun⟩ :=
      Request.returns_of_writes cfg (Request.writes_ne_nil hlast)
    exact (hserved.2 s' _ replies
      (dispatchBytes_of_run hread hadmits hallowed hauth hget hrun)).2
      ((Request.makes_remove_iff hrun m).mpr hmakes')
  | _ => cases hmakes

end Mediation

/-- **Complete mediation.** For every principal that is not an administrator, a message gets data of
a map, stores into it or drops a key of it only if the principal is authorized for that, exactly if
what the message makes of the maps is what it is checked for. -/
theorem mediation [Pbkdf2] (e : Engine) (cfg : Cfg) (peerCert : Option Bytes) (s : State e Shown)
    (msg : Bytes) :
    (∀ p : Principal, p.isAdmin = false → ∀ m,
      (Discloses e cfg peerCert s p msg m → Authorized p m .read) ∧
      ∀ s' p' replies, dispatchBytes e ops cfg peerCert s p msg = .ok (s', p', replies) →
        ((∃ k v, (s'.store.maps m).lookup k = some v ∧ (s.store.maps m).lookup k ≠ some v) →
          Authorized p m .put) ∧
        ((∃ k, (s'.store.maps m).lookup k = none ∧ (s.store.maps m).lookup k ≠ none) →
          Authorized p m .remove)) ↔
      Checked e s msg := by
  constructor
  · intro hall frames len corr type r hread hadmits m a hmakes
    have hclass := class_of_mediated hall hread hadmits hmakes
    exact ⟨hclass, names_of_makes (source_of_decode hadmits.decoded) hclass hmakes⟩
  · intro hchecked p _ m
    cases hp : maybeRebindPrincipal cfg peerCert p msg with
    | error f =>
      have hfault : ∀ s : State e Shown,
          dispatchBytes e ops cfg peerCert s p msg = .error f := fun s => by
        rw [dispatchBytes, hp]
        rfl
      constructor
      · rintro ⟨d, hd⟩
        rw [hfault, hfault] at hd
        exact absurd rfl hd
      · intro s' p' replies h
        rw [hfault] at h
        cases h
    | ok p₁ =>
      constructor
      · rintro ⟨d, hd⟩
        by_contra hnot
        refine hd (disclosed_setMap hp (fun name key hfast heq => ?_)
          (fun frames len corr type r hread hadmits hallowed hreads => ?_) d)
        · rcases rebind_cases hp with rfl | ⟨hnone, -⟩
          · exact hnot (heq ▸ authorized_of_fastGet hfast)
          · rw [hnone] at hfast
            cases hfast
        · exact hnot (hchecked.authorized hp hread hadmits hallowed (a := .read) hreads)
      · intro s' p' replies h
        rcases dispatchBytes_eq_ok hp h with
          rfl | ⟨frames, len, corr, type, r, hread, hadmits, hallowed, hrun⟩
        · exact ⟨fun ⟨k, v, hnew, hold⟩ => absurd hnew hold,
            fun ⟨k, hnew, hold⟩ => absurd hnew hold⟩
        · exact ⟨fun hchange => hchecked.authorized hp hread hadmits hallowed
              ((Request.makes_put_iff hrun m).mp hchange),
            fun hchange => hchecked.authorized hp hread hadmits hallowed
              ((Request.makes_remove_iff hrun m).mp hchange)⟩

/-! ## A member with one map -/

def idle : Engine where
  Schema := Unit
  Projection := Unit
  Aggregator := Unit
  Mapping := Unit
  Select := Unit
  Row := Unit
  Job := Unit
  Rest := Unit
  Output := Unit
  decodeSchema _ := .ok (0, ())
  query _ _ entries := .ok entries
  projection _ := .ok none
  project _ _ _ := .ok []
  aggregator _ := .ok none
  aggregate _ _ _ := .ok []
  noAggregate := []
  parse _ := .ok none
  select _ _ _ _ := .ok ([], [])
  gather _ _ _ := .ok ([], [])
  join _ _ _ _ _ := .ok ([], [])
  insertEntry _ _ := none
  spawn _ rest := rest
  registerClusterView rest := rest
  serve _ rest := .ok (rest, ())

abbrev noHash : Pbkdf2 := ⟨fun _ _ _ => []⟩

theorem valid_mapName : Utf8.valid [109] = true := by decide

def mapName : Str := ⟨[109], valid_mapName⟩

def granted (actions : ActionSet) : Principal :=
  ⟨[⟨.map, mapName, actions⟩], false⟩

def secured : Cfg where
  self := (1, 1)
  clusterName := mapName
  username := none
  password := none
  security := { principals := ∅, anonymous := ⟨[], false⟩, requireAuth := true }

def oneEntry : State idle Shown where
  store := { maps := fun _ => AList.insert [1] [10] ∅, structures := {} }
  schemas := ∅
  txns := ⟨AList.insert (7, 7) [.put mapName [2] [20]] ∅, 8⟩
  catalog := ∅
  cluster := .new (Membership.bootstrapMembers 1) 0 1
  rest := ()

/-- A request of the type, with what follows the partition id in the first frame and the other
frames. -/
def request (type : ℕ) (fixed : Bytes) (frames : List Bytes) : Bytes :=
  writeMessage (⟨unfragmented, writeI32Le type ++ replicate 12 0 ++ fixed⟩ ::
    frames.map fun content => ⟨0, content⟩)

def setRequest (key value : Bytes) : Bytes :=
  request 69376 (replicate 16 0) [mapName.bytes, key, value]

theorem checked_setRequest : Checked idle oneEntry (setRequest [1] [11]) := by
  intro frames len corr type r hread hadmits m a hmakes
  cases hread
  have htype := hadmits.typed
  cases htype
  have hr := hadmits.decoded
  cases hr
  cases MapCall.map_of_makes hmakes
  cases a with
  | put => exact ⟨by decide, .inl (by decide)⟩
  | read =>
    obtain ⟨-, hread⟩ := hmakes
    cases mem_singleton.mp hread
  | remove =>
    obtain ⟨k, hlast, -⟩ := hmakes
    obtain ⟨x, hx, hleaves⟩ := exists_of_lastAt hlast
    cases mem_singleton.mp hx
    rw [Mutation.leaves] at hleaves
    split at hleaves
    · cases hleaves
    · cases hleaves
  | _ => cases hmakes

theorem mediation_set :
    ((@dispatchBytes noHash _ idle ops secured none oneEntry (granted [.put])
      (setRequest [1] [11])).toOption.map fun r => (r.1.store.maps mapName).lookup [1]) =
      some (some [11]) ∧ Authorized (granted [.put]) mapName .put := by
  have hlookup : ((@dispatchBytes noHash _ idle ops secured none oneEntry (granted [.put])
      (setRequest [1] [11])).toOption.map fun r => (r.1.store.maps mapName).lookup [1]) =
      some (some [11]) := by decide +kernel
  refine ⟨hlookup, ?_⟩
  cases hrun : @dispatchBytes noHash _ idle ops secured none oneEntry (granted [.put])
      (setRequest [1] [11]) with
  | error f =>
    rw [hrun] at hlookup
    cases hlookup
  | ok r =>
    rw [hrun] at hlookup
    have hnew : (r.1.store.maps mapName).lookup [1] = some [11] := Option.some.inj hlookup
    have hall := (@mediation noHash idle secured none oneEntry (setRequest [1] [11])).mpr
      checked_setRequest (granted [.put]) rfl mapName
    exact (hall.2 r.1 r.2.1 r.2.2 hrun).1 ⟨[1], [11], hnew, by decide +kernel⟩

/-- A principal without grants commits the transaction of somebody else, and a principal that may
only put is sent the value it replaces. -/
theorem unmediated :
    (((@dispatchBytes noHash _ idle ops secured none oneEntry ⟨[], false⟩
      (request 1376512 (LittleEndian.encode 8 7 ++ LittleEndian.encode 8 7) [])).toOption.map
        fun r => (r.1.store.maps mapName).lookup [2]) = some (some [20]) ∧
      (oneEntry.store.maps mapName).lookup [2] = none ∧
      ¬ Authorized ⟨[], false⟩ mapName .put) ∧
    @Discloses noHash idle secured none oneEntry (granted [.put])
      (request 65792 (replicate 16 0) [mapName.bytes, [1], [11]]) mapName ∧
      ¬ Authorized (granted [.put]) mapName .read := by
  refine ⟨⟨by decide +kernel, by decide +kernel, ?_⟩, ⟨∅, fun h => ?_⟩, ?_⟩
  · rintro ⟨name, -, h⟩
    simp [Principal.authorize] at h
  · have hdata := congrArg (Option.map fun replies => replies.map fun
      | Reply.data v => v
      | _ => none) h
    revert hdata
    decide +kernel
  · rintro ⟨name, -, h⟩
    simp [Principal.authorize, granted, ActionSet.permits] at h

end BonsaiGrid.Server
