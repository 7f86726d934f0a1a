import BonsaiGrid.Server.Authorization
import BonsaiGrid.Server.Ownership

/-!
# Writes without a quorum

Below the quorum the dispatch refuses the messages of a list. The list has every message that
changes a structure, the batches of the id generators apart. It does not have every message that
writes to a map, so that a message outside the list leaves the maps alone only if what it would
store is there already and what it would remove is not.
-/

namespace BonsaiGrid.Server

open Fault Protocol Security Store

theorem StructureOp.gated {frames : List Frame} {op : StructureOp} {c : StructureCall}
    (h : op.decode frames = .ok (.call c)) :
    isQuorumGatedWrite op.code ∨ ∃ name batch, c = .flakeBatch name batch := by
  cases op
  case flakeBatch =>
    obtain ⟨name, -, h⟩ := bind_eq_ok.mp h
    obtain ⟨batch, -, h⟩ := bind_eq_ok.mp h
    cases h
    exact .inr ⟨_, _, rfl⟩
  all_goals first
    | exact .inl (by decide)
    | cases h
    | (obtain ⟨_, -, h⟩ := bind_eq_ok.mp h
       cases h)
    | (obtain ⟨_, -, h⟩ := bind_eq_ok.mp h
       obtain ⟨_, -, h⟩ := bind_eq_ok.mp h
       cases h)

theorem decode_call {frames : List Frame} {type : ℤ} {c : StructureCall}
    (h : decode frames type = .ok (.call c)) :
    isQuorumGatedWrite type ∨ ∃ name batch, c = .flakeBatch name batch := by
  rw [decode] at h
  cases hop : Op.ofCode type with
  | none =>
    rw [hop] at h
    dsimp only at h
    split at h
    · cases h
    · split at h
      · cases h
      · cases h
  | some op =>
    rw [hop] at h
    have hcode := Op.code_of_ofCode hop
    cases op with
    | aux op =>
      rw [← hcode]
      exact op.gated h
    | map op | cache op | replicated op =>
      obtain ⟨name, -, h⟩ := bind_eq_ok.mp h
      obtain ⟨call, -, h⟩ := bind_eq_ok.mp h
      cases h
    | txn op =>
      cases op with
      | create | xaCreate => cases h
      | commit | rollback =>
        obtain ⟨txn, -, h⟩ := bind_eq_ok.mp h
        cases h
      | mapPut =>
        obtain ⟨txn, -, h⟩ := bind_eq_ok.mp h
        obtain ⟨name, -, h⟩ := bind_eq_ok.mp h
        obtain ⟨key, -, h⟩ := bind_eq_ok.mp h
        obtain ⟨value, -, h⟩ := bind_eq_ok.mp h
        cases h
    | sql op =>
      cases op with
      | execute =>
        obtain ⟨text, -, h⟩ := bind_eq_ok.mp h
        cases h
      | close | fetch => cases h
    | client op =>
      cases op with
      | authentication =>
        obtain ⟨req, -, h⟩ := bind_eq_ok.mp h
        cases h
      | fetchSchema =>
        obtain ⟨id, -, h⟩ := bind_eq_ok.mp h
        cases h
      | _ => cases h
    | service op =>
      obtain ⟨call, -, h⟩ := bind_eq_ok.mp h
      cases h

/-- Where the message is let through, the request that it holds stores no value that a key does
not have, and removes no key that is there. -/
def Idle (e : Engine) (s : State e Shown) (p : Principal) (msg : Bytes) : Prop :=
  ∀ frames len corr type r, readMessage msg = .ok (some (frames, len)) →
    Admits s.cluster frames corr type r → allowed type (resourceName frames) p →
    ∀ m, ¬ r.Makes e s m .put ∧ ¬ r.Makes e s m .remove

def withoutFlake (s : Structures) : Structures := { s with flake := ∅ }

section Effect

variable [Pbkdf2] {e : Engine} {cfg : Cfg} {s s' : State e Shown} {r : Request}
  {replies : List (Reply e)}

/-- The maps show the same after a request exactly if it makes no put and no removal. -/
theorem Request.lookup_eq_iff (h : r.run e Shown.ops s cfg = .ok (s', replies)) :
    (∀ m k, (s'.store.maps m).lookup k = (s.store.maps m).lookup k) ↔
      ∀ m, ¬ r.Makes e s m .put ∧ ¬ r.Makes e s m .remove := by
  refine forall_congr' fun m => ?_
  rw [← Request.makes_put_iff h, ← Request.makes_remove_iff h]
  constructor
  · intro hsame
    exact ⟨fun ⟨k, v, hnew, hold⟩ => hold ((hsame k).symm.trans hnew),
      fun ⟨k, hnew, hold⟩ => hold ((hsame k).symm.trans hnew)⟩
  · rintro ⟨hput, hremove⟩ k
    by_contra hne
    cases hk : (s'.store.maps m).lookup k with
    | none => exact hremove ⟨k, hk, fun hold => hne (hk.trans hold.symm)⟩
    | some v => exact hput ⟨k, v, hk, fun hold => hne (hk.trans hold.symm)⟩

/-- A structure other than an id generator is left by every request that needs no quorum. -/
theorem structures_of_ungated {frames : List Frame} {type : ℤ}
    (hr : decode frames type = .ok r) (hungated : isQuorumGatedWrite type = false)
    (h : r.run e Shown.ops s cfg = .ok (s', replies)) :
    withoutFlake s'.store.structures = withoutFlake s.store.structures := by
  rcases (Request.run_spec h).2.1 with hsame | ⟨c, rfl, hstore⟩
  · exact congrArg withoutFlake hsame
  · obtain ⟨name, batch, rfl⟩ := (decode_call hr).resolve_left (by simp [hungated])
    rw [hstore]
    rfl

end Effect

/-- **Below the quorum.** While the member has no quorum, a message leaves every map and every
structure as it is exactly if it is refused, or is of a type that needs a quorum, or makes no put
and no removal. -/
theorem below_quorum [Pbkdf2] (e : Engine) (cfg : Cfg) (peerCert : Option Bytes)
    (s : State e Shown) (p : Principal) (msg : Bytes) (hquorum : s.cluster.hasQuorum = false) :
    (∀ s' p' replies, dispatchBytes e Shown.ops cfg peerCert s p msg = .ok (s', p', replies) →
      (∀ m k, (s'.store.maps m).lookup k = (s.store.maps m).lookup k) ∧
        withoutFlake s'.store.structures = withoutFlake s.store.structures) ↔
      Idle e s p msg := by
  have hungated : ∀ {frames corr type r}, Admits s.cluster frames corr type r →
      isQuorumGatedWrite type = false := by
    intro frames corr type r hadmits
    rw [Bool.eq_false_iff]
    intro hgated
    rw [hadmits.quorum hgated] at hquorum
    cases hquorum
  constructor
  · intro hall frames len corr type r hread hadmits hallowed m
    by_contra hmakes
    rw [← not_or, not_not] at hmakes
    -- a request that writes is carried out, so that its effect is seen
    obtain ⟨⟨s', replies⟩, hrun⟩ : Returns (r.run e Shown.ops s cfg) := by
      refine Request.returns_of_writes cfg ?_
      rcases hmakes with ⟨k, v, hlast, -⟩ | ⟨k, hlast, -⟩
      · exact Request.writes_ne_nil hlast
      · exact Request.writes_ne_nil hlast
    have hauth : type ≠ 256 := hmakes.elim (ne_authentication_of_makes hadmits.decoded)
      (ne_authentication_of_makes hadmits.decoded)
    have hget : type ≠ 66048 := by
      rintro rfl
      rcases hmakes with hput | hremove
      · cases read_of_get hadmits.decoded hput
      · cases read_of_get hadmits.decoded hremove
    have hsame := (hall s' p replies
      (dispatchBytes_of_run hread hadmits hallowed hauth hget hrun)).1
    have hnone := (Request.lookup_eq_iff hrun).mp hsame m
    exact hmakes.elim hnone.1 hnone.2
  · intro hidle s' p' replies h
    cases hp : maybeRebindPrincipal cfg peerCert p msg with
    | error f =>
      rw [dispatchBytes, hp] at h
      cases h
    | ok p₁ =>
      rcases dispatchBytes_eq_ok hp h with
        rfl | ⟨frames, len, corr, type, r, hread, hadmits, hallowed, hrun⟩
      · exact ⟨fun _ _ => rfl, rfl⟩
      · refine ⟨(Request.lookup_eq_iff hrun).mpr ?_,
          structures_of_ungated hadmits.decoded (hungated hadmits) hrun⟩
        rcases rebind_cases hp with rfl | ⟨-, hauth⟩
        · exact hidle frames len corr type r hread hadmits hallowed
        · -- an authentication makes nothing, whoever is let through by it
          have htype := hadmits.typed
          rw [hauth frames len hread] at htype
          cases htype
          exact fun m => ⟨fun hmakes => ne_authentication_of_makes hadmits.decoded hmakes rfl,
            fun hmakes => ne_authentication_of_makes hadmits.decoded hmakes rfl⟩

def alone : State idle Shown :=
  { oneEntry with
    cluster := (Membership.Cluster.new (Membership.bootstrapMembers 3) 1 2).removeMembers
      [(1, 2), (1, 3)] }

theorem idle_setRequest : Idle idle alone (granted [.put]) (setRequest [1] [11]) := by
  intro frames len corr type r hread hadmits _ m
  cases hread
  have htype := hadmits.typed
  cases htype
  exact absurd (hadmits.quorum (by decide)) (by decide +kernel)

/-- A `MapPutIfAbsent` of a key that is there is not in the list, and changes nothing. -/
theorem idle_putIfAbsent : Idle idle alone (granted [.put])
    (request 69120 (List.replicate 16 0) [mapName.bytes, [1], [30]]) := by
  intro frames len corr type r hread hadmits _ m
  cases hread
  have htype := hadmits.typed
  cases htype
  have hr := hadmits.decoded
  cases hr
  have hnone : (Request.map mapName (.putIfAbsent [1] [30] 0)).writes idle alone = [] := by
    decide +kernel
  exact ⟨fun ⟨k, v, hlast, _⟩ => Request.writes_ne_nil hlast hnone,
    fun ⟨k, hlast, _⟩ => Request.writes_ne_nil hlast hnone⟩

theorem below_quorum_set :
    (∀ s' p' replies, @dispatchBytes noHash _ idle Shown.ops secured none alone (granted [.put])
      (setRequest [1] [11]) = .ok (s', p', replies) →
      (s'.store.maps mapName).lookup [1] = some [10]) ∧
    ∀ s' p' replies, @dispatchBytes noHash _ idle Shown.ops secured none alone (granted [.put])
      (request 69120 (List.replicate 16 0) [mapName.bytes, [1], [30]]) = .ok (s', p', replies) →
      (s'.store.maps mapName).lookup [1] = some [10] := by
  have hlookup : (alone.store.maps mapName).lookup [1] = some [10] := by decide +kernel
  constructor
  · intro s' p' replies h
    have hsame := (@below_quorum noHash idle secured none alone (granted [.put])
      (setRequest [1] [11]) (by decide +kernel)).mpr idle_setRequest s' p' replies h
    exact (hsame.1 mapName [1]).trans hlookup
  · intro s' p' replies h
    have hsame := (@below_quorum noHash idle secured none alone (granted [.put])
      (request 69120 (List.replicate 16 0) [mapName.bytes, [1], [30]])
      (by decide +kernel)).mpr idle_putIfAbsent s' p' replies h
    exact (hsame.1 mapName [1]).trans hlookup

/-- The map is cleared, and an entry is put that was not there. -/
theorem ungated_writes : alone.cluster.hasQuorum = false ∧
    ((@dispatchBytes noHash _ idle Shown.ops secured none alone (granted [.remove])
      (request 77056 [] [mapName.bytes])).toOption.map
        fun r => (r.1.store.maps mapName).lookup [1]) = some none ∧
    (alone.store.maps mapName).lookup [1] = some [10] ∧
    ((@dispatchBytes noHash _ idle Shown.ops secured none alone (granted [.put])
      (request 69120 (List.replicate 16 0) [mapName.bytes, [3], [30]])).toOption.map
        fun r => (r.1.store.maps mapName).lookup [3]) = some (some [30]) ∧
    (alone.store.maps mapName).lookup [3] = none := by
  decide +kernel

end BonsaiGrid.Server
