import BonsaiGrid.Persistence.Replay
import BonsaiGrid.Wan.Pair

/-!
# Convergence of the maps of two clusters

Two stores publish their puts and removes to each other.
-/

namespace BonsaiGrid.Wan

open Store Persistence Lww.Link Function

inductive MapOp where
  | put (env : StoreEnv) (map : Str) (key val : Bytes)
  | remove (env : StoreEnv) (map : Str) (key : Bytes)

def execOp (s : Store) : MapOp → Store
  | .put env map key val => (s.put env map key val).1
  | .remove env map key => (s.remove env map key).1

namespace Pair

/-- Once all records are applied, the stores show the same for every key. -/
def Converges (p : Pair) : Prop :=
  p.toB.pending = [] → p.toA.pending = [] →
    ∀ env env' map key, (p.a.get env map key).2 = (p.b.get env' map key).2

def onKey (map : Str) (key : Bytes) (r : WanRecord) : Bool := r.map = map ∧ r.key = key

/-- Stamps are drawn in range and lengths fit. -/
def Covered (p : Pair) : Act MapOp → Prop
  | .op (.put env map key val) => InRange p.a.stampSeq env.wallMs ∧ key.length + val.length < 2 ^ 32 ∧
      ∀ r ∈ p.toA.unacked, onKey map key r = true → r.op ≠ .remove
  | .op (.remove env map key) => InRange p.a.stampSeq env.wallMs ∧
      ∀ r ∈ (p.toA.unacked.filter (onKey map key)).getLast?, r.op = .remove
  | _ => True

instance (p : Pair) : (e : Act MapOp) → Decidable (p.Covered e)
  | .op (.put ..) | .op (.remove ..) => inferInstanceAs (Decidable (_ ∧ _))
  | .deliver _ | .ack | .resend => isTrue trivial

end Pair

/-! ## One key -/

def keyUpdate (mk : Str × Bytes) (r : WanRecord) : Option (Option Cell) :=
  if (r.map, r.key) = mk then
    match r.op with
    | .put => some (some ⟨r.value, 0, r.stamp⟩)
    | .remove => some none
    | .aux _ => none
  else none

/-- A record of a put or a remove of the member, with lengths that fit. -/
structure Published (memberId : ℕ) (r : WanRecord) : Prop where
  op : r.op = .put ∨ r.op = .remove
  ttl : r.ttlMs = 0
  stamp : r.stamp < 2 ^ 64
  member : r.stamp % 2 ^ 7 = memberId % 2 ^ 7
  fits : r.op = .put → r.key.length + r.value.length < 2 ^ 32

/-- A store that publishes, whose clock is past every stamp in it. -/
structure Site (memberId : ℕ) (s : Store) : Prop where
  inv : s.Inv
  lasting : Lasting s.contents
  clock : ∀ mk cell, s.contents mk = some cell → cell.stamp / 2 ^ 7 ≤ s.stampSeq / 2 ^ 7
  sink : s.wanSink = some []
  member : s.memberId = memberId

theorem some_mergeCell (c : Option Cell) (x : Cell) :
    some (Inner.mergeCell c x true) = Lww.update Cell.stamp c (some x) := by
  cases c with
  | none => rfl
  | some y =>
    rw [Inner.mergeCell, Lww.update, Lww.merge]
    by_cases hlt : y.stamp < x.stamp
    · rw [if_pos ⟨rfl, hlt⟩, if_pos hlt]
    · rw [if_neg fun h => hlt h.2, if_neg hlt]

namespace Site

variable {s : Store} {memberId : ℕ}

theorem get_eq (h : Site memberId s) (env : StoreEnv) (map : Str) (key : Bytes) :
    (s.get env map key).2 = (s.contents (map, key)).map Cell.val := by
  rw [(h.inv.get env map key).2.2, h.lasting.seen]

theorem updated (h : Site memberId s) {t : Store} {mk : Str × Bytes} {o : Option Cell}
    (hinv : t.Inv) (hcont : t.contents = update s.contents mk o)
    (hseq : s.stampSeq / 2 ^ 7 ≤ t.stampSeq / 2 ^ 7)
    (ho : ∀ cell, o = some cell → cell.expireAt = 0 ∧ cell.stamp / 2 ^ 7 ≤ t.stampSeq / 2 ^ 7)
    (hsink : t.wanSink = some []) (hmember : t.memberId = s.memberId) : Site memberId t where
  inv := hinv
  lasting := hcont ▸ h.lasting.update mk fun cell hcell => (ho cell hcell).1
  clock := hcont ▸ clock_le_update h.clock hseq fun cell hcell => (ho cell hcell).2
  sink := hsink
  member := hmember.trans h.member

theorem applyBatch (h : Site memberId s) (env : StoreEnv) {r : WanRecord} {memberId' : ℕ}
    (hr : Published memberId' r) :
    Site memberId (Wan.applyBatch s [(env, r)]) ∧
      ∀ mk, (Wan.applyBatch s [(env, r)]).contents mk =
        (keyUpdate mk r).elim (s.contents mk) fun u => Lww.update Cell.stamp (s.contents mk) u := by
  obtain ⟨op, stamp, ttlMs, map, key, value⟩ := r
  obtain ⟨hop, rfl, hstamp, -, hfit⟩ := hr
  obtain ⟨hle, hstamp'⟩ := clock_le_observeStamp s.memberId s.stampSeq hstamp
  have hkey : ∀ (u : Option Cell) (op : WanOp),
      keyUpdate (map, key) ⟨op, stamp, 0, map, key, value⟩ = some u →
        ∀ mk, update s.contents (map, key) (Lww.update Cell.stamp
          (s.contents (map, key)) u) mk = (keyUpdate mk ⟨op, stamp, 0, map, key, value⟩).elim
            (s.contents mk) fun u => Lww.update Cell.stamp (s.contents mk) u := by
    intro u op hu mk
    by_cases hmk : mk = (map, key)
    · rw [hmk, update_self, hu]
      rfl
    · rw [update_of_ne hmk, keyUpdate, if_neg fun heq => hmk heq.symm]
      rfl
  rcases hop with rfl | rfl
  · obtain ⟨hinv, hcont⟩ := h.inv.applyWan_put env map key value 0 stamp (hfit rfl)
    rw [h.lasting.seen, some_mergeCell] at hcont
    refine ⟨h.updated hinv hcont hle (fun cell hcell => ?_) h.sink rfl, fun mk => ?_⟩
    · rw [← some_mergeCell] at hcell
      rw [← Option.some.inj hcell]
      rcases mergeCell_eq_or (s.contents (map, key)) ⟨value, 0, stamp⟩ true with heq | hold
      · rw [show Inner.deadline env.now 0 = 0 from rfl, heq]
        exact ⟨rfl, hstamp'⟩
      · exact ⟨h.lasting _ _ hold, Nat.le_trans (h.clock _ _ hold) hle⟩
    · exact (congrFun hcont mk).trans (hkey _ .put (if_pos rfl) mk)
  · obtain ⟨hinv, hcont⟩ := h.inv.applyWan_remove env map key value 0 stamp
    exact ⟨h.updated hinv hcont hle (fun cell hcell => absurd hcell (by simp)) h.sink rfl, fun mk =>
      (congrFun hcont mk).trans (hkey none .remove (if_pos rfl) mk)⟩

end Site

section Keys

variable {map : Str} {key : Bytes} {r : WanRecord}

theorem keyUpdate_put (stamp : ℕ) (val : Bytes) :
    keyUpdate (map, key) (publish (.mapPut stamp 0 map key val)) = some (some ⟨val, 0, stamp⟩) :=
  if_pos rfl

theorem keyUpdate_remove (stamp : ℕ) :
    keyUpdate (map, key) (publish (.mapRemove stamp map key)) = some none :=
  if_pos rfl

theorem keyUpdate_of_ne {mk : Str × Bytes} (h : (r.map, r.key) ≠ mk) : keyUpdate mk r = none :=
  if_neg h

theorem keyUpdate_of_onKey (hop : r.op = .put ∨ r.op = .remove)
    (h : Pair.onKey map key r = true) : ∃ u, keyUpdate (map, key) r = some u := by
  have hkey := of_decide_eq_true h
  rw [keyUpdate, if_pos (Prod.ext hkey.1 hkey.2)]
  rcases hop with hop | hop <;> rw [hop] <;> exact ⟨_, rfl⟩

theorem onKey_of_keyUpdate {u : Option Cell} (h : keyUpdate (map, key) r = some u) :
    Pair.onKey map key r = true := by
  rw [keyUpdate] at h
  split at h
  next heq => exact decide_eq_true ⟨congrArg Prod.fst heq, congrArg Prod.snd heq⟩
  next => cases h

theorem op_of_keyUpdate_none (h : keyUpdate (map, key) r = some none) : r.op = .remove := by
  rw [keyUpdate] at h
  split at h
  next =>
    cases hop : r.op with
    | remove => rfl
    | put | aux kind => rw [hop] at h; cases h
  next => cases h

theorem op_of_keyUpdate_some {x : Cell} (h : keyUpdate (map, key) r = some (some x)) :
    r.op = .put ∧ x.stamp = r.stamp := by
  rw [keyUpdate] at h
  split at h
  next =>
    cases hop : r.op with
    | put =>
      rw [hop] at h
      cases h
      exact ⟨rfl, rfl⟩
    | remove | aux kind => rw [hop] at h; cases h
  next => cases h

theorem getLast?_filterMap_keyUpdate {l : List WanRecord}
    (hl : ∀ r ∈ l, r.op = .put ∨ r.op = .remove) {u : Option Cell}
    (h : (l.filterMap (keyUpdate (map, key))).getLast? = some u) :
    ∃ r, (l.filter (Pair.onKey map key)).getLast? = some r ∧ keyUpdate (map, key) r = some u := by
  obtain ⟨us, hus⟩ := List.getLast?_eq_some_iff.1 h
  obtain ⟨l₁, l₂, rfl, -, hl₂⟩ := List.filterMap_eq_append_iff.1 hus
  obtain ⟨l₃, r, l₄, rfl, -, hr, hl₄⟩ := List.filterMap_eq_cons_iff.1 hl₂
  have hrest : l₄.filter (Pair.onKey map key) = [] := List.filter_eq_nil_iff.2 fun x hx hkey => by
    have hmem : x ∈ l₁ ++ (l₃ ++ r :: l₄) :=
      List.mem_append_right _ (List.mem_append_right _ (List.mem_cons_of_mem r hx))
    obtain ⟨u, hu⟩ := keyUpdate_of_onKey (hl x hmem) hkey
    rw [List.filterMap_eq_nil_iff.1 hl₄ x hx] at hu
    cases hu
  refine ⟨r, ?_, hr⟩
  rw [List.filter_append, List.filter_append, List.filter_cons_of_pos (onKey_of_keyUpdate hr),
    hrest, ← List.append_assoc, List.getLast?_concat]

end Keys

/-! ## Runs -/

/-- Both stores are in order, and so is what they published; and on every key they converge. -/
structure Pair.Ok (memberId memberId' : ℕ) (p : Pair) : Prop where
  a : Site memberId p.a
  b : Site memberId' p.b
  toB : ∀ r ∈ p.toB.unacked, Published memberId r
  toA : ∀ r ∈ p.toA.unacked, Published memberId' r
  keys : ∀ mk, Lww.Converging Cell.stamp (p.a.contents mk) (p.b.contents mk)
    (p.toB.filterMap (keyUpdate mk)) (p.toA.filterMap (keyUpdate mk))

namespace Pair.Ok

variable {p : Pair} {memberId memberId' : ℕ}

theorem swap (h : p.Ok memberId memberId') : p.swap.Ok memberId' memberId :=
  ⟨h.b, h.a, h.toA, h.toB, fun mk => (h.keys mk).symm⟩

theorem start {shards shards' : ℕ} (hpos : 0 < shards) (hpos' : 0 < shards')
    (memberId memberId' : ℕ) :
    (Pair.start shards memberId shards' memberId').Ok memberId memberId' := by
  have hsite : ∀ {n : ℕ}, 0 < n → ∀ id, Site id (withShardsSeed n id).setWanSink ∧
      (withShardsSeed n id).setWanSink.contents = fun _ => none := by
    intro n hn id
    obtain ⟨hinv, hempty⟩ := inv_withShardsSeed hn id
    have hempty' : (withShardsSeed n id).setWanSink.contents = fun _ => none :=
      (contents_congr rfl).trans hempty
    refine ⟨⟨hinv.congr rfl, fun mk cell hcell => ?_, fun mk cell hcell => ?_, rfl, rfl⟩, hempty'⟩
    · rw [hempty'] at hcell
      cases hcell
    · rw [hempty'] at hcell
      cases hcell
  obtain ⟨ha, haempty⟩ := hsite hpos memberId
  obtain ⟨hb, hbempty⟩ := hsite hpos' memberId'
  refine ⟨ha, hb, fun r hr => absurd hr List.not_mem_nil, fun r hr => absurd hr List.not_mem_nil,
    fun mk => ?_⟩
  change Lww.Converging Cell.stamp ((withShardsSeed shards memberId).setWanSink.contents mk)
    ((withShardsSeed shards' memberId').setWanSink.contents mk) {} {}
  rw [haempty, hbempty]
  exact .start

section

variable (h : p.Ok memberId memberId')

include h

theorem capture {s : Store} {r : WalRecord}
    (hsink : s.wanSink = some [r]) (hsite : Site memberId { s with wanSink := some [] })
    (hpub : Published memberId (publish r))
    (hkeys : ∀ mk, Lww.Converging Cell.stamp (s.contents mk) (p.b.contents mk)
      ((p.toB.push (publish r)).filterMap (keyUpdate mk)) (p.toA.filterMap (keyUpdate mk))) :
    (p.capture s).Ok memberId memberId' := by
  rw [Pair.capture_singleton hsink]
  refine ⟨hsite, h.b, ?_, h.toA, hkeys⟩
  rw [unacked_push]
  exact List.forall_mem_concat h.toB hpub

theorem put (hne : memberId % 2 ^ 7 ≠ memberId' % 2 ^ 7)
    {env : StoreEnv} {map : Str} {key val : Bytes} (hok : p.Covered (.op (.put env map key val))) :
    (p.act execOp (.op (.put env map key val))).Ok memberId memberId' := by
  obtain ⟨hrange, hfit, hremove⟩ := hok
  obtain ⟨hinv, hcont⟩ := h.a.inv.putTtl env map key val 0 hfit
  have hnext := clock_lt_nextStampAt p.a.memberId hrange
  have hlow := nextStampAt_mod p.a.memberId p.a.stampSeq env.wallMs
  have hmember := h.a.member
  refine h.capture (s := (p.a.put env map key val).1)
    (r := .mapPut (nextStampAt p.a.memberId p.a.stampSeq env.wallMs) 0 map key val) ?_ ?_ ?_
    fun mk => ?_
  · change Option.map (· ++ [_]) p.a.wanSink = _
    rw [h.a.sink]
    rfl
  · refine h.a.updated (hinv.congr rfl) ((contents_congr rfl).trans hcont) (Nat.le_of_lt hnext)
      (fun cell hcell => ?_) rfl rfl
    rw [← Option.some.inj hcell]
    exact ⟨rfl, Nat.le_refl _⟩
  · exact ⟨.inl rfl, rfl, nextStampAt_lt .., hmember ▸ hlow, fun _ => hfit⟩
  · change Lww.Converging _ ((p.a.putTtl env map key val 0).1.contents mk) _ _ _
    rw [hcont]
    by_cases hmk : mk = (map, key)
    · subst hmk
      rw [update_self, filterMap_push_some (keyUpdate_put _ _)]
      refine (h.keys (map, key)).put (fun y hy => ?_) (fun y hy => ?_) fun hnone => ?_
      · have hle := h.a.clock _ y hy
        dsimp only
        omega
      · obtain ⟨r, hr, hupdate⟩ := List.mem_filterMap.1 hy
        have hstamp := (op_of_keyUpdate_some hupdate).2
        have hmember' := (h.toA r (List.mem_append_right _ hr)).member
        dsimp only
        rw [hmember] at hlow
        intro heq
        rw [hmember] at heq
        rw [← heq, hstamp, hmember'] at hlow
        exact hne hlow.symm
      · rw [unacked_filterMap] at hnone
        obtain ⟨r, hr, hupdate⟩ := List.mem_filterMap.1 hnone
        exact hremove r hr (onKey_of_keyUpdate hupdate) (op_of_keyUpdate_none hupdate)
    · rw [update_of_ne hmk, filterMap_push_none
        (keyUpdate_of_ne fun heq => hmk heq.symm)]
      exact h.keys mk

theorem remove {env : StoreEnv} {map : Str} {key : Bytes}
    (hok : p.Covered (.op (.remove env map key))) :
    (p.act execOp (.op (.remove env map key))).Ok memberId memberId' := by
  obtain ⟨hrange, hlast⟩ := hok
  obtain ⟨hinv, hcont⟩ := h.a.inv.remove env map key
  have hnext := clock_lt_nextStampAt p.a.memberId hrange
  have hlow := nextStampAt_mod p.a.memberId p.a.stampSeq env.wallMs
  have hmember := h.a.member
  refine h.capture (s := (p.a.remove env map key).1)
    (r := .mapRemove (nextStampAt p.a.memberId p.a.stampSeq env.wallMs) map key) ?_ ?_ ?_
    fun mk => ?_
  · change Option.map (· ++ [_]) p.a.wanSink = _
    rw [h.a.sink]
    rfl
  · exact h.a.updated (hinv.congr rfl) ((contents_congr rfl).trans hcont) (Nat.le_of_lt hnext)
      (fun cell hcell => absurd hcell (by simp)) rfl rfl
  · exact ⟨.inr rfl, rfl, nextStampAt_lt .., hmember ▸ hlow, fun hop => (by cases hop)⟩
  · rw [hcont]
    by_cases hmk : mk = (map, key)
    · subst hmk
      rw [update_self, filterMap_push_some (keyUpdate_remove _)]
      refine .remove _ _ fun x hx => ?_
      rw [unacked_filterMap] at hx
      obtain ⟨r, hr, hupdate⟩ := getLast?_filterMap_keyUpdate (fun r hr => (h.toA r hr).op) hx
      have hop := (op_of_keyUpdate_some hupdate).1
      rw [hlast r hr] at hop
      cases hop
    · rw [update_of_ne hmk, filterMap_push_none
        (keyUpdate_of_ne fun heq => hmk heq.symm)]
      exact h.keys mk

theorem deliver (env : StoreEnv) :
    (p.deliver env).Ok memberId memberId' := by
  rw [Pair.deliver]
  cases hhead : p.toB.pending.head? with
  | none => exact h
  | some r =>
    obtain ⟨rs, hrs⟩ := List.head?_eq_some_iff.1 hhead
    have hmem : r ∈ p.toB.unacked := List.mem_append_right _ (hrs ▸ List.mem_cons_self)
    have hunacked := unacked_advance (l := p.toB)
    obtain ⟨hsite, hcont⟩ := h.b.applyBatch env (h.toB r hmem)
    refine ⟨h.a, hsite, hunacked ▸ h.toB, h.toA, fun mk => ?_⟩
    change Lww.Converging _ (p.a.contents mk) ((Wan.applyBatch p.b [(env, r)]).contents mk)
      (p.toB.advance.filterMap (keyUpdate mk)) _
    rw [hcont mk]
    cases hupdate : keyUpdate mk r with
    | none =>
      rw [filterMap_advance_none hhead hupdate]
      exact h.keys mk
    | some u =>
      rw [filterMap_advance_some hhead hupdate]
      refine (h.keys mk).deliver ?_
      rw [filterMap, hrs, List.filterMap_cons_some hupdate]
      rfl

theorem act (hne : memberId % 2 ^ 7 ≠ memberId' % 2 ^ 7)
    {e : Act MapOp} (hok : p.Covered e) : (p.act execOp e).Ok memberId memberId' := by
  cases e with
  | op c =>
    cases c with
    | put env map key val => exact h.put hne hok
    | remove env map key => exact h.remove hok
  | deliver env => exact h.deliver env
  | ack =>
    refine ⟨h.a, h.b, fun r hr => h.toB r (List.mem_append_right _ hr), h.toA, fun mk => ?_⟩
    exact (h.keys mk).ack
  | resend =>
    refine ⟨h.a, h.b, h.toB, h.toA, fun mk => ?_⟩
    change Lww.Converging _ _ _ (p.toB.resend.filterMap _) _
    rw [filterMap_resend]
    exact (h.keys mk).resend

theorem converges : p.Converges := by
  intro hB hA env env' map key
  have heq := (h.keys (map, key)).agree (by rw [filterMap, hB]; rfl)
    (by rw [filterMap, hA]; rfl)
  rw [h.a.get_eq, h.b.get_eq, heq]

end

end Pair.Ok

/-- In every run of two stores whose member ids differ, and whose acts are covered, the stores
converge. -/
theorem maps_converge {shards memberId shards' memberId' : ℕ} (hpos : 0 < shards)
    (hpos' : 0 < shards') (hne : memberId % 2 ^ 7 ≠ memberId' % 2 ^ 7) {p : Pair}
    (h : Pair.Run execOp Pair.Covered shards memberId shards' memberId' p) : p.Converges := by
  have hok : p.Ok memberId memberId' :=
    h.invariant (I := Pair.Ok) (fun m m' p hp => hp.swap) (fun m m' p e hm hp hcovered => ?_)
      (.start hpos hpos' memberId memberId')
  · exact hok.converges
  · rcases hm with hm | hm
    · cases hm
      exact hp.act hne hcovered
    · cases hm
      exact hp.act hne.symm hcovered

def noon : StoreEnv := ⟨⟨0, 0⟩, 1000⟩

def putNoon (val : Bytes) : Act MapOp := .op (.put noon orders [1] val)

def removeNoon : Act MapOp := .op (.remove noon orders [1])

def coveredActs : List (Bool × Act MapOp) :=
  [(false, putNoon [10]), (true, putNoon [20]), (false, .deliver noon), (true, .deliver noon),
    (false, .resend), (false, .deliver noon), (false, .ack), (true, .ack), (true, removeNoon),
    (true, .deliver noon)]

theorem maps_converge_removed :
    let p := coveredActs.foldl (Pair.exec execOp) (Pair.start 1 3 2 4)
    p.toB.pending = [] ∧ p.toA.pending = [] ∧ p.Converges := by
  have hallowed : Trace.Allowed (Pair.exec execOp) (Pair.Meets Pair.Covered) (Pair.start 1 3 2 4)
      coveredActs := by
    decide +kernel
  exact ⟨by decide +kernel, by decide +kernel,
    maps_converge (by decide) (by decide) (by decide) (.of_allowed coveredActs hallowed)⟩

def crossingActs : List (Bool × Act MapOp) :=
  [(false, putNoon [10]), (false, .deliver noon), (false, .ack), (false, putNoon [11]),
    (true, removeNoon), (false, .deliver noon), (true, .deliver noon)]

def twinActs : List (Bool × Act MapOp) :=
  [(false, putNoon [10]), (true, putNoon [20]), (false, .deliver noon), (true, .deliver noon)]

/-- A remove that crosses a put leaves the stores apart, and so do stores with one member id. -/
theorem maps_diverge :
    let crossed := crossingActs.foldl (Pair.exec execOp) (Pair.start 1 3 1 4)
    let twins := twinActs.foldl (Pair.exec execOp) (Pair.start 1 3 1 3)
    Pair.Run execOp (fun _ _ => True) 1 3 1 4 crossed ∧ ¬ crossed.Converges ∧
      Pair.Run execOp (fun _ _ => True) 1 3 1 3 twins ∧ ¬ twins.Converges := by
  refine ⟨.of_allowed crossingActs (by decide), fun h => ?_, .of_allowed twinActs (by decide),
    fun h => ?_⟩
  all_goals
    have hget := h (by decide +kernel) (by decide +kernel) noon noon orders [1]
    revert hget
    decide +kernel

end BonsaiGrid.Wan
