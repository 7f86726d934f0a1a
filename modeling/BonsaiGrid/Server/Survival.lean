import BonsaiGrid.Server.Acknowledged

/-!
# What survives the death of an owner

As long as the view stays, a write is sent to the same backups as all the others of its partition,
and each of them carries the writes out in the order in which they were issued.
-/

namespace BonsaiGrid.Server

open Fault Protocol Security Store Membership Function List

/-! ## Requests as they are received -/

/-- The frames are as long as frames can be: their length is an `i32`. -/
def Received (req : List Frame) : Prop := ∀ f ∈ req, f.content.length + prefixLen < 2 ^ 31

instance (req : List Frame) : Decidable (Received req) :=
  inferInstanceAs (Decidable (∀ f ∈ req, f.content.length + prefixLen < 2 ^ 31))

variable {req : List Frame}

theorem Received.length_lt (h : Received req) {i : ℕ} {bytes : Bytes}
    (hi : content req i = .ok bytes) : bytes.length < 2 ^ 31 := by
  obtain ⟨f, hf, heq⟩ := bind_eq_ok.mp hi
  cases heq
  rw [index] at hf
  split at hf
  next g hg =>
    have := h g (mem_of_getElem? hg)
    cases hf
    omega
  next => cases hf

/-- The write is sent to the partition of its key, and its entry has room in a shard. -/
def Backup.Placed (partition : ℤ) : Backup → Prop
  | .put _ key value _ => partition = partitionOf key ∧ key.length + value.length < 2 ^ 32
  | .remove _ key => partition = partitionOf key
  | .structures _ => True

variable {msg : Backup}

theorem Backup.Does.partition_eq {m : Str} {k : Bytes} {v : Option Bytes}
    (h : msg.Does m k v) {partition : ℤ} (hplaced : msg.Placed partition) :
    partition = partitionOf k := by
  cases msg with
  | put name key value ttlMs => exact h.2.1 ▸ hplaced.1
  | remove name key => exact h.2.1 ▸ hplaced
  | structures payload => cases h

section Reactor

variable {e : Engine} {aux : StructureCall → Structures → Option (ℤ × Bytes)}

theorem shipment_placed (hreq : Received req) {type partition : ℤ}
    {r : Request} (hr : decode req type = .ok r) {after : Shown}
    (hship : shipment aux type after r = some (partition, msg)) : msg.Placed partition := by
  have hfits : ∀ key value, content req 2 = .ok key → content req 3 = .ok value →
      key.length + value.length < 2 ^ 32 := fun key value hkey hvalue => by
    have := hreq.length_lt hkey
    have := hreq.length_lt hvalue
    omega
  cases r with
  | map name c =>
    cases c with
    | put key value ttlMs old =>
      rw [shipment] at hship
      split at hship
      next htype =>
        cases hship
        refine ⟨rfl, ?_⟩
        obtain ⟨_, key', value', _, _, heq, hkey, hvalue⟩ := decode_mapPut htype hr
        cases heq
        exact hfits key value hkey hvalue
      next => cases hship
    | remove key old =>
      rw [shipment] at hship
      split at hship
      · cases hship
        rfl
      · cases hship
    | _ => cases hship
  | call c =>
    rw [shipment, Option.map_eq_some_iff] at hship
    obtain ⟨x, -, hx⟩ := hship
    cases hx
    trivial
  | _ => cases hship

variable [Pbkdf2] {cfg : Cfg} {s s' : State e Shown} {rep rep' : Replicator e}
  {replies : List (Reply e)}

theorem serve_placed {connId : ℕ} (hreq : Received req)
    (h : serve e aux cfg s rep connId req = .ok (s', rep', replies)) {x : Write e}
    (hx : .replicate x ∈ rep'.ring) : .replicate x ∈ rep.ring ∨ x.msg.Placed x.partition := by
  rcases dispatchTo_eq_ok h with ⟨heq, -⟩ | ⟨corr, type, r, hadmits, h⟩
  · cases heq
    exact .inl hx
  · obtain ⟨⟨s₁, replies₁⟩, -, h⟩ := bind_eq_ok.mp h
    split at h
    · cases h
      exact .inl hx
    next partition msg hship =>
      split at h
      · cases h
        exact .inl hx
      · cases h
        rw [Replicator.replicate] at hx
        split at hx
        · exact .inl hx
        · rw [Replicator.push] at hx
          split at hx
          · rcases mem_append.mp hx with hx | hx
            · exact .inl hx
            · cases mem_singleton.mp hx
              exact .inr (shipment_placed hreq hadmits.decoded hship)
          · exact .inl hx

end Reactor

/-! ## Runs in which the view stays -/

/-- The view stays, and requests are received from a connection. -/
def FixedView : WorldEvent → Prop
  | .request _ req => Received req
  | .view _ _ _ | .promote _ | .threadView _ => False
  | _ => True

namespace World

variable {e : Engine}

/-- What holds as long as the view stays: all that is carried out, on its way or acknowledged was
sent, to the backups that its partition has in the view. -/
structure Traced (c : Membership.Cluster) (w : World e) : Prop where
  thread : w.thread = c
  ring : ∀ job ∈ w.rep.ring, ∀ c', job ≠ .membership c'
  issued : ∀ x, .replicate x ∈ w.rep.ring → x.msg.Placed x.partition
  sent : ∀ x ∈ w.sent, x.msg.Placed x.partition
  pending : ∀ op x, w.pending.lookup op = some x →
    x.view = c ∧ x.write ∈ w.sent ∧ c.backupsOf x.write.partition ≠ []
  links : ∀ i op msg, (op, msg) ∈ w.links i → ∃ x ∈ w.sent, x.opId = op ∧ x.msg = msg
  applied : ∀ i, ∀ y ∈ w.applied i, ∃ x ∈ w.sent, x.opId = y.opId ∧ x.msg = y.msg
  acked : ∀ d ∈ w.delivered, ∀ x, d.release = .acked x →
    d.thread = c ∧ x ∈ w.sent ∧ c.backupsOf x.partition ≠ []

variable {c : Membership.Cluster} {w : World e}

namespace Traced

theorem takeJob (h : w.Traced c) {job : MemberJob e} {ring : List (MemberJob e)}
    (hring : w.rep.ring = job :: ring) :
    Traced c ({ w with rep := { w.rep with ring } }.takeJob job) := by
  have hdrop : ∀ job' ∈ ring, job' ∈ w.rep.ring := fun job' hmem => by
    rw [hring]
    exact mem_cons_of_mem _ hmem
  have hrest : Traced c { w with rep := { w.rep with ring } } :=
    { h with
      ring := fun job' hmem => h.ring job' (hdrop job' hmem)
      issued := fun x hx => h.issued x (hdrop _ hx) }
  have hmem : job ∈ w.rep.ring := by
    rw [hring]
    exact mem_cons_self
  cases job with
  | membership c' => exact absurd rfl (h.ring _ hmem c')
  | other => exact hrest
  | replicate x =>
    rw [World.takeJob]
    split
    next =>
      refine { hrest with acked := forall_mem_concat h.acked fun z hz => ?_ }
      cases hz
    next hsome =>
      have hsent : ∀ z ∈ w.sent, z ∈ w.sent ++ [x] := fun z => mem_append_left _
      have hx : x ∈ w.sent ++ [x] := mem_append_right _ mem_cons_self
      rw [h.thread] at hsome
      refine ⟨h.thread, hrest.ring, hrest.issued, forall_mem_concat h.sent (h.issued x hmem),
        fun op z hz => ?_, fun i op msg hm => ?_, fun i y hy => ?_, fun d hd z hz => ?_⟩
      · rcases Dict.lookup_insert_eq_some hz with ⟨rfl, rfl⟩ | hz
        · exact ⟨h.thread, hx, hsome⟩
        · obtain ⟨hview, hz, hne⟩ := h.pending op z hz
          exact ⟨hview, hsent _ hz, hne⟩
      · rcases mem_append.mp hm with hm | hm
        · obtain ⟨z, hz, heq⟩ := h.links i op msg hm
          exact ⟨z, hsent z hz, heq⟩
        · obtain ⟨_, -, heq⟩ := mem_map.mp hm
          cases heq
          exact ⟨x, hx, rfl, rfl⟩
      · obtain ⟨z, hz, heq⟩ := h.applied i y hy
        exact ⟨z, hsent z hz, heq⟩
      · obtain ⟨hview, hz, hne⟩ := h.acked d hd z hz
        exact ⟨hview, hsent z hz, hne⟩

theorem ack (h : w.Traced c) (op src : ℕ) : Traced c (w.ack op src) := by
  rw [World.ack]
  split
  · exact h
  next x hx =>
    obtain ⟨hview, hsent, hne⟩ := h.pending op x hx
    split
    · refine { h with
        pending := fun op' z hz => h.pending op' z (Dict.lookup_of_lookup_erase hz).2
        acked := forall_mem_concat h.acked fun z hz => ?_ }
      cases hz
      exact ⟨hview, hsent, hne⟩
    · refine { h with pending := fun op' z hz => ?_ }
      rcases Dict.lookup_insert_eq_some hz with ⟨rfl, rfl⟩ | hz
      · exact ⟨hview, hsent, hne⟩
      · exact h.pending op' z hz

theorem sweep (h : w.Traced c) : Traced c w.sweep := by
  refine { h with pending := fun op x hx => ?_, acked := fun d hd x hx => ?_ }
  · have haged := (Dict.lookup_retain.mp hx).1
    rw [Dict.lookup_mapVal, Option.map_eq_some_iff] at haged
    obtain ⟨y, hy, rfl⟩ := haged
    exact h.pending op y hy
  · rcases mem_append.mp hd with hd | hd
    · exact h.acked d hd x hx
    · obtain ⟨y, -, rfl⟩ := mem_map.mp hd
      cases hx

theorem deliver (h : w.Traced c) {i op : ℕ} {link : List (ℕ × Backup)}
    (hlink : w.links i = (op, msg) :: link) (env : StoreEnv) :
    Traced c { w with
      links := update w.links i link
      applied := update w.applied i (w.applied i ++ [⟨op, msg, env⟩])
      acks := w.acks ++ [(op, i)] } := by
  refine { h with links := fun j op' msg' hm => ?_, applied := fun j y hy => ?_ }
  · simp only [update_apply] at hm
    split at hm
    next hj =>
      refine h.links j op' msg' ?_
      rw [hj, hlink]
      exact mem_cons_of_mem _ hm
    next => exact h.links j op' msg' hm
  · simp only [update_apply] at hy
    split at hy
    next hj =>
      refine forall_mem_concat (h.applied i) (h.links i op msg ?_) y hy
      rw [hlink]
      exact mem_cons_self
    next => exact h.applied j y hy

variable {aux : StructureCall → Structures → Option (ℤ × Bytes)} [Pbkdf2] {cfg : Cfg}

theorem request (h : w.Traced c) (connId : ℕ) (hreq : Received req) :
    Traced c (w.request aux cfg connId req) := by
  rw [World.request]
  split
  · exact h
  next state rep replies hserve =>
    have hserved := (serve_eq_ok hserve).2.1
    refine { h with ring := fun job hmem c' => ?_, issued := fun x hx => ?_,
                    acked := fun d hd x hx => ?_ }
    · rcases hserved.ring with hring | ⟨-, -, x, -, -, hring⟩
      · exact h.ring job (hring ▸ hmem) c'
      · rw [hring] at hmem
        exact forall_mem_concat h.ring (by simp) job hmem c'
    · exact (serve_placed hreq hserve hx).elim (h.issued x) id
    · rcases mem_append.mp hd with hd | hd
      · exact h.acked d hd x hx
      · split at hd
        · cases hd
        · cases mem_singleton.mp hd
          cases hx

theorem exec (h : w.Traced c) {event : WorldEvent} (hok : FixedView event) :
    Traced c (w.exec aux cfg event) := by
  cases event with
  | request connId req => exact h.request connId hok
  | outside store => exact { h with }
  | view generation members alive | promote joinId | threadView c' => cases hok
  | otherJob =>
    rw [World.exec, Replicator.push]
    split
    · refine { h with ring := forall_mem_concat h.ring (by simp), issued := fun x hx => ?_ }
      exact h.issued x (by simpa using hx)
    · exact h
  | pop =>
    rw [World.exec]
    split
    · exact h
    next job ring hring => exact h.takeJob hring
  | sweep => exact h.sweep
  | deliver i env =>
    rw [World.exec]
    split
    · exact h
    next op msg link hlink => exact h.deliver hlink env
  | lose i k =>
    rw [World.exec]
    refine { h with links := fun j op msg hm => ?_ }
    simp only [update_apply] at hm
    split at hm
    next hj => exact h.links i op msg (mem_of_mem_eraseIdx hm)
    next => exact h.links j op msg hm
  | ack k =>
    rw [World.exec]
    split
    · exact h
    · refine Traced.ack ?_ _ _
      exact { h with }
  | loseAck k => exact { h with }

end Traced

theorem traced_init (state : State e Shown) (capacity : ℕ) :
    Traced state.cluster (init state capacity) where
  thread := rfl
  ring job hmem := by cases hmem
  issued x hx := by cases hx
  sent x hx := by cases hx
  pending op x hx := by cases hx
  links i op msg hm := by cases hm
  applied i y hy := by cases hy
  acked d hd := by cases hd

end World

/-! ## What a backup holds -/

def Backup.apply (install : Bytes → Structures → Structures) (env : StoreEnv) (s : Store) :
    Backup → Store
  | .put name key value ttlMs => (s.putTtl env name key value ttlMs).1
  | .remove name key => (s.remove env name key).1
  | .structures payload => { s with aux := install payload s.aux }

/-- How a store comes about in which the writes have been carried out, in this order. -/
inductive Evolves (install : Bytes → Structures → Structures) (now : ℕ) (p : ℤ) :
    Store → List Applied → Store → Prop
  | refl (s : Store) : Evolves install now p s [] s
  | apply {s t : Store} {ys : List Applied} (y : Applied) : Evolves install now p s ys t →
      Evolves install now p s (ys ++ [y]) (y.msg.apply install y.env t)
  | other {s t t' : Store} {ys : List Applied} : Evolves install now p s ys t → t'.Inv →
      (∀ m k, partitionOf k = p →
        Inner.seen now (t'.contents (m, k)) = Inner.seen now (t.contents (m, k))) →
      Evolves install now p s ys t'

def Backup.On (m : Str) (k : Bytes) (msg : Backup) : Prop := ∃ v, msg.Does m k v

/-- The cell is as the write has left it, as it is seen at the time `now`. -/
def Backup.Shows (now : ℕ) (env : StoreEnv) (cell : Option Cell) : Backup → Prop
  | .put _ _ value ttlMs => ∃ stamp,
      Inner.seen now cell = Inner.seen now (some ⟨value, Inner.deadline env.now ttlMs, stamp⟩)
  | .remove _ _ => Inner.seen now cell = none
  | .structures _ => True

section Holds

variable {install : Bytes → Structures → Structures} {now : ℕ} {p : ℤ} {m : Str} {k : Bytes}

theorem Backup.Shows.congr {env : StoreEnv} {cell cell' : Option Cell}
    (h : msg.Shows now env cell) (hseen : Inner.seen now cell' = Inner.seen now cell) :
    msg.Shows now env cell' := by
  cases msg with
  | put name key value ttlMs =>
    obtain ⟨stamp, h⟩ := h
    exact ⟨stamp, hseen.trans h⟩
  | remove name key => exact hseen.trans h
  | structures payload => trivial

theorem Backup.apply_spec (install : Bytes → Structures → Structures) {s : Store} (hs : s.Inv)
    (env : StoreEnv) (hplaced : msg.Placed p) :
    (msg.apply install env s).Inv ∧
      (msg.On m k → msg.Shows now env ((msg.apply install env s).contents (m, k))) ∧
      (¬ msg.On m k → (msg.apply install env s).contents (m, k) = s.contents (m, k)) := by
  cases msg with
  | put name key value ttlMs =>
    obtain ⟨hinv, hcontents⟩ := hs.putTtl env name key value ttlMs hplaced.2
    refine ⟨hinv, fun hon => ?_, fun hoff => ?_⟩
    · obtain ⟨v, rfl, rfl, -⟩ := hon
      rw [Backup.apply, hcontents, update_self]
      exact ⟨_, rfl⟩
    · rw [Backup.apply, hcontents, update_of_ne]
      intro heq
      cases heq
      exact hoff ⟨some value, rfl, rfl, rfl⟩
  | remove name key =>
    obtain ⟨hinv, hcontents⟩ := hs.remove env name key
    refine ⟨hinv, fun hon => ?_, fun hoff => ?_⟩
    · obtain ⟨v, rfl, rfl, -⟩ := hon
      rw [Backup.apply, hcontents, update_self]
      exact rfl
    · rw [Backup.apply, hcontents, update_of_ne]
      intro heq
      cases heq
      exact hoff ⟨none, rfl, rfl, rfl⟩
  | structures payload =>
    refine ⟨hs.congr rfl, fun _ => trivial, fun _ => ?_⟩
    exact congrFun (contents_congr rfl) (m, k)

theorem Evolves.shows {s t : Store} {ys : List Applied} (h : Evolves install now p s ys t)
    (hs : s.Inv) (hk : partitionOf k = p) (hplaced : ∀ y ∈ ys, ∃ q, y.msg.Placed q)
    (hsorted : (ys.map Applied.opId).Pairwise (· < ·)) :
    t.Inv ∧ ((∃ y ∈ ys, y.msg.On m k) → ∃ z ∈ ys, z.msg.On m k ∧
      z.msg.Shows now z.env (t.contents (m, k)) ∧ ∀ y ∈ ys, y.msg.On m k → y.opId ≤ z.opId) := by
  induction h with
  | refl =>
    refine ⟨hs, fun ⟨y, hy, _⟩ => ?_⟩
    cases hy
  | @apply t ys y _ ih =>
    rw [map_append, pairwise_append] at hsorted
    obtain ⟨hinv, hlast⟩ := ih
      (fun z hz => hplaced z (mem_append_left _ hz)) hsorted.1
    obtain ⟨q, hq⟩ := hplaced y (mem_append_right _ mem_cons_self)
    obtain ⟨hinv', hon, hoff⟩ := Backup.apply_spec install hinv y.env hq
    refine ⟨hinv', fun hsome => ?_⟩
    by_cases hy : y.msg.On m k
    · refine ⟨y, mem_append_right _ mem_cons_self, hy, hon hy, fun z hz _ => ?_⟩
      rcases mem_append.mp hz with hz | hz
      · exact (hsorted.2.2 _ (mem_map_of_mem hz) _ mem_cons_self).le
      · rw [mem_singleton.mp hz]
    · have hback : ∀ z ∈ ys ++ [y], z.msg.On m k → z ∈ ys := fun z hz hzon => by
        rcases mem_append.mp hz with hz | hz
        · exact hz
        · rw [mem_singleton.mp hz] at hzon
          exact absurd hzon hy
      obtain ⟨z, hz, hzon⟩ := hsome
      obtain ⟨z, hz, hzon, hshows, hmax⟩ := hlast ⟨z, hback z hz hzon, hzon⟩
      rw [hoff hy]
      exact ⟨z, mem_append_left _ hz, hzon, hshows,
        fun z' hz' hzon' => hmax z' (hback z' hz' hzon') hzon'⟩
  | other _ hinv hseen ih =>
    refine ⟨hinv, fun hsome => ?_⟩
    obtain ⟨z, hz, hzon, hshows, hmax⟩ := (ih hplaced hsorted).2 hsome
    exact ⟨z, hz, hzon, hshows.congr (hseen m k hk), hmax⟩

end Holds

section Survival

variable {e : Engine} {aux : StructureCall → Structures → Option (ℤ × Bytes)} [Pbkdf2] {cfg : Cfg}

/-- In every run in which the view stays, when a write of an entry has been acknowledged by the
backups and the owner of its partition is then removed from the view, the new owner of the
partition has the entry as one of the writes that were sent has left it when this member carried
it out, and none of the acknowledged writes of the entry was issued after that one. -/
theorem acknowledged_survives {state : State e Shown} {capacity : ℕ}
    (hc : state.cluster.WellFormed) {w : World e}
    (h : Trace.Reaches (World.exec aux cfg) (fun _ event => FixedView event)
      (World.init state capacity) w)
    {d : Delivery e} (hd : d ∈ w.delivered) {x : Write e} (hx : d.release = .acked x)
    {m : Str} {k : Bytes} (hon : x.msg.On m k) {uuid : ℤ × ℤ}
    (huuid : state.cluster.indexOfUuid uuid = some (state.cluster.owner (partitionOf k)))
    {install : Bytes → Structures → Structures} {now : ℕ} {s t : Store} (hs : s.Inv)
    (hevolves : Evolves install now (partitionOf k) s
      (w.applied ((state.cluster.removeMemberByUuid uuid).1.owner (partitionOf k))) t) :
    ∃ z ∈ w.sent, z.msg.On m k ∧
      (∃ y ∈ w.applied ((state.cluster.removeMemberByUuid uuid).1.owner (partitionOf k)),
        y.opId = z.opId ∧ y.msg = z.msg ∧ z.msg.Shows now y.env (t.contents (m, k))) ∧
      ∀ d' ∈ w.delivered, ∀ x', d'.release = .acked x' → x'.msg.On m k → x'.opId ≤ z.opId := by
  have hsound : w.Sound :=
    h.invariant (fun _ event hw _ => hw.exec event) (World.sound_init state capacity)
  have htraced : w.Traced state.cluster :=
    h.invariant (fun _ event hw hok => hw.exec hok) (World.traced_init state capacity)
  have hhas : ∀ d' ∈ w.delivered, ∀ x', d'.release = .acked x' → x'.msg.On m k →
      w.Has ((state.cluster.removeMemberByUuid uuid).1.owner (partitionOf k)) x' := by
    intro d' hd' x' hx' hon'
    obtain ⟨hview, hsent, hne⟩ := htraced.acked d' hd' x' hx'
    have hpart : x'.partition = partitionOf k := by
      obtain ⟨v, hdoes⟩ := hon'
      exact hdoes.partition_eq (htraced.sent x' hsent)
    rw [hpart] at hne
    refine ((hsound.delivered d' hd').acked x' hx').2.2 _ ?_
    rw [hview, hpart]
    exact Membership.Cluster.owner_removeMemberByUuid_mem hc huuid hne
  have hsorted := (pairwise_append.mp
    (hsound.ordered ((state.cluster.removeMemberByUuid uuid).1.owner (partitionOf k)))).1
  have hplaced : ∀ y ∈ w.applied
      ((state.cluster.removeMemberByUuid uuid).1.owner (partitionOf k)),
      ∃ q, y.msg.Placed q := fun y hy => by
    obtain ⟨z, hz, -, hmsg⟩ := htraced.applied _ y hy
    exact ⟨_, hmsg ▸ htraced.sent z hz⟩
  obtain ⟨y, hy, -, hyx⟩ := hhas d hd x hx hon
  obtain ⟨z, hz, hzon, hshows, hmax⟩ :=
    (hevolves.shows hs rfl hplaced hsorted).2 ⟨y, hy, hyx ▸ hon⟩
  obtain ⟨z', hz', hop, hmsg⟩ := htraced.applied _ z hz
  refine ⟨z', hz', hmsg ▸ hzon, ⟨z, hz, hop.symm, hmsg.symm, hmsg ▸ hshows⟩,
    fun d' hd' x' hx' hon' => ?_⟩
  obtain ⟨y', hy', hop', hmsg'⟩ := hhas d' hd' x' hx' hon'
  rw [hop, ← hop']
  exact hmax y' hy' (hmsg' ▸ hon')

end Survival

/-! ### Two members -/

def Release.write? {e : Engine} : Release e → Option (Write e)
  | .acked x => some x
  | _ => none

theorem Release.eq_acked {e : Engine} {r : Release e} {x : Write e} (h : r.write? = some x) :
    r = .acked x := by
  cases r with
  | acked y =>
    cases h
    rfl
  | _ => cases h

theorem evolves_foldl (install : Bytes → Structures → Structures) (now : ℕ) (p : ℤ) (s : Store)
    (ys : List Applied) :
    Evolves install now p s ys (ys.foldl (fun t y => y.msg.apply install y.env t) s) := by
  induction ys using reverseRecOn with
  | nil => exact .refl s
  | append_singleton ys y ih =>
    rw [foldl_append]
    exact .apply y ih

def backupStore (events : List WorldEvent) : Store :=
  ((pairedRun 4 events).applied 1).foldl (fun t y => y.msg.apply (fun _ aux => aux) y.env t)
    (Store.withShardsSeed 1 2)

theorem acknowledged_survives_set : ∃ z ∈ (pairedRun 4 setEvents).sent, z.msg.On mapName [3] ∧
    ∃ y ∈ (pairedRun 4 setEvents).applied 1, y.opId = z.opId ∧ y.msg = z.msg ∧
      z.msg.Shows 0 y.env ((backupStore setEvents).contents (mapName, [3])) := by
  obtain ⟨d, hd, hmsg⟩ : ∃ d ∈ (pairedRun 4 setEvents).delivered,
      d.release.write?.map Write.msg = some (.put mapName [3] [30] 0) := by decide +kernel
  obtain ⟨x, hx, hmsg⟩ := Option.map_eq_some_iff.mp hmsg
  have hnew : (paired.cluster.removeMemberByUuid (1, 1)).1.owner (partitionOf [3]) = 1 := by
    decide +kernel
  have hallowed : Trace.Allowed (@World.exec idle noAux noHash secured)
      (fun _ event => FixedView event) (World.init paired 4) setEvents :=
    ⟨show Received (mapFrames 69376 [[3], [30]]) by decide, trivial, trivial, trivial, trivial⟩
  have hevolves := evolves_foldl (fun _ aux => aux) 0 (partitionOf [3]) (Store.withShardsSeed 1 2)
    ((pairedRun 4 setEvents).applied
      ((paired.cluster.removeMemberByUuid (1, 1)).1.owner (partitionOf [3])))
  obtain ⟨z, hz, hon, ⟨y, hy, hshows⟩, -⟩ := @acknowledged_survives idle noAux noHash secured paired 4
    (by decide) (pairedRun 4 setEvents) (.of_allowed setEvents hallowed) d hd x
    (Release.eq_acked hx) mapName [3] ⟨some [30], by rw [hmsg]; exact ⟨rfl, rfl, rfl⟩⟩ (1, 1)
    (by decide +kernel) _ 0 _ _ (Store.inv_withShardsSeed (by decide) 2).1 hevolves
  rw [hnew] at hy
  exact ⟨z, hz, hon, y, hy, hshows⟩

end BonsaiGrid.Server
