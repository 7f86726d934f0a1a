import BonsaiGrid.Server.Authorization
import BonsaiGrid.Server.Replication

/-!
# Replies and backups

A write that is handed over has exactly the change that its request made, and its reply is
released when each of the backups it was sent to has carried it out.
-/

namespace BonsaiGrid.Server

open Fault Protocol Security Store Membership World Function List Dict

/-- The write leaves the entry with this value, or without one. -/
def Backup.Does (m : Str) (k : Bytes) (v : Option Bytes) : Backup → Prop
  | .put name key value _ => m = name ∧ k = key ∧ v = some value
  | .remove name key => m = name ∧ k = key ∧ v = none
  | .structures _ => False

def Origin.Changes (o : Origin) (m : Str) (k : Bytes) : Prop :=
  (o.after.maps m).lookup k ≠ (o.before.maps m).lookup k

variable {e : Engine}

def Write.Faithful (x : Write e) : Prop :=
  ∀ m k, x.origin.Changes m k →
    x.partition = partitionOf k ∧ x.msg.Does m k ((x.origin.after.maps m).lookup k)

/-! ## The reactor -/

variable {msg : Backup}

section Reactor

variable {e : Engine} {aux : StructureCall → Structures → Option (ℤ × Bytes)} [Pbkdf2] {cfg : Cfg}
  {s s' : State e Shown} {replies : List (Reply e)}

theorem shipment_faithful {r : Request} (h : r.run e Shown.ops s cfg = .ok (s', replies))
    {type partition : ℤ}
    (hship : shipment aux type s'.store r = some (partition, msg)) {m : Str} {k : Bytes}
    (hchange : (s'.store.maps m).lookup k ≠ (s.store.maps m).lookup k) :
    partition = partitionOf k ∧ msg.Does m k ((s'.store.maps m).lookup k) := by
  cases r with
  | map name c =>
    cases c with
    | put key value ttlMs old =>
      cases h
      obtain ⟨hm, hk, hvalue⟩ := lookup_setMap (fun _ => AList.lookup_insert_ne) hchange
      rw [shipment] at hship
      split at hship
      · cases hship
        exact ⟨by rw [hk], hm, hk, hvalue.trans (AList.lookup_insert _)⟩
      · cases hship
    | remove key old =>
      cases h
      obtain ⟨hm, hk, hvalue⟩ := lookup_setMap (fun _ => AList.lookup_erase_ne) hchange
      rw [shipment] at hship
      split at hship
      · cases hship
        exact ⟨by rw [hk], hm, hk, hvalue.trans (AList.lookup_erase _ _)⟩
      · cases hship
    | _ => cases hship
  | call c =>
    cases h
    exact absurd rfl hchange
  | _ => cases hship

def isReplicated (type : ℤ) : Bool := type ∈ ([65792, 69376, 66304, 67840] : List ℤ)

/-- A request that writes to a map hands its write over, and finds the ring with room, unless
there are no backups. -/
def HandsOver (w : World e) (req : List Frame) : Prop :=
  ∀ type r, msgType req = .ok type → decode req type = .ok r →
    (∀ p, w.state.cluster.backupsOf p = []) ∨
    (∀ m, (m, .put) ∉ r.accesses e w.state ∧ (m, .remove) ∉ r.accesses e w.state) ∨
      isReplicated type ∧ w.rep.ring.length < w.rep.capacity

omit [Pbkdf2] in
theorem shipment_of_isReplicated (aux : StructureCall → Structures → Option (ℤ × Bytes))
    {type : ℤ} {req : List Frame} {r : Request} (h : isReplicated type)
    (hr : decode req type = .ok r) (after : Shown) :
    ∃ x, shipment aux type after r = some x := by
  have hmem : type ∈ ([65792, 69376, 66304, 67840] : List ℤ) := of_decide_eq_true h
  simp only [mem_cons, not_mem_nil, or_false] at hmem
  rw [← or_assoc] at hmem
  rcases hmem with hput | hremove
  · obtain ⟨name, key, value, ttlMs, old, rfl, -, -⟩ := decode_mapPut hput hr
    exact ⟨_, if_pos hput⟩
  · obtain ⟨name, key, old, rfl⟩ := decode_mapRemove hremove hr
    exact ⟨_, if_pos hremove⟩

/-- What a request does to the replicator: its number may go up, or a write that is what the
request changed is handed over and nothing is replied. -/
structure Served (rep rep' : Replicator e) (replies : List (Reply e)) : Prop where
  backups : rep'.backups = rep.backups
  nextOp : rep.nextOp ≤ rep'.nextOp
  ring : rep'.ring = rep.ring ∨ replies = [] ∧ rep'.nextOp = rep.nextOp + 1 ∧
    ∃ x : Write e, x.opId = rep.nextOp ∧ x.Faithful ∧ rep'.ring = rep.ring ++ [.replicate x]

omit [Pbkdf2] in
theorem Served.refl (rep : Replicator e) (replies : List (Reply e)) : Served rep rep replies :=
  ⟨rfl, le_refl _, .inl rfl⟩

omit [Pbkdf2] in
theorem Replicator.backups_push (rep : Replicator e) (job : MemberJob e) :
    (rep.push job).1.backups = rep.backups := by
  rw [push]
  split
  · rfl
  · rfl

omit [Pbkdf2] in
theorem Replicator.replicate_spec (rep : Replicator e) (partition : ℤ) (connId : ℕ)
    (response : List (Reply e)) (msg : Backup) (origin : Origin)
    (hfaithful : ∀ m k, origin.Changes m k →
      partition = partitionOf k ∧ msg.Does m k ((origin.after.maps m).lookup k)) :
    Served rep (rep.replicate partition connId response msg origin).1
        (if (rep.replicate partition connId response msg origin).2 then [] else response) ∧
      ((rep.replicate partition connId response msg origin).2 = false →
        rep.backups = 0 ∨ rep.capacity ≤ rep.ring.length) := by
  rw [replicate]
  split
  next hzero => exact ⟨.refl rep _, fun _ => .inl hzero⟩
  next =>
    rw [push]
    split
    next hroom =>
      refine ⟨⟨rfl, Nat.le_succ _, .inr ⟨rfl, rfl,
        ⟨partition, rep.nextOp, msg, connId, response, origin⟩, rfl, hfaithful, rfl⟩⟩, fun h => ?_⟩
      cases h
    next hfull =>
      exact ⟨⟨rfl, Nat.le_succ _, .inl rfl⟩, fun _ => .inr (Nat.not_lt.mp hfull)⟩

theorem serve_eq_ok {w : World e} {connId : ℕ} {req : List Frame} {rep' : Replicator e}
    (h : serve e aux cfg w.state w.rep connId req = .ok (s', rep', replies)) :
    s'.cluster = w.state.cluster ∧ Served w.rep rep' replies ∧
      (HandsOver w req → w.rep.backups = w.state.cluster.backups → replies ≠ [] → ∀ m k,
        (s'.store.maps m).lookup k ≠ (w.state.store.maps m).lookup k →
        w.state.cluster.backupsOf (partitionOf k) = []) := by
  rcases dispatchTo_eq_ok h with ⟨heq, -⟩ | ⟨corr, type, r, ⟨-, htype, -, hr⟩, h⟩
  · cases heq
    exact ⟨rfl, .refl _ _, fun _ _ _ m k hchange => absurd rfl hchange⟩
  · obtain ⟨⟨s₁, replies₁⟩, hrun, h⟩ := bind_eq_ok.mp h
    have hcluster := (Request.run_spec hrun).2.2
    have hquiet : (∀ m, (m, .put) ∉ r.accesses e w.state ∧ (m, .remove) ∉ r.accesses e w.state) →
        ∀ m k, (s₁.store.maps m).lookup k = (w.state.store.maps m).lookup k := fun hnone m k =>
      Request.lookup_eq hrun (hnone m).1 (hnone m).2 k
    dsimp only at h
    split at h
    next hship =>
      cases h
      refine ⟨hcluster, .refl _ _, fun hover _ _ m k hchange => ?_⟩
      rcases hover type r htype hr with hempty | hnone | ⟨hrep, -⟩
      · exact hempty _
      · exact absurd (hquiet hnone m k) hchange
      · obtain ⟨x, hx⟩ := shipment_of_isReplicated aux hrep hr s'.store
        rw [hship] at hx
        cases hx
    next partition msg hship =>
      split at h
      next hnil =>
        cases h
        refine ⟨hcluster, .refl _ _, fun _ _ _ m k hchange => ?_⟩
        rw [← (shipment_faithful hrun hship hchange).1]
        exact hnil
      next hbackups =>
        cases h
        obtain ⟨hserved, hnot⟩ := w.rep.replicate_spec partition connId replies₁ msg
          ⟨w.state.store, s'.store, w.state.cluster⟩
          fun m k hchange => shipment_faithful hrun hship hchange
        refine ⟨hcluster, hserved, fun hover hsame hreplies m k hchange => ?_⟩
        rcases hnot (by
          rw [Bool.eq_false_iff]
          intro hdeferred
          rw [if_pos hdeferred] at hreplies
          exact hreplies rfl) with hzero | hfull
        · exact absurd (Membership.Cluster.backupsOf_eq_nil (hsame ▸ hzero) partition) hbackups
        · rcases hover type r htype hr with hempty | hnone | ⟨-, hroom⟩
          · exact hempty _
          · exact absurd (hquiet hnone m k) hchange
          · omega

end Reactor

/-! ## The member thread and the links -/

def MemberJob.opId? : MemberJob e → Option ℕ
  | .replicate x => some x.opId
  | _ => none

namespace World

variable {e : Engine}

/-- The number is that of a write that has been taken from the ring. -/
def Taken (w : World e) (op : ℕ) : Prop :=
  op < w.rep.nextOp ∧ ∀ x, .replicate x ∈ w.rep.ring → op < x.opId

def Has (w : World e) (i : ℕ) (x : Write e) : Prop :=
  ∃ y ∈ w.applied i, y.opId = x.opId ∧ y.msg = x.msg

/-- A write whose reply waits: the backups of which no acknowledgement has come are counted, and
the others have carried it out. -/
structure Waits (w : World e) (op : ℕ) (x : PendingOp e) : Prop where
  opId : x.write.opId = op
  faithful : x.write.Faithful
  remaining : x.remaining = x.left.length
  nodup : x.left.Nodup
  left_ne : x.left ≠ []
  done : ∀ i ∈ x.view.backupsOf x.write.partition, i ∈ x.left ∨ w.Has i x.write

/-- A reply that the last acknowledgement released is to a write that all its backups have
carried out. -/
structure Released (w : World e) (d : Delivery e) : Prop where
  acked : ∀ x, d.release = .acked x → d.origin = x.origin ∧ x.Faithful ∧
    ∀ i ∈ d.thread.backupsOf x.partition, w.Has i x
  noBackup : d.release = .noBackup →
    ∃ x : Write e, d.origin = x.origin ∧ x.Faithful ∧ d.thread.backupsOf x.partition = []

structure Sound (w : World e) : Prop where
  ring : ∀ x, .replicate x ∈ w.rep.ring → x.Faithful ∧ x.opId < w.rep.nextOp
  sorted : (w.rep.ring.filterMap MemberJob.opId?).Pairwise (· < ·)
  pending : ∀ op x, w.pending.lookup op = some x → w.Waits op x ∧ w.Taken op
  links : ∀ i op msg, (op, msg) ∈ w.links i → w.Taken op ∧
    ∀ x, w.pending.lookup op = some x → msg = x.write.msg ∧ i ∈ x.left
  applied : ∀ i, ∀ y ∈ w.applied i, w.Taken y.opId
  ordered : ∀ i, ((w.applied i).map Applied.opId ++ (w.links i).map Prod.fst).Pairwise (· < ·)
  acks : ∀ op i, (op, i) ∈ w.acks → (∃ y ∈ w.applied i, y.opId = op) ∧
    ∀ x, w.pending.lookup op = some x → i ∈ x.left ∧ w.Has i x.write
  acks_nodup : w.acks.Nodup
  delivered : ∀ d ∈ w.delivered, w.Released d

variable {w w' : World e}

theorem Waits.mono {op : ℕ} {x : PendingOp e} (h : w.Waits op x)
    (happlied : ∀ i, w.applied i ⊆ w'.applied i := by exact fun _ => List.Subset.refl _) :
    w'.Waits op x :=
  { h with done := fun i hi => (h.done i hi).imp_right fun ⟨y, hy, hyx⟩ => ⟨y, happlied i hy, hyx⟩ }

theorem Released.mono {d : Delivery e} (h : w.Released d)
    (happlied : ∀ i, w.applied i ⊆ w'.applied i := by exact fun _ => List.Subset.refl _) :
    w'.Released d where
  acked x hx := by
    obtain ⟨horigin, hfaithful, hhas⟩ := h.acked x hx
    refine ⟨horigin, hfaithful, fun i hi => ?_⟩
    obtain ⟨y, hy, hyx⟩ := hhas i hi
    exact ⟨y, happlied i hy, hyx⟩
  noBackup := h.noBackup

namespace Sound

section

variable (h : w.Sound)

include h

theorem applied_lt {i op : ℕ} (hlink : (op, msg) ∈ w.links i)
    {y : Applied} (hy : y ∈ w.applied i) : y.opId < op :=
  (pairwise_append.mp (h.ordered i)).2.2 _ (mem_map_of_mem hy) _
    (mem_map_of_mem hlink)

theorem putRep {state : State e Shown} {rep : Replicator e}
    {delivered : List (Delivery e)}
    (hring : ∀ x, .replicate x ∈ rep.ring → x.Faithful ∧ x.opId < rep.nextOp)
    (hsorted : (rep.ring.filterMap MemberJob.opId?).Pairwise (· < ·))
    (htaken : ∀ op, w.Taken op → op < rep.nextOp ∧ ∀ x, .replicate x ∈ rep.ring → op < x.opId)
    (hdelivered : ∀ d ∈ delivered, w.Released d) :
    Sound { w with state, rep, delivered } where
  ring := hring
  sorted := hsorted
  pending op x hx := ⟨(h.pending op x hx).1.mono,
    htaken op (h.pending op x hx).2⟩
  links i op msg hmem := ⟨htaken op (h.links i op msg hmem).1, (h.links i op msg hmem).2⟩
  applied i y hy := htaken _ (h.applied i y hy)
  ordered := h.ordered
  acks := h.acks
  acks_nodup := h.acks_nodup
  delivered d hd := (hdelivered d hd).mono

theorem lose {thread : Membership.Cluster} {links : ℕ → List (ℕ × Backup)} {acks : List (ℕ × ℕ)}
    (hlinks : ∀ i, (links i).Sublist (w.links i)) (hacks : acks.Sublist w.acks) :
    Sound { w with thread, links, acks } where
  ring := h.ring
  sorted := h.sorted
  pending op x hx := ⟨(h.pending op x hx).1.mono, (h.pending op x hx).2⟩
  links i op msg hmem := h.links i op msg ((hlinks i).subset hmem)
  applied := h.applied
  ordered i := (h.ordered i).sublist ((List.Sublist.refl _).append ((hlinks i).map _))
  acks op i hmem := h.acks op i (hacks.subset hmem)
  acks_nodup := h.acks_nodup.sublist hacks
  delivered d hd := (h.delivered d hd).mono

theorem setThread (thread : Membership.Cluster) : Sound { w with thread } :=
  h.lose (fun _ => .refl _) (.refl _)

theorem deliver {new : List (Delivery e)} (hnew : ∀ d ∈ new, w.Released d) :
    Sound { w with delivered := w.delivered ++ new } :=
  h.putRep h.ring h.sorted (fun _ hop => hop) fun d hd =>
    (mem_append.mp hd).elim (h.delivered d) (hnew d)

theorem request {state : State e Shown} {rep : Replicator e}
    {replies : List (Reply e)} {delivered : List (Delivery e)}
    (hserved : Served w.rep rep replies) (hdelivered : ∀ d ∈ delivered, w.Released d) :
    Sound { w with state, rep, delivered } := by
  rcases hserved.ring with hring | ⟨-, hnext, x, hx, hfaithful, hring⟩
  · refine h.putRep (fun y hy => ?_) (hring ▸ h.sorted) (fun op hop => ?_) hdelivered
    · obtain ⟨hfaithful, hlt⟩ := h.ring y (hring ▸ hy)
      exact ⟨hfaithful, hlt.trans_le hserved.nextOp⟩
    · exact ⟨hop.1.trans_le hserved.nextOp, hring ▸ hop.2⟩
  · have hmem : ∀ y, .replicate y ∈ rep.ring → .replicate y ∈ w.rep.ring ∨ y = x := fun y hy => by
      simpa [hring] using hy
    refine h.putRep (fun y hy => ?_) ?_ (fun op hop => ?_) hdelivered
    · rcases hmem y hy with hy | rfl
      · obtain ⟨hfaithful, hlt⟩ := h.ring y hy
        exact ⟨hfaithful, by omega⟩
      · exact ⟨hfaithful, by omega⟩
    · rw [hring, filterMap_append]
      refine h.sorted.concat fun a ha => ?_
      obtain ⟨job, hjob, hja⟩ := mem_filterMap.mp ha
      cases job with
      | replicate y =>
        cases hja
        rw [hx]
        exact (h.ring y hjob).2
      | membership c | other => cases hja
    · refine ⟨by have := hop.1; omega, fun y hy => ?_⟩
      rcases hmem y hy with hy | rfl
      · exact hop.2 y hy
      · rw [hx]
        exact hop.1

variable {job : MemberJob e}

theorem push (state : State e Shown) (hjob : job.opId? = none) :
    Sound { w with state, rep := (w.rep.push job).1 } := by
  rw [Replicator.push]
  split
  · have hmem : ∀ x, .replicate x ∈ w.rep.ring ++ [job] → .replicate x ∈ w.rep.ring :=
        fun x hx => by
      refine (mem_append.mp hx).resolve_right fun hx => ?_
      rw [← mem_singleton.mp hx] at hjob
      cases hjob
    refine h.putRep (fun x hx => h.ring x (hmem x hx)) ?_
      (fun op hop => ⟨hop.1, fun x hx => hop.2 x (hmem x hx)⟩) h.delivered
    rw [filterMap_append, filterMap_cons_none hjob, filterMap_nil, append_nil]
    exact h.sorted
  · exact h.putRep h.ring h.sorted (fun _ hop => hop) h.delivered

theorem dropJob {ring : List (MemberJob e)}
    (hring : w.rep.ring = job :: ring) : Sound { w with rep := { w.rep with ring } } := by
  have hmem : ∀ x, .replicate x ∈ ring → .replicate x ∈ w.rep.ring := fun x hx => by
    rw [hring]
    exact mem_cons_of_mem _ hx
  refine h.putRep (fun x hx => h.ring x (hmem x hx)) ?_
    (fun op hop => ⟨hop.1, fun x hx => hop.2 x (hmem x hx)⟩) h.delivered
  have hsorted := h.sorted
  rw [hring] at hsorted
  exact hsorted.sublist ((sublist_cons_self job ring).filterMap _)

theorem send {x : Write e} (hfaithful : x.Faithful) (htaken : w.Taken x.opId)
    (hlinks : ∀ i op msg, (op, msg) ∈ w.links i → op < x.opId)
    (happlied : ∀ i, ∀ y ∈ w.applied i, y.opId < x.opId)
    (hsome : w.thread.backupsOf x.partition ≠ []) :
    Sound { w with
      sent := w.sent ++ [x]
      links := fun i => w.links i ++
        ((w.thread.backupsOf x.partition).filter (· = i)).map fun _ => (x.opId, x.msg)
      pending := w.pending.insert x.opId
        ⟨(w.thread.backupsOf x.partition).length, 0, x, w.thread,
          w.thread.backupsOf x.partition⟩ } := by
  have hnodup := w.thread.nodup_backupsOf x.partition
  refine ⟨h.ring, h.sorted, fun op y hy => ?_, fun i op msg hmem => ?_, h.applied, fun i => ?_,
    fun op i hmem => ?_, h.acks_nodup, fun d hd => ?_⟩
  · rcases lookup_insert_eq_some hy with ⟨rfl, rfl⟩ | hy
    · exact ⟨⟨rfl, hfaithful, rfl, hnodup, hsome, fun i hi => .inl hi⟩, htaken⟩
    · exact ⟨(h.pending op y hy).1.mono, (h.pending op y hy).2⟩
  · rcases mem_append.mp hmem with hmem | hmem
    · refine ⟨(h.links i op msg hmem).1, fun y hy => ?_⟩
      rcases lookup_insert_eq_some hy with ⟨rfl, -⟩ | hy
      · exact absurd (hlinks i x.opId msg hmem) (lt_irrefl _)
      · exact (h.links i op msg hmem).2 y hy
    · obtain ⟨j, hj, heq⟩ := mem_map.mp hmem
      cases heq
      refine ⟨htaken, fun y hy => ?_⟩
      rw [AList.lookup_insert] at hy
      cases hy
      obtain ⟨hj, hji⟩ := mem_filter.mp hj
      exact ⟨rfl, of_decide_eq_true hji ▸ hj⟩
  · have hnew : ((((w.thread.backupsOf x.partition).filter (· = i)).map
        fun _ => (x.opId, x.msg)).map Prod.fst).Pairwise (· < ·) := by
      have hlen : ((w.thread.backupsOf x.partition).filter (· = i)).length ≤ 1 := by
        rw [← countP_eq_length_filter]
        exact nodup_iff_count_le_one.mp hnodup i
      match hl : (w.thread.backupsOf x.partition).filter (· = i) with
      | [] => exact List.Pairwise.nil
      | [j] => exact pairwise_singleton _ _
      | j :: k :: rest =>
        rw [hl, length_cons, length_cons] at hlen
        omega
    rw [map_append, ← append_assoc, pairwise_append]
    refine ⟨h.ordered i, hnew, fun a ha b hb => ?_⟩
    have hb : b = x.opId := by
      obtain ⟨y, hy, rfl⟩ := mem_map.mp hb
      obtain ⟨_, _, rfl⟩ := mem_map.mp hy
      rfl
    rw [hb]
    rcases mem_append.mp ha with ha | ha
    · obtain ⟨y, hy, rfl⟩ := mem_map.mp ha
      exact happlied i y hy
    · obtain ⟨y, hy, rfl⟩ := mem_map.mp ha
      exact hlinks i y.1 y.2 hy
  · obtain ⟨⟨y, hy, hyop⟩, hack⟩ := h.acks op i hmem
    refine ⟨⟨y, hy, hyop⟩, fun z hz => ?_⟩
    rcases lookup_insert_eq_some hz with ⟨rfl, -⟩ | hz
    · exact absurd (happlied i y hy) (hyop ▸ lt_irrefl _)
    · exact hack z hz
  · exact (h.delivered d hd).mono

theorem pop {ring : List (MemberJob e)}
    (hring : w.rep.ring = job :: ring) :
    Sound ({ w with rep := { w.rep with ring } }.takeJob job) := by
  have hdrop := h.dropJob hring
  cases job with
  | membership c => exact hdrop.setThread c
  | other => exact hdrop
  | replicate x =>
    have hmem : .replicate x ∈ w.rep.ring := by
      rw [hring]
      exact mem_cons_self
    obtain ⟨hfaithful, hlt⟩ := h.ring x hmem
    rw [takeJob]
    split
    next hnil =>
      refine hdrop.deliver fun d hd => ?_
      cases mem_singleton.mp hd
      exact ⟨fun y hy => (by cases hy), fun _ => ⟨x, rfl, hfaithful, hnil⟩⟩
    next hsome =>
      have hsorted : (x.opId :: ring.filterMap MemberJob.opId?).Pairwise (· < ·) := by
        have hall := h.sorted
        rw [hring] at hall
        exact hall
      refine hdrop.send hfaithful ⟨hlt, fun y hy => ?_⟩ (fun i op msg hm => ?_)
        (fun i y hy => ?_) hsome
      · exact (pairwise_cons.mp hsorted).1 _ (mem_filterMap.mpr ⟨_, hy, rfl⟩)
      · exact (h.links i op msg hm).1.2 x hmem
      · exact (h.applied i y hy).2 x hmem

theorem sweep : w.sweep.Sound := by
  have hlookup : ∀ op x, w.sweep.pending.lookup op = some x →
      ∃ y, w.pending.lookup op = some y ∧ x = { y with age := y.age + 1 } := fun op x hx => by
    have haged := (lookup_retain.mp hx).1
    rw [lookup_mapVal, Option.map_eq_some_iff] at haged
    obtain ⟨y, hy, rfl⟩ := haged
    exact ⟨y, hy, rfl⟩
  refine ⟨h.ring, h.sorted, fun op x hx => ?_, fun i op msg hmem => ?_, h.applied, h.ordered,
    fun op i hmem => ?_, h.acks_nodup, fun d hd => ?_⟩
  · obtain ⟨y, hy, rfl⟩ := hlookup op x hx
    obtain ⟨hwaits, htaken⟩ := h.pending op y hy
    exact ⟨⟨hwaits.opId, hwaits.faithful, hwaits.remaining, hwaits.nodup, hwaits.left_ne,
      hwaits.done⟩, htaken⟩
  · refine ⟨(h.links i op msg hmem).1, fun x hx => ?_⟩
    obtain ⟨y, hy, rfl⟩ := hlookup op x hx
    exact (h.links i op msg hmem).2 y hy
  · refine ⟨(h.acks op i hmem).1, fun x hx => ?_⟩
    obtain ⟨y, hy, rfl⟩ := hlookup op x hx
    exact (h.acks op i hmem).2 y hy
  · rcases mem_append.mp hd with hd | hd
    · exact (h.delivered d hd).mono
    · obtain ⟨x, -, rfl⟩ := mem_map.mp hd
      exact ⟨fun y hy => (by cases hy), fun hy => (by cases hy)⟩

theorem apply {i op : ℕ} {link : List (ℕ × Backup)}
    (hlink : w.links i = (op, msg) :: link) (env : StoreEnv) :
    Sound { w with
      links := update w.links i link
      applied := update w.applied i (w.applied i ++ [⟨op, msg, env⟩])
      acks := w.acks ++ [(op, i)] } := by
  have hhead : (op, msg) ∈ w.links i := by
    rw [hlink]
    exact mem_cons_self
  have happlied : ∀ j, w.applied j ⊆
      update w.applied i (w.applied i ++ [⟨op, msg, env⟩]) j := fun j y hy => by
    rw [update_apply]
    split
    next hj => exact mem_append_left _ (hj ▸ hy)
    next => exact hy
  have hlinks : ∀ j x, x ∈ update w.links i link j → x ∈ w.links j := fun j x hx => by
    rw [update_apply] at hx
    split at hx
    next hj =>
      rw [hj, hlink]
      exact mem_cons_of_mem _ hx
    next => exact hx
  have hnew : (⟨op, msg, env⟩ : Applied) ∈
      update w.applied i (w.applied i ++ [⟨op, msg, env⟩]) i := by
    rw [update_self]
    exact mem_append_right _ mem_cons_self
  refine ⟨h.ring, h.sorted, fun op' x hx => ?_, fun j op' msg' hmem => ?_, fun j y hy => ?_,
    fun j => ?_, fun op' j hmem => ?_, ?_, fun d hd => ?_⟩
  · exact ⟨(h.pending op' x hx).1.mono happlied, (h.pending op' x hx).2⟩
  · exact h.links j op' msg' (hlinks j _ hmem)
  · dsimp only at hy
    rw [update_apply] at hy
    split at hy
    next hj =>
      exact forall_mem_concat (h.applied i) (h.links i op msg hhead).1 y hy
    next => exact h.applied j y hy
  · by_cases hj : j = i
    · subst hj
      have hordered := h.ordered j
      rw [hlink] at hordered
      simp only [update_self, map_append, map_cons, map_nil,
        append_assoc, singleton_append]
      exact hordered
    · simp only [update_of_ne hj]
      exact h.ordered j
  · rcases mem_append.mp hmem with hmem | hmem
    · obtain ⟨⟨y, hy, hyop⟩, hack⟩ := h.acks op' j hmem
      refine ⟨⟨y, happlied j hy, hyop⟩, fun x hx => ?_⟩
      obtain ⟨hleft, z, hz, hzx⟩ := hack x hx
      exact ⟨hleft, z, happlied j hz, hzx⟩
    · cases mem_singleton.mp hmem
      refine ⟨⟨_, hnew, rfl⟩, fun x hx => ?_⟩
      obtain ⟨hmsg, hleft⟩ := (h.links i op msg hhead).2 x hx
      exact ⟨hleft, _, hnew, (h.pending op x hx).1.opId.symm, hmsg⟩
  · refine Pairwise.concat h.acks_nodup fun a ha => ?_
    rintro rfl
    obtain ⟨⟨y, hy, hyop⟩, -⟩ := h.acks op i ha
    exact absurd (h.applied_lt hhead hy) (by omega)
  · exact (h.delivered d hd).mono happlied

theorem ack {k op src : ℕ} (hk : w.acks[k]? = some (op, src)) :
    Sound ({ w with acks := w.acks.eraseIdx k }.ack op src) := by
  have hlose : Sound { w with acks := w.acks.eraseIdx k } :=
    h.lose (fun _ => List.Sublist.refl _) (eraseIdx_sublist _ _)
  have hmem : (op, src) ∈ w.acks := mem_of_getElem? hk
  have hgone : (op, src) ∉ w.acks.eraseIdx k := by
    obtain ⟨hlt, hget⟩ := List.getElem?_eq_some_iff.mp hk
    rw [← h.acks_nodup.erase_getElem k hlt, hget]
    exact h.acks_nodup.not_mem_erase
  rw [World.ack]
  split
  · exact hlose
  next x hx =>
    obtain ⟨hwaits, htaken⟩ := h.pending op x hx
    obtain ⟨⟨y, hy, hyop⟩, hack⟩ := h.acks op src hmem
    obtain ⟨hsrc, hhas⟩ := hack x hx
    have hdone : ∀ i ∈ x.view.backupsOf x.write.partition,
        i ∈ x.left.erase src ∨ w.Has i x.write := fun i hi => by
      by_cases his : i = src
      · exact .inr (his ▸ hhas)
      · exact (hwaits.done i hi).imp_left (mem_erase_of_ne his).mpr
    have hlen : (x.left.erase src).length = x.remaining - 1 := by
      rw [length_erase_of_mem hsrc, hwaits.remaining]
    split
    next hlast =>
      have hnil : x.left.erase src = [] := length_eq_zero_iff.mp (hlen.trans hlast)
      refine ⟨h.ring, h.sorted, fun op' z hz => ?_, fun i op' msg hm => ?_, h.applied, h.ordered,
        fun op' i hm => ?_, hlose.acks_nodup, fun d hd => ?_⟩
      · have hz := (lookup_of_lookup_erase hz).2
        exact ⟨(h.pending op' z hz).1.mono, (h.pending op' z hz).2⟩
      · exact ⟨(h.links i op' msg hm).1, fun z hz =>
          (h.links i op' msg hm).2 z (lookup_of_lookup_erase hz).2⟩
      · obtain ⟨happ, hrest⟩ := hlose.acks op' i hm
        exact ⟨happ, fun z hz => hrest z (lookup_of_lookup_erase hz).2⟩
      · refine forall_mem_concat (fun d hd => (h.delivered d hd).mono) ?_ d hd
        refine ⟨fun z hz => ?_, fun hz => (by cases hz)⟩
        cases hz
        refine ⟨rfl, hwaits.faithful, fun i hi => ?_⟩
        rw [hnil] at hdone
        exact (hdone i hi).resolve_left (not_mem_nil)
    next hmore =>
      refine ⟨h.ring, h.sorted, fun op' z hz => ?_, fun i op' msg hm => ?_, h.applied, h.ordered,
        fun op' i hm => ?_, hlose.acks_nodup, fun d hd => ?_⟩
      · rcases lookup_insert_eq_some hz with ⟨rfl, rfl⟩ | hz
        · refine ⟨⟨hwaits.opId, hwaits.faithful, hlen.symm, hwaits.nodup.erase src, fun hnil => ?_,
            hdone⟩, htaken⟩
          dsimp only at hnil
          rw [hnil] at hlen
          exact hmore hlen.symm
        · exact ⟨(h.pending op' z hz).1.mono, (h.pending op' z hz).2⟩
      · refine ⟨(h.links i op' msg hm).1, fun z hz => ?_⟩
        rcases lookup_insert_eq_some hz with ⟨rfl, rfl⟩ | hz
        · obtain ⟨hmsg, hleft⟩ := (h.links i op' msg hm).2 x hx
          refine ⟨hmsg, (mem_erase_of_ne ?_).mpr hleft⟩
          rintro rfl
          exact absurd (h.applied_lt hm hy) (by omega)
        · exact (h.links i op' msg hm).2 z hz
      · obtain ⟨happ, hrest⟩ := hlose.acks op' i hm
        refine ⟨happ, fun z hz => ?_⟩
        rcases lookup_insert_eq_some hz with ⟨rfl, rfl⟩ | hz
        · obtain ⟨hleft, hhas'⟩ := hrest x hx
          refine ⟨(mem_erase_of_ne ?_).mpr hleft, hhas'⟩
          rintro rfl
          exact hgone hm
        · exact hrest z hz
      · exact (h.delivered d hd).mono

end

variable {aux : StructureCall → Structures → Option (ℤ × Bytes)} [Pbkdf2] {cfg : Cfg}

theorem exec (h : w.Sound) (event : WorldEvent) : (w.exec aux cfg event).Sound := by
  cases event with
  | request connId req =>
    rw [World.exec, World.request]
    split
    · exact h
    next state rep replies hserve =>
      refine h.request (serve_eq_ok hserve).2.1 fun d hd => ?_
      rcases mem_append.mp hd with hd | hd
      · exact h.delivered d hd
      · split at hd
        · cases hd
        · cases mem_singleton.mp hd
          exact ⟨fun z hz => (by cases hz), fun hz => (by cases hz)⟩
  | outside store => exact h.putRep h.ring h.sorted (fun _ hop => hop) h.delivered
  | view generation members alive =>
    exact h.putRep h.ring h.sorted (fun _ hop => hop) h.delivered
  | promote joinId | otherJob => exact h.push _ rfl
  | threadView c => exact h.setThread c
  | pop =>
    rw [World.exec]
    split
    · exact h
    next job ring hring => exact h.pop hring
  | sweep => exact h.sweep
  | deliver i env =>
    rw [World.exec]
    split
    · exact h
    next op msg link hlink => exact h.apply hlink env
  | lose i k =>
    refine h.lose (fun j => ?_) (List.Sublist.refl _)
    rw [update_apply]
    split
    next hj =>
      rw [hj]
      exact eraseIdx_sublist _ _
    next => exact List.Sublist.refl _
  | ack k =>
    rw [World.exec]
    split
    · exact h
    next op src hk => exact h.ack hk
  | loseAck k => exact h.lose (fun _ => List.Sublist.refl _) (eraseIdx_sublist _ _)

end Sound

/-- What holds all the time when every write is handed over: a reply that is given at once is to
a request that changed nothing that has a backup. -/
structure Prompt (w : World e) : Prop where
  backups : w.rep.backups = w.state.cluster.backups
  atOnce : ∀ d ∈ w.delivered, d.release = .atOnce → ∀ m k, d.origin.Changes m k →
    d.origin.view.backupsOf (partitionOf k) = []

theorem Prompt.of_delivered (h : w.Prompt) (hbackups : w'.rep.backups = w.rep.backups)
    (hcluster : w'.state.cluster.backups = w.state.cluster.backups)
    (hdelivered : ∀ d ∈ w'.delivered, d ∈ w.delivered ∨ d.release ≠ .atOnce) : w'.Prompt where
  backups := by rw [hbackups, hcluster, h.backups]
  atOnce d hd hrel := h.atOnce d ((hdelivered d hd).resolve_right fun hne => hne hrel) hrel

theorem Prompt.takeJob (h : w.Prompt) (job : MemberJob e) : (w.takeJob job).Prompt := by
  cases job with
  | replicate x =>
    rw [World.takeJob]
    split
    · exact h.of_delivered rfl rfl (forall_mem_concat (fun d => .inl) (.inr (by simp)))
    · exact h.of_delivered rfl rfl fun d hd => .inl hd
  | membership c => exact h.of_delivered rfl rfl fun d hd => .inl hd
  | other => exact h

theorem Prompt.ack (h : w.Prompt) (op src : ℕ) : (w.ack op src).Prompt := by
  rw [World.ack]
  split
  · exact h
  · split
    · exact h.of_delivered rfl rfl (forall_mem_concat (fun d => .inl) (.inr (by simp)))
    · exact h.of_delivered rfl rfl fun d hd => .inl hd

theorem Prompt.sweep (h : w.Prompt) : w.sweep.Prompt := by
  refine h.of_delivered rfl rfl fun d hd => ?_
  rcases mem_append.mp hd with hd | hd
  · exact .inl hd
  · obtain ⟨x, -, rfl⟩ := mem_map.mp hd
    exact .inr fun hrel => (by cases hrel)

section Run

variable (aux : StructureCall → Structures → Option (ℤ × Bytes)) [Pbkdf2] (cfg : Cfg)

theorem Prompt.exec (h : w.Prompt) (event : WorldEvent)
    (hok : ∀ connId req, event = .request connId req → HandsOver w req) :
    (w.exec aux cfg event).Prompt := by
  cases event with
  | request connId req =>
    rw [World.exec, World.request]
    split
    · exact h
    next state rep replies hserve =>
      obtain ⟨hcluster, hserved, hnone⟩ := serve_eq_ok hserve
      refine ⟨by rw [hserved.backups, hcluster, h.backups], fun d hd hrel m k hchange => ?_⟩
      rcases mem_append.mp hd with hd | hd
      · exact h.atOnce d hd hrel m k hchange
      · split at hd
        · cases hd
        next hreplies =>
          cases mem_singleton.mp hd
          exact hnone (hok connId req rfl) h.backups hreplies m k hchange
  | outside store => exact h.of_delivered rfl rfl fun d hd => .inl hd
  | view generation members alive =>
    exact h.of_delivered rfl (Membership.Cluster.backups_setView _ _ _ _) fun d hd => .inl hd
  | promote joinId =>
    exact h.of_delivered (Replicator.backups_push _ _) (Membership.Cluster.backups_promote _ _)
      fun d hd => .inl hd
  | otherJob => exact h.of_delivered (Replicator.backups_push _ _) rfl fun d hd => .inl hd
  | threadView c => exact h.of_delivered rfl rfl fun d hd => .inl hd
  | pop =>
    rw [World.exec]
    split
    · exact h
    next job ring hring =>
      refine Prompt.takeJob ?_ job
      exact h.of_delivered rfl rfl fun d hd => .inl hd
  | sweep => exact h.sweep
  | deliver i env =>
    rw [World.exec]
    split
    · exact h
    · exact h.of_delivered rfl rfl fun d hd => .inl hd
  | lose i k => exact h.of_delivered rfl rfl fun d hd => .inl hd
  | ack k =>
    rw [World.exec]
    split
    · exact h
    · refine Prompt.ack ?_ _ _
      exact h.of_delivered rfl rfl fun d hd => .inl hd
  | loseAck k => exact h.of_delivered rfl rfl fun d hd => .inl hd

end Run

theorem sound_init (state : State e Shown) (capacity : ℕ) : (init state capacity).Sound where
  ring x hx := by cases hx
  sorted := List.Pairwise.nil
  pending op x hx := by cases hx
  links i op msg hm := by cases hm
  applied i y hy := by cases hy
  ordered i := List.Pairwise.nil
  acks op i hm := by cases hm
  acks_nodup := nodup_nil
  delivered d hd := by cases hd

theorem prompt_init (state : State e Shown) (capacity : ℕ) : (init state capacity).Prompt where
  backups := rfl
  atOnce d hd := by cases hd

end World

section Acknowledged

variable {e : Engine} {aux : StructureCall → Structures → Option (ℤ × Bytes)} [Pbkdf2] {cfg : Cfg}

/-- In every run in which the writes to maps are handed over, a reply that the sweep did not
release is to a request all of whose changes the backups have carried out: each of the backups
that the partition has for the member thread has applied the write of this very request. -/
theorem acknowledged_on_backups {state : State e Shown} {capacity : ℕ} {w : World e}
    (h : Trace.Reaches (exec aux cfg)
      (fun w event => ∀ connId req, event = .request connId req → HandsOver w req)
      (init state capacity) w)
    {d : Delivery e} (hd : d ∈ w.delivered) (hswept : d.release ≠ .swept) {m : Str} {k : Bytes}
    (hchange : d.origin.Changes m k) (hbackups : d.origin.view.backupsOf (partitionOf k) ≠ [])
    {i : ℕ} (hi : i ∈ d.thread.backupsOf (partitionOf k)) :
    ∃ x : Write e, d.release = .acked x ∧ d.origin = x.origin ∧
      ∃ y ∈ w.applied i, y.opId = x.opId ∧ y.msg.Does m k ((d.origin.after.maps m).lookup k) := by
  have hsound : w.Sound :=
    h.invariant (fun _ event hw _ => hw.exec event) (sound_init state capacity)
  have hprompt : w.Prompt :=
    h.invariant (fun _ event hw hok => hw.exec aux cfg event hok) (prompt_init state capacity)
  have hreleased := hsound.delivered d hd
  cases hrel : d.release with
  | atOnce => exact absurd (hprompt.atOnce d hd hrel m k hchange) hbackups
  | noBackup =>
    obtain ⟨x, horigin, hfaithful, hnil⟩ := hreleased.noBackup hrel
    rw [← (hfaithful m k (horigin ▸ hchange)).1, hnil] at hi
    cases hi
  | acked x =>
    obtain ⟨horigin, hfaithful, hhas⟩ := hreleased.acked x hrel
    obtain ⟨hpart, hdoes⟩ := hfaithful m k (horigin ▸ hchange)
    obtain ⟨y, hy, hop, hmsg⟩ := hhas i (hpart ▸ hi)
    exact ⟨x, rfl, horigin, y, hy, hop, by rw [hmsg, horigin]; exact hdoes⟩
  | swept => exact absurd hrel hswept

end Acknowledged

/-! ### Two members -/

def paired : State idle Shown :=
  { oneEntry with cluster := .new (Membership.bootstrapMembers 2) 1 1 }

def noAux : StructureCall → Structures → Option (ℤ × Bytes) := fun _ _ => none

def mapFrames (type : ℕ) (frames : List Bytes) : List Frame :=
  ⟨unfragmented, writeI32Le type ++ replicate 28 0⟩ ::
    (mapName.bytes :: frames).map fun content => ⟨0, content⟩

def setEvents : List WorldEvent :=
  [.request 5 (mapFrames 69376 [[3], [30]]), .pop, .deliver 1 ⟨⟨0, 0⟩, 0⟩, .ack 0]

def Release.isSwept : Release e → Bool
  | .swept => true
  | _ => false

def pairedRun (capacity : ℕ) (events : List WorldEvent) : World idle :=
  events.foldl (@exec idle noAux noHash secured) (init paired capacity)

theorem handsOver_set (w : World idle) (key value : Bytes)
    (hroom : w.rep.ring.length < w.rep.capacity) :
    HandsOver w (mapFrames 69376 [key, value]) := by
  intro type r htype _
  cases htype
  exact .inr (.inr ⟨by decide, hroom⟩)

theorem allowed_setEvents : Trace.Allowed (@exec idle noAux noHash secured)
    (fun w event => ∀ connId req, event = .request connId req → HandsOver w req)
    (init paired 4) setEvents := by
  refine ⟨fun connId req h => ?_, fun _ _ h => (by cases h), fun _ _ h => (by cases h),
    fun _ _ h => (by cases h), trivial⟩
  cases h
  exact handsOver_set _ _ _ (by decide)

theorem acknowledged_on_backups_set : ∃ d ∈ (pairedRun 4 setEvents).delivered,
    ∃ y ∈ (pairedRun 4 setEvents).applied 1,
      y.msg.Does mapName [3] ((d.origin.after.maps mapName).lookup [3]) := by
  obtain ⟨d, hd, hswept, hchange, hbackups, hi⟩ : ∃ d ∈ (pairedRun 4 setEvents).delivered,
      d.release.isSwept = false ∧
      (d.origin.after.maps mapName).lookup [3] ≠ (d.origin.before.maps mapName).lookup [3] ∧
      d.origin.view.backupsOf (partitionOf [3]) ≠ [] ∧
      1 ∈ d.thread.backupsOf (partitionOf [3]) := by decide +kernel
  obtain ⟨x, -, -, y, hy, -, hdoes⟩ := @acknowledged_on_backups idle noAux noHash secured paired 4
    (pairedRun 4 setEvents) (.of_allowed setEvents allowed_setEvents) d hd
    (fun h => by rw [h] at hswept; cases hswept) mapName [3] hchange hbackups 1 hi
  exact ⟨d, hd, y, hy, hdoes⟩

/-- A reply to a request that changed the entry has been given, not by the sweep, before a
backup of it has carried out any write. -/
def World.Exposed (w : World e) (m : Str) (k : Bytes) : Prop :=
  ∃ d ∈ w.delivered, d.release.isSwept = false ∧ d.origin.Changes m k ∧
    d.origin.view.backupsOf (partitionOf k) ≠ [] ∧
    ∃ i ∈ d.thread.backupsOf (partitionOf k), w.applied i = []

/-- A `MapPutIfAbsent` is replied to at once, and so is a `MapSet` that finds the ring full. -/
theorem acknowledged_without_backup :
    (pairedRun 4 [.request 5 (mapFrames 69120 [[3], [30]])]).Exposed mapName [3] ∧
    (pairedRun 2 [.request 5 (mapFrames 69376 [[1], [30]]),
      .request 5 (mapFrames 69376 [[2], [30]]),
      .request 5 (mapFrames 69376 [[3], [30]])]).Exposed mapName [3] := by
  unfold World.Exposed Origin.Changes
  exact ⟨by decide +kernel, by decide +kernel⟩

end BonsaiGrid.Server
