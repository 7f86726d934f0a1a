import BonsaiGrid.Wan.Durability

/-!
# The outbound loop

The thread takes captured records off the ring and appends them to the queue, ships to each target
what it has not acknowledged, batch by batch until one fails, reclaims what all targets have
acknowledged, and sleeps.
-/

namespace BonsaiGrid.Wan

open WanQueue List Nat

inductive Backpressure where
  | throw
  | dropOldest
deriving DecidableEq, Repr

structure WanConfig where
  targets : List Str
  batch : ℕ
  queueBytes : ℕ
  backpressure : Backpressure
  targets_ne_nil : targets ≠ []

def defaultTarget : Str := ⟨[], Utf8.valid_nil⟩

inductive Shipping where
  /-- taking records off the ring -/
  | draining
  /-- shipping to a target what is left, then to the rest of the targets -/
  | shipping (target : Str) (unacked : List (ℕ × WanRecord)) (rest : List Str)
  | reclaiming
  | sleeping
deriving DecidableEq

/-- The thread with its queue and the ring, and what has happened. -/
structure Outbound where
  queue : WanQueue
  ring : List WanRecord := []
  phase : Shipping := .draining
  /-- the records that were popped, with the numbers under which they were appended -/
  popped : List (WanRecord × Option ℕ) := []
  /-- the records of the queue from its opening on -/
  appended : List (ℕ × WanRecord) := queue.records
  /-- the batches that targets have acknowledged -/
  batches : List (Str × List (ℕ × WanRecord)) := []
  /-- the numbers up to which they have -/
  acks : List (Str × ℕ) := queue.cursors.pairs
  /-- the number up to which the policy has dropped the oldest records -/
  dropped : ℕ := 0

/-- A record arrives in the ring, or the thread goes on; `answer` is what a target acknowledges if
a batch is shipped to it. -/
inductive OutboundEvent where
  | arrive (r : WanRecord)
  | step (answer : Option ℕ)

namespace Outbound

variable (o : Outbound)

def ship : List Str → Outbound
  | [] => { o with phase := .reclaiming }
  | target :: rest => { o with phase := .shipping target (o.queue.unackedFor target) rest }

variable (cfg : WanConfig)

def nextBatch (unacked : List (ℕ × WanRecord)) : List (ℕ × WanRecord) :=
  unacked.take (max cfg.batch 1)

def laterBatches (unacked : List (ℕ × WanRecord)) : List (ℕ × WanRecord) :=
  unacked.drop (max cfg.batch 1)

def lastSeq (batch : List (ℕ × WanRecord)) : ℕ := batch.getLast?.elim 0 Prod.fst

def Shipped (target : Str) (e : ℕ × WanRecord) : Prop :=
  ∃ b ∈ o.batches, b.1 = target ∧ e ∈ b.2

/-- Every record that was popped was appended, and for each target it is there until the target
has acknowledged a batch with it. -/
def NothingLost (o : Outbound) : Prop :=
  ∀ p ∈ o.popped, ∃ s, p.2 = some s ∧ ∀ target ∈ cfg.targets,
    o.Shipped target (s, p.1) ∨ (s, p.1) ∈ o.queue.unackedFor target

def Acknowledged (target : Str) (s : ℕ) : Prop :=
  ∃ a ∈ o.acks, a.1 = target ∧ s ≤ a.2

/-- Behind a reclaim there are the records that were not dropped and that some target has not
acknowledged. -/
def Exact (o : Outbound) : Prop :=
  o.phase = .sleeping → ∀ e, e ∈ o.queue.records ↔
    e ∈ o.appended ∧ o.dropped < e.1 ∧ ∃ target ∈ cfg.targets, ¬ o.Acknowledged target e.1

variable [Crc32fast]

def push (o : Outbound) (r : WanRecord) : Outbound :=
  { o with
    queue := (o.queue.append r).1
    popped := o.popped ++ [(r, some o.queue.nextSeq)]
    appended := o.appended ++ [(o.queue.nextSeq, r)] }

def pop (cfg : WanConfig) (o : Outbound) (r : WanRecord) : Outbound :=
  if o.queue.wouldExceed cfg.queueBytes then
    match cfg.backpressure with
    | .throw => ({ o with popped := o.popped ++ [(r, none)] } : Outbound).ship cfg.targets
    | .dropOldest =>
      push
        { o with
          queue := (o.queue.ackTarget defaultTarget (o.queue.targetAcked defaultTarget + 1)).1
          dropped := (o.queue.records.find? fun e => o.dropped < e.1).elim o.dropped Prod.fst } r
  else o.push r

def exec (cfg : WanConfig) (o : Outbound) : OutboundEvent → Outbound
  | .arrive r => { o with ring := o.ring ++ [r] }
  | .step answer =>
    match o.phase with
    | .draining =>
      match o.ring with
      | [] => o.ship cfg.targets
      | r :: ring => ({ o with ring := ring } : Outbound).pop cfg r
    | .shipping _ [] rest => o.ship rest
    | .shipping target (e :: unacked) rest =>
      match answer with
      | some a =>
        { o with
          queue := (o.queue.ackTarget target a).1
          phase := .shipping target (laterBatches cfg (e :: unacked)) rest
          batches := o.batches ++ [(target, nextBatch cfg (e :: unacked))]
          acks := o.acks ++ [(target, a)] }
      | none => o.ship rest
    | .reclaiming => { o with queue := o.queue.reclaim.1, phase := .sleeping }
    | .sleeping => { o with phase := .draining }

def start (cfg : WanConfig) (d : QueueDir) : Outbound where
  queue := (openDir d).setTargets cfg.targets

/-- A target acknowledges no more than the batch that it was sent. -/
def AnswerOk (a : ℕ) : Shipping → Prop
  | .shipping _ unacked _ => a ≤ lastSeq (nextBatch cfg unacked)
  | _ => True

def Enabled (o : Outbound) : OutboundEvent → Prop
  | .step answer => ∀ a ∈ answer, AnswerOk cfg a o.phase
  | .arrive _ => True

/-- A record is popped only while the bound is not reached. -/
def Below (o : Outbound) : OutboundEvent → Prop
  | .step _ =>
    o.phase = .draining → o.ring ≠ [] → o.queue.wouldExceed cfg.queueBytes = false
  | .arrive _ => True

instance  (a : ℕ) : (p : Shipping) → Decidable (AnswerOk cfg a p)
  | .shipping .. => inferInstanceAs (Decidable (_ ≤ _))
  | .draining | .reclaiming | .sleeping => isTrue trivial

instance  (o : Outbound) : (e : OutboundEvent) → Decidable (o.Enabled cfg e)
  | .step answer => inferInstanceAs (Decidable (∀ a ∈ answer, AnswerOk cfg a o.phase))
  | .arrive _ => isTrue trivial

instance  (o : Outbound) : (e : OutboundEvent) → Decidable (o.Below cfg e)
  | .step _ => inferInstanceAs (Decidable (_ → _ → _))
  | .arrive _ => isTrue trivial

/-- The states of the runs from a directory whose events are possible and meet `ok`. -/
def Run (cfg : WanConfig) (d : QueueDir) (ok : Outbound → OutboundEvent → Prop) : Outbound → Prop :=
  Trace.Reaches (exec cfg) (fun o e => o.Enabled cfg e ∧ ok o e) (start cfg d)

end Outbound

/-! ## The queue in memory -/

namespace WanQueue

/-- The records are in the order of their numbers, behind the base, and the cursors below the next
number. -/
structure Sane (q : WanQueue) : Prop where
  sorted : q.records.Pairwise fun a b => a.1 < b.1
  base_lt : ∀ e ∈ q.records, q.baseSeq < e.1
  lt_next : ∀ e ∈ q.records, e.1 < q.nextSeq
  base_next : q.baseSeq < q.nextSeq
  cursor : ∀ target, q.targetAcked target < q.nextSeq

namespace Sane

variable {q : WanQueue}

theorem withCursors (h : q.Sane) {cursors : Dict Str ℕ}
    (hcursor : ∀ target, targetAcked { q with cursors := cursors } target < q.nextSeq) :
    Sane { q with cursors := cursors } :=
  ⟨h.sorted, h.base_lt, h.lt_next, h.base_next, hcursor⟩

theorem setTargets (h : q.Sane) (targets : List Str) : (q.setTargets targets).Sane := by
  have hcursor : ∀ target, (q.setTargets targets).targetAcked target < q.nextSeq := fun target => by
    rw [targetAcked_setTargets]
    exact h.cursor target
  rw [setTargets_eq] at hcursor ⊢
  exact h.withCursors hcursor

end Sane

theorem ackTarget_eq (q : WanQueue) (target : Str) (upTo : ℕ) : (q.ackTarget target upTo).1 =
    { q with cursors := (q.ackTarget target upTo).1.cursors } := by
  rw [ackTarget]
  rw [entry_eq]
  split
  next => rfl
  next => rfl

theorem isSome_ackTarget (q : WanQueue) (target t : Str) (upTo : ℕ) :
    ((q.ackTarget target upTo).1.cursors.lookup t).isSome =
      (decide (t = target) || (q.cursors.lookup t).isSome) := by
  rw [ackTarget]
  split
  next =>
    by_cases ht : t = target
    · rw [ht, AList.lookup_insert, decide_eq_true rfl]
      rfl
    · rw [AList.lookup_insert_ne ht, isSome_entry]
  next => exact isSome_entry q target t

theorem Sane.ackTarget {q : WanQueue} (h : q.Sane) (target : Str) (upTo : ℕ) :
    (q.ackTarget target upTo).1.Sane := by
  have hcursor : ∀ t, (q.ackTarget target upTo).1.targetAcked t < q.nextSeq := fun t => by
    have hold := h.cursor t
    rw [targetAcked_ackTarget]
    split
    next => omega
    next => exact hold
  rw [ackTarget_eq] at hcursor ⊢
  exact h.withCursors hcursor

section Log

variable [Crc32fast] {q : WanQueue}

theorem Sane.openDir {d : QueueDir}
    (h : ∀ target, (openDir d).targetAcked target < (openDir d).nextSeq) : (openDir d).Sane := by
  refine ⟨Retained.pairwise_number _ _, fun e he => (Retained.mem_number.1 he).1, fun e he => ?_,
    ?_, h⟩
  · obtain ⟨hlt, hget⟩ := Retained.mem_number.1 he
    have hlen := (List.getElem?_eq_some_iff.1 hget).1
    change e.1 < readU64 d.base + _ + 1
    omega
  · change readU64 d.base < readU64 d.base + _ + 1
    omega

theorem Sane.append (h : q.Sane) (r : WanRecord) : (q.append r).1.Sane := by
  exact ⟨h.sorted.concat h.lt_next, forall_mem_concat h.base_lt h.base_next,
    forall_mem_concat (fun e he => lt_succ_of_lt (h.lt_next e he)) (lt_succ_self _),
    lt_succ_of_lt h.base_next, fun target => lt_succ_of_lt (h.cursor target)⟩

theorem mem_reclaim (q : WanQueue) (h : q.Sane) (e : ℕ × WanRecord) :
    e ∈ q.reclaim.1.records ↔ e ∈ q.records ∧ q.minAcked < e.1 := by
  rw [reclaim]
  split
  next hle => exact ⟨fun he => ⟨he, lt_of_le_of_lt hle (h.base_lt e he)⟩, fun he => he.1⟩
  next => rw [mem_filter, decide_eq_true_eq]

theorem reclaim_nextSeq (q : WanQueue) : q.reclaim.1.nextSeq = q.nextSeq := by
  rw [reclaim]
  split
  next => rfl
  next => rfl

theorem targetAcked_reclaim (q : WanQueue) (target : Str) :
    q.reclaim.1.targetAcked target = q.targetAcked target := by
  rw [targetAcked, (reclaim_cursors (q := q) (d := {})).1]
  rfl

theorem Sane.reclaim (h : q.Sane) : q.reclaim.1.Sane := by
  have hmin : q.minAcked < q.nextSeq := by
    have hnext := h.base_next
    rcases minAcked_eq q with hzero | ⟨target, heq⟩
    · omega
    · exact heq ▸ h.cursor target
  have hcursor : ∀ target, q.reclaim.1.targetAcked target < q.reclaim.1.nextSeq := fun target => by
    rw [targetAcked_reclaim, reclaim_nextSeq]
    exact h.cursor target
  have hmem := mem_reclaim q h
  rw [WanQueue.reclaim] at hcursor hmem ⊢
  split at hcursor
  next hle =>
    rw [if_pos hle]
    exact h
  next hgt =>
    rw [if_neg hgt] at hmem ⊢
    exact ⟨h.sorted.sublist filter_sublist, fun e he => ((hmem e).1 he).2,
      fun e he => h.lt_next e ((hmem e).1 he).1, hmin, hcursor⟩

end Log

end WanQueue

/-! ## Runs below the bound -/

namespace Outbound

variable {cfg : WanConfig} {o : Outbound}

/-- Every record that was popped is in a batch that the target has acknowledged, or among those
that are still to be shipped to it. -/
def Queued (o : Outbound) (target : Str) (unacked : List (ℕ × WanRecord)) : Prop :=
  ∀ p ∈ o.popped, ∀ s, p.2 = some s → o.Shipped target (s, p.1) ∨ (s, p.1) ∈ unacked

def PhaseOk (cfg : WanConfig) (o : Outbound) : Shipping → Prop
  | .shipping target unacked rest => target ∈ cfg.targets ∧ rest ⊆ cfg.targets ∧
      unacked.Pairwise (fun a b => a.1 < b.1) ∧ (∀ e ∈ unacked, e.1 < o.queue.nextSeq) ∧
      o.Queued target unacked
  | _ => True

/-- Records leave the queue once all targets have acknowledged batches with them. -/
structure Ok (cfg : WanConfig) (o : Outbound) : Prop where
  sane : o.queue.Sane
  known : ∀ target ∈ cfg.targets, (o.queue.cursors.lookup target).isSome = true
  kept : ∀ e ∈ o.appended, e ∈ o.queue.records ∨
    ∀ target ∈ cfg.targets, e.1 ≤ o.queue.targetAcked target
  popped : ∀ p ∈ o.popped, ∃ s, p.2 = some s ∧ (s, p.1) ∈ o.appended
  shipped : ∀ p ∈ o.popped, ∀ s, p.2 = some s → ∀ target ∈ cfg.targets,
    s ≤ o.queue.targetAcked target → o.Shipped target (s, p.1)
  phase : o.PhaseOk cfg o.phase

theorem Ok.nothingLost (h : o.Ok cfg) : o.NothingLost cfg := by
  intro p hp
  obtain ⟨s, hs, happended⟩ := h.popped p hp
  refine ⟨s, hs, fun target ht => ?_⟩
  by_cases hle : s ≤ o.queue.targetAcked target
  · exact .inl (h.shipped p hp s hs target ht hle)
  · refine .inr (mem_filter.2 ⟨?_, decide_eq_true (not_le.1 hle)⟩)
    exact (h.kept _ happended).resolve_right fun hall => hle (hall target ht)

variable {target : Str}

theorem Ok.queued (h : o.Ok cfg) (ht : target ∈ cfg.targets) :
    o.Queued target (o.queue.unackedFor target) := by
  intro p hp s hs
  obtain ⟨s', hs', hlost⟩ := h.nothingLost p hp
  cases hs.symm.trans hs'
  exact hlost target ht

theorem Ok.ship (h : o.Ok cfg) {targets : List Str} (ht : targets ⊆ cfg.targets) :
    (o.ship targets).Ok cfg := by
  cases targets with
  | nil => exact { h with phase := trivial }
  | cons target rest =>
    have htarget := ht mem_cons_self
    exact { h with
      phase := ⟨htarget, fun t hrest => ht (mem_cons_of_mem _ hrest),
        h.sane.sorted.sublist filter_sublist,
        fun e he => h.sane.lt_next e (mem_of_mem_filter he), h.queued htarget⟩ }

variable {unacked : List (ℕ × WanRecord)}

theorem mem_nextBatch
    (hsorted : unacked.Pairwise fun a b => a.1 < b.1) {e : ℕ × WanRecord} (he : e ∈ unacked)
    (hle : e.1 ≤ lastSeq (nextBatch cfg unacked)) : e ∈ nextBatch cfg unacked := by
  have hsplit : nextBatch cfg unacked ++ laterBatches cfg unacked = unacked :=
    take_append_drop _ _
  rw [← hsplit] at he hsorted
  rcases mem_append.1 he with he | he
  · exact he
  · rw [lastSeq] at hle
    cases hlast : (nextBatch cfg unacked).getLast? with
    | none =>
      have hnil : unacked = [] := by
        by_contra hne
        obtain ⟨x, xs, rfl⟩ := exists_cons_of_ne_nil hne
        rw [nextBatch, show max cfg.batch 1 = max cfg.batch 1 - 1 + 1 by omega] at hlast
        cases hlast
      rw [hnil, laterBatches, drop_nil] at he
      cases he
    | some l =>
      rw [hlast] at hle
      have hlt := (pairwise_append.1 hsorted).2.2 l (mem_of_getLast? hlast) e he
      exact absurd hle (not_le.2 hlt)

theorem lastSeq_lt {n : ℕ} (h : ∀ e ∈ unacked, e.1 < n)
    (hpos : 0 < n) : lastSeq (nextBatch cfg unacked) < n := by
  rw [lastSeq]
  cases hlast : (nextBatch cfg unacked).getLast? with
  | none => exact hpos
  | some l => exact h l (mem_of_mem_take (mem_of_getLast? hlast))

section Steps

/-- A batch has been acknowledged. -/
abbrev acked (cfg : WanConfig) (o : Outbound) (target : Str) (unacked : List (ℕ × WanRecord))
    (rest : List Str) (a : ℕ) : Outbound :=
  { o with
    queue := (o.queue.ackTarget target a).1
    phase := .shipping target (laterBatches cfg unacked) rest
    batches := o.batches ++ [(target, nextBatch cfg unacked)]
    acks := o.acks ++ [(target, a)] }

theorem Ok.ack (h : o.Ok cfg) {rest : List Str}
    (hphase : o.phase = .shipping target unacked rest) {a : ℕ}
    (ha : a ≤ lastSeq (nextBatch cfg unacked)) : (acked cfg o target unacked rest a).Ok cfg := by
  have hok := h.phase
  rw [hphase] at hok
  obtain ⟨htarget, hrest, hsorted, hlt, hqueued⟩ := hok
  have hshipped : ∀ t e, o.Shipped t e → (acked cfg o target unacked rest a).Shipped t e := by
    rintro t e ⟨b, hb, heq, he⟩
    exact ⟨b, mem_append_left _ hb, heq, he⟩
  have heq := ackTarget_eq o.queue target a
  refine ⟨h.sane.ackTarget target a, fun t ht => ?_, fun e he => ?_, h.popped,
    fun p hp s hs t ht hle => ?_, htarget, hrest, hsorted.sublist (drop_sublist _ _),
    fun e he => ?_, fun p hp s hs => ?_⟩
  · rw [isSome_ackTarget, h.known t ht, Bool.or_true]
  · rw [acked, heq]
    refine (h.kept e he).imp_right fun hall t ht => ?_
    have hold := hall t ht
    change e.1 ≤ (o.queue.ackTarget target a).1.targetAcked t
    rw [targetAcked_ackTarget]
    split
    next => exact le_trans hold (le_max_left _ _)
    next => exact hold
  · by_cases hold : s ≤ o.queue.targetAcked t
    · exact hshipped _ _ (h.shipped p hp s hs t ht hold)
    · rw [targetAcked_ackTarget] at hle
      split at hle
      next htt =>
        subst htt
        rcases hqueued p hp s hs with hold' | hmem
        · exact hshipped _ _ hold'
        · have hle' : s ≤ lastSeq (nextBatch cfg unacked) := by omega
          exact ⟨_, mem_concat_self, rfl,
            mem_nextBatch hsorted hmem hle'⟩
      next => exact absurd hle hold
  · rw [acked, heq]
    exact hlt e (mem_of_mem_drop he)
  · rcases hqueued p hp s hs with hold | hmem
    · exact .inl (hshipped _ _ hold)
    · have hsplit : nextBatch cfg unacked ++ laterBatches cfg unacked = unacked :=
        take_append_drop _ _
      rw [← hsplit] at hmem
      rcases mem_append.1 hmem with hmem | hmem
      · exact .inl ⟨_, mem_concat_self, rfl, hmem⟩
      · exact .inr hmem

variable [Crc32fast]

theorem Ok.push (h : o.Ok cfg) (hphase : o.phase = .draining) (r : WanRecord) : (o.push r).Ok cfg := by
  refine ⟨h.sane.append r, h.known, forall_mem_concat (fun e he => ?_) ?_,
    forall_mem_concat (fun p hp => ?_) ?_, forall_mem_concat h.shipped fun s hs t ht hle => ?_, ?_⟩
  · exact (h.kept e he).imp_left fun hmem => mem_append_left _ hmem
  · exact .inl mem_concat_self
  · obtain ⟨s, hs, hmem⟩ := h.popped p hp
    exact ⟨s, hs, mem_append_left _ hmem⟩
  · exact ⟨_, rfl, mem_concat_self⟩
  · cases hs
    exact absurd hle (not_le.2 (h.sane.cursor t))
  · change PhaseOk cfg (o.push r) o.phase
    rw [hphase]
    trivial

theorem Ok.reclaim (h : o.Ok cfg) : Ok cfg { o with queue := o.queue.reclaim.1, phase := .sleeping } := by
  have hcursors : o.queue.reclaim.1.cursors = o.queue.cursors := (reclaim_cursors (d := {})).1
  refine ⟨h.sane.reclaim, fun t ht => ?_, fun e he => ?_, h.popped, fun p hp s hs t ht hle => ?_,
    trivial⟩
  · rw [hcursors]
    exact h.known t ht
  · by_cases hmin : o.queue.minAcked < e.1
    · refine (h.kept e he).imp (fun hmem => (mem_reclaim _ h.sane e).2 ⟨hmem, hmin⟩) fun hall t ht => ?_
      rw [targetAcked_reclaim]
      exact hall t ht
    · refine .inr fun t ht => ?_
      obtain ⟨n, hn⟩ := Option.isSome_iff_exists.1 (h.known t ht)
      have hle := minAcked_le o.queue t hn
      rw [targetAcked_reclaim, targetAcked, hn]
      exact le_trans (not_lt.1 hmin) hle
  · rw [targetAcked_reclaim] at hle
    exact h.shipped p hp s hs t ht hle

inductive Moved (cfg : WanConfig) (o : Outbound) : Outbound → Prop where
  | arrive (r : WanRecord) : Moved cfg o { o with ring := o.ring ++ [r] }
  | ship {targets : List Str} (h : targets ⊆ cfg.targets) : Moved cfg o (o.ship targets)
  | push (r : WanRecord) (ring : List WanRecord) :
      Moved cfg o (Outbound.push { o with ring := ring, phase := .draining } r)
  | ack {target : Str} {unacked : List (ℕ × WanRecord)} {rest : List Str}
      (hphase : o.phase = .shipping target unacked rest) {a : ℕ}
      (ha : a ≤ lastSeq (nextBatch cfg unacked)) : Moved cfg o (acked cfg o target unacked rest a)
  | reclaim : Moved cfg o { o with queue := o.queue.reclaim.1, phase := .sleeping }
  | wake : Moved cfg o { o with phase := .draining }

theorem moved_exec (h : o.PhaseOk cfg o.phase) {e : OutboundEvent} (henabled : o.Enabled cfg e)
    (hbelow : o.Below cfg e) : Moved cfg o (o.exec cfg e) := by
  cases e with
  | arrive r => exact .arrive r
  | step answer =>
    rw [Outbound.exec]
    cases hphase : o.phase with
    | draining =>
      cases hring : o.ring with
      | nil => exact .ship (List.Subset.refl _)
      | cons r ring =>
        have hfree := hbelow hphase (by rw [hring]; exact cons_ne_nil _ _)
        dsimp only
        rw [pop, if_neg (by rw [hfree]; exact Bool.false_ne_true)]
        exact .push r ring
    | shipping target unacked rest =>
      rw [hphase] at h
      cases unacked with
      | nil => exact .ship h.2.1
      | cons x unacked =>
        cases answer with
        | none => exact .ship h.2.1
        | some a =>
          have ha := henabled a rfl
          rw [hphase] at ha
          exact .ack hphase ha
    | reclaiming => exact .reclaim
    | sleeping => exact .wake

theorem Ok.moved (h : o.Ok cfg) {o' : Outbound} (hmoved : Moved cfg o o') : o'.Ok cfg := by
  cases hmoved with
  | arrive r => exact { h with }
  | ship hsub => exact h.ship hsub
  | push r ring =>
    have hok : Ok cfg { o with ring := ring, phase := .draining } := { h with phase := trivial }
    exact hok.push rfl r
  | ack hphase ha => exact h.ack hphase ha
  | reclaim => exact h.reclaim
  | wake => exact { h with phase := trivial }

theorem Ok.start {d : QueueDir}
    (h : ∀ target, (openDir d).targetAcked target < (openDir d).nextSeq) :
    (Outbound.start cfg d).Ok cfg := by
  refine ⟨(Sane.openDir h).setTargets cfg.targets, fun t ht => ?_, fun e he => .inl he,
    fun p hp => (by cases hp), fun p hp => (by cases hp), trivial⟩
  exact (isSome_setTargets (openDir d) t cfg.targets).2 (.inl ht)

end Steps

/-! ## What is reclaimed -/

/-- The cursors are those of the targets and say what these have acknowledged; behind a reclaim all
records are above the lowest one. -/
structure ExactOk (cfg : WanConfig) (o : Outbound) : Prop extends Ok cfg o where
  keys : ∀ target, (o.queue.cursors.lookup target).isSome = true → target ∈ cfg.targets
  acks : ∀ target s, 0 < s → (s ≤ o.queue.targetAcked target ↔ o.Acknowledged target s)
  mem : ∀ e ∈ o.queue.records, e ∈ o.appended
  pos : ∀ e ∈ o.appended, 0 < e.1
  dropped : o.dropped = 0
  floor : o.phase = .sleeping → ∀ e ∈ o.queue.records, o.queue.minAcked < e.1

namespace ExactOk

theorem exact (h : o.ExactOk cfg) : o.Exact cfg := by
  intro hphase e
  constructor
  · intro he
    have happended := h.mem e he
    obtain ⟨t, ht⟩ := exists_mem_of_ne_nil _ cfg.targets_ne_nil
    obtain ⟨t', ht'⟩ := exists_minAcked (h.known t ht)
    refine ⟨happended, h.dropped ▸ h.pos e happended, t', h.keys t' (ht' ▸ rfl), fun hack => ?_⟩
    have hle := (h.acks t' e.1 (h.pos e happended)).2 hack
    have hlt := h.floor hphase e he
    rw [targetAcked, ht', Option.getD_some] at hle
    omega
  · rintro ⟨happended, -, t, ht, hack⟩
    refine (h.kept e happended).resolve_right fun hall => hack ?_
    exact (h.acks t e.1 (h.pos e happended)).1 (hall t ht)

theorem ship (h : o.ExactOk cfg) {targets : List Str} (ht : targets ⊆ cfg.targets) :
    (o.ship targets).ExactOk cfg := by
  have hok := h.toOk.ship ht
  cases targets with
  | nil | cons target rest => exact { h with toOk := hok, floor := fun heq => (by cases heq) }

theorem ack (h : o.ExactOk cfg) {rest : List Str}
    (hphase : o.phase = .shipping target unacked rest) {a : ℕ}
    (ha : a ≤ lastSeq (nextBatch cfg unacked)) :
    (acked cfg o target unacked rest a).ExactOk cfg := by
  have hshipping := h.phase
  rw [hphase] at hshipping
  obtain ⟨htarget, -, -, hlt, -⟩ := hshipping
  have hlast : lastSeq (nextBatch cfg unacked) < o.queue.nextSeq :=
    lastSeq_lt hlt (zero_lt_of_lt h.sane.base_next)
  have heq := ackTarget_eq o.queue target a
  refine ⟨h.toOk.ack hphase ha, fun t hsome => ?_, fun t s hs => ?_, fun e he => ?_, h.pos, h.dropped,
    fun heq => (by cases heq)⟩
  · rw [isSome_ackTarget, Bool.or_eq_true, decide_eq_true_eq] at hsome
    rcases hsome with rfl | hsome
    · exact htarget
    · exact h.keys t hsome
  · have hold := h.acks t s hs
    have hmin : min a (o.queue.nextSeq - 1) = a := min_eq_left (by omega)
    rw [targetAcked_ackTarget, hmin]
    constructor
    · intro hle
      by_cases hle' : s ≤ o.queue.targetAcked t
      · obtain ⟨b, hb, hbt, hsb⟩ := hold.1 hle'
        exact ⟨b, mem_append_left _ hb, hbt, hsb⟩
      · split at hle
        next htt =>
          refine ⟨_, mem_concat_self, htt.symm, ?_⟩
          omega
        next => exact absurd hle hle'
    · rintro ⟨b, hb, hbt, hsb⟩
      rcases mem_append.1 hb with hb | hb
      · have hle := hold.2 ⟨b, hb, hbt, hsb⟩
        split
        next => exact le_trans hle (le_max_left _ _)
        next => exact hle
      · cases mem_singleton.1 hb
        rw [if_pos hbt.symm]
        exact le_trans hsb (le_max_right _ _)
  · rw [acked, heq] at he
    exact h.mem e he

section Steps

variable [Crc32fast]

theorem push (h : o.ExactOk cfg) (hphase : o.phase = .draining) (r : WanRecord) :
    (o.push r).ExactOk cfg := by
  refine ⟨h.toOk.push hphase r, h.keys, h.acks,
    forall_mem_concat (fun e he => mem_append_left _ (h.mem e he)) mem_concat_self,
    forall_mem_concat h.pos (zero_lt_of_lt h.sane.base_next), h.dropped, fun heq => ?_⟩
  cases hphase.symm.trans heq

theorem reclaim (h : o.ExactOk cfg) :
    ExactOk cfg { o with queue := o.queue.reclaim.1, phase := .sleeping } := by
  have hcursors : o.queue.reclaim.1.cursors = o.queue.cursors := (reclaim_cursors (d := {})).1
  refine ⟨h.toOk.reclaim, fun t hsome => h.keys t (hcursors ▸ hsome), fun t s hs => ?_,
    fun e he => h.mem e ((mem_reclaim _ h.sane e).1 he).1, h.pos, h.dropped, fun _ e he => ?_⟩
  · rw [targetAcked_reclaim]
    exact h.acks t s hs
  · rw [minAcked, hcursors]
    exact ((mem_reclaim _ h.sane e).1 he).2

theorem moved (h : o.ExactOk cfg) {o' : Outbound} (hmoved : Moved cfg o o') : o'.ExactOk cfg := by
  have hok := h.toOk.moved hmoved
  cases hmoved with
  | arrive r => exact { h with toOk := hok }
  | ship hsub => exact h.ship hsub
  | push r ring =>
    have hdraining : ExactOk cfg { o with ring := ring, phase := .draining } :=
      { h with phase := trivial, floor := fun heq => (by cases heq) }
    exact hdraining.push rfl r
  | ack hphase ha => exact h.ack hphase ha
  | reclaim => exact h.reclaim
  | wake => exact { h with toOk := hok, floor := fun heq => (by cases heq) }

theorem start {d : QueueDir}
    (h : ∀ target, (openDir d).targetAcked target < (openDir d).nextSeq)
    (hkeys : ∀ target, ((openDir d).cursors.lookup target).isSome = true → target ∈ cfg.targets) :
    (Outbound.start cfg d).ExactOk cfg := by
  have hok : (Outbound.start cfg d).Ok cfg := .start h
  refine ⟨hok, fun t hsome => ?_, fun t s hs => ?_, fun e he => he,
    fun e he => zero_lt_of_lt (hok.sane.base_lt e he), rfl, fun heq => (by cases heq)⟩
  · exact ((isSome_setTargets (openDir d) t cfg.targets).1 hsome).elim id (hkeys t)
  · change s ≤ ((Outbound.start cfg d).queue.cursors.lookup t).getD 0 ↔
      ∃ a ∈ (Outbound.start cfg d).queue.cursors.pairs, a.1 = t ∧ s ≤ a.2
    constructor
    · intro hle
      cases hlookup : (Outbound.start cfg d).queue.cursors.lookup t with
      | none =>
        rw [hlookup] at hle
        exact absurd hle (not_le.2 hs)
      | some n =>
        rw [hlookup] at hle
        exact ⟨(t, n), Dict.mem_pairs.2 hlookup, rfl, hle⟩
    · rintro ⟨⟨t', n⟩, ha, rfl, hle⟩
      rw [Dict.mem_pairs.1 ha]
      exact hle

end Steps

end ExactOk

section Theorems

variable [Crc32fast]

/-- In every run in which records are popped below the bound, from a directory whose cursors are
below the next number, nothing is lost. -/
theorem outbound_loses_nothing {d : QueueDir}
    (hopen : ∀ target, (openDir d).targetAcked target < (openDir d).nextSeq)
    (h : Outbound.Run cfg d (Below cfg) o) : o.NothingLost cfg :=
  (h.invariant (I := Ok cfg)
    (fun _ _ ho hok => ho.moved (moved_exec ho.phase hok.1 hok.2)) (.start hopen)).nothingLost

/-- In every such run, if the cursors of the directory are those of the targets, each reclaim leaves
exactly the records that some target has not acknowledged. -/
theorem outbound_reclaims_exactly {d : QueueDir}
    (hopen : ∀ target, (openDir d).targetAcked target < (openDir d).nextSeq)
    (hkeys : ∀ target, ((openDir d).cursors.lookup target).isSome = true → target ∈ cfg.targets)
    (h : Outbound.Run cfg d (Below cfg) o) : o.Exact cfg :=
  (h.invariant (I := ExactOk cfg)
    (fun _ _ ho hok => ho.moved (moved_exec ho.phase hok.1 hok.2)) (.start hopen hkeys)).exact

end Theorems

def small (backpressure : Backpressure) (queueBytes : ℕ) : WanConfig :=
  ⟨[east, west], 1, queueBytes, backpressure, cons_ne_nil _ _⟩

/-- Two records are shipped to a target and the first one of them to the other one, which is down
then; what both have is reclaimed. -/
def smallEvents : List OutboundEvent :=
  [.arrive (change 1), .arrive (change 2), .step none, .step none, .step none, .step (some 1),
    .step (some 2), .step none, .step (some 1), .step none, .step none]

theorem outbound_loses_nothing_small :
    let o := smallEvents.foldl (exec (small .throw 1000)) (start (small .throw 1000) {})
    o.NothingLost (small .throw 1000) ∧ o.queue.unackedFor west = [(2, change 2)] := by
  have hallowed : Trace.Allowed (exec (small .throw 1000))
      (fun o e => o.Enabled (small .throw 1000) e ∧ o.Below (small .throw 1000) e)
      (start (small .throw 1000) {}) smallEvents := by
    decide +kernel
  exact ⟨outbound_loses_nothing (d := {}) (fun _ => Nat.zero_lt_one) (.of_allowed smallEvents hallowed),
    by decide +kernel⟩

def fullEvents : List OutboundEvent :=
  [.arrive (change 1), .step none, .arrive (change 2), .step none]

/-- The record that is popped then is dropped. -/
theorem outbound_loses :
    let o := fullEvents.foldl (exec (small .throw 1)) (start (small .throw 1) {})
    Run (small .throw 1) {} (fun _ _ => True) o ∧ ¬ o.NothingLost (small .throw 1) := by
  refine ⟨.of_allowed fullEvents (by decide +kernel), fun h => ?_⟩
  obtain ⟨s, hs, -⟩ := h (change 2, none) (by decide +kernel)
  cases hs

theorem outbound_reclaims_exactly_small :
    let o := smallEvents.foldl (exec (small .dropOldest 1000)) (start (small .dropOldest 1000) {})
    o.phase = .sleeping ∧ o.Exact (small .dropOldest 1000) ∧
      o.queue.records = [(2, change 2)] := by
  have hallowed : Trace.Allowed (exec (small .dropOldest 1000))
      (fun o e => o.Enabled (small .dropOldest 1000) e ∧ o.Below (small .dropOldest 1000) e)
      (start (small .dropOldest 1000) {}) smallEvents := by
    decide +kernel
  exact ⟨by decide +kernel, outbound_reclaims_exactly (d := {}) (fun _ => Nat.zero_lt_one)
    (fun _ hsome => (by cases hsome)) (.of_allowed smallEvents hallowed), by decide +kernel⟩

def downEvents : List OutboundEvent :=
  [.arrive (change 1), .arrive (change 2), .step none, .step none, .step none, .step none,
    .step none, .step none]

def confirmedEvents : List OutboundEvent :=
  [.arrive (change 1), .arrive (change 2), .step none, .step none, .step none, .step (some 1),
    .step (some 2), .step none, .step (some 1), .step (some 2), .step none, .step none]

/-- The oldest record is not dropped, and one that all targets have is not reclaimed. -/
theorem outbound_reclaims_wrongly :
    let down := downEvents.foldl (exec (small .dropOldest 1)) (start (small .dropOldest 1) {})
    let confirmed := confirmedEvents.foldl (exec (small .dropOldest 1))
      (start (small .dropOldest 1) {})
    Run (small .dropOldest 1) {} (fun _ _ => True) down ∧ ¬ down.Exact (small .dropOldest 1) ∧
      Run (small .dropOldest 1) {} (fun _ _ => True) confirmed ∧
        ¬ confirmed.Exact (small .dropOldest 1) := by
  refine ⟨.of_allowed downEvents (by decide +kernel), fun h => ?_,
    .of_allowed confirmedEvents (by decide +kernel), fun h => ?_⟩
  · have hdropped := ((h (by decide +kernel) (1, change 1)).1 (by decide +kernel)).2.1
    revert hdropped
    decide +kernel
  · obtain ⟨-, -, target, htarget, hack⟩ :=
      (h (by decide +kernel) (2, change 2)).1 (by decide +kernel)
    have hacked : ∀ target ∈ (small .dropOldest 1).targets,
        ∃ a ∈ (confirmedEvents.foldl (exec (small .dropOldest 1))
          (start (small .dropOldest 1) {})).acks, a.1 = target ∧ 2 ≤ a.2 := by
      decide +kernel
    exact hack (hacked target htarget)

end Outbound

end BonsaiGrid.Wan
