import BonsaiGrid.Wan.Queue

/-!
# Durability of the outbound queue

A queue is used, and its process may stop in the course of every call; it is opened again then
from what the files have become.
-/

namespace BonsaiGrid.Wan

open WanQueue List Nat

inductive QueueCall where
  | append (r : WanRecord)
  | setTargets (targets : List Str)
  | ackTarget (target : Str) (upTo : ℕ)
  | reclaim

/-- A call, or one in the course of which the process stops, after `j` operations on files and `k`
bytes of the next one; the queue is opened again. -/
inductive QueueEvent where
  | call (c : QueueCall)
  | crash (c : QueueCall) (j k : ℕ)

structure QueueTrace where
  queue : WanQueue := {}
  dir : QueueDir := {}
  /-- the records whose appends returned, with the numbers returned -/
  returned : List (ℕ × WanRecord) := []
  registered : List Str := []
  /-- the numbers up to which targets acknowledged -/
  acks : List (Str × ℕ) := []

namespace QueueTrace

variable (t : QueueTrace)

def acked : QueueCall → List (Str × ℕ)
  | .ackTarget target upTo => [(target, min upTo (t.queue.nextSeq - 1))]
  | _ => []

def appended : QueueCall → List (ℕ × WanRecord)
  | .append r => [(t.queue.nextSeq, r)]
  | _ => []

def targets : QueueCall → List Str
  | .setTargets targets => targets
  | _ => []

/-- What a target has to get: records that were appended and that it has not acknowledged are still
there for it, with their numbers. -/
def Durable : Prop :=
  ∀ target ∈ t.registered, ∀ s r, (s, r) ∈ t.returned → (∀ a ∈ t.acks, a.1 = target → a.2 < s) →
    (s, r) ∈ t.queue.unackedFor target

section Runs

variable [Crc32fast]

def call (q : WanQueue) : QueueCall → WanQueue × List FileOp
  | .append r => q.append r
  | .setTargets targets => (q.setTargets targets, [])
  | .ackTarget target upTo => q.ackTarget target upTo
  | .reclaim => q.reclaim

variable (t : QueueTrace)

def exec : QueueEvent → QueueTrace
  | .call c =>
    { queue := (call t.queue c).1
      dir := (call t.queue c).2.foldl QueueDir.apply t.dir
      returned := t.returned ++ t.appended c
      registered := t.registered ++ targets c
      acks := t.acks ++ t.acked c }
  | .crash c j k =>
    { t with
      queue := openDir (t.dir.stop (call t.queue c).2 j k)
      dir := t.dir.stop (call t.queue c).2 j k
      acks := t.acks ++ t.acked c }

/-- Nothing is appended behind a torn frame; a target is registered while nothing is gone that it
has not acknowledged, and records are reclaimed only if every target that was registered has a
cursor. -/
def CallOk : QueueCall → Prop
  | .append r => Fits r ∧ t.dir.log.length = t.queue.bytes ∧ t.queue.nextSeq + 1 < 2 ^ 64
  | .setTargets targets => ∀ target ∈ targets, target.bytes.length < 2 ^ 32 ∧
      t.queue.baseSeq ≤ t.queue.targetAcked target
  | .ackTarget target _ => target.bytes.length < 2 ^ 32
  | .reclaim => t.queue.minAcked ≤ t.queue.baseSeq ∨
      ∀ target ∈ t.registered, (t.queue.cursors.lookup target).isSome = true

/-- The process does not stop between the two files that are replaced to reclaim records. -/
def Safe : QueueEvent → Prop
  | .call c => t.CallOk c
  | .crash (.setTargets _) _ _ => True
  | .crash .reclaim j _ => t.CallOk .reclaim ∧ (t.queue.minAcked ≤ t.queue.baseSeq ∨ j ≠ 1)
  | .crash c _ _ => t.CallOk c

instance  : (c : QueueCall) → Decidable (t.CallOk c)
  | .append _ => inferInstanceAs (Decidable (_ ∧ _ ∧ _))
  | .setTargets _ => inferInstanceAs (Decidable (∀ target ∈ _, _))
  | .ackTarget .. => inferInstanceAs (Decidable (_ < _))
  | .reclaim => inferInstanceAs (Decidable (_ ∨ _))

instance  : (e : QueueEvent) → Decidable (t.Safe e)
  | .call c => inferInstanceAs (Decidable (t.CallOk c))
  | .crash (.append _) _ _ => inferInstanceAs (Decidable (_ ∧ _ ∧ _))
  | .crash (.setTargets _) _ _ => isTrue trivial
  | .crash (.ackTarget ..) _ _ => inferInstanceAs (Decidable (_ < _))
  | .crash .reclaim _ _ => inferInstanceAs (Decidable (_ ∧ _))

/-- The states of the runs from an empty directory whose events all meet `ok`. -/
def Run (ok : QueueTrace → QueueEvent → Prop) : QueueTrace → Prop := Trace.Reaches exec ok {}

end Runs

end QueueTrace

/-! ## The invariant -/

/-- The cursors in memory are those in the file, up to cursors at `0`. -/
structure CursorsKept (q : WanQueue) (file : Bytes) (last : ℕ) : Prop where
  names : ∀ target, (q.cursors.lookup target).isSome = true → target.bytes.length < 2 ^ 32
  le : ∀ target, q.targetAcked target ≤ last
  file : ∃ cursors : Dict Str ℕ, (∀ c ∈ cursors.pairs, CursorFits c) ∧
    file = persistCursors cursors ∧
      ∀ target, (cursors.lookup target).getD 0 = q.targetAcked target

theorem CursorsKept.mono {q : WanQueue} {file : Bytes} {last last' : ℕ}
    (h : CursorsKept q file last) (hle : last ≤ last') : CursorsKept q file last' :=
  ⟨h.names, fun target => le_trans (h.le target) hle, h.file⟩

section Steps

variable [Crc32fast]

/-- The queue and its log hold the rest of a history behind the base; the log may end in a torn
frame. -/
structure LogKept (history : List WanRecord) (q : WanQueue) (d : QueueDir) : Prop where
  base_le : q.baseSeq ≤ history.length
  records : q.records = Retained.number q.baseSeq (history.drop q.baseSeq)
  nextSeq : q.nextSeq = history.length + 1
  fits : ∀ r ∈ history, Fits r
  count : history.length + 1 < 2 ^ 64
  log : ∃ tail, d.log = Frames.write encode (history.drop q.baseSeq) ++ tail ∧ decode tail = none
  bytes : q.bytes = (Frames.write encode (history.drop q.baseSeq)).length
  base : readU64 d.base = q.baseSeq

structure QueueOk (history : List WanRecord) (t : QueueTrace) : Prop where
  kept : LogKept history t.queue t.dir
  cursors : CursorsKept t.queue t.dir.cursors history.length
  registered : ∀ target ∈ t.registered, t.queue.baseSeq ≤ t.queue.targetAcked target
  acked : ∀ target s, 0 < s → s ≤ t.queue.targetAcked target → ∃ n, (target, n) ∈ t.acks ∧ s ≤ n
  returned : ∀ s r, (s, r) ∈ t.returned → 0 < s ∧ history[s - 1]? = some r

variable {history : List WanRecord} {q : WanQueue} {d : QueueDir} {t : QueueTrace}
  {c : QueueCall}

theorem decode_nil : decode [] = none := rfl

theorem LogKept.openDir (h : LogKept history q d) :
    (openDir d).baseSeq = q.baseSeq ∧ LogKept history (WanQueue.openDir d) d := by
  obtain ⟨tail, hlog, htail⟩ := h.log
  have hfits : ∀ r ∈ history.drop q.baseSeq, Fits r := fun r hr => h.fits r (mem_of_mem_drop hr)
  have hread : Frames.readAll decode d.log.length d.log = (history.drop q.baseSeq, tail) := by
    rw [hlog]
    exact framing.readAll_file hfits htail
  have hbase : (WanQueue.openDir d).baseSeq = q.baseSeq := h.base
  have hle := h.base_le
  refine ⟨hbase, hbase ▸ h.base_le, ?_, ?_, h.fits, h.count, ⟨tail, hbase ▸ hlog, htail⟩, ?_, rfl⟩
  · rw [WanQueue.openDir, hread, h.base]
  · rw [WanQueue.openDir, hread, h.base]
    dsimp only
    rw [length_drop]
    omega
  · rw [hbase, WanQueue.openDir, hread, hlog]
    rw [length_append, Nat.add_sub_cancel]

theorem CursorsKept.openDir {last : ℕ} (h : CursorsKept q d.cursors last) :
    (∀ target, (WanQueue.openDir d).targetAcked target = q.targetAcked target) ∧
      CursorsKept (WanQueue.openDir d) d.cursors last := by
  obtain ⟨cursors, hfits, hfile, heq⟩ := h.file
  have hlookup : ∀ target, (WanQueue.openDir d).cursors.lookup target = cursors.lookup target := by
    intro target
    rw [WanQueue.openDir, hfile]
    exact lookup_readCursors hfits target
  have hacked : ∀ target, (WanQueue.openDir d).targetAcked target = q.targetAcked target := by
    intro target
    rw [targetAcked, hlookup, heq]
  refine ⟨hacked, fun target hsome => ?_, fun target => hacked target ▸ h.le target,
    cursors, hfits, hfile, fun target => (heq target).trans (hacked target).symm⟩
  rw [hlookup] at hsome
  obtain ⟨n, hn⟩ := Option.isSome_iff_exists.1 hsome
  exact (hfits (target, n) (Dict.mem_pairs.2 hn)).1

theorem QueueOk.reopen (h : QueueOk history t) : QueueOk history { t with queue := openDir t.dir } := by
  obtain ⟨hbase, hkept⟩ := h.kept.openDir
  obtain ⟨hacked, hcursors⟩ := h.cursors.openDir
  refine ⟨hkept, hcursors, fun target ht => ?_, fun target s hs hle => ?_, h.returned⟩
  · rw [hbase, hacked]
    exact h.registered target ht
  · rw [hacked] at hle
    exact h.acked target s hs hle

theorem QueueOk.mono (h : QueueOk history t) {returned : List (ℕ × WanRecord)}
    {registered : List Str} {acks : List (Str × ℕ)} (hret : returned ⊆ t.returned)
    (hreg : registered ⊆ t.registered) (hack : t.acks ⊆ acks) :
    QueueOk history { t with returned := returned, registered := registered, acks := acks } := by
  refine ⟨h.kept, h.cursors, fun target ht => h.registered target (hreg ht), fun target s hs hle => ?_,
    fun s r hr => h.returned s r (hret hr)⟩
  obtain ⟨n, hn, hsn⟩ := h.acked target s hs hle
  exact ⟨n, hack hn, hsn⟩

theorem LogKept.withCursors (h : LogKept history q d) (cursors : Dict Str ℕ) (file : Bytes) :
    LogKept history { q with cursors := cursors } { d with cursors := file } :=
  { h with }

/-! ## Calls -/

theorem LogKept.log_eq (h : LogKept history q d) (hlog : d.log.length = q.bytes) :
    d.log = Frames.write encode (history.drop q.baseSeq) := by
  obtain ⟨tail, htail, -⟩ := h.log
  have hnil : tail = [] := by
    rw [htail, length_append, h.bytes] at hlog
    exact length_eq_zero_iff.1 (by omega)
  rw [htail, hnil, append_nil]

variable {r : WanRecord}

theorem LogKept.concat (h : LogKept history q d) (hfits : Fits r)
    (hlog : d.log.length = q.bytes) (hcount : q.nextSeq + 1 < 2 ^ 64) :
    LogKept (history ++ [r]) (q.append r).1 (d.apply (.append (encode r))) := by
  have htail := h.log_eq hlog
  have hdrop : (history ++ [r]).drop q.baseSeq = history.drop q.baseSeq ++ [r] :=
    drop_append_of_le_length h.base_le
  have hwrite : Frames.write encode ((history ++ [r]).drop q.baseSeq) = d.log ++ encode r := by
    rw [hdrop, Frames.write_append, Frames.write_singleton, htail]
  have hle := h.base_le
  refine ⟨?_, ?_, ?_, forall_mem_concat h.fits hfits, ?_, ⟨[], ?_, decode_nil⟩, ?_, h.base⟩
  · change q.baseSeq ≤ _
    rw [length_append]
    omega
  · change q.records ++ [(q.nextSeq, r)] = Retained.number q.baseSeq ((history ++ [r]).drop q.baseSeq)
    rw [hdrop, Retained.number_append, ← h.records, h.nextSeq, length_drop,
      Nat.add_sub_cancel' h.base_le]
    rfl
  · change q.nextSeq + 1 = _
    rw [length_append, h.nextSeq, length_singleton]
  · have hnext := h.nextSeq
    rw [length_append, length_singleton]
    omega
  · rw [append_nil]
    exact hwrite.symm
  · change q.bytes + (encode r).length = _
    rw [show (q.append r).1.baseSeq = q.baseSeq from rfl, hwrite, length_append, hlog]

theorem LogKept.torn (h : LogKept history q d) (hfits : Fits r)
    (hlog : d.log.length = q.bytes) {k : ℕ} (hk : k < (encode r).length) :
    LogKept history q (d.interrupt k (.append (encode r))) := by
  have htail := h.log_eq hlog
  refine { h with log := ⟨(encode r).take k, ?_, framing.next_torn r k hfits hk⟩ }
  change d.log ++ (encode r).take k = _
  rw [htail]

theorem QueueOk.append (h : QueueOk history t) (hok : t.CallOk (.append r)) :
    QueueOk (history ++ [r]) (t.exec (.call (.append r))) := by
  obtain ⟨hfits, hlog, hcount⟩ := hok
  have hcursors : CursorsKept t.queue t.dir.cursors (history ++ [r]).length :=
    h.cursors.mono (by simp)
  refine ⟨h.kept.concat hfits hlog hcount, ⟨hcursors.names, hcursors.le, hcursors.file⟩, ?_, ?_, ?_⟩
  · intro target ht
    exact h.registered target ((append_nil t.registered) ▸ ht)
  · intro target s hs hle
    obtain ⟨n, hn, hsn⟩ := h.acked target s hs hle
    exact ⟨n, mem_append_left _ hn, hsn⟩
  · intro s x hx
    rcases mem_append.1 hx with hx | hx
    · obtain ⟨hpos, hget⟩ := h.returned s x hx
      refine ⟨hpos, ?_⟩
      rw [List.getElem?_append_left (List.getElem?_eq_some_iff.1 hget).1]
      exact hget
    · cases mem_singleton.1 hx
      have hnext := h.kept.nextSeq
      refine ⟨by omega, ?_⟩
      rw [hnext, Nat.add_sub_cancel, List.getElem?_concat_length]

/-- A call that appends nothing. -/
theorem QueueOk.call (h : QueueOk history t) (hnone : t.appended c = [])
    (hkept : LogKept history (QueueTrace.call t.queue c).1 (t.exec (.call c)).dir)
    (hcursors : CursorsKept (QueueTrace.call t.queue c).1 (t.exec (.call c)).dir.cursors history.length)
    (hregistered : ∀ target ∈ t.registered ++ QueueTrace.targets c,
      (QueueTrace.call t.queue c).1.baseSeq ≤ (QueueTrace.call t.queue c).1.targetAcked target)
    (hacked : ∀ target s, s ≤ (QueueTrace.call t.queue c).1.targetAcked target →
      s ≤ t.queue.targetAcked target ∨ ∃ n, (target, n) ∈ t.acked c ∧ s ≤ n) :
    QueueOk history (t.exec (.call c)) := by
  refine ⟨hkept, hcursors, hregistered, fun target s hs hle => ?_, fun s r hr => ?_⟩
  · rcases hacked target s hle with hold | ⟨n, hn, hsn⟩
    · obtain ⟨n, hn, hsn⟩ := h.acked target s hs hold
      exact ⟨n, mem_append_left _ hn, hsn⟩
    · exact ⟨n, mem_append_right _ hn, hsn⟩
  · change (s, r) ∈ t.returned ++ t.appended c at hr
    rw [hnone, append_nil] at hr
    exact h.returned s r hr

theorem QueueOk.setTargets (h : QueueOk history t) {targets : List Str}
    (hok : t.CallOk (.setTargets targets)) :
    QueueOk history (t.exec (.call (.setTargets targets))) := by
  have hq := setTargets_eq t.queue targets
  have hacked := fun target => targetAcked_setTargets t.queue target targets
  refine h.call rfl ?_ ⟨fun target hsome => ?_, fun target => ?_, ?_⟩ (fun target ht => ?_)
    fun target s hle => .inl (hacked target ▸ hle)
  · change LogKept history (t.queue.setTargets targets) t.dir
    rw [hq]
    exact h.kept.withCursors _ _
  · rcases (isSome_setTargets t.queue target targets).1 hsome with hmem | hsome
    · exact (hok target hmem).1
    · exact h.cursors.names target hsome
  · exact (hacked target).symm ▸ h.cursors.le target
  · obtain ⟨cursors, hfits, hfile, heq⟩ := h.cursors.file
    exact ⟨cursors, hfits, hfile, fun target => (heq target).trans (hacked target).symm⟩
  · change (t.queue.setTargets targets).baseSeq ≤ (t.queue.setTargets targets).targetAcked target
    rw [hacked, hq]
    exact (mem_append.1 ht).elim (h.registered target) fun ht => (hok target ht).2

variable {target : Str}

theorem CursorsKept.ackTarget (h : CursorsKept q d.cursors history.length)
    (hkept : LogKept history q d) (hname : target.bytes.length < 2 ^ 32) (upTo : ℕ) :
    LogKept history (q.ackTarget target upTo).1
        ((q.ackTarget target upTo).2.foldl QueueDir.apply d) ∧
      CursorsKept (q.ackTarget target upTo).1
        ((q.ackTarget target upTo).2.foldl QueueDir.apply d).cursors history.length := by
  have hnames : ∀ t, ((q.entry target).cursors.lookup t).isSome = true → t.bytes.length < 2 ^ 32 := by
    intro t ht
    rw [isSome_entry, Bool.or_eq_true, decide_eq_true_eq] at ht
    rcases ht with rfl | ht
    · exact hname
    · exact h.names t ht
  have hle : ∀ t, (q.ackTarget target upTo).1.targetAcked t ≤ history.length := by
    intro t
    have hold := h.le t
    have hnext := hkept.nextSeq
    rw [targetAcked_ackTarget]
    split
    next => omega
    next => exact hold
  rw [WanQueue.ackTarget] at hle ⊢
  split at hle
  next hlt =>
    rw [if_pos hlt]
    rw [entry_eq] at hle ⊢
    refine ⟨hkept.withCursors _ _, fun t ht => ?_, hle, _, fun c hc => ⟨?_, ?_⟩, rfl, fun _ => rfl⟩
    · by_cases htt : t = target
      · exact htt ▸ hname
      · refine hnames t ?_
        rw [← AList.lookup_insert_ne htt]
        exact ht
    · by_cases htt : c.1 = target
      · exact htt ▸ hname
      · refine hnames c.1 ?_
        rw [← AList.lookup_insert_ne htt, Dict.mem_pairs.1 hc]
        rfl
    · have hcursor := hle c.1
      have hcount := hkept.count
      rw [targetAcked, Dict.mem_pairs.1 hc] at hcursor
      change c.2 ≤ _ at hcursor
      omega
  next hge =>
    rw [if_neg hge]
    obtain ⟨cursors, hfits, hfile, heq⟩ := h.file
    refine ⟨?_, hnames, hle, cursors, hfits, hfile, fun t => ?_⟩
    · rw [entry_eq]
      exact hkept.withCursors _ _
    · rw [heq, targetAcked_entry]

theorem QueueOk.ackTarget (h : QueueOk history t) {upTo : ℕ}
    (hok : t.CallOk (.ackTarget target upTo)) :
    QueueOk history (t.exec (.call (.ackTarget target upTo))) := by
  obtain ⟨hkept, hcursors⟩ := h.cursors.ackTarget h.kept hok upTo
  have hacked := fun t' => targetAcked_ackTarget t.queue target t' upTo
  have hbase : (t.queue.ackTarget target upTo).1.baseSeq = t.queue.baseSeq := by
    rw [WanQueue.ackTarget]
    rw [entry_eq]
    split
    next => rfl
    next => rfl
  refine h.call rfl hkept hcursors (fun t' ht' => ?_) fun t' s hle => ?_
  · change (t.queue.ackTarget target upTo).1.baseSeq ≤ (t.queue.ackTarget target upTo).1.targetAcked t'
    have hreg := h.registered t' ((append_nil t.registered) ▸ ht')
    rw [hbase, hacked]
    split
    next => exact le_trans hreg (le_max_left _ _)
    next => exact hreg
  · change s ≤ (t.queue.ackTarget target upTo).1.targetAcked t' at hle
    rw [hacked] at hle
    split at hle
    next heq =>
      subst heq
      refine or_iff_not_imp_left.2 fun hnew => ⟨_, mem_singleton_self _, ?_⟩
      omega
    next => exact .inl hle

theorem LogKept.reclaim (h : LogKept history q d) (hcursors : CursorsKept q d.cursors history.length) :
    LogKept history q.reclaim.1 (q.reclaim.2.foldl QueueDir.apply d) := by
  rw [WanQueue.reclaim]
  dsimp only
  split
  next => exact h
  next hgt =>
    have hlt : q.baseSeq ≤ q.minAcked := le_of_lt (not_le.1 hgt)
    have hle : q.minAcked ≤ history.length := by
      rcases minAcked_eq q with hzero | ⟨target, heq⟩
      · omega
      · exact heq ▸ hcursors.le target
    have hrecords : q.records.filter (fun e => decide (q.minAcked < e.1)) =
        Retained.number q.minAcked (history.drop q.minAcked) := by
      rw [h.records, Retained.filter_number hlt, drop_drop, Nat.add_sub_cancel' hlt]
    have hcount := h.count
    rw [hrecords, Retained.map_snd_number]
    refine ⟨hle, rfl, h.nextSeq, h.fits, h.count, ⟨[], (append_nil _).symm, decode_nil⟩, rfl,
      readU64_encode ?_⟩
    omega

theorem reclaim_cursors : q.reclaim.1.cursors = q.cursors ∧
    (q.reclaim.2.foldl QueueDir.apply d).cursors = d.cursors := by
  rw [WanQueue.reclaim]
  split
  next => exact ⟨rfl, rfl⟩
  next => exact ⟨rfl, rfl⟩

theorem QueueOk.reclaim (h : QueueOk history t) (hok : t.CallOk .reclaim) :
    QueueOk history (t.exec (.call .reclaim)) := by
  obtain ⟨hcursors, hfile⟩ := reclaim_cursors (q := t.queue) (d := t.dir)
  have hacked : ∀ target, t.queue.reclaim.1.targetAcked target = t.queue.targetAcked target := by
    intro target
    rw [targetAcked, hcursors]
    rfl
  refine h.call rfl (h.kept.reclaim h.cursors) ⟨fun target hsome => ?_, fun target => ?_, ?_⟩
    (fun target ht => ?_) fun target s hle => .inl (hacked target ▸ hle)
  · exact h.cursors.names target (hcursors ▸ hsome)
  · exact (hacked target).symm ▸ h.cursors.le target
  · obtain ⟨cursors, hfits, heq, hlookup⟩ := h.cursors.file
    exact ⟨cursors, hfits, hfile.trans heq, fun target => (hlookup target).trans (hacked target).symm⟩
  · have hreg : target ∈ t.registered := (append_nil t.registered) ▸ ht
    change t.queue.reclaim.1.baseSeq ≤ t.queue.reclaim.1.targetAcked target
    rw [WanQueue.reclaim]
    split
    next => exact h.registered target hreg
    next hgt =>
      obtain ⟨n, hn⟩ := Option.isSome_iff_exists.1 (hok.resolve_left hgt target hreg)
      have hmin := minAcked_le t.queue target hn
      rw [targetAcked, hn]
      exact hmin

/-! ## Crashes -/

theorem QueueOk.crash_done (h : QueueOk history (t.exec (.call c))) {j k : ℕ}
    (hstop : t.dir.stop (QueueTrace.call t.queue c).2 j k =
      (QueueTrace.call t.queue c).2.foldl QueueDir.apply t.dir) :
    QueueOk history (t.exec (.crash c j k)) := by
  have hreopen := h.reopen.mono (subset_append_left t.returned (t.appended c))
    (subset_append_left t.registered (QueueTrace.targets c)) (List.Subset.refl _)
  rw [QueueTrace.exec, hstop]
  exact hreopen

theorem QueueOk.crash_none (h : QueueOk history t) {j k : ℕ}
    (hstop : t.dir.stop (QueueTrace.call t.queue c).2 j k = t.dir) :
    QueueOk history (t.exec (.crash c j k)) := by
  have hreopen := h.reopen.mono (List.Subset.refl _) (List.Subset.refl _)
    (subset_append_left t.acks (t.acked c))
  rw [QueueTrace.exec, hstop]
  exact hreopen

theorem QueueOk.crash_between (h : QueueOk history t) (hdone : QueueOk history (t.exec (.call c)))
    {j k : ℕ} (hstop : t.dir.stop (QueueTrace.call t.queue c).2 j k = t.dir ∨
      t.dir.stop (QueueTrace.call t.queue c).2 j k =
        (QueueTrace.call t.queue c).2.foldl QueueDir.apply t.dir) :
    QueueOk history (t.exec (.crash c j k)) :=
  hstop.elim h.crash_none hdone.crash_done

theorem QueueOk.crash_append (h : QueueOk history t) (hok : t.CallOk (.append r))
    (j k : ℕ) : ∃ history', QueueOk history' (t.exec (.crash (.append r) j k)) := by
  cases j with
  | succ j => exact ⟨_, (h.append hok).crash_done rfl⟩
  | zero =>
    rcases lt_or_ge k (encode r).length with hlt | hge
    · have htorn : QueueOk history { t with dir := t.dir.interrupt k (.append (encode r)) } :=
        { h with kept := h.kept.torn hok.1 hok.2.1 hlt }
      refine ⟨history, ?_⟩
      have hreopen := htorn.reopen.mono (List.Subset.refl _) (List.Subset.refl _)
        (subset_append_left t.acks [])
      exact hreopen
    · refine ⟨_, (h.append hok).crash_done ?_⟩
      change { t.dir with log := t.dir.log ++ (encode r).take k } = _
      rw [take_of_length_le hge]
      rfl

theorem QueueOk.crash_ackTarget (h : QueueOk history t) {upTo : ℕ}
    (hok : t.CallOk (.ackTarget target upTo)) (j k : ℕ) :
    QueueOk history (t.exec (.crash (.ackTarget target upTo) j k)) := by
  refine h.crash_between (h.ackTarget hok) ?_
  rw [QueueTrace.call, WanQueue.ackTarget]
  split
  next =>
    cases j with
    | zero => exact .inl rfl
    | succ j => exact .inr rfl
  next => exact .inl rfl

theorem QueueOk.crash_reclaim (h : QueueOk history t) (hok : t.CallOk .reclaim) {j : ℕ}
    (hj : t.queue.minAcked ≤ t.queue.baseSeq ∨ j ≠ 1) (k : ℕ) :
    QueueOk history (t.exec (.crash .reclaim j k)) := by
  refine h.crash_between (h.reclaim hok) ?_
  rw [QueueTrace.call, WanQueue.reclaim]
  split
  next => exact .inl rfl
  next hgt =>
    match j with
    | 0 => exact .inl rfl
    | 1 => exact absurd rfl (hj.resolve_left hgt)
    | j + 2 => exact .inr rfl

theorem QueueOk.exec (h : QueueOk history t) {e : QueueEvent} (hsafe : t.Safe e) :
    ∃ history', QueueOk history' (t.exec e) := by
  match e with
  | .call (.append r) => exact ⟨_, h.append hsafe⟩
  | .call (.setTargets targets) => exact ⟨_, h.setTargets hsafe⟩
  | .call (.ackTarget target upTo) => exact ⟨_, h.ackTarget hsafe⟩
  | .call .reclaim => exact ⟨_, h.reclaim hsafe⟩
  | .crash (.append r) j k => exact h.crash_append hsafe j k
  | .crash (.setTargets targets) j k => exact ⟨_, h.crash_none rfl⟩
  | .crash (.ackTarget target upTo) j k => exact ⟨_, h.crash_ackTarget hsafe j k⟩
  | .crash .reclaim j k => exact ⟨_, h.crash_reclaim hsafe.1 hsafe.2 k⟩

theorem QueueOk.start : QueueOk [] {} := by
  refine ⟨⟨le_refl _, rfl, rfl, fun r hr => (by cases hr), by decide, ⟨[], rfl, decode_nil⟩, rfl,
    rfl⟩, ⟨fun target hsome => ?_, fun target => le_refl _, ∅, fun c hc => ?_, rfl, fun _ => rfl⟩,
    fun target ht => ?_, fun target s hs hle => ?_, fun s r hr => ?_⟩
  · cases hsome
  · cases hc
  · cases ht
  · exact absurd hle (not_le.2 hs)
  · cases hr

theorem QueueOk.durable (h : QueueOk history t) : t.Durable := by
  intro target ht s r hr hack
  obtain ⟨hpos, hget⟩ := h.returned s r hr
  have hlt : t.queue.targetAcked target < s := by
    by_contra hle
    obtain ⟨n, hn, hsn⟩ := h.acked target s hpos (not_lt.1 hle)
    exact absurd (hack _ hn rfl) (not_lt.2 hsn)
  have hbase := h.registered target ht
  rw [unackedFor, mem_filter, h.kept.records, Retained.mem_number, List.getElem?_drop,
    show t.queue.baseSeq + (s - t.queue.baseSeq - 1) = s - 1 by omega]
  exact ⟨⟨by omega, hget⟩, decide_eq_true hlt⟩

/-- In every run whose events are safe, all that the targets have to get is there for them, after
each reopening as well. -/
theorem queue_durable (h : QueueTrace.Run QueueTrace.Safe t) : t.Durable := by
  obtain ⟨history, hok⟩ := h.invariant (I := fun t => ∃ history, QueueOk history t)
    (fun t e ht hsafe => ht.elim fun history hok => hok.exec hsafe) ⟨[], .start⟩
  exact hok.durable

end Steps

def east : Str := ⟨[97], by decide⟩

def west : Str := ⟨[98], by decide⟩

def change (stamp : ℕ) : WanRecord := ⟨.put, stamp, 0, east, [1], [10]⟩

/-- Records are appended and reclaimed; an append is torn, and the log is compacted before the next
one. -/
def safeEvents : List QueueEvent :=
  [.call (.setTargets [east, west]), .call (.append (change 1)), .call (.append (change 2)),
    .call (.ackTarget east 2), .call (.ackTarget west 1), .call .reclaim,
    .crash (.append (change 3)) 0 5, .call (.ackTarget west 2), .call .reclaim,
    .call (.append (change 4)), .crash (.setTargets []) 0 0]

theorem queue_durable_compacted :
    let t := safeEvents.foldl QueueTrace.exec {}
    t.Durable ∧ t.queue.unackedFor west = [(3, change 4)] := by
  have hallowed : Trace.Allowed QueueTrace.exec QueueTrace.Safe {} safeEvents := by
    decide +kernel
  exact ⟨queue_durable (.of_allowed safeEvents hallowed), by decide +kernel⟩

def behindTorn : List QueueEvent :=
  [.call (.setTargets [east]), .call (.append (change 1)), .crash (.append (change 2)) 0 5,
    .call (.append (change 3)), .crash (.setTargets []) 0 0]

def halfReclaimed : List QueueEvent :=
  [.call (.setTargets [east]), .call (.append (change 1)), .call (.append (change 2)),
    .call (.append (change 3)), .call (.ackTarget east 2), .crash .reclaim 1 0]

/-- Each of these runs loses a record that its target has to get. -/
theorem queue_loses :
    let torn := behindTorn.foldl QueueTrace.exec {}
    let half := halfReclaimed.foldl QueueTrace.exec {}
    QueueTrace.Run (fun _ _ => True) torn ∧ ¬ torn.Durable ∧
      QueueTrace.Run (fun _ _ => True) half ∧ ¬ half.Durable := by
  refine ⟨.of_allowed behindTorn (by decide), fun h => ?_, .of_allowed halfReclaimed (by decide),
    fun h => ?_⟩
  · have hmem := h east (by decide +kernel) 2 (change 3) (by decide +kernel) (by decide +kernel)
    revert hmem
    decide +kernel
  · have hmem := h east (by decide +kernel) 3 (change 3) (by decide +kernel) (by decide +kernel)
    revert hmem
    decide +kernel

end BonsaiGrid.Wan
