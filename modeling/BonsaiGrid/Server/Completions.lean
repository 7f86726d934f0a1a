import BonsaiGrid.Server.Ring

/-!
# Completions find their connection

An open connection's buffers are what the kernel has not taken of its output, and its send buffer
is outstanding exactly when it says so (`Conn.Tracks`); of a connection that is gone it is enough
that what the kernel may still take was appended next (`Conn.Covers`).
-/

namespace BonsaiGrid.Ring

open Fault Reactor State List Nat Option

def Op.bytes? : Op → Option Bytes
  | recv => none
  | send bytes => some bytes

def sends (armed : List Armed) (k : ℕ) : List Bytes :=
  armed.filterMap fun a => if a.owner = k then a.op.bytes? else none

/-- A connection that may be gone: it has at most one send outstanding, and what the kernel has
taken and may still take for it was appended to its `out` in this order. -/
structure Conn.Covers (c : Conn) (sent : Bytes) (sends : List Bytes) : Prop where
  one : sends.length ≤ 1
  delivered : sent <+: c.written
  pending : ∀ b ∈ sends, sent ++ b <+: c.written

/-- A connection that is open: its buffers are what the kernel has not taken yet, and the send
buffer is outstanding exactly when it says so. -/
structure Conn.Tracks (c : Conn) (sent : Bytes) (sends : List Bytes) : Prop where
  buffers : sent ++ c.sendbuf ++ c.out = c.written
  idle : c.inflightSend = 0 → sends = []
  busy : 0 < c.inflightSend → sends = [c.sendbuf.take (c.sendbuf.length % 2 ^ 32)]

structure Served (c : Conn) (sent : Bytes) (sends : List Bytes) (r : Conn × List Op) : Prop where
  connId : r.1.connId = c.connId
  covers : r.1.Covers sent (sends ++ r.2.filterMap Op.bytes?)
  tracks : r.1.isOpen = true → r.1.Tracks sent (sends ++ r.2.filterMap Op.bytes?)

variable {d : Conn} {res : ℤ}

section Connection

variable {c : Conn} {sent : Bytes} {pending : List Bytes}

theorem Conn.Tracks.covers (h : c.Tracks sent pending) : c.Covers sent pending := by
  have hdelivered : sent <+: c.written := by
    rw [← h.buffers, append_assoc]
    exact prefix_append _ _
  cases Nat.eq_zero_or_pos c.inflightSend with
  | inl hidle =>
    rw [h.idle hidle]
    exact ⟨by decide, hdelivered, fun b hb => by cases hb⟩
  | inr hbusy =>
    rw [h.busy hbusy]
    refine ⟨le_refl 1, hdelivered, fun b hb => ?_⟩
    rw [mem_singleton.mp hb, ← h.buffers, append_assoc,
      prefix_append_right_inj]
    exact ( take_prefix _ _).trans (prefix_append _ _)

theorem Conn.Tracks.append (h : c.Tracks sent pending) (bytes : Bytes) :
    (c.append bytes).Tracks sent pending where
  buffers := by
    rw [Conn.append, ← h.buffers]
    exact (append_assoc _ _ _).symm
  idle := h.idle
  busy := h.busy

variable {r : Conn × List Op}

theorem Conn.Tracks.served (hid : r.1.connId = c.connId)
    (h : r.1.Tracks sent (pending ++ r.2.filterMap Op.bytes?)) : Served c sent pending r :=
  ⟨hid, h.covers, fun _ => h⟩

theorem Served.of_connId (h : Served d sent pending r)
    (hid : d.connId = c.connId) : Served c sent pending r :=
  ⟨h.connId.trans hid, h.covers, h.tracks⟩

theorem maybeArmSend_fields (c : Conn) :
    (maybeArmSend c).1.connId = c.connId ∧ (maybeArmSend c).1.isOpen = c.isOpen := by
  rw [maybeArmSend]
  split_ifs
  all_goals exact ⟨rfl, rfl⟩

theorem maybeArmSend_tracks (h : c.Tracks sent pending) :
    (maybeArmSend c).1.Tracks sent
      (pending ++ (maybeArmSend c).2.filterMap Op.bytes?) := by
  rw [maybeArmSend]
  by_cases hbusy : 0 < c.inflightSend
  · rw [if_pos hbusy, filterMap_nil, append_nil]
    exact h
  have hnone : pending = [] := h.idle (Nat.eq_zero_of_not_pos hbusy)
  rw [if_neg hbusy]
  by_cases hempty : c.sendbuf = [] ∧ c.out = []
  · rw [if_pos hempty, filterMap_nil, append_nil]
    exact h
  rw [if_neg hempty, hnone]
  by_cases hbuf : c.sendbuf = []
  · have hout : c.out ≠ [] := fun hout => hempty ⟨hbuf, hout⟩
    have hlen : 0 < c.out.length := length_pos_iff.mpr hout
    have hsum := h.buffers
    rw [hbuf, append_nil] at hsum
    rw [if_pos hbuf]
    exact ⟨by rw [append_nil, hsum], fun h0 => absurd h0 hlen.ne', fun _ => rfl⟩
  · have hlen : 0 < c.sendbuf.length := length_pos_iff.mpr hbuf
    rw [if_neg hbuf]
    exact ⟨h.buffers, fun h0 => absurd h0 hlen.ne', fun _ => rfl⟩

theorem maybeArmSend_served (h : c.Tracks sent pending) :
    Served c sent pending (maybeArmSend c) :=
  (maybeArmSend_tracks h).served (maybeArmSend_fields c).1

theorem close_served (h : c.Covers sent pending) : Served c sent pending (c.close, []) where
  connId := rfl
  covers := by
    rw [filterMap_nil, append_nil]
    exact ⟨h.one, h.delivered, h.pending⟩
  tracks := fun hopen => by cases hopen

theorem Served.recv (h : Served c sent pending r) :
    Served c sent pending (r.1, r.2 ++ [.recv]) := by
  have hbytes : (r.2 ++ [Op.recv]).filterMap Op.bytes? = r.2.filterMap Op.bytes? := by
    simp [Op.bytes?]
  exact ⟨h.connId, hbytes ▸ h.covers, hbytes ▸ h.tracks⟩

theorem onSend_served {bytes : Bytes} (h : c.Tracks sent [bytes]) (hres : res ≤ bytes.length) :
    ∃ r, onSend c res = .ok r ∧ Served c (sent ++ bytes.take res.toNat) [] r := by
  have hbusy : 0 < c.inflightSend := by
    refine pos_of_ne_zero fun h0 => ?_
    cases h.idle h0
  have hbytes := singleton_inj.mp (h.busy hbusy)
  rw [onSend]
  by_cases hneg : res < 0
  · rw [if_pos hneg, Int.toNat_of_nonpos hneg.le, take_zero, append_nil]
    have hcov := h.covers
    exact ⟨_, rfl, close_served ⟨zero_le 1, hcov.delivered, fun b hb => by cases hb⟩⟩
  have hlen : res.toNat ≤ bytes.length := by omega
  have hbuf : res.toNat ≤ c.sendbuf.length := by
    rw [hbytes, length_take] at hlen
    omega
  have htake : bytes.take res.toNat = c.sendbuf.take res.toNat := by
    rw [hbytes, length_take] at hlen
    rw [hbytes, take_take, min_eq_left (by omega)]
  have htracks : ({ c with sendbuf := c.sendbuf.drop res.toNat, inflightSend := 0 } :
      Conn).Tracks (sent ++ bytes.take res.toNat) [] := by
    refine ⟨?_, fun _ => rfl, fun h0 => absurd h0 (lt_irrefl 0)⟩
    rw [htake, append_assoc sent, take_append_drop]
    exact h.buffers
  rw [slice_eq (zero_le _) hbuf]
  dsimp only
  split_ifs
  · exact ⟨_, rfl, (close_served htracks.covers).of_connId rfl⟩
  · exact ⟨_, rfl, (maybeArmSend_served htracks).of_connId rfl⟩

theorem Served.trans {ops : List Op} (h : Served c sent pending (d, ops))
    (h' : Served d sent (pending ++ ops.filterMap Op.bytes?) r) :
    Served c sent pending (r.1, ops ++ r.2) := by
  have hbytes : pending ++ (ops ++ r.2).filterMap Op.bytes? =
      pending ++ ops.filterMap Op.bytes? ++ r.2.filterMap Op.bytes? := by simp
  exact ⟨h'.connId.trans h.connId, hbytes ▸ h'.covers, hbytes ▸ h'.tracks⟩

theorem Conn.Tracks.served_nil (h : c.Tracks sent pending) (hd : d = c) :
    Served c sent pending (d, []) := by
  subst hd
  exact Conn.Tracks.served rfl (by rwa [filterMap_nil, append_nil])

theorem pumpHandshake_served (hopen : c.isOpen = true) (h : c.Tracks sent pending) (w : Work) :
    Served c sent pending ((pumpHandshake w c).1, (pumpHandshake w c).2.1) ∧
      ((pumpHandshake w c).2.2.isSome = true → (pumpHandshake w c).1.isOpen = true) := by
  rw [pumpHandshake]
  cases w.pump with
  | failed => exact ⟨close_served h.covers, fun hsome => by cases hsome⟩
  | pumped send plain ready installed =>
    have happend := h.append send
    dsimp only
    by_cases hfail : (ready && !installed) = true
    · rw [if_pos hfail]
      exact ⟨(close_served happend.covers).of_connId rfl, fun hsome => by cases hsome⟩
    · rw [if_neg hfail]
      refine ⟨(maybeArmSend_served ?_).of_connId rfl, fun _ => ?_⟩
      · exact ⟨happend.buffers, happend.idle, happend.busy⟩
      · exact (maybeArmSend_fields _).2.trans hopen

theorem tlsIngest_served (hopen : c.isOpen = true) (h : c.Tracks sent pending) (w : Work)
    (chunk : Bytes) :
    Served c sent pending ((tlsIngest w c chunk).1, (tlsIngest w c chunk).2.1) ∧
      ((tlsIngest w c chunk).2.2.isSome = true → (tlsIngest w c chunk).1.isOpen = true) := by
  rw [tlsIngest]
  cases c.tls with
  | plain | ktls => exact ⟨h.served_nil rfl, fun _ => hopen⟩
  | handshaking => exact pumpHandshake_served hopen h w
  | detect =>
    by_cases hhello : chunk.head? = some 0x16
    · rw [if_pos hhello]
      cases w.acceptor with
      | true => exact pumpHandshake_served hopen h w
      | false => exact ⟨close_served h.covers, fun hsome => by cases hsome⟩
    · rw [if_neg hhello]
      have hplain : ({ c with tls := .plain } : Conn).Tracks sent pending :=
        ⟨h.buffers, h.idle, h.busy⟩
      exact ⟨(hplain.served_nil rfl).of_connId rfl, fun _ => hopen⟩

theorem serve_served (h : c.Tracks sent pending) (w : Work) :
    Served c sent pending (serve w c) := by
  have hwait : Served c sent pending (c, [.recv]) := (h.served_nil rfl).recv
  have hlast : Served c sent pending
      (maybeArmSend { c.append w.reply with closeAfterFlush := true }) := by
    have happend := h.append w.reply
    refine (maybeArmSend_served ?_).of_connId rfl
    exact ⟨happend.buffers, happend.idle, happend.busy⟩
  have hnext : ∀ bytes, Served c sent pending ((maybeArmSend (c.append bytes)).1,
      (maybeArmSend (c.append bytes)).2 ++ [.recv]) := fun bytes =>
    (maybeArmSend_served (h.append bytes)).recv.of_connId rfl
  rw [serve]
  cases c.wire.mode with
  | none => exact hwait
  | some m =>
    cases m with
    | binary => exact hnext _
    | http =>
      split_ifs
      · exact hlast
      · exact hwait
    | memcache | resp =>
      split_ifs
      · exact hlast
      · exact hnext _

theorem onRecv_served (hopen : c.isOpen = true) (h : c.Tracks sent pending) {w : Work}
    {chunk : Bytes} (hr : onRecv w c res chunk = .ok r) :
    Served c sent pending r := by
  rw [onRecv] at hr
  split_ifs at hr with hres
  · cases hr
    exact close_served h.covers
  obtain ⟨hserved, hsome⟩ := tlsIngest_served hopen h w chunk
  generalize tlsIngest w c chunk = t at hr hserved hsome
  obtain ⟨d, ops, plain⟩ := t
  cases plain with
  | none =>
    cases hr
    split_ifs
    · exact hserved.recv
    · exact hserved
  | some plain =>
    obtain ⟨wire, -, hr⟩ := bind_eq_ok.mp hr
    cases hr
    have hd := hserved.tracks (hsome rfl)
    have hwire : ({ d with wire } : Conn).Tracks sent (pending ++ ops.filterMap Op.bytes?) :=
      ⟨hd.buffers, hd.idle, hd.busy⟩
    exact hserved.trans ((serve_served hwire w).of_connId rfl)

end Connection

variable {j : ℕ}

section Outstanding

variable {armed : List Armed} {a : Armed} {k i : ℕ}

theorem sends_append (l m : List Armed) (k : ℕ) : sends (l ++ m) k = sends l k ++ sends m k :=
  filterMap_append

theorem sends_armed_self (ops : List Op) (i k : ℕ) :
    sends (ops.map (Armed.mk i k)) k = ops.filterMap Op.bytes? := by
  rw [sends, filterMap_map]
  exact filterMap_congr fun op _ => if_pos rfl

theorem sends_armed_other (ops : List Op) (i : ℕ) {k j : ℕ} (h : j ≠ k) :
    sends (ops.map (Armed.mk i k)) j = [] := by
  rw [sends, filterMap_map, filterMap_eq_nil_iff]
  exact fun op _ => if_neg h.symm

theorem exists_around (h : armed[k]? = some a) :
    ∃ l m, armed = l ++ a :: m ∧ armed.eraseIdx k = l ++ m := by
  obtain ⟨hk, hget⟩ := List.getElem?_eq_some_iff.mp h
  refine ⟨armed.take k, armed.drop (k + 1), ?_, eraseIdx_eq_take_drop_succ ..⟩
  rw [← hget, ← drop_eq_getElem_cons hk, take_append_drop]

theorem sends_eraseIdx (h : armed[k]? = some a) (ha : sends [a] j = []) :
    sends (armed.eraseIdx k) j = sends armed j := by
  obtain ⟨l, m, rfl, herase⟩ := exists_around h
  rw [herase, ← singleton_append, sends_append, sends_append, sends_append, ha, nil_append]

theorem sends_eraseIdx_recv (h : armed[k]? = some a) (ha : a.op = .recv) (j : ℕ) :
    sends (armed.eraseIdx k) j = sends armed j :=
  sends_eraseIdx h (by simp [sends, ha, Op.bytes?])

theorem sends_eraseIdx_other (h : armed[k]? = some a) (hj : j ≠ a.owner) :
    sends (armed.eraseIdx k) j = sends armed j :=
  sends_eraseIdx h (by simp [sends, hj.symm])

theorem sends_eraseIdx_send {bytes : Bytes} (h : armed[k]? = some a) (ha : a.op = .send bytes)
    (hone : (sends armed a.owner).length ≤ 1) :
    sends armed a.owner = [bytes] ∧ sends (armed.eraseIdx k) a.owner = [] := by
  obtain ⟨l, m, rfl, herase⟩ := exists_around h
  have hself : sends [a] a.owner = [bytes] := by simp [sends, ha, Op.bytes?]
  rw [herase]
  rw [← singleton_append, sends_append, sends_append, hself] at hone ⊢
  rw [sends_append]
  rw [length_append, length_append, length_singleton] at hone
  rw [length_eq_zero_iff.mp (show (sends l a.owner).length = 0 by omega),
    length_eq_zero_iff.mp (show (sends m a.owner).length = 0 by omega)]
  exact ⟨rfl, rfl⟩

end Outstanding

/-- What holds in every state of a run in which no slot is handed on while an operation is
outstanding in it. -/
structure State.Inv (s : State) : Prop where
  slots : ∀ a ∈ s.armed, a.slot < s.conns.length
  owners : ∀ a ∈ s.armed, a.owner < s.seq
  ids : ∀ i, ∀ c ∈ s.live i, c.connId < s.seq
  goneIds : ∀ c ∈ s.gone, c.connId < s.seq
  unused : ∀ k, s.seq ≤ k → s.sent k = []
  idle : ∀ i ∈ s.free, s.conns[i]? = some none
  nodup : s.free.Nodup
  distinct : ∀ i, ∀ c ∈ s.live i, ∀ j, ∀ d ∈ s.live j, c.connId = d.connId → i = j
  apart : ∀ i, ∀ c ∈ s.live i, ∀ d ∈ s.gone, c.connId ≠ d.connId
  tagged : ∀ a ∈ s.armed, ∀ i, ∀ c ∈ s.live i, a.slot = i ↔ a.owner = c.connId
  opened : ∀ i, ∀ c ∈ s.live i, c.isOpen = true
  tracks : ∀ i, ∀ c ∈ s.live i, c.Tracks (s.sent c.connId) (sends s.armed c.connId)
  covers : ∀ c ∈ s.gone, c.Covers (s.sent c.connId) (sends s.armed c.connId)

variable {a : Armed} {k : ℕ} {t : State}

section Settle

variable {s : State} {i : ℕ} {c : Conn} {r : Conn × List Op}

theorem lt_of_live (h : c ∈ s.live i) : i < s.conns.length := by
  rw [live, mem_def, join_eq_some_iff] at h
  exact (List.getElem?_eq_some_iff.mp h).1

theorem settle_fields (s : State) (i : ℕ) (r : Conn × List Op) :
    (s.settle i r).armed = s.armed ++ r.2.map (Armed.mk i r.1.connId) ∧
      (s.settle i r).sent = s.sent ∧ (s.settle i r).seq = s.seq ∧
      (s.settle i r).conns.length = s.conns.length := by
  rw [settle]
  split_ifs
  all_goals exact ⟨rfl, rfl, rfl, length_set⟩

theorem live_of_set {x : Option Conn} (ht : t.conns = s.conns.set i x)
    (hd : d ∈ t.live j) : j = i ∧ x = some d ∨ j ≠ i ∧ d ∈ s.live j := by
  rw [live, mem_def, join_eq_some_iff, ht, getElem?_set] at hd
  by_cases hij : i = j
  · split_ifs at hd
    exact .inl ⟨hij.symm, some.inj hd⟩
  · rw [if_neg hij] at hd
    refine .inr ⟨Ne.symm hij, ?_⟩
    rw [live, mem_def, join_eq_some_iff]
    exact hd

theorem live_settle (hd : d ∈ (s.settle i r).live j) :
    j = i ∧ d = r.1 ∧ r.1.isOpen = true ∨ j ≠ i ∧ d ∈ s.live j := by
  rw [settle] at hd
  split_ifs at hd with hopen
  · obtain ⟨hj, hsome⟩ | hother := live_of_set (s := s) rfl hd
    · exact .inl ⟨hj, (some.inj hsome).symm, hopen⟩
    · exact .inr hother
  · obtain ⟨-, hnone⟩ | hother := live_of_set (s := s) rfl hd
    · cases hnone
    · exact .inr hother

theorem gone_settle (hd : d ∈ (s.settle i r).gone) :
    d = r.1 ∧ r.1.isOpen = false ∨ d ∈ s.gone := by
  rw [settle] at hd
  split_ifs at hd with hopen
  · exact .inr hd
  · obtain rfl | hd := mem_cons.mp hd
    · exact .inl ⟨rfl, Bool.eq_false_iff.mpr hopen⟩
    · exact .inr hd

theorem mem_settle_armed (ha : a ∈ (s.settle i r).armed) :
    a ∈ s.armed ∨ a.slot = i ∧ a.owner = r.1.connId := by
  rw [(settle_fields s i r).1, mem_append] at ha
  obtain ha | ha := ha
  · exact .inl ha
  · obtain ⟨op, -, rfl⟩ := mem_map.mp ha
    exact .inr ⟨rfl, rfl⟩

theorem sends_settle_self (s : State) (i : ℕ) (r : Conn × List Op) :
    sends (s.settle i r).armed r.1.connId =
      sends s.armed r.1.connId ++ r.2.filterMap Op.bytes? := by
  rw [(settle_fields s i r).1, sends_append, sends_armed_self]

theorem sends_settle_other (s : State) (i : ℕ) (r : Conn × List Op)
    (hk : k ≠ r.1.connId) : sends (s.settle i r).armed k = sends s.armed k := by
  rw [(settle_fields s i r).1, sends_append, sends_armed_other r.2 i hk, append_nil]

theorem State.Inv.settle_free (h : s.Inv) (hc : c ∈ s.live i)
    (ht : t.conns = s.conns) (hfree : t.free = s.free) :
    (∀ j ∈ (t.settle i r).free, (t.settle i r).conns[j]? = some none) ∧
      (t.settle i r).free.Nodup := by
  have hlt := lt_of_live hc
  have hbusy : i ∉ s.free := by
    intro hi
    have hnone := h.idle i hi
    rw [live, hnone] at hc
    cases hc
  have hkeep : ∀ x : Option Conn, ∀ j ∈ s.free, (s.conns.set i x)[j]? = some none := by
    intro x j hj
    rw [getElem?_set_ne (ne_of_mem_of_not_mem hj hbusy).symm]
    exact h.idle j hj
  rw [settle, ht, hfree]
  split_ifs with hopen
  · exact ⟨hkeep _, h.nodup⟩
  · refine ⟨fun j hj => ?_, nodup_cons.mpr ⟨hbusy, h.nodup⟩⟩
    obtain rfl | hj := mem_cons.mp hj
    · exact getElem?_set_self hlt
    · exact hkeep _ j hj

/-- From `s` to `t` the connection `d` with the id `k` gets the slot `i`, or leaves it, and what is
armed is armed for it. -/
structure Serves (s t : State) (i k : ℕ) (d : Conn) : Prop where
  connId : d.connId = k
  lt : k < t.seq
  seq : s.seq ≤ t.seq
  slot : i < t.conns.length
  length : s.conns.length ≤ t.conns.length
  live : ∀ j, ∀ e ∈ t.live j, j = i ∧ e = d ∧ d.isOpen = true ∨ j ≠ i ∧ e ∈ s.live j
  gone : ∀ e ∈ t.gone, e = d ∧ d.isOpen = false ∨ e ∈ s.gone
  armed : ∀ a ∈ t.armed, a ∈ s.armed ∨ a.slot = i ∧ a.owner = k
  other : ∀ j, j ≠ i → ∀ e ∈ s.live j, e.connId ≠ k
  apart : ∀ e ∈ s.gone, e.connId ≠ k
  tagged : ∀ a ∈ s.armed, a.slot = i ↔ a.owner = k
  sends : ∀ j, j ≠ k → sends t.armed j = sends s.armed j
  sent : ∀ j, j ≠ k → t.sent j = s.sent j
  covers : d.Covers (t.sent k) (Ring.sends t.armed k)
  tracks : d.isOpen = true → d.Tracks (t.sent k) (Ring.sends t.armed k)

theorem Serves.inv (h : Serves s t i k d) (hs : s.Inv)
    (hfree : (∀ j ∈ t.free, t.conns[j]? = some none) ∧ t.free.Nodup) : t.Inv where
  slots a ha := by
    obtain ha | ⟨ha, -⟩ := h.armed a ha
    · exact lt_of_lt_of_le (hs.slots a ha) h.length
    · exact ha ▸ h.slot
  owners a ha := by
    obtain ha | ⟨-, ha⟩ := h.armed a ha
    · exact lt_of_lt_of_le (hs.owners a ha) h.seq
    · exact ha ▸ h.lt
  ids j e he := by
    obtain ⟨-, rfl, -⟩ | ⟨-, he⟩ := h.live j e he
    · exact h.connId ▸ h.lt
    · exact lt_of_lt_of_le (hs.ids j e he) h.seq
  goneIds e he := by
    obtain ⟨rfl, -⟩ | he := h.gone e he
    · exact h.connId ▸ h.lt
    · exact lt_of_lt_of_le (hs.goneIds e he) h.seq
  unused j hj := by
    rw [h.sent j (lt_of_lt_of_le h.lt hj).ne']
    exact hs.unused j (le_trans h.seq hj)
  idle := hfree.1
  nodup := hfree.2
  distinct j e he j' e' he' heq := by
    obtain ⟨rfl, rfl, -⟩ | ⟨hj, he⟩ := h.live j e he
    · obtain ⟨hj', -, -⟩ | ⟨hj', he'⟩ := h.live j' e' he'
      · exact hj'.symm
      · exact absurd (heq.symm.trans h.connId) (h.other j' hj' e' he')
    · obtain ⟨-, rfl, -⟩ | ⟨hj', he'⟩ := h.live j' e' he'
      · exact absurd (heq.trans h.connId) (h.other j hj e he)
      · exact hs.distinct j e he j' e' he' heq
  apart j e he e' he' := by
    obtain ⟨-, rfl, hopen⟩ | ⟨hj, he⟩ := h.live j e he
    · obtain ⟨-, hclosed⟩ | he' := h.gone e' he'
      · exact absurd hopen (Bool.eq_false_iff.mp hclosed)
      · rw [h.connId]
        exact (h.apart e' he').symm
    · obtain ⟨rfl, -⟩ | he' := h.gone e' he'
      · rw [h.connId]
        exact h.other j hj e he
      · exact hs.apart j e he e' he'
  tagged a ha j e he := by
    obtain ⟨rfl, rfl, -⟩ | ⟨hj, he⟩ := h.live j e he
    · rw [h.connId]
      obtain ha | ⟨hslot, howner⟩ := h.armed a ha
      · exact h.tagged a ha
      · exact iff_of_true hslot howner
    · obtain ha | ⟨hslot, howner⟩ := h.armed a ha
      · exact hs.tagged a ha j e he
      · rw [hslot, howner]
        exact iff_of_false (Ne.symm hj) (Ne.symm (h.other j hj e he))
  opened j e he := by
    obtain ⟨-, rfl, hopen⟩ | ⟨-, he⟩ := h.live j e he
    · exact hopen
    · exact hs.opened j e he
  tracks j e he := by
    obtain ⟨-, rfl, hopen⟩ | ⟨hj, he⟩ := h.live j e he
    · rw [h.connId]
      exact h.tracks hopen
    · rw [h.sends _ (h.other j hj e he), h.sent _ (h.other j hj e he)]
      exact hs.tracks j e he
  covers e he := by
    obtain ⟨rfl, -⟩ | he := h.gone e he
    · rw [h.connId]
      exact h.covers
    · rw [h.sends _ (h.apart e he), h.sent _ (h.apart e he)]
      exact hs.covers e he

/-- Serving the connection of a slot keeps the invariant. Before, the operation that is served
may have been taken out of the ring, and its bytes credited to the connection. -/
theorem State.Inv.settle (h : s.Inv) (hc : c ∈ s.live i) (hconns : t.conns = s.conns)
    (hfree : t.free = s.free) (hseq : t.seq = s.seq) (hgone : t.gone = s.gone)
    (harmed : t.armed ⊆ s.armed)
    (hsends : ∀ k, k ≠ c.connId → sends t.armed k = sends s.armed k)
    (hsent : ∀ k, k ≠ c.connId → t.sent k = s.sent k)
    (hr : Served c (t.sent c.connId) (sends t.armed c.connId) r) : (t.settle i r).Inv := by
  have hself : sends (t.settle i r).armed c.connId =
      sends t.armed c.connId ++ r.2.filterMap Op.bytes? := by
    rw [← hr.connId]
    exact sends_settle_self t i r
  obtain ⟨-, hsent', hseq', hlength⟩ := settle_fields t i r
  have hserves : Serves s (t.settle i r) i c.connId r.1 :=
    { connId := hr.connId
      lt := by
        rw [hseq', hseq]
        exact h.ids i c hc
      seq := by rw [hseq', hseq]
      slot := by
        rw [hlength, hconns]
        exact lt_of_live hc
      length := by rw [hlength, hconns]
      live := fun j e he => by
        rw [show s.live j = t.live j by rw [live, live, hconns]]
        exact live_settle he
      gone := fun e he => hgone ▸ gone_settle he
      armed := fun a ha => by
        rw [← hr.connId]
        exact (mem_settle_armed ha).imp_left fun ha => harmed ha
      other := fun j hj e he heq => hj (h.distinct j e he i c hc heq)
      apart := fun e he => (h.apart i c hc e he).symm
      tagged := fun a ha => h.tagged a ha i c hc
      sends := fun j hj => by rw [sends_settle_other t i r (hr.connId ▸ hj), hsends j hj]
      sent := fun j hj => by rw [hsent', hsent j hj]
      covers := by
        rw [hsent', hself]
        exact hr.covers
      tracks := fun hopen => by
        rw [hsent', hself]
        exact hr.tracks hopen }
  exact hserves.inv h (h.settle_free hc hconns hfree)

end Settle

section Steps

variable {s : State}

theorem State.Inv.empty : State.Inv {} := by
  constructor <;> simp [live]

theorem take_conns (s : State) (k : ℕ) (a : Armed) (res : ℤ) :
    (s.take k a res).conns = s.conns ∧ (s.take k a res).free = s.free ∧
      (s.take k a res).seq = s.seq ∧ (s.take k a res).gone = s.gone ∧
      (s.take k a res).armed = s.armed.eraseIdx k := by
  rw [State.take]
  cases a.op
  all_goals exact ⟨rfl, rfl, rfl, rfl, rfl⟩

theorem take_sent_other (s : State) (k : ℕ) (res : ℤ) (hj : j ≠ a.owner) :
    (s.take k a res).sent j = s.sent j := by
  rw [State.take]
  cases a.op with
  | recv => rfl
  | send bytes => exact Function.update_of_ne hj _ _

theorem take_other (ha : s.armed[k]? = some a) (res : ℤ) (hj : j ≠ a.owner) :
    sends (s.take k a res).armed j = sends s.armed j ∧ (s.take k a res).sent j = s.sent j := by
  obtain ⟨-, -, -, -, harmed⟩ := take_conns s k a res
  rw [harmed]
  exact ⟨sends_eraseIdx_other ha hj, take_sent_other s k res hj⟩

/-- What the kernel takes of the outstanding send of a connection has been appended to its
`out`, and after the rest. -/
theorem take_covers (ha : s.armed[k]? = some a) {c : Conn}
    (hc : c.Covers (s.sent a.owner) (sends s.armed a.owner)) :
    c.Covers ((s.take k a res).sent a.owner) (sends (s.take k a res).armed a.owner) := by
  obtain ⟨-, -, -, -, harmed⟩ := take_conns s k a res
  rw [State.take]
  cases hop : a.op with
  | recv =>
    rw [sends_eraseIdx_recv ha hop]
    exact hc
  | send bytes =>
    obtain ⟨hsends, hnone⟩ := sends_eraseIdx_send ha hop hc.one
    have hpending := hc.pending bytes (hsends ▸ mem_singleton_self bytes)
    have htake : s.sent a.owner ++ bytes.take res.toNat <+: s.sent a.owner ++ bytes :=
      (prefix_append_right_inj _).mpr ( take_prefix _ _)
    rw [hnone]
    dsimp only
    rw [Function.update_self]
    exact ⟨zero_le 1, htake.trans hpending, fun b hb => by cases hb⟩

theorem State.Inv.take (h : s.Inv) (ha : s.armed[k]? = some a)
    (hdead : s.live a.slot = none) (res : ℤ) : (s.take k a res).Inv := by
  obtain ⟨hconns, hfree, hseq, hgone, harmed⟩ := take_conns s k a res
  have hlive : ∀ i, (s.take k a res).live i = s.live i := fun i => by
    rw [live, live, hconns]
  have hsub : ∀ b ∈ (s.take k a res).armed, b ∈ s.armed := fun b hb =>
    mem_of_mem_eraseIdx (harmed ▸ hb)
  have hne : ∀ i, ∀ c ∈ s.live i, c.connId ≠ a.owner := by
    intro i c hc heq
    rw [(h.tagged a (mem_of_getElem? ha) i c hc).mpr heq.symm] at hdead
    rw [hdead] at hc
    cases hc
  constructor
  case slots => exact fun b hb => hconns ▸ h.slots b (hsub b hb)
  case owners => exact fun b hb => hseq ▸ h.owners b (hsub b hb)
  case ids => exact fun i c hc => hseq ▸ h.ids i c (hlive i ▸ hc)
  case goneIds => exact fun c hc => hseq ▸ h.goneIds c (hgone ▸ hc)
  case unused =>
    intro j hj
    rw [hseq] at hj
    have howner := h.owners a (mem_of_getElem? ha)
    rw [take_sent_other s k res (lt_of_lt_of_le howner hj).ne']
    exact h.unused j hj
  case idle => exact fun i hi => hconns ▸ h.idle i (hfree ▸ hi)
  case nodup => exact hfree ▸ h.nodup
  case distinct =>
    exact fun i c hc j d hd => h.distinct i c (hlive i ▸ hc) j d (hlive j ▸ hd)
  case apart => exact fun i c hc d hd => h.apart i c (hlive i ▸ hc) d (hgone ▸ hd)
  case tagged => exact fun b hb i c hc => h.tagged b (hsub b hb) i c (hlive i ▸ hc)
  case opened => exact fun i c hc => h.opened i c (hlive i ▸ hc)
  case tracks =>
    intro i c hc
    rw [hlive] at hc
    obtain ⟨hsends, hsent⟩ := take_other ha res (hne i c hc)
    rw [hsends, hsent]
    exact h.tracks i c hc
  case covers =>
    intro c hc
    have hcov := h.covers c (hgone ▸ hc)
    by_cases heq : c.connId = a.owner
    · rw [heq] at hcov ⊢
      exact take_covers ha hcov
    · obtain ⟨hsends, hsent⟩ := take_other ha res heq
      rw [hsends, hsent]
      exact hcov

theorem State.Inv.complete (h : s.Inv) (ha : s.armed[k]? = some a)
    {chunk : Bytes} (hres : a.op.Result res chunk) {w : Work}
    (ht : s.complete k res chunk w = .ok t) : t.Inv := by
  rw [State.complete, ha] at ht
  dsimp only at ht
  cases hlive : s.live a.slot with
  | none =>
    rw [hlive] at ht
    cases ht
    exact h.take ha hlive res
  | some c =>
    rw [hlive] at ht
    have howner := (h.tagged a (mem_of_getElem? ha) a.slot c hlive).mp rfl
    have htracks := h.tracks a.slot c hlive
    obtain ⟨hconns, hfree, hseq, hgone, harmed⟩ := take_conns s k a res
    obtain ⟨r, hr, ht⟩ := bind_eq_ok.mp ht
    cases ht
    refine h.settle hlive hconns hfree hseq hgone ?_ ?_ ?_ ?_
    · rw [harmed]
      exact eraseIdx_subset
    · exact fun j hj => (take_other ha res (howner ▸ hj)).1
    · exact fun j hj => (take_other ha res (howner ▸ hj)).2
    · rw [State.take]
      cases hop : a.op with
      | recv =>
        rw [hop] at hr
        rw [sends_eraseIdx_recv ha hop]
        exact onRecv_served (h.opened a.slot c hlive) htracks hr
      | send bytes =>
        rw [hop] at hr hres
        rw [← howner] at htracks ⊢
        obtain ⟨hsends, hnone⟩ := sends_eraseIdx_send ha hop htracks.covers.one
        rw [hsends] at htracks
        obtain ⟨r', hr', hserved⟩ := onSend_served htracks hres
        cases hr.symm.trans hr'
        rw [hnone]
        dsimp only
        rw [Function.update_self]
        exact hserved

theorem live_accept {others : ℕ} {tls : Tls} (hd : d ∈ (s.accept others tls).live j) :
    j = s.nextSlot ∧ d = { connId := s.seq + others, tls } ∨ j ≠ s.nextSlot ∧ d ∈ s.live j := by
  rw [nextSlot]
  rw [accept] at hd
  cases hfree : s.free with
  | cons i free =>
    rw [hfree] at hd
    exact (live_of_set (s := s) rfl hd).imp_left fun ⟨hj, hd⟩ => ⟨hj, (some.inj hd).symm⟩
  | nil =>
    rw [hfree, live, mem_def] at hd
    dsimp only at hd
    rcases lt_trichotomy j s.conns.length with hj | hj | hj
    · rw [getElem?_append_left hj] at hd
      refine .inr ⟨hj.ne, ?_⟩
      rw [live, hd]
      rfl
    · rw [hj, getElem?_concat_length] at hd
      cases hd
      exact .inl ⟨hj, rfl⟩
    · rw [getElem?_eq_none (by rw [length_append, length_singleton]; omega)] at hd
      cases hd

theorem accept_slots (h : s.Inv) (others : ℕ) (tls : Tls) :
    s.nextSlot < (s.accept others tls).conns.length ∧
    s.conns.length ≤ (s.accept others tls).conns.length ∧
    (∀ j ∈ (s.accept others tls).free, (s.accept others tls).conns[j]? = some none) ∧
    (s.accept others tls).free.Nodup := by
  rw [accept, nextSlot]
  have hidle := h.idle
  have hnodup := h.nodup
  cases hfree : s.free with
  | cons i free =>
    rw [hfree] at hidle hnodup
    obtain ⟨hi, hnodup⟩ := nodup_cons.mp hnodup
    have hlt : i < s.conns.length :=
      (List.getElem?_eq_some_iff.mp (hidle i mem_cons_self)).1
    refine ⟨?_, ?_, fun j hj => ?_, hnodup⟩
    · rw [length_set]
      exact hlt
    · rw [length_set]
    · rw [getElem?_set_ne (ne_of_mem_of_not_mem hj hi).symm]
      exact hidle j (mem_cons_of_mem i hj)
  | nil =>
    dsimp only
    refine ⟨?_, ?_, fun j hj => (by cases hj), nodup_nil⟩
    · rw [length_append]
      exact lt_succ_self _
    · rw [length_append]
      exact le_add_right _ _

theorem State.Inv.accept (h : s.Inv) (hreuse : ∀ a ∈ s.armed, a.slot ≠ s.nextSlot) (others : ℕ)
    (tls : Tls) : (s.accept others tls).Inv := by
  obtain ⟨hslot, hlen, hfree⟩ := accept_slots h others tls
  have hfields : (s.accept others tls).seq = s.seq + others + 1 ∧
      (s.accept others tls).sent = s.sent ∧ (s.accept others tls).gone = s.gone ∧
      (s.accept others tls).armed = s.armed ++ [⟨s.nextSlot, s.seq + others, .recv⟩] := by
    rw [State.accept]
    cases s.free
    all_goals exact ⟨rfl, rfl, rfl, rfl⟩
  obtain ⟨hseq, hsent, hgone, harmed⟩ := hfields
  have hsends : ∀ k, sends (s.accept others tls).armed k = sends s.armed k := by
    intro k
    have hnone : sends [⟨s.nextSlot, s.seq + others, .recv⟩] k = [] := by
      simp [sends, Op.bytes?]
    rw [harmed, sends_append, hnone, append_nil]
  have hnew : sends s.armed (s.seq + others) = [] := by
    rw [sends, filterMap_eq_nil_iff]
    intro a ha
    have := h.owners a ha
    exact if_neg (by omega)
  have htracks : ({ connId := s.seq + others, tls } : Conn).Tracks
      ((s.accept others tls).sent (s.seq + others))
      (sends (s.accept others tls).armed (s.seq + others)) := by
    rw [hsends, hnew, hsent, h.unused _ (le_add_right _ _)]
    exact ⟨rfl, fun _ => rfl, fun h0 => absurd h0 (lt_irrefl 0)⟩
  have hserves : Serves s (s.accept others tls) s.nextSlot (s.seq + others)
      { connId := s.seq + others, tls } :=
    { connId := rfl
      lt := by omega
      seq := by omega
      slot := hslot
      length := hlen
      live := fun j e he => (live_accept he).imp_left fun ⟨hj, he⟩ => ⟨hj, he, rfl⟩
      gone := fun e he => .inr (hgone ▸ he)
      armed := fun a ha => by
        rw [harmed, mem_append, mem_singleton] at ha
        exact ha.imp_right fun ha => by rw [ha]; exact ⟨rfl, rfl⟩
      other := fun j _ e he => by
        have := h.ids j e he
        omega
      apart := fun e he => by
        have := h.goneIds e he
        omega
      tagged := fun a ha => by
        have := h.owners a ha
        exact iff_of_false (hreuse a ha) (by omega)
      sends := fun j _ => hsends j
      sent := fun j _ => congrFun hsent j
      covers := htracks.covers
      tracks := fun _ => htracks }
  exact hserves.inv h hfree

theorem State.Inv.flush (h : s.Inv) (events : ℕ → Bytes) (i : ℕ) : (s.flush events i).Inv := by
  rw [State.flush]
  cases hlive : s.live i with
  | none => exact h
  | some c =>
    dsimp only
    split_ifs
    · refine h.settle hlive rfl rfl rfl rfl (List.Subset.refl _) (fun _ _ => rfl)
        (fun _ _ => rfl) ?_
      exact (maybeArmSend_served ((h.tracks i c hlive).append _)).of_connId rfl
    · exact h

theorem State.Inv.tick (h : s.Inv) (events : ℕ → Bytes) (slots : List ℕ) :
    (slots.foldl (State.flush events) s).Inv := by
  induction slots generalizing s with
  | nil => exact h
  | cons i slots ih => exact ih (h.flush events i)

theorem State.Inv.exec (h : s.Inv) {e : Event} (hpossible : Possible s e)
    (hreuse : Reusable s e) : (s.exec e).Inv := by
  rw [State.exec]
  cases hstep : s.step e with
  | error _ => exact h
  | ok t =>
    cases e with
    | accept others tls =>
      cases hstep
      exact h.accept hreuse others tls
    | complete k res chunk w =>
      obtain ⟨a, ha, hres⟩ := hpossible
      exact h.complete ha hres hstep
    | tick events =>
      cases hstep
      exact h.tick events _

theorem State.Inv.inRange (h : s.Inv) : s.InRange := by
  intro a ha bytes hop c hc res hres
  have howner := (h.tagged a ha a.slot c hc).mp rfl
  have htracks := h.tracks a.slot c hc
  obtain ⟨k, hk⟩ := getElem?_of_mem ha
  rw [← howner] at htracks
  rw [(sends_eraseIdx_send hk hop htracks.covers.one).1] at htracks
  obtain ⟨r, hr, -⟩ := onSend_served htracks hres
  exact ⟨r, hr⟩

end Steps

def getRequest : Bytes := [103, 101, 116, 32, 107, 13, 10]

def getReply : Bytes := [69, 78, 68, 13, 10]

def abandoned : List Event :=
  [.accept 0 .plain, .complete 0 7 getRequest { reply := getReply }, .complete 1 0 [] {}]

def reusedAfter : List Event := abandoned ++ [.complete 0 5 [] {}, .accept 0 .plain]

def reusedBefore : List Event := abandoned ++ [.accept 0 .plain]

/-- As long as a slot is handed to a new connection only when nothing is outstanding in it,
every completion is applied to the connection that armed the operation; what the kernel has
taken for a connection is the beginning of what was appended to its `out`; and the completion of
a send finds its bytes in the send buffer. -/
theorem completions_belong {s : State}
    (h : Trace.Reaches exec (fun s e => Possible s e ∧ Reusable s e) {} s) :
    s.Owned ∧ s.Delivers ∧ s.InRange := by
  have hinv : s.Inv := h.invariant (fun s e hs he => hs.exec he.1 he.2) State.Inv.empty
  refine ⟨?_, ⟨?_, ?_⟩, hinv.inRange⟩
  · exact fun a ha c hc => (hinv.tagged a ha a.slot c hc).mp rfl
  · exact fun i c hc => (hinv.tracks i c hc).covers.delivered
  · exact fun c hc => (hinv.covers c hc).delivered

theorem completions_belong_reused :
    (reusedAfter.foldl exec {}).Owned ∧ (reusedAfter.foldl exec {}).Delivers ∧
      (reusedAfter.foldl exec {}).InRange :=
  completions_belong (Trace.Reaches.of_allowed reusedAfter (by decide +kernel))

/-- The send of the first connection is outstanding in the slot of the second. Its completion is
applied to the second, and the five bytes are not in the send buffer. -/
theorem completion_of_another :
    Trace.Allowed exec Possible {} reusedBefore ∧
      (reusedBefore.foldl exec {}).armed =
        [⟨0, 1, .send getReply⟩, ⟨0, 2, .recv⟩] ∧
      ((reusedBefore.foldl exec {}).live 0).map Conn.connId = some 2 ∧
      ∃ e, (reusedBefore.foldl exec {}).complete 0 5 [] {} = .error e :=
  ⟨by decide +kernel, by decide +kernel, by decide +kernel, .outOfRange, rfl⟩

end BonsaiGrid.Ring
