import BonsaiGrid.Server.Completions

/-!
# Closing after the last byte

A connection that a handler wants closed is closed by the completion of a send: some send has to
be outstanding from then on.
-/

namespace BonsaiGrid.Ring

open Fault State List

def Conn.Waits (c : Conn) : Prop := 0 < c.inflightSend ∨ c.closeAfterFlush = true

/-- A send that the connection of the slot has armed itself is outstanding. -/
def State.Sending (s : State) (i connId : ℕ) : Prop :=
  ∃ a ∈ s.armed, a.slot = i ∧ a.owner = connId ∧ a.op ≠ .recv

/-- For a connection that waits for a send to complete, a send of its own is outstanding. What is
outstanding of an earlier connection in its slot may complete before or after. -/
def State.Closing (s : State) : Prop :=
  ∀ i, ∀ c ∈ s.live i, c.Waits → s.Sending i c.connId

/-- Where a handler asks for the connection to be closed, there are bytes to be sent. -/
def Flushes (s : State) : Event → Prop
  | .complete k _ chunk w =>
    ∀ a ∈ s.armed[k]?, a.op = .recv → ∀ c ∈ s.live a.slot, ∀ d ops plain wire,
      tlsIngest w c chunk = (d, ops, some plain) → Reactor.onRecv w.stops d.wire plain = .ok wire →
      wire.inbound.closed = true → d.out ++ w.reply ≠ [] ∨ d.sendbuf ≠ []
  | .accept .. | .tick _ => True

/-- If the connection waits, `P` holds or a send is armed. Used with the `P` that the connection had
a send outstanding before. -/
def Arms (P : Prop) (r : Conn × List Op) : Prop := r.1.Waits → P ∨ ∃ op ∈ r.2, op ≠ .recv

section Serve

variable {P : Prop} {c : Conn} {w : Work} {r : Conn × List Op}

theorem arms_maybeArmSend (hc : 0 < c.inflightSend → P)
    (hclose : c.closeAfterFlush = true → P ∨ c.out ≠ [] ∨ c.sendbuf ≠ []) :
    Arms P (maybeArmSend c) := by
  intro hwaits
  rw [maybeArmSend] at hwaits ⊢
  split_ifs at hwaits ⊢ with hin hempty
  · exact .inl (hc hin)
  · obtain hwaits | hwaits := hwaits
    · exact absurd hwaits hin
    · exact (hclose hwaits).imp_right fun hne => by simp [hempty] at hne
  all_goals exact .inr ⟨_, mem_singleton_self _, by simp⟩

theorem arms_onSend {res : ℤ} (h : onSend c res = .ok r) (hopen : r.1.isOpen = true) :
    Arms False r := by
  rw [onSend] at h
  split_ifs at h
  · cases h
    cases hopen
  · obtain ⟨bytes, -, h⟩ := bind_eq_ok.mp h
    dsimp only at h
    split_ifs at h with hdone
    · cases h
      cases hopen
    · cases h
      refine arms_maybeArmSend (fun hin => absurd hin (Nat.lt_irrefl 0)) fun hclose => ?_
      by_contra hnone
      simp only [false_or, not_or, not_not] at hnone
      exact hdone ⟨hnone.2, hnone.1, hclose⟩

section ConnId

theorem connId_onSend {res : ℤ} (h : onSend c res = .ok r) : r.1.connId = c.connId := by
  rw [onSend] at h
  split_ifs at h
  · cases h
    rfl
  · obtain ⟨bytes, -, h⟩ := bind_eq_ok.mp h
    dsimp only at h
    split_ifs at h
    · cases h
      rfl
    · cases h
      exact (maybeArmSend_fields _).1

theorem connId_pumpHandshake : (pumpHandshake w c).1.connId = c.connId := by
  rw [pumpHandshake]
  split
  · rfl
  · dsimp only
    split_ifs
    · rfl
    all_goals exact (maybeArmSend_fields _).1

theorem connId_tlsIngest (chunk : Bytes) : (tlsIngest w c chunk).1.connId = c.connId := by
  rw [tlsIngest]
  split
  · rfl
  · rfl
  · split_ifs
    · exact connId_pumpHandshake
    all_goals rfl
  · exact connId_pumpHandshake

theorem connId_serve : (serve w c).1.connId = c.connId := by
  have harm : ∀ bytes, (maybeArmSend (c.append bytes)).1.connId = c.connId := fun bytes =>
    (maybeArmSend_fields _).1
  have hstop : (maybeArmSend { c.append w.reply with closeAfterFlush := true }).1.connId =
      c.connId := (maybeArmSend_fields _).1
  rw [serve]
  split
  · rfl
  · exact harm _
  · split_ifs
    · exact hstop
    · rfl
  all_goals
    split_ifs
    · exact hstop
    · exact harm _

theorem connId_onRecv {res : ℤ} {chunk : Bytes} (h : onRecv w c res chunk = .ok r) :
    r.1.connId = c.connId := by
  rw [onRecv] at h
  split_ifs at h
  · cases h
    rfl
  · have htls := connId_tlsIngest (w := w) (c := c) chunk
    generalize tlsIngest w c chunk = x at h htls
    obtain ⟨d, ops, plain⟩ := x
    cases plain with
    | none =>
      cases h
      exact htls
    | some plain =>
      obtain ⟨wire, -, h⟩ := bind_eq_ok.mp h
      cases h
      exact connId_serve.trans htls

end ConnId

section

variable (hc : c.Waits → P)

include hc

theorem arms_pumpHandshake : Arms P ((pumpHandshake w c).1, (pumpHandshake w c).2.1) := by
  rw [pumpHandshake]
  split
  · exact fun hwaits => .inl (hc hwaits)
  · dsimp only
    split_ifs
    · exact fun hwaits => .inl (hc hwaits)
    all_goals exact arms_maybeArmSend (fun hin => hc (.inl hin)) fun h => .inl (hc (.inr h))

theorem arms_tlsIngest (chunk : Bytes) :
    Arms P ((tlsIngest w c chunk).1, (tlsIngest w c chunk).2.1) := by
  rw [tlsIngest]
  split
  · exact fun hwaits => .inl (hc hwaits)
  · exact fun hwaits => .inl (hc hwaits)
  · split_ifs
    · exact arms_pumpHandshake hc
    all_goals exact fun hwaits => .inl (hc hwaits)
  · exact arms_pumpHandshake hc

theorem arms_serve
    (hflush : c.wire.inbound.closed = true → c.out ++ w.reply ≠ [] ∨ c.sendbuf ≠ []) :
    Arms P (serve w c) := by
  have harm : ∀ bytes ops, Arms P ((maybeArmSend (c.append bytes)).1,
      (maybeArmSend (c.append bytes)).2 ++ ops) := by
    intro bytes ops hwaits
    have hsend := arms_maybeArmSend (c := c.append bytes) (fun hin => hc (.inl hin))
      (fun h => .inl (hc (.inr h))) hwaits
    exact hsend.imp_right fun ⟨op, hop, hne⟩ => ⟨op, mem_append_left ops hop, hne⟩
  have hstop : c.wire.inbound.closed = true →
      Arms P (maybeArmSend { c.append w.reply with closeAfterFlush := true }) := fun hclosed =>
    arms_maybeArmSend (fun hin => hc (.inl hin)) fun _ => .inr (hflush hclosed)
  have hidle : Arms P (c, [.recv]) := fun hwaits => .inl (hc hwaits)
  rw [serve]
  split
  · exact hidle
  · exact harm _ _
  · split_ifs with hclosed
    · exact hstop hclosed
    · exact hidle
  all_goals
    split_ifs with hclosed
    · exact hstop hclosed
    · exact harm _ _

theorem arms_onRecv {res : ℤ} {chunk : Bytes}
    (hflush : ∀ d ops plain wire, tlsIngest w c chunk = (d, ops, some plain) →
      Reactor.onRecv w.stops d.wire plain = .ok wire → wire.inbound.closed = true →
      d.out ++ w.reply ≠ [] ∨ d.sendbuf ≠ [])
    (h : onRecv w c res chunk = .ok r) : Arms P r := by
  rw [onRecv] at h
  split_ifs at h
  · cases h
    exact fun hwaits => .inl (hc hwaits)
  · have htls := arms_tlsIngest (w := w) hc chunk
    generalize tlsIngest w c chunk = x at h htls hflush
    obtain ⟨d, ops, plain⟩ := x
    cases plain with
    | none =>
      cases h
      intro hwaits
      refine (htls hwaits).imp_right fun hops => ?_
      obtain ⟨op, hop, hne⟩ := hops
      refine ⟨op, ?_, hne⟩
      split_ifs
      · exact mem_append_left _ hop
      · exact hop
    | some plain =>
      obtain ⟨wire, hwire, h⟩ := bind_eq_ok.mp h
      cases h
      intro hwaits
      obtain (hp | ⟨op, hop, hne⟩) | ⟨op, hop, hne⟩ := arms_serve (w := w) (c := { d with wire })
        htls (hflush d ops plain wire rfl hwire) hwaits
      · exact .inl hp
      · exact .inr ⟨op, mem_append_left _ hop, hne⟩
      · exact .inr ⟨op, mem_append_right _ hop, hne⟩

end

end Serve

section Steps

variable {s t : State} {i : ℕ} {r : Conn × List Op}

theorem closing_settle {c : Conn} (hid : r.1.connId = c.connId)
    (h : ∀ j ≠ i, ∀ c ∈ s.live j, c.Waits → s.Sending j c.connId)
    (hr : r.1.isOpen = true → Arms (s.Sending i c.connId) r) : (s.settle i r).Closing := by
  intro j d hd hwaits
  rw [Sending, (settle_fields ..).1]
  obtain ⟨rfl, rfl, hopen⟩ | ⟨hj, hd⟩ := live_settle hd
  · obtain ⟨a, ha, hslot, howner, hop⟩ | ⟨op, hop, hne⟩ := hr hopen hwaits
    · exact ⟨a, mem_append_left _ ha, hslot, howner.trans hid.symm, hop⟩
    · exact ⟨⟨j, _, op⟩, mem_append_right _ (mem_map_of_mem hop), rfl, rfl, hne⟩
  · obtain ⟨a, ha, hslot⟩ := h j hj d hd hwaits
    exact ⟨a, mem_append_left _ ha, hslot⟩

theorem State.Closing.complete (h : s.Closing) {k : ℕ} {res : ℤ} {chunk : Bytes} {w : Work}
    (hflush : Flushes s (.complete k res chunk w)) (hstep : s.complete k res chunk w = .ok t) :
    t.Closing := by
  rw [State.complete] at hstep
  cases ha : s.armed[k]? with
  | none =>
    rw [ha] at hstep
    cases hstep
    exact h
  | some a =>
    obtain ⟨hconns, -, -, -, harmed⟩ := take_conns s k a res
    have hlive : (s.take k a res).live = s.live := by
      funext j
      rw [live, live, hconns]
    -- only the completed operation has left the ring
    have hkeep : ∀ b ∈ s.armed, b ≠ a → b ∈ (s.take k a res).armed := by
      intro b hb hne
      obtain ⟨n, hn⟩ := List.getElem?_of_mem hb
      rw [harmed, mem_eraseIdx_iff_getElem?]
      refine ⟨n, ?_, hn⟩
      rintro rfl
      exact hne (Option.some.inj (hn.symm.trans ha))
    have hother : ∀ j ≠ a.slot, ∀ c ∈ (s.take k a res).live j, c.Waits →
        (s.take k a res).Sending j c.connId := by
      intro j hj c hc hwaits
      obtain ⟨b, hb, rfl, hown⟩ := h j c (hlive ▸ hc) hwaits
      exact ⟨b, hkeep b hb fun heq => hj (congrArg Armed.slot heq), rfl, hown⟩
    rw [ha] at hstep
    dsimp only at hstep
    cases hc : s.live a.slot with
    | none =>
      rw [hc] at hstep
      cases hstep
      intro j d hd
      by_cases hj : j = a.slot
      · rw [hj, hlive, hc] at hd
        cases hd
      · exact hother j hj d hd
    | some c =>
      rw [hc] at hstep
      obtain ⟨r, hr, hstep⟩ := bind_eq_ok.mp hstep
      cases hstep
      cases hop : a.op with
      | recv =>
        rw [hop] at hr
        refine closing_settle (connId_onRecv hr) hother fun _ => ?_
        refine arms_onRecv (fun hwaits => ?_) (hflush a ha hop c hc) hr
        obtain ⟨b, hb, hslot, howner, hne⟩ := h a.slot c hc hwaits
        exact ⟨b, hkeep b hb fun heq => hne (heq ▸ hop), hslot, howner, hne⟩
      | send bytes =>
        -- whichever connection has armed it, the send is taken as one of this connection
        rw [hop] at hr
        refine closing_settle (connId_onSend hr) hother fun hopen => ?_
        exact fun hwaits => (arms_onSend hr hopen hwaits).imp_left False.elim

theorem State.Closing.accept (h : s.Closing) (others : ℕ) (tls : Tls) :
    (s.accept others tls).Closing := by
  have harmed : ∀ a ∈ s.armed, a ∈ (s.accept others tls).armed := by
    intro a ha
    rw [State.accept]
    split
    all_goals exact mem_append_left _ ha
  intro j d hd hwaits
  obtain ⟨-, rfl⟩ | ⟨-, hd⟩ := live_accept hd
  · simp [Conn.Waits] at hwaits
  · obtain ⟨a, ha, hslot⟩ := h j d hd hwaits
    exact ⟨a, harmed a ha, hslot⟩

theorem State.Closing.flush (h : s.Closing) (events : ℕ → Bytes) (i : ℕ) :
    (s.flush events i).Closing := by
  rw [State.flush]
  cases hlive : s.live i with
  | none => exact h
  | some c =>
    dsimp only
    split_ifs
    · refine closing_settle (c := c) (maybeArmSend_fields _).1 (fun j _ => h j) fun _ => ?_
      exact arms_maybeArmSend (fun hin => h i c hlive (.inl hin))
        fun hc => .inl (h i c hlive (.inr hc))
    · exact h

theorem State.Closing.exec (h : s.Closing) {e : Event} (hflush : Flushes s e) :
    (s.exec e).Closing := by
  rw [State.exec]
  cases hstep : s.step e with
  | error _ => exact h
  | ok t =>
    cases e with
    | accept others tls =>
      cases hstep
      exact h.accept others tls
    | complete k res chunk w => exact h.complete hflush hstep
    | tick events =>
      cases hstep
      exact foldlRecOn _ _ h fun s hs i _ => hs.flush events i

end Steps

/-- **A connection that is asked to close does close**, if there are bytes to be sent when a
handler asks: when nothing is outstanding of it, it is not in its slot any more. -/
theorem asked_connections_close {s : State} (h : Trace.Reaches exec Flushes {} s) {i : ℕ} {c : Conn}
    (hasked : c.closeAfterFlush = true)
    (hdone : ∀ a ∈ s.armed, a.slot = i → a.owner ≠ c.connId) : c ∉ s.live i := by
  have hclosing : s.Closing := h.invariant (fun s e hs he => hs.exec he) fun i c hc => by cases hc
  intro hc
  obtain ⟨a, ha, hslot, howner, -⟩ := hclosing i c hc (.inr hasked)
  exact hdone a ha hslot howner

theorem flushes_of_reply {s : State} {k : ℕ} {res : ℤ} {chunk : Bytes} {w : Work}
    (h : w.reply ≠ []) : Flushes s (.complete k res chunk w) :=
  fun _ _ _ _ _ _ _ _ _ _ _ _ => .inl fun hnil => h (append_eq_nil_iff.mp hnil).2

theorem flushes_of_send {s : State} {k : ℕ} {res : ℤ} {chunk : Bytes} {w : Work}
    (h : (s.armed[k]?).all fun a => a.op ≠ .recv) : Flushes s (.complete k res chunk w) := by
  intro a ha hop
  rw [show s.armed[k]? = some a from ha] at h
  exact absurd hop (of_decide_eq_true h)

def quitRequest : Bytes := [113, 117, 105, 116, 13, 10]

def quits (_ : Mode) (cmd : Bytes) : Bool := cmd = quitRequest

/-- A connection asks for a key and breaks off, its receive still outstanding; the next one in its
slot asks for a key and quits. -/
def getAndQuit : List Event :=
  [.accept 0 .plain,
    .complete 0 7 getRequest { reply := getReply, stop := quits },
    .complete 0 (-104) [] {},
    .accept 0 .plain,
    .complete 1 13 (getRequest ++ quitRequest) { reply := getReply, stop := quits }]

/-- The second connection when it has been asked to close. -/
def quitter : Conn := (((getAndQuit.foldl exec {}).live 0)).getD { connId := 0, tls := .plain }

theorem asked_connections_close_replied :
    let s := (getAndQuit ++ [Event.complete 1 5 [] {}]).foldl exec {}
    quitter.closeAfterFlush = true ∧ quitter ∈ (getAndQuit.foldl exec {}).live 0 ∧
      s.armed = [⟨0, 1, .recv⟩] ∧ quitter ∉ s.live 0 := by
  have hallowed : Trace.Allowed exec Flushes {} (getAndQuit ++ [Event.complete 1 5 [] {}]) :=
    ⟨trivial, flushes_of_reply (by decide), flushes_of_send (by decide +kernel), trivial,
      flushes_of_reply (by decide), flushes_of_send (by decide +kernel), trivial⟩
  exact ⟨by decide +kernel, by decide +kernel, by decide +kernel,
    asked_connections_close (Trace.Reaches.of_allowed _ hallowed) (by decide +kernel)
      (by decide +kernel)⟩

/-- The memcached `quit` has no reply. Nothing is outstanding, and the connection stays open. -/
theorem asked_connection_stays :
    let s := [Event.accept 0 .plain,
      .complete 0 6 quitRequest { stop := quits }].foldl exec ({} : State)
    s.armed = [] ∧
      (s.live 0).map (fun c => (c.closeAfterFlush, c.isOpen, c.out, c.sendbuf)) =
        some (true, true, [], []) := by
  decide +kernel

end BonsaiGrid.Ring
