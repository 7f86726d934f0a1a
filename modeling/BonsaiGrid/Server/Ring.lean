import BonsaiGrid.Lib.Trace
import BonsaiGrid.Server.Inbound

/-!
# Completions of the ring

The reactor arms receives and sends in the kernel's ring and is told later, in any order, what
became of each.
-/

namespace BonsaiGrid.Ring

open Fault Reactor

/-- What the reactor asks of the kernel for a connection. -/
inductive Op
  | recv
  | send (bytes : Bytes)
deriving DecidableEq

/-- An operation in the ring: the slot it is tagged with, and the connection that armed it. -/
structure Armed where
  slot : ℕ
  owner : ℕ
  op : Op
deriving DecidableEq

inductive Tls
  | plain
  | detect
  | handshaking
  | ktls
deriving DecidableEq

/-- `Conn`. -/
structure Conn where
  connId : ℕ
  wire : Reactor.Conn := {}
  out : Bytes := []
  sendbuf : Bytes := []
  inflightSend : ℕ := 0
  closeAfterFlush : Bool := false
  isOpen : Bool := true
  tls : Tls
  written : Bytes := []
deriving DecidableEq

def Conn.append (c : Conn) (bytes : Bytes) : Conn :=
  { c with out := c.out ++ bytes, written := c.written ++ bytes }

def Conn.close (c : Conn) : Conn := { c with isOpen := false }

/-- What the TLS session makes of the received bytes: it fails, or it has bytes to send and
plaintext, and when it is ready the kernel takes it over or does not. -/
inductive Pump
  | failed
  | pumped (send plain : Bytes) (ready installed : Bool)

/-- What the parts behind the reactor do with one receive: what the handlers append, which
commands of the text protocols close the connection, which events are drained, whether a TLS
session can be made and what it does. -/
structure Work where
  reply : Bytes := []
  stop : Mode → Bytes → Bool := fun _ _ => false
  events : Bytes := []
  acceptor : Bool := false
  pump : Pump := .failed

def maybeArmSend (c : Conn) : Conn × List Op :=
  if 0 < c.inflightSend then (c, [])
  else if c.sendbuf = [] ∧ c.out = [] then (c, [])
  else
    let c := if c.sendbuf = [] then { c with sendbuf := c.out, out := [] } else c
    ({ c with inflightSend := c.sendbuf.length },
      [.send (c.sendbuf.take (c.sendbuf.length % 2 ^ 32))])

def onSend (c : Conn) (res : ℤ) : Except Fault (Conn × List Op) :=
  if res < 0 then .ok (c.close, [])
  else do
    -- `sendbuf.drain(0..sent)`
    let _ ← slice c.sendbuf 0 res.toNat
    let c := { c with sendbuf := c.sendbuf.drop res.toNat, inflightSend := 0 }
    if c.sendbuf = [] ∧ c.out = [] ∧ c.closeAfterFlush then return (c.close, [])
    else return maybeArmSend c

variable (w : Work)

def pumpHandshake (c : Conn) : Conn × List Op × Option Bytes :=
  match w.pump with
  | .failed => (c.close, [], none)
  | .pumped send plain ready installed =>
    let c := c.append send
    if ready && !installed then (c.close, [], none)
    else
      let (c, ops) := maybeArmSend { c with tls := if ready then .ktls else .handshaking }
      (c, ops, if c.wire.inbound.acc ++ plain = [] then none else some plain)

def tlsIngest (c : Conn) (chunk : Bytes) : Conn × List Op × Option Bytes :=
  match c.tls with
  | .plain | .ktls => (c, [], some chunk)
  | .detect =>
    if chunk.head? = some 0x16 then
      if w.acceptor then pumpHandshake w c else (c.close, [], none)
    else ({ c with tls := .plain }, [], some chunk)
  | .handshaking => pumpHandshake w c

def Work.stops : Mode → Bytes → Bool
  | .binary, _ => false
  | .http, _ => true
  | .memcache, cmd => w.stop .memcache cmd
  | .resp, cmd => w.stop .resp cmd

/-- The end of `on_recv`, after the commands have been cut: what is appended to `out`, and what
is armed. -/
def serve (c : Conn) : Conn × List Op :=
  match c.wire.mode with
  | none => (c, [.recv])
  | some .binary =>
    let (c, ops) := maybeArmSend (c.append (w.reply ++ w.events))
    (c, ops ++ [.recv])
  | some .http =>
    if c.wire.inbound.closed then
      maybeArmSend { c.append w.reply with closeAfterFlush := true }
    else (c, [.recv])
  | some .memcache | some .resp =>
    if c.wire.inbound.closed then
      maybeArmSend { c.append w.reply with closeAfterFlush := true }
    else
      let (c, ops) := maybeArmSend (c.append w.reply)
      (c, ops ++ [.recv])

def onRecv (c : Conn) (res : ℤ) (chunk : Bytes) : Except Fault (Conn × List Op) :=
  if res ≤ 0 then .ok (c.close, [])
  else
    match tlsIngest w c chunk with
    | (c, ops, none) => .ok (c, if c.isOpen then ops ++ [.recv] else ops)
    | (c, ops, some plain) => do
        let wire ← Reactor.onRecv w.stops c.wire plain
        let (c, more) := serve w { c with wire }
        return (c, ops ++ more)

def onCompletion (c : Conn) (res : ℤ) (chunk : Bytes) :
    Op → Except Fault (Conn × List Op)
  | .recv => onRecv w c res chunk
  | .send _ => onSend c res

/-- The reactor's connections by slot and its free slots; `seq` is `CONN_SEQ`. -/
structure State where
  conns : List (Option Conn) := []
  free : List ℕ := []
  seq : ℕ := 1
  armed : List Armed := []
  sent : ℕ → Bytes := fun _ => []
  gone : List Conn := []

variable (s : State)

def State.live (i : ℕ) : Option Conn := s.conns[i]?.join

def State.nextSlot : ℕ := s.free.head?.getD s.conns.length

/-- The connection of a slot has been served: what it armed is in the ring, and if it is not
open any more it is dropped and its slot is free. -/
def State.settle (i : ℕ) (r : Conn × List Op) : State :=
  let s := { s with armed := s.armed ++ r.2.map (Armed.mk i r.1.connId) }
  if r.1.isOpen then { s with conns := s.conns.set i (some r.1) }
  else { s with conns := s.conns.set i none, free := i :: s.free, gone := r.1 :: s.gone }

def State.accept (others : ℕ) (tls : Tls) : State :=
  let c : Conn := { connId := s.seq + others, tls }
  let s := { s with seq := s.seq + others + 1,
                    armed := s.armed ++ [Armed.mk s.nextSlot c.connId .recv] }
  match s.free with
  | i :: free => { s with conns := s.conns.set i (some c), free }
  | [] => { s with conns := s.conns ++ [some c] }

def State.take (k : ℕ) (a : Armed) (res : ℤ) : State :=
  let s := { s with armed := s.armed.eraseIdx k }
  match a.op with
  | .recv => s
  | .send bytes =>
    { s with sent := Function.update s.sent a.owner (s.sent a.owner ++ bytes.take res.toNat) }

def State.complete (k : ℕ) (res : ℤ) (chunk : Bytes) (w : Work) : Except Fault State :=
  match s.armed[k]? with
  | none => .ok s
  | some a =>
    match s.live a.slot with
    | none => .ok (s.take k a res)
    | some c => do
        let r ← onCompletion w c res chunk a.op
        return (s.take k a res).settle a.slot r

def State.flush (events : ℕ → Bytes) (s : State) (i : ℕ) : State :=
  match s.live i with
  | none => s
  | some c =>
    if c.isOpen ∧ c.wire.mode = some .binary then
      s.settle i (maybeArmSend (c.append (events c.connId)))
    else s

/-- What can happen: a connection is accepted, after other reactors have taken some numbers;
the `k`-th outstanding operation completes; the timer runs off. -/
inductive Event
  | accept (others : ℕ) (tls : Tls)
  | complete (k : ℕ) (res : ℤ) (chunk : Bytes) (w : Work)
  | tick (events : ℕ → Bytes)

def State.step : Event → Except Fault State
  | .accept others tls => .ok (s.accept others tls)
  | .complete k res chunk w => s.complete k res chunk w
  | .tick events => .ok ((List.range s.conns.length).foldl (State.flush events) s)

def State.exec (e : Event) : State :=
  match s.step e with
  | .ok s' => s'
  | .error _ => s

/-- The results an operation can have. -/
def Op.Result (op : Op) (res : ℤ) (chunk : Bytes) : Prop :=
  match op with
  | .recv => res ≤ 65536 ∧ chunk.length = res.toNat
  | .send bytes => res ≤ bytes.length

instance (res : ℤ) (chunk : Bytes) : (op : Op) → Decidable (op.Result res chunk)
  | .recv => inferInstanceAs (Decidable (_ ∧ _))
  | .send _ => inferInstanceAs (Decidable (_ ≤ _))

/-- Only an outstanding operation completes, with a result it can have. -/
def Possible : Event → Prop
  | .complete k res chunk _ => ∃ a ∈ s.armed[k]?, a.op.Result res chunk
  | .accept .. | .tick _ => True

instance  : ∀ e, Decidable (Possible s e)
  | .complete k _ _ _ => inferInstanceAs (Decidable (∃ a ∈ s.armed[k]?, _))
  | .accept .. | .tick _ => isTrue trivial

/-- Nothing is outstanding in the slot a new connection gets. -/
def Reusable : Event → Prop
  | .accept .. => ∀ a ∈ s.armed, a.slot ≠ s.nextSlot
  | .complete .. | .tick _ => True

instance  : ∀ e, Decidable (Reusable s e)
  | .accept .. => inferInstanceAs (Decidable (∀ a ∈ s.armed, _))
  | .complete .. | .tick _ => isTrue trivial

/-- Every outstanding operation was armed by the connection its completion will be applied to,
if there is one. -/
def State.Owned : Prop :=
  ∀ a ∈ s.armed, ∀ c ∈ s.live a.slot, a.owner = c.connId

/-- What the kernel has taken for a connection is what was appended to its `out`, from the
first byte on. -/
def State.Delivers : Prop :=
  (∀ i, ∀ c ∈ s.live i, s.sent c.connId <+: c.written) ∧
    ∀ c ∈ s.gone, s.sent c.connId <+: c.written

/-- The completion of an outstanding send does not stop the thread. -/
def State.InRange : Prop :=
  ∀ a ∈ s.armed, ∀ bytes, a.op = .send bytes →
    ∀ c ∈ s.live a.slot, ∀ res : ℤ, res ≤ bytes.length → Returns (onSend c res)

end BonsaiGrid.Ring
