import BonsaiGrid.Lib.Lww
import BonsaiGrid.Wan.Record

/-!
# Two stores that publish to each other

What a store emits is published to the other one. It arrives in order, and when an acknowledgement
is lost it is sent again from the last acknowledged record on.
-/

namespace BonsaiGrid.Wan

open Store

structure Pair where
  a : Store
  b : Store
  toB : Lww.Link WanRecord := {}
  toA : Lww.Link WanRecord := {}

/-- What a store does, or what happens to the records it has published. -/
inductive Act (κ : Type) where
  /-- an operation of its own -/
  | op (c : κ)
  /-- its next record arrives at the other store -/
  | deliver (env : StoreEnv)
  /-- what has arrived is acknowledged -/
  | ack
  /-- an acknowledgement is lost: sending starts again behind the last one -/
  | resend

namespace Pair

def swap (p : Pair) : Pair := ⟨p.b, p.a, p.toA, p.toB⟩

def capture (p : Pair) (s : Store) : Pair :=
  { p with
    a := { s with wanSink := some [] }
    toB := (s.wanSink.getD []).foldl (fun l r => l.push (publish r)) p.toB }

def deliver (p : Pair) (env : StoreEnv) : Pair :=
  p.toB.pending.head?.elim p fun r =>
    { p with b := applyBatch p.b [(env, r)], toB := p.toB.advance }

section Runs

variable {κ : Type} (step : Store → κ → Store)

def act (p : Pair) : Act κ → Pair
  | .op c => p.capture (step p.a c)
  | .deliver env => p.deliver env
  | .ack => { p with toB := p.toB.ack }
  | .resend => { p with toB := p.toB.resend }

def exec (p : Pair) : Bool × Act κ → Pair
  | (false, act) => p.act step act
  | (true, act) => (p.swap.act step act).swap

def start (shards memberId shards' memberId' : ℕ) : Pair where
  a := (withShardsSeed shards memberId).setWanSink
  b := (withShardsSeed shards' memberId').setWanSink

/-- The acts of both stores meet `ok`, each store seen as the first one. -/
def Meets (ok : Pair → Act κ → Prop) (p : Pair) (e : Bool × Act κ) : Prop :=
  ok (bif e.1 then p.swap else p) e.2

instance {ok : Pair → Act κ → Prop} [∀ p e, Decidable (ok p e)] (p : Pair) (e : Bool × Act κ) :
    Decidable (Meets ok p e) := inferInstanceAs (Decidable (ok _ _))

/-- The states of the runs of two new stores whose acts all meet `ok`. -/
def Run (ok : Pair → Act κ → Prop) (shards memberId shards' memberId' : ℕ) : Pair → Prop :=
  Trace.Reaches (exec step) (Meets ok) (start shards memberId shards' memberId')

theorem Run.invariant {step : Store → κ → Store} {ok : Pair → Act κ → Prop}
    {shards memberId shards' memberId' : ℕ} {p : Pair} {I : ℕ → ℕ → Pair → Prop}
    (h : Run step ok shards memberId shards' memberId' p)
    (hswap : ∀ m m' p, I m m' p → I m' m p.swap)
    (hact : ∀ m m' p e, (m, m') = (memberId, memberId') ∨ (m, m') = (memberId', memberId) →
      I m m' p → ok p e → I m m' (p.act step e))
    (hstart : I memberId memberId' (start shards memberId shards' memberId')) :
    I memberId memberId' p :=
  Trace.Reaches.invariant (I := I memberId memberId') h (fun p e hp hok => by
    obtain ⟨side, e⟩ := e
    cases side with
    | false => exact hact _ _ p e (.inl rfl) hp hok
    | true => exact hswap _ _ _ (hact _ _ p.swap e (.inr rfl) (hswap _ _ p hp) hok)) hstart

end Runs

theorem capture_singleton {p : Pair} {s : Store} {r : WalRecord} (h : s.wanSink = some [r]) :
    p.capture s =
      { p with a := { s with wanSink := some [] }, toB := p.toB.push (publish r) } := by
  rw [capture, h]
  rfl

end Pair

end BonsaiGrid.Wan
