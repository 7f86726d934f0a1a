import BonsaiGrid.Lib.Trace
import Mathlib.Algebra.Ring.Nat
import Mathlib.Data.List.Basic

/-!
# Update stamps

A member stamps its updates with a hybrid logical clock, packed into 64 bits as milliseconds,
counter and member id.
-/

namespace BonsaiGrid.Store

open Nat

def STAMP_MEMBER_BITS : ℕ := 7

def STAMP_MEMBER_MASK : ℕ := 0x7F

def STAMP_COUNTER_BITS : ℕ := 16

variable (memberId : ℕ)

def memberBits : ℕ := memberId &&& STAMP_MEMBER_MASK

/-- The stamp after `seq` at the physical time `physMs`, which is also the new state of the clock.
-/
def nextStampAt (memberId seq physMs : ℕ) : ℕ :=
  let nowClock := (physMs <<< STAMP_COUNTER_BITS) % 2 ^ 64
  let prevClock := seq >>> STAMP_MEMBER_BITS
  let newClock := max (prevClock + 1) nowClock
  (newClock <<< STAMP_MEMBER_BITS) % 2 ^ 64 ||| memberBits memberId

def observeStamp (memberId seq ext : ℕ) : ℕ :=
  let extClock := ext >>> STAMP_MEMBER_BITS
  if extClock ≤ seq >>> STAMP_MEMBER_BITS then seq
  else (extClock <<< STAMP_MEMBER_BITS) % 2 ^ 64 ||| memberBits memberId

section Bits

variable {memberId seq physMs ext clock : ℕ}

theorem memberBits_eq (memberId : ℕ) : memberBits memberId = memberId % 2 ^ 7 :=
  and_two_pow_sub_one_eq_mod memberId 7

theorem pack_eq (clock memberId : ℕ) :
    (clock <<< STAMP_MEMBER_BITS) % 2 ^ 64 ||| memberBits memberId =
      clock % 2 ^ 57 * 2 ^ 7 + memberId % 2 ^ 7 := by
  have hlow : memberId % 2 ^ 7 < 2 ^ 7 := mod_lt _ (by decide)
  have hmod : (clock * 2 ^ 7) % 2 ^ 64 = clock % 2 ^ 57 * 2 ^ 7 := by omega
  rw [memberBits_eq, STAMP_MEMBER_BITS, shiftLeft_eq, hmod, ← shiftLeft_eq,
    ← shiftLeft_add_eq_or_of_lt hlow]

theorem shiftRight_member (seq : ℕ) : seq >>> STAMP_MEMBER_BITS = seq / 2 ^ 7 :=
  shiftRight_eq_div_pow seq 7

theorem nextStampAt_eq (memberId seq physMs : ℕ) :
    nextStampAt memberId seq physMs =
      max (seq / 2 ^ 7 + 1) (physMs * 2 ^ 16 % 2 ^ 64) % 2 ^ 57 * 2 ^ 7 + memberId % 2 ^ 7 := by
  rw [nextStampAt, pack_eq, shiftRight_member, STAMP_COUNTER_BITS, shiftLeft_eq]

theorem nextStampAt_lt (memberId seq physMs : ℕ) : nextStampAt memberId seq physMs < 2 ^ 64 := by
  rw [nextStampAt_eq]
  omega

theorem observeStamp_eq (hext : ext < 2 ^ 64) :
    observeStamp memberId seq ext =
      if ext / 2 ^ 7 ≤ seq / 2 ^ 7 then seq else ext / 2 ^ 7 * 2 ^ 7 + memberId % 2 ^ 7 := by
  rw [observeStamp, pack_eq, shiftRight_member, shiftRight_member,
    mod_eq_of_lt (show ext / 2 ^ 7 < 2 ^ 57 by omega)]

/-- Neither the wall clock nor the logical one is at the end of its range. -/
def InRange (seq physMs : ℕ) : Prop := physMs < 2 ^ 41 ∧ seq / 2 ^ 7 + 1 < 2 ^ 57

instance (seq physMs : ℕ) : Decidable (InRange seq physMs) :=
  inferInstanceAs (Decidable (_ ∧ _))

theorem clock_lt_nextStampAt (memberId : ℕ) (h : InRange seq physMs) :
    seq / 2 ^ 7 < nextStampAt memberId seq physMs / 2 ^ 7 := by
  have hphys := h.1
  have hseq := h.2
  rw [nextStampAt_eq]
  omega

theorem clock_le_observeStamp (memberId seq : ℕ) (hext : ext < 2 ^ 64) :
    seq / 2 ^ 7 ≤ observeStamp memberId seq ext / 2 ^ 7 ∧
      ext / 2 ^ 7 ≤ observeStamp memberId seq ext / 2 ^ 7 := by
  rw [observeStamp_eq hext]
  split <;> omega

theorem nextStampAt_mod (memberId seq physMs : ℕ) :
    nextStampAt memberId seq physMs % 2 ^ 7 = memberId % 2 ^ 7 := by
  rw [nextStampAt_eq]
  omega

end Bits

inductive StampCall where
  | next (physMs : ℕ)
  | observe (ext : ℕ)

/-- The clock of a member, and the stamps it has returned or observed. -/
structure StampClock where
  seq : ℕ := 0
  past : List ℕ := []

namespace StampClock

def exec (c : StampClock) : StampCall → StampClock
  | .next physMs =>
    let stamp := nextStampAt memberId c.seq physMs
    ⟨stamp, stamp :: c.past⟩
  | .observe ext => ⟨observeStamp memberId c.seq ext, ext :: c.past⟩

def Typed : StampCall → Prop
  | .next physMs => physMs < 2 ^ 64
  | .observe ext => ext < 2 ^ 64

variable (c : StampClock)

/-- A new stamp is asked for while the clock is in range. -/
def Ok : StampCall → Prop
  | .next physMs => InRange c.seq physMs
  | .observe _ => True

instance : (call : StampCall) → Decidable (Typed call)
  | .next _ | .observe _ => inferInstanceAs (Decidable (_ < _))

instance  : (call : StampCall) → Decidable (c.Ok call)
  | .next _ => inferInstanceAs (Decidable (InRange _ _))
  | .observe _ => isTrue trivial

/-- The clocks of the runs whose calls all meet the condition `ok`. -/
def Reachable (ok : StampClock → StampCall → Prop) : StampClock → Prop :=
  Trace.Reaches (exec memberId) (fun c call => Typed call ∧ ok c call) {}

def Ahead : Prop := ∀ x ∈ c.past, x / 2 ^ 7 ≤ c.seq / 2 ^ 7

theorem Ahead.exec {memberId : ℕ} {c : StampClock} {call : StampCall} (h : c.Ahead)
    (htyped : Typed call) (hok : c.Ok call) : (c.exec memberId call).Ahead := by
  intro x hx
  cases call with
  | next physMs =>
    rcases List.mem_cons.1 hx with rfl | hx
    · exact le_refl _
    · exact le_trans (h x hx) (le_of_lt (clock_lt_nextStampAt memberId hok))
  | observe ext =>
    obtain ⟨hseq, hext⟩ := clock_le_observeStamp memberId c.seq htyped
    rcases List.mem_cons.1 hx with rfl | hx
    · exact hext
    · exact le_trans (h x hx) hseq

theorem Reachable.ahead {memberId : ℕ} {c : StampClock} (h : Reachable memberId Ok c) : c.Ahead :=
  Trace.Reaches.invariant h (fun _ _ hc hok => hc.exec hok.1 hok.2) fun _ hx => absurd hx (by simp)

end StampClock

/-- In every run in which stamps are asked for in range, a stamp is greater than every
stamp returned or observed before it; and two members never return one stamp. -/
theorem stamps_increase {memberId : ℕ} (hmember : memberId < 128) {c : StampClock}
    (h : StampClock.Reachable memberId StampClock.Ok c) {physMs : ℕ} (hrange : InRange c.seq physMs) :
    (∀ x ∈ c.past, x < nextStampAt memberId c.seq physMs) ∧
      ∀ other < 128, other ≠ memberId → ∀ seq time,
        nextStampAt other seq time ≠ nextStampAt memberId c.seq physMs := by
  constructor
  · intro x hx
    have hle := h.ahead x hx
    have hlt := clock_lt_nextStampAt memberId hrange
    omega
  · intro other hother hne seq time heq
    have hlow := congrArg (· % 2 ^ 7) heq
    simp only [nextStampAt_mod] at hlow
    omega

def skewed : List StampCall := [.next 1000, .next 900, .observe (2000 * 2 ^ 23 + 5), .next 1001]

theorem stamps_increase_skewed :
    (skewed.foldl (StampClock.exec 3) {}).past =
        [(2000 * 2 ^ 16 + 1) * 2 ^ 7 + 3, 2000 * 2 ^ 23 + 5, (1000 * 2 ^ 16 + 1) * 2 ^ 7 + 3,
          1000 * 2 ^ 23 + 3] ∧
      ∀ x ∈ (skewed.foldl (StampClock.exec 3) {}).past,
        x < nextStampAt 3 (skewed.foldl (StampClock.exec 3) {}).seq 1002 :=
  ⟨by decide, (stamps_increase (by decide) (.of_allowed skewed (by decide)) (by decide)).1⟩

def topmost : List StampCall := [.observe (2 ^ 64 - 1)]

/-- The clock starts again from the bottom. -/
theorem stamps_wrap_topmost :
    let c := topmost.foldl (StampClock.exec 3) {}
    StampClock.Reachable 3 (fun _ _ => True) c ∧ nextStampAt 3 c.seq 1000 = 3 ∧
      ¬ ∀ x ∈ c.past, x < nextStampAt 3 c.seq 1000 :=
  ⟨.of_allowed topmost (by decide), by decide, by decide⟩

end BonsaiGrid.Store
