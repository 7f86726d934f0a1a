import BonsaiGrid.Cp.Objects
import BonsaiGrid.Lib.Trace
import Mathlib.Algebra.Ring.Int.Defs

/-!
# The permits of a semaphore

The books of a semaphore are kept from the commands and their replies alone, in unbounded
integers. They agree with the state machine as long as a semaphore is initialised before it is used
and no release takes it over the top of its 32 bits.
-/

namespace BonsaiGrid.Cp

open Int32

structure Ledger where
  permits : ℤ := 0
  inited : Bool := false

def Ledger.enter (l : Ledger) : SemOp → CpReply → Ledger
  | .init n, .bool true => ⟨l.permits + max n.toInt 0, true⟩
  | .acquire n, .bool true => { l with permits := l.permits - n.toInt }
  | .release n, _ => { l with permits := l.permits + max n.toInt 0 }
  | .drain, .long drained => { l with permits := l.permits - drained.toInt }
  | _, _ => l

variable (sm : SemaphoreSm)

namespace SemaphoreSm

def available (name : Str) : Int32 := (sm.permits.lookup name).getD 0

def exec (body : Bytes) : SemaphoreSm := (sm.apply body).1

def run (commands : List Bytes) : SemaphoreSm := commands.foldl exec {}

def entered (name : Str) (sm : SemaphoreSm) (l : Ledger) (body : Bytes) : Ledger :=
  match Semaphore.decode body with
  | some (name', op) => if name' = name then l.enter op (sm.apply body).2 else l
  | none => l

def ledger (name : Str) : SemaphoreSm → Ledger → List Bytes → Ledger
  | _, l, [] => l
  | sm, l, body :: commands => ledger name (sm.exec body) (entered name sm l body) commands

/-- Only a semaphore that has been initialised is used, and a release does not overflow. -/
def proper (body : Bytes) : Bool :=
  match Semaphore.decode body with
  | some (name, .acquire _) => name ∈ sm.permits
  | some (name, .release n) =>
    name ∈ sm.permits ∧ (sm.available name).toInt + max n.toInt 0 < 2 ^ 31
  | some (name, .drain) => name ∈ sm.permits
  | _ => true

structure Balanced (name : Str) (sm : SemaphoreSm) (l : Ledger) : Prop where
  permits : (sm.available name).toInt = l.permits
  nonneg : 0 ≤ l.permits
  inited : l.inited = true ↔ name ∈ sm.permits

variable {sm : SemaphoreSm} {name : Str} {l : Ledger}

theorem toInt_max (n : Int32) : (max n 0).toInt = max n.toInt 0 := by
  change (if n ≤ 0 then 0 else n).toInt = _
  have hiff : n ≤ 0 ↔ n.toInt ≤ 0 := le_iff_toInt_le
  split
  next hn => rw [Int.max_eq_right (hiff.1 hn), toInt_zero]
  next hn => rw [Int.max_eq_left (Int.le_of_not_le (hiff.not.1 hn))]

theorem Balanced.store_self {n : Int32} {l' : Ledger}
    (hpermits : n.toInt = l'.permits) (hnonneg : 0 ≤ l'.permits) (hinited : l'.inited = true) :
    Balanced name ⟨sm.permits.insert name n⟩ l' where
  permits := by
    rw [available, AList.lookup_insert, Option.getD_some, hpermits]
  nonneg := hnonneg
  inited := iff_of_true hinited (by simp)

theorem Balanced.store_other (h : Balanced name sm l) {name' : Str} (hne : name ≠ name')
    (n : Int32) : Balanced name ⟨sm.permits.insert name' n⟩ l where
  permits := by
    rw [available, AList.lookup_insert_ne hne]
    exact h.permits
  nonneg := h.nonneg
  inited := by
    rw [h.inited]
    simp [hne]

theorem Balanced.exec (h : Balanced name sm l) {body : Bytes} (hbody : sm.proper body) :
    Balanced name (sm.exec body) (entered name sm l body) := by
  rw [SemaphoreSm.exec, SemaphoreSm.apply, entered, SemaphoreSm.apply]
  rw [proper] at hbody
  cases hdecode : Semaphore.decode body with
  | none => exact h
  | some r =>
    obtain ⟨name', op⟩ := r
    rw [hdecode] at hbody
    dsimp only
    by_cases hname : name' = name
    · subst hname
      have hpermits := h.permits
      have hnonneg := h.nonneg
      rw [if_pos rfl, show (sm.permits.lookup name').getD 0 = sm.available name' from rfl]
      cases op with
      | init n =>
        dsimp only
        split
        next => exact h
        next hnew =>
          have hzero : l.permits = 0 := by
            rw [← hpermits, available, AList.lookup_eq_none.2 hnew]
            rfl
          refine .store_self ?_ ?_ rfl
          · rw [toInt_max]
            dsimp only [Ledger.enter]
            omega
          · dsimp only [Ledger.enter]
            omega
      | acquire n =>
        have hinited := h.inited.2 (of_decide_eq_true hbody)
        dsimp only
        split
        next hn =>
          rw [le_iff_toInt_le, le_iff_toInt_le, toInt_zero] at hn
          have hle := (sm.available name').toInt_lt
          refine .store_self ?_ ?_ hinited
          · rw [toInt_sub, hpermits]
            exact Int.bmod_eq_of_le (by omega) (by omega)
          · dsimp only [Ledger.enter]
            omega
        next => exact .store_self hpermits hnonneg hinited
      | release n =>
        obtain ⟨hknown, hroom⟩ := of_decide_eq_true hbody
        refine .store_self ?_ ?_ (h.inited.2 hknown)
        · rw [toInt_add, toInt_max, hpermits]
          exact Int.bmod_eq_of_le (by omega) (by omega)
        · dsimp only [Ledger.enter]
          omega
      | drain =>
        have hzero : l.permits - (sm.available name').toInt64.toInt = 0 := by
          rw [toInt_toInt64, hpermits, Int.sub_self]
        exact .store_self hzero.symm (Int.le_of_eq hzero.symm)
          (h.inited.2 (of_decide_eq_true hbody))
      | availablePermits => exact h
    · rw [if_neg hname]
      have hstore := h.store_other (Ne.symm hname)
      cases op with
      | init n | acquire n =>
        dsimp only
        split
        · first | exact h | exact hstore _
        · exact hstore _
      | release n | drain => exact hstore _
      | availablePermits => exact h

theorem Balanced.run (h : Balanced name sm l) {commands : List Bytes}
    (hproper : Trace.Allowed SemaphoreSm.exec (proper · ·) sm commands) :
    Balanced name (commands.foldl SemaphoreSm.exec sm) (ledger name sm l commands) := by
  induction commands generalizing sm l with
  | nil => exact h
  | cons body commands ih => exact ih (h.exec hproper.1) hproper.2

/-- **Exact permits.** After commands that are proper where they are applied, the permits of each
semaphore are those of its books and not negative, an acquisition succeeds if they suffice, and an
initialisation if none has succeeded. -/
theorem permits_exact {commands : List Bytes} (h : Trace.Allowed exec (proper · ·) {} commands)
    (name : Str) :
    0 ≤ (ledger name {} {} commands).permits ∧
      ((run commands).available name).toInt = (ledger name {} {} commands).permits ∧
      ∀ body n,
        (Semaphore.decode body = some (name, .acquire n) →
          (((run commands).apply body).2 = .bool true ↔
            0 ≤ n.toInt ∧ n.toInt ≤ (ledger name {} {} commands).permits)) ∧
        (Semaphore.decode body = some (name, .init n) →
          (((run commands).apply body).2 = .bool true ↔
            (ledger name {} {} commands).inited = false)) := by
  have hnew : Balanced name {} {} :=
    ⟨rfl, Int.le_refl 0, iff_of_false Bool.false_ne_true (AList.notMem_empty name)⟩
  have hbalanced := hnew.run h
  refine ⟨hbalanced.nonneg, hbalanced.permits, fun body n => ⟨fun hbody => ?_, fun hbody => ?_⟩⟩
  · rw [SemaphoreSm.apply, hbody, ← hbalanced.permits, ← toInt_zero, ← le_iff_toInt_le,
      ← le_iff_toInt_le]
    dsimp only
    split
    next hn => exact iff_of_true rfl hn
    next hn => exact iff_of_false (by simp) hn
  · rw [SemaphoreSm.apply, hbody, ← Bool.not_eq_true, hbalanced.inited]
    dsimp only
    split
    next hold => exact iff_of_false (by simp) (not_not_intro hold)
    next hnew => exact iff_of_true rfl hnew

/-- `Init(3)`, `Acquire(2)`, `Release(1)`, `Drain` of the semaphore `s`. -/
def drained : List Bytes :=
  [[0, 3, 0, 0, 0, 115], [1, 2, 0, 0, 0, 115], [2, 1, 0, 0, 0, 115], [3, 115]]

def letterS : Str := ⟨[115], by decide +kernel⟩

theorem permits_exact_drained : Trace.Allowed exec (proper · ·) {} drained ∧
    ((run drained).available letterS).toInt = (ledger letterS {} {} drained).permits := by
  have hproper : Trace.Allowed exec (proper · ·) {} drained := by decide +kernel
  exact ⟨hproper, (permits_exact hproper letterS).2.1⟩

/-- `Init(1)` fails behind `Acquire(1)`; `Release(1)` overflows behind `Init(2147483647)`. -/
theorem permits_wrong :
    (ledger letterS {} {} [[1, 1, 0, 0, 0, 115]]).inited = false ∧
      ((run [[1, 1, 0, 0, 0, 115]]).apply [0, 1, 0, 0, 0, 115]).2 = .bool false ∧
      ((run [[0, 255, 255, 255, 127, 115], [2, 1, 0, 0, 0, 115]]).available letterS).toInt < 0 := by
  decide +kernel

end SemaphoreSm

end BonsaiGrid.Cp
