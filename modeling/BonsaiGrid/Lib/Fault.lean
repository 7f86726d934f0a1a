import Mathlib.Algebra.Ring.Nat
import Mathlib.Data.List.Basic

/-!
# Computations that can stop the thread

A computation of a machine program either returns or stops the thread that runs it: an addition
leaves the range of its type, an index or a slice is out of range, an optional value that is not
there is taken for granted, an allocation asks for more than there can be or for more than the
allocator gives.
-/

inductive Fault
  | overflow
  | outOfRange
  | missing
  | notUtf8
  | capacity
  | exhausted
  | endless
deriving DecidableEq, Repr

namespace Fault

variable {α β : Type}

def Returns (x : Except Fault α) : Prop := ∃ a, x = .ok a

instance (x : Except Fault α) : Decidable (Returns x) :=
  match x with
  | .ok a => isTrue ⟨a, rfl⟩
  | .error _ => isFalse fun h => by
      obtain ⟨a, ha⟩ := h
      cases ha

theorem returns_ok (a : α) : Returns (.ok a) := ⟨a, rfl⟩

@[simp] theorem ok_bind (a : α) (f : α → Except Fault β) : (.ok a >>= f) = f a := rfl

@[simp] theorem error_bind (e : Fault) (f : α → Except Fault β) :
    (.error e >>= f) = .error e := rfl

theorem map_bind {γ : Type} (x : Except Fault α) (f : α → Except Fault β) (g : β → γ) :
    (x >>= f).map g = x >>= fun a => (f a).map g := by
  cases x with
  | error e | ok a => rfl

variable {x : Except Fault α}

theorem bind_eq_ok {f : α → Except Fault β} {b : β} :
    x >>= f = .ok b ↔ ∃ a, x = .ok a ∧ f a = .ok b := by
  cases x with
  | error e =>
    constructor
    · intro h
      cases h
    · rintro ⟨a, ha, -⟩
      cases ha
  | ok a =>
    constructor
    · exact fun h => ⟨a, rfl, h⟩
    · rintro ⟨a', ha, h⟩
      cases ha
      exact h

theorem map_bind_congr {k k' : α → Except Fault β} {f : β → β}
    (h : ∀ a, k' a = (k a).map f) : x >>= k' = (x >>= k).map f := by
  cases x with
  | error e => rfl
  | ok a => exact h a

/-- Both computations return, related values, or both stop with the same fault. -/
inductive Agree (R : α → β → Prop) : Except Fault α → Except Fault β → Prop
  | ok {a : α} {b : β} (h : R a b) : Agree R (.ok a) (.ok b)
  | error (e : Fault) : Agree R (.error e) (.error e)

theorem Agree.bind {γ δ : Type} {R : α → β → Prop} {S : γ → δ → Prop} {y : Except Fault β}
    {f : α → Except Fault γ} {g : β → Except Fault δ} (h : Agree R x y)
    (hf : ∀ a b, R a b → Agree S (f a) (g b)) : Agree S (x >>= f) (y >>= g) := by
  cases h with
  | ok h => exact hf _ _ h
  | error e => exact .error e

/-- After the same computation, two that agree on each of its results agree. -/
theorem Agree.bind_same {γ δ : Type} {S : γ → δ → Prop} {f : α → Except Fault γ}
    {g : α → Except Fault δ} (hf : ∀ a, x = .ok a → Agree S (f a) (g a)) :
    Agree S (x >>= f) (x >>= g) := by
  cases x with
  | ok a => exact hf a rfl
  | error e => exact .error e

def add (a b : ℕ) : Except Fault ℕ := if a + b < 2 ^ 64 then .ok (a + b) else .error .overflow

def index (xs : List α) (i : ℕ) : Except Fault α :=
  match xs[i]? with
  | some x => .ok x
  | none => .error .outOfRange

def slice (xs : List α) (i j : ℕ) : Except Fault (List α) :=
  if i ≤ j ∧ j ≤ xs.length then .ok ((xs.take j).drop i) else .error .outOfRange

/-- The range of a list, if all of it is there. -/
def getRange (xs : List α) (i j : ℕ) : Option (List α) :=
  if i ≤ j ∧ j ≤ xs.length then some ((xs.take j).drop i) else none

theorem add_eq {a b : ℕ} (h : a + b < 2 ^ 64) : add a b = .ok (a + b) := if_pos h

theorem of_add {a b c : ℕ} (h : add a b = .ok c) : c = a + b ∧ a + b < 2 ^ 64 := by
  rw [add] at h
  split at h
  next hlt =>
    cases h
    exact ⟨rfl, hlt⟩
  next => cases h

theorem index_eq {xs : List α} {i : ℕ} (h : i < xs.length) : index xs i = .ok xs[i] := by
  rw [index, List.getElem?_eq_getElem h]

theorem slice_eq {xs : List α} {i j : ℕ} (hij : i ≤ j) (hj : j ≤ xs.length) :
    slice xs i j = .ok ((xs.take j).drop i) := if_pos ⟨hij, hj⟩

theorem slice_returns_iff {xs : List α} {i j : ℕ} :
    Returns (slice xs i j) ↔ i ≤ j ∧ j ≤ xs.length := by
  by_cases h : i ≤ j ∧ j ≤ xs.length
  · simp [slice, h, Returns]
  · simp [slice, h, Returns]

theorem returns_map_iff {f : α → β} : Returns (x.map f) ↔ Returns x := by
  cases x with
  | error e => simp [Returns, Except.map]
  | ok a => simp [Returns, Except.map]

end Fault
