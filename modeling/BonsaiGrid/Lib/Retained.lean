import Mathlib.Data.List.Basic

/-!
# Numbered records

The records of a log, numbered from behind a base on. If records are dropped at the front, the
others keep their numbers.
-/

namespace Retained

open List

variable {α : Type*}

def number : ℕ → List α → List (ℕ × α)
  | _, [] => []
  | base, x :: xs => (base + 1, x) :: number (base + 1) xs

variable {base s : ℕ} {x : α} {xs : List α}

theorem number_append (base : ℕ) (xs ys : List α) :
    number base (xs ++ ys) = number base xs ++ number (base + xs.length) ys := by
  induction xs generalizing base with
  | nil => rfl
  | cons x xs ih =>
    rw [cons_append, number, ih, number, length_cons, cons_append, Nat.add_assoc,
      Nat.add_comm 1]

@[simp] theorem map_snd_number (base : ℕ) (xs : List α) : (number base xs).map Prod.snd = xs := by
  induction xs generalizing base with
  | nil => rfl
  | cons x xs ih => rw [number, map_cons, ih]

theorem mem_number : (s, x) ∈ number base xs ↔ base < s ∧ xs[s - base - 1]? = some x := by
  induction xs generalizing base with
  | nil => simp [number]
  | cons y xs ih =>
    rw [number, mem_cons, ih, Prod.mk.injEq]
    constructor
    · rintro (⟨rfl, rfl⟩ | ⟨hlt, hget⟩)
      · exact ⟨Nat.lt_succ_self _, by simp⟩
      · refine ⟨Nat.lt_of_succ_lt hlt, ?_⟩
        rw [show s - base - 1 = s - (base + 1) - 1 + 1 by omega]
        exact hget
    · rintro ⟨hlt, hget⟩
      rcases Nat.eq_or_lt_of_le (Nat.succ_le_of_lt hlt) with rfl | hgt
      · rw [show base.succ - base - 1 = 0 by omega] at hget
        exact .inl ⟨rfl, (Option.some.inj hget).symm⟩
      · refine .inr ⟨hgt, ?_⟩
        rw [show s - base - 1 = s - (base + 1) - 1 + 1 by omega] at hget
        exact hget

theorem pairwise_number (base : ℕ) (xs : List α) :
    (number base xs).Pairwise fun a b => a.1 < b.1 := by
  induction xs generalizing base with
  | nil => exact .nil
  | cons x xs ih => exact pairwise_cons.2 ⟨fun e he => (mem_number.1 he).1, ih (base + 1)⟩

theorem filter_number {floor : ℕ} (h : base ≤ floor) :
    (number base xs).filter (fun e => decide (floor < e.1)) =
      number floor (xs.drop (floor - base)) := by
  induction xs generalizing base with
  | nil => rw [drop_nil, number, number, filter_nil]
  | cons x xs ih =>
    rcases Nat.eq_or_lt_of_le h with rfl | hlt
    · have hkeep : (number base (x :: xs)).filter (fun e => decide (base < e.1)) =
          number base (x :: xs) :=
        filter_eq_self.2 fun e he => decide_eq_true (mem_number.1 he).1
      rw [hkeep, Nat.sub_self, drop_zero]
    · rw [number, filter_cons_of_neg (by simpa using Nat.succ_le_of_lt hlt), ih hlt,
        show floor - base = floor - (base + 1) + 1 by omega, drop_succ_cons]

end Retained
