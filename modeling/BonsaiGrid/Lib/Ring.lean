import Mathlib.Data.List.Rotate
import Mathlib.Data.List.Range
import Mathlib.Data.List.Perm.Basic

/-!
# Walks around a ring

A walk around a ring of `n` places visits every place once, from its start on.
-/

namespace Ring

open List

def walk (n home : ℕ) : List ℕ := (range n).map fun j => (home + j) % n

def after (n i : ℕ) : List ℕ := (range (n - 1)).map fun j => (i + (j + 1)) % n

theorem walk_eq_rotate (n home : ℕ) : walk n home = (range n).rotate home := by
  apply ext_getElem
  · simp [walk]
  · simp [walk, getElem_rotate, Nat.add_comm]

variable {n home i : ℕ}

@[simp] theorem mem_walk : i ∈ walk n home ↔ i < n := by
  rw [walk_eq_rotate, mem_rotate, mem_range]

theorem nodup_walk (n home : ℕ) : (walk n home).Nodup := by
  rw [walk_eq_rotate, nodup_rotate]
  exact nodup_range

theorem walk_perm (n home : ℕ) : (walk n home).Perm (range n) := by
  rw [walk_eq_rotate]
  exact rotate_perm _ _

theorem walk_eq_cons {n i : ℕ} (h : i < n) : walk n i = i :: after n i := by
  obtain ⟨m, rfl⟩ : ∃ m, n = m + 1 := ⟨n - 1, by omega⟩
  rw [walk, range_succ_eq_map, map_cons, map_map, Nat.add_zero,
    Nat.mod_eq_of_lt h]
  rfl

theorem nodup_after (n i : ℕ) : (after n i).Nodup := by
  have hmod : after n (i % n) = after n i := by
    refine map_congr_left fun j _ => ?_
    rw [Nat.mod_add_mod]
  rcases Nat.eq_zero_or_pos n with rfl | hpos
  · exact nodup_nil
  · have hwalk := nodup_walk n (i % n)
    rw [walk_eq_cons (Nat.mod_lt i hpos), hmod] at hwalk
    exact (nodup_cons.mp hwalk).2

/-- A walk that starts at a place of another walk goes on as that one did, and then visits the
places it had visited before. -/
theorem walk_of_append {front back : List ℕ}
    (h : walk n home = front ++ i :: back) : walk n i = i :: (back ++ front) := by
  have hlen : front.length < (walk n home).length := by
    rw [h]
    simp
  have hi : i = (home + front.length) % n := by
    have hget : (walk n home)[front.length]? = some i := by
      rw [h, getElem?_append_right (le_refl _), Nat.sub_self, getElem?_cons_zero]
    rw [getElem?_eq_getElem hlen, Option.some.injEq] at hget
    rw [← hget]
    simp [walk]
  calc walk n i = (range n).rotate (home + front.length) := by
        rw [walk_eq_rotate, hi]
        simpa using rotate_mod (range n) (home + front.length)
    _ = (walk n home).rotate front.length := by rw [walk_eq_rotate, rotate_rotate]
    _ = i :: (back ++ front) := by rw [h, rotate_append_length_eq, cons_append]

theorem filter_walk {p : ℕ → Bool} (h : (walk n home).find? p = some i) :
    (walk n home).filter p = i :: (after n i).filter p := by
  obtain ⟨hp, front, back, hsplit, hfront⟩ := find?_eq_some_iff_append.mp h
  have hi : i < n := mem_walk.mp (by rw [hsplit]; simp)
  have hnone : front.filter p = [] := by
    rw [filter_eq_nil_iff]
    intro x hx
    simpa using hfront x hx
  have hafter : after n i = back ++ front := by
    have := walk_of_append hsplit
    rw [walk_eq_cons hi] at this
    exact cons_injective this
  rw [hsplit, hafter]
  simp [hnone, hp]

theorem mem_take_of_find {α : Type*} {p : α → Bool} {l : List α} {x : α} {k : ℕ}
    (h : l.find? p = some x) (hk : (l.filter fun y => !p y).length ≤ k) : x ∈ l.take (k + 1) := by
  induction l generalizing k with
  | nil => simp at h
  | cons y l ih =>
    cases hy : p y with
    | true =>
      rw [find?_cons_of_pos hy, Option.some.injEq] at h
      simp [h]
    | false =>
      rw [find?_cons_of_neg (by simp [hy])] at h
      rw [filter_cons_of_pos (by simp [hy]), length_cons] at hk
      obtain ⟨k, rfl⟩ : ∃ m, k = m + 1 := ⟨k - 1, by omega⟩
      exact mem_cons_of_mem _ (ih h (by omega))

theorem mem_take_filter_of_find {α : Type*} {p q : α → Bool} {l : List α} {x : α} {k : ℕ}
    (hle : ∀ y, q y → p y) (h : l.find? q = some x)
    (hk : (l.filter p).length ≤ (l.filter q).length + k) : x ∈ (l.filter p).take (k + 1) := by
  have hsub : (l.filter p).filter q = l.filter q := by
    rw [filter_filter]
    refine filter_congr fun y _ => ?_
    cases hq : q y with
    | true => simp [hle y hq]
    | false => simp
  refine mem_take_of_find (p := q) ?_ ?_
  · rw [← head?_filter, hsub, head?_filter, h]
  · have := length_eq_length_filter_add q (l := l.filter p)
    rw [hsub] at this
    omega

end Ring
