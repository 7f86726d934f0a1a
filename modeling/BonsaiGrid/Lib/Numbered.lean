import Mathlib.Data.List.Basic

/-!
# Numbered files

The files of a directory whose names end in a number, in ascending order of their
numbers, no number twice.
-/

structure Numbered (α : Type) where
  files : List (ℕ × α)
  sorted : files.Pairwise fun a b => a.1 < b.1

namespace Numbered

open List

variable {α : Type}

def empty : Numbered α := ⟨[], .nil⟩

def last? (d : Numbered α) : Option (ℕ × α) := d.files.getLast?

def lastNumber (d : Numbered α) : ℕ := d.last?.elim 0 Prod.fst

def retain (p : ℕ → Bool) (d : Numbered α) : Numbered α :=
  ⟨d.files.filter fun f => p f.1, d.sorted.sublist filter_sublist⟩

def add (n : ℕ) (x : α) (d : Numbered α) : Numbered α where
  files := d.files.filter (fun f => f.1 < n) ++ (n, x) :: d.files.filter fun f => n < f.1
  sorted := by
    refine pairwise_append.2 ⟨d.sorted.sublist filter_sublist,
      pairwise_cons.2 ⟨fun b hb => ?_, d.sorted.sublist filter_sublist⟩, fun a ha b hb => ?_⟩
    · simpa using (mem_filter.1 hb).2
    · have hlt : a.1 < n := by simpa using (mem_filter.1 ha).2
      rcases mem_cons.1 hb with rfl | hb
      · exact hlt
      · have hgt : n < b.1 := by simpa using (mem_filter.1 hb).2
        exact Nat.lt_trans hlt hgt

def modify (n : ℕ) (f : α → α) (d : Numbered α) : Numbered α where
  files := d.files.map fun x => (x.1, if x.1 = n then f x.2 else x.2)
  sorted := pairwise_map.2 d.sorted

section Facts

variable {d : Numbered α} {n m : ℕ} {x y : α}

theorem mem_retain {p : ℕ → Bool} : (m, y) ∈ (d.retain p).files ↔ (m, y) ∈ d.files ∧ p m = true :=
  mem_filter

theorem files_add (h : ∀ f ∈ d.files, f.1 < n) : (d.add n x).files = d.files ++ [(n, x)] := by
  have hbelow : d.files.filter (fun f => decide (f.1 < n)) = d.files :=
    filter_eq_self.2 fun f hf => decide_eq_true (h f hf)
  have habove : d.files.filter (fun f => decide (n < f.1)) = [] :=
    filter_eq_nil_iff.2 fun f hf => by
      have hlt := h f hf
      simp only [decide_eq_true_eq]
      omega
  change d.files.filter (fun f => decide (f.1 < n)) ++
    (n, x) :: d.files.filter (fun f => decide (n < f.1)) = d.files ++ [(n, x)]
  rw [hbelow, habove]

theorem mem_modify {f : α → α} (h : (m, y) ∈ (d.modify n f).files) :
    ∃ x, (m, x) ∈ d.files ∧ y = if m = n then f x else x := by
  obtain ⟨⟨k, x⟩, hx, heq⟩ := mem_map.1 h
  cases heq
  exact ⟨x, hx, rfl⟩

theorem le_of_last? (h : d.last? = some (n, x)) : ∀ f ∈ d.files, f.1 ≤ n := by
  intro f hf
  have hsplit : d.files = d.files.dropLast ++ [(n, x)] :=
    (dropLast_append_getLast? (n, x) h).symm
  have hsorted := d.sorted
  rw [hsplit] at hf hsorted
  rcases mem_append.1 hf with hf | hf
  · exact Nat.le_of_lt ((pairwise_append.1 hsorted).2.2 f hf (n, x) (mem_singleton_self _))
  · exact Nat.le_of_eq (congrArg Prod.fst (mem_singleton.1 hf))

theorem mem_of_last? (h : d.last? = some (n, x)) : (n, x) ∈ d.files := mem_of_getLast? h

theorem last?_add (h : ∀ f ∈ d.files, f.1 < n) : (d.add n x).last? = some (n, x) := by
  rw [last?, files_add h, getLast?_concat]

theorem last?_modify {f : α → α} (h : d.last? = some (m, x)) :
    (d.modify n f).last? = some (m, if m = n then f x else x) := by
  rw [last?] at h
  rw [last?, modify, getLast?_map, h]
  rfl

theorem last?_retain {p : ℕ → Bool} (h : d.last? = some (n, x)) (hp : p n = true) :
    (d.retain p).last? = some (n, x) := by
  have hsplit : d.files = d.files.dropLast ++ [(n, x)] :=
    (dropLast_append_getLast? (n, x) h).symm
  have hlast : [(n, x)].filter (fun f => p f.1) = [(n, x)] :=
    filter_eq_self.2 fun f hf => by rw [mem_singleton.1 hf]; exact hp
  rw [last?, retain]
  dsimp only
  rw [hsplit, filter_append, hlast, getLast?_concat]

theorem filter_last? (h : d.last? = some (n, x)) :
    d.files.filter (fun f => decide (n ≤ f.1)) = [(n, x)] := by
  have hsplit : d.files = d.files.dropLast ++ [(n, x)] :=
    (dropLast_append_getLast? (n, x) h).symm
  have hsorted := d.sorted
  rw [hsplit] at hsorted
  have hbelow : d.files.dropLast.filter (fun f => decide (n ≤ f.1)) = [] :=
    filter_eq_nil_iff.2 fun f hf => by
      have hlt : f.1 < n :=
        (pairwise_append.1 hsorted).2.2 f hf (n, x) (mem_singleton_self _)
      rw [decide_eq_true_eq]
      omega
  have hlast : [(n, x)].filter (fun f => decide (n ≤ f.1)) = [(n, x)] :=
    filter_eq_self.2 fun f hf => by
      rw [mem_singleton.1 hf]
      exact decide_eq_true (Nat.le_refl n)
  rw [hsplit, filter_append, hbelow, hlast, nil_append]

theorem le_lastNumber (d : Numbered α) : ∀ f ∈ d.files, f.1 ≤ d.lastNumber := by
  intro f hf
  rw [lastNumber]
  cases hlast : d.last? with
  | none =>
    rw [last?, getLast?_eq_none_iff] at hlast
    rw [hlast] at hf
    cases hf
  | some l => exact le_of_last? hlast f hf

theorem lastNumber_retain_le (p : ℕ → Bool) (d : Numbered α) :
    (d.retain p).lastNumber ≤ d.lastNumber := by
  rw [lastNumber]
  cases hlast : (d.retain p).last? with
  | none => exact Nat.zero_le _
  | some l => exact le_lastNumber d l (mem_retain.1 (mem_of_last? hlast)).1

end Facts

end Numbered
