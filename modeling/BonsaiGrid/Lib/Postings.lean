import Mathlib.Data.List.Dedup

/-!
# Postings

Postings list keys under values: under a value stand all the keys that have it.
-/

structure Postings {α : Type} (same : α → α → Bool) (κ : Type) where
  entries : List (α × List κ)
  separate : entries.Pairwise fun x y => same x.1 y.1 = false

namespace Postings

open List

variable {α κ : Type} [DecidableEq κ] {same : α → α → Bool}

def insertEntry (same : α → α → Bool) (a : α) (k : κ) : List (α × List κ) → List (α × List κ)
  | [] => [(a, [k])]
  | e :: es => if same e.1 a then (e.1, e.2.insert k) :: es else e :: insertEntry same a k es

def removeEntry (same : α → α → Bool) (a : α) (k : κ) : List (α × List κ) → List (α × List κ)
  | [] => []
  | e :: es =>
    if same e.1 a then
      if e.2.filter (· ≠ k) = [] then es else (e.1, e.2.filter (· ≠ k)) :: es
    else e :: removeEntry same a k es

theorem map_fst_insertEntry (a : α) (k : κ) (es : List (α × List κ)) :
    (insertEntry same a k es).map Prod.fst = es.map Prod.fst ∨
      (∀ e ∈ es, same e.1 a = false) ∧
        (insertEntry same a k es).map Prod.fst = es.map Prod.fst ++ [a] := by
  induction es with
  | nil => simp [insertEntry]
  | cons e es ih =>
    by_cases h : same e.1 a = true
    · simp [insertEntry, h]
    · rcases ih with ih | ⟨hne, ih⟩
      · simp [insertEntry, h, ih]
      · refine .inr ⟨?_, by simp [insertEntry, h, ih]⟩
        rw [forall_mem_cons]
        exact ⟨Bool.eq_false_iff.2 h, hne⟩

theorem map_fst_removeEntry (a : α) (k : κ) (es : List (α × List κ)) :
    ((removeEntry same a k es).map Prod.fst).Sublist (es.map Prod.fst) := by
  induction es with
  | nil => simp [removeEntry]
  | cons e es ih =>
    rw [removeEntry]
    split
    · split
      · simp
      · simp
    · simpa using ih

omit [DecidableEq κ] in
theorem separate_iff {es : List (α × List κ)} :
    (es.Pairwise fun x y => same x.1 y.1 = false) ↔
      (es.map Prod.fst).Pairwise fun x y => same x y = false := by
  rw [pairwise_map]

variable {es : List (α × List κ)}

theorem separate_insertEntry (h : es.Pairwise fun x y => same x.1 y.1 = false) (a : α) (k : κ) :
    (insertEntry same a k es).Pairwise fun x y => same x.1 y.1 = false := by
  rw [separate_iff] at h ⊢
  rcases map_fst_insertEntry a k es with heq | ⟨hne, heq⟩
  · rwa [heq]
  · rw [heq, pairwise_append]
    refine ⟨h, pairwise_singleton _ _, ?_⟩
    simpa using hne

theorem separate_removeEntry (h : es.Pairwise fun x y => same x.1 y.1 = false) (a : α) (k : κ) :
    (removeEntry same a k es).Pairwise fun x y => same x.1 y.1 = false := by
  rw [separate_iff] at h ⊢
  exact h.sublist (map_fst_removeEntry a k es)

theorem exists_mem_insertEntry {e : α × List κ} {l : κ} (he : e ∈ es)
    (hl : l ∈ e.2) (a : α) (k : κ) : ∃ x ∈ insertEntry same a k es, x.1 = e.1 ∧ l ∈ x.2 := by
  induction es with
  | nil => cases he
  | cons y es ih =>
    by_cases hsame : same y.1 a = true
    · rcases mem_cons.1 he with rfl | he
      · exact ⟨(e.1, e.2.insert k), by simp [insertEntry, hsame], rfl, by simp [hl]⟩
      · exact ⟨e, by simp [insertEntry, hsame, he], rfl, hl⟩
    · rcases mem_cons.1 he with rfl | he
      · exact ⟨e, by simp [insertEntry, hsame], rfl, hl⟩
      · obtain ⟨x, hx, hx'⟩ := ih he
        exact ⟨x, by simp [insertEntry, hsame, hx], hx'⟩

theorem exists_mem_removeEntry {e : α × List κ} {k l : κ} (he : e ∈ es)
    (hl : l ∈ e.2) (a : α) (hne : l ≠ k) :
    ∃ x ∈ removeEntry same a k es, x.1 = e.1 ∧ l ∈ x.2 := by
  induction es with
  | nil => cases he
  | cons y es ih =>
    rw [removeEntry]
    by_cases hsame : same y.1 a = true
    · rw [if_pos hsame]
      rcases mem_cons.1 he with rfl | he
      · have hl' : l ∈ e.2.filter (· ≠ k) := by simp [hl, hne]
        rw [if_neg (ne_nil_of_mem hl')]
        exact ⟨_, mem_cons_self, rfl, hl'⟩
      · refine ⟨e, ?_, rfl, hl⟩
        split
        · exact he
        · exact mem_cons_of_mem _ he
    · rw [if_neg hsame]
      rcases mem_cons.1 he with rfl | he
      · exact ⟨e, mem_cons_self, rfl, hl⟩
      · obtain ⟨x, hx, hx'⟩ := ih he
        exact ⟨x, mem_cons_of_mem _ hx, hx'⟩

theorem exists_mem_insertEntry_self {a : α} (hsame : same a a = true) (k : κ)
    (es : List (α × List κ)) : ∃ x ∈ insertEntry same a k es, same x.1 a = true ∧ k ∈ x.2 := by
  induction es with
  | nil => exact ⟨(a, [k]), mem_singleton_self _, hsame, mem_singleton_self _⟩
  | cons e es ih =>
    by_cases h : same e.1 a = true
    · exact ⟨(e.1, e.2.insert k), by simp [insertEntry, h], h, by simp⟩
    · obtain ⟨x, hx, hx'⟩ := ih
      exact ⟨x, by simp [insertEntry, h, hx], hx'⟩

def empty : Postings same κ := ⟨[], List.Pairwise.nil⟩

variable (p : Postings same κ)

def insert (a : α) (k : κ) : Postings same κ :=
  ⟨insertEntry same a k p.entries, separate_insertEntry p.separate a k⟩

def remove (a : α) (k : κ) : Postings same κ :=
  ⟨removeEntry same a k p.entries, separate_removeEntry p.separate a k⟩

def get (a : α) : List κ :=
  (((p.entries.find? fun e => same e.1 a).map Prod.snd).getD []).dedup

def collect (f : α → Bool) : List κ :=
  ((p.entries.filter fun e => f e.1).flatMap Prod.snd).dedup

def Holds (a : α) (k : κ) : Prop :=
  ∃ e ∈ p.entries, same e.1 a = true ∧ k ∈ e.2

section Rules

variable {p : Postings same κ} {a b : α} {k l : κ}

theorem holds_insert_self (hsame : same a a = true) : (p.insert a k).Holds a k :=
  exists_mem_insertEntry_self hsame k p.entries

theorem Holds.insert (h : p.Holds b l) (a : α) (k : κ) : (p.insert a k).Holds b l := by
  obtain ⟨e, he, hsame, hl⟩ := h
  obtain ⟨x, hx, hval, hl'⟩ : ∃ x ∈ (p.insert a k).entries, x.1 = e.1 ∧ l ∈ x.2 :=
    exists_mem_insertEntry he hl a k
  exact ⟨x, hx, hval ▸ hsame, hl'⟩

theorem Holds.remove (h : p.Holds b l) (a : α) (hne : l ≠ k) : (p.remove a k).Holds b l := by
  obtain ⟨e, he, hsame, hl⟩ := h
  obtain ⟨x, hx, hval, hl'⟩ : ∃ x ∈ (p.remove a k).entries, x.1 = e.1 ∧ l ∈ x.2 :=
    exists_mem_removeEntry he hl a hne
  exact ⟨x, hx, hval ▸ hsame, hl'⟩

theorem mem_collect {f : α → Bool} : k ∈ p.collect f ↔ ∃ e ∈ p.entries, f e.1 = true ∧ k ∈ e.2 := by
  simp [collect, and_assoc]

theorem mem_get (htrans : ∀ a b c, same a b = true → same c b = true → same a c = true)
    (h : p.Holds a k) : k ∈ p.get a := by
  obtain ⟨es, hes⟩ := p
  rw [get]
  induction es with
  | nil => simp [Holds] at h
  | cons e es ih =>
    obtain ⟨x, hx, hsa, hk⟩ := h
    by_cases he : same e.1 a = true
    · rcases mem_cons.1 hx with rfl | hx
      · simp [he, hk]
      · have hsep := (pairwise_cons.1 hes).1 x hx
        rw [htrans e.1 a x.1 he hsa] at hsep
        cases hsep
    · rcases mem_cons.1 hx with rfl | hx
      · exact absurd hsa he
      · simpa [he] using ih hes.tail ⟨x, hx, hsa, hk⟩

theorem nodup_get : (p.get a).Nodup := nodup_dedup _

theorem nodup_collect {f : α → Bool} : (p.collect f).Nodup := nodup_dedup _

end Rules

end Postings
