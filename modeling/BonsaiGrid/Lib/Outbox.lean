import BonsaiGrid.Lib.Trace
import Mathlib.Data.List.Nodup
import Mathlib.Data.List.TakeWhile

/-!
# Actions that are published later

Parties apply actions to a state, and each party publishes its action some time after it was
applied.
-/

namespace Outbox

open List

variable {σ κ τ : Type*} (act : σ → κ → σ)

def Commutes (a b : κ) : Prop := ∀ s, act (act s a) b = act (act s b) a

variable {act}

theorem act_foldl {a : κ} {l : List κ} (h : ∀ b ∈ l, Commutes act b a) (s : σ) :
    act (l.foldl act s) a = l.foldl act (act s a) := by
  induction l generalizing s with
  | nil => rfl
  | cons b l ih =>
    rw [foldl_cons, ih fun x hx => h x (mem_cons_of_mem b hx),
      h b mem_cons_self s]
    rfl

variable (act) in
/-- What was published, and then the outbox, leads from the start to the state. -/
def Balanced (start : σ) (published : List κ) (outbox : List (τ × κ)) (state : σ) : Prop :=
  state = (outbox.map Prod.snd).foldl act (published.foldl act start)

theorem Balanced.apply {start state : σ} {published : List κ} {outbox : List (τ × κ)}
    (h : Balanced act start published outbox state) (t : τ) (a : κ) :
    Balanced act start published (outbox ++ [(t, a)]) (act state a) := by
  rw [Balanced, map_append, foldl_append, ← h]
  rfl

variable (act) in
/-- The outbox is balanced and has one entry for each party that still has to publish. -/
structure Ok (start : σ) (published : List κ) (outbox : List (τ × κ)) (due : τ → Option κ)
    (state : σ) : Prop where
  balanced : Balanced act start published outbox state
  nodup : (outbox.map Prod.fst).Nodup
  mem : ∀ t a, (t, a) ∈ outbox ↔ due t = some a

theorem Ok.eq {start state : σ} {published : List κ} {outbox : List (τ × κ)} {due : τ → Option κ}
    (h : Ok act start published outbox due state) (hdone : ∀ t, due t = none) :
    state = published.foldl act start := by
  have hempty : outbox = [] := eq_nil_iff_forall_not_mem.2 fun e he => by
    have hdue := (h.mem e.1 e.2).1 he
    rw [hdone] at hdue
    cases hdue
  have hbalanced := h.balanced
  rw [hempty] at hbalanced
  exact hbalanced

variable [DecidableEq τ]

def ahead (t : τ) (l : List (τ × κ)) : List (τ × κ) := l.takeWhile fun e => e.1 ≠ t

def without (t : τ) (l : List (τ × κ)) : List (τ × κ) := l.filter fun e => e.1 ≠ t

variable {l : List (τ × κ)}

theorem mem_without {t : τ} {e : τ × κ} :
    e ∈ without t l ↔ e ∈ l ∧ e.1 ≠ t := by
  simp [without]

theorem mem_of_mem_ahead {t : τ} {e : τ × κ} (h : e ∈ ahead t l) :
    e ∈ l ∧ e.1 ≠ t :=
  ⟨takeWhile_subset _ h, by simpa using mem_takeWhile_imp h⟩

theorem exists_split {t : τ} {a : κ} (hnodup : (l.map Prod.fst).Nodup)
    (hmem : (t, a) ∈ l) :
    ∃ rest, l = ahead t l ++ (t, a) :: rest ∧ without t l = ahead t l ++ rest := by
  induction l with
  | nil => cases hmem
  | cons e l ih =>
    rw [map_cons, nodup_cons] at hnodup
    by_cases he : e.1 = t
    · have hout : ∀ x ∈ l, x.1 ≠ t := fun x hx heq =>
        hnodup.1 (mem_map.2 ⟨x, hx, heq.trans he.symm⟩)
      have hself : e = (t, a) := by
        rcases mem_cons.1 hmem with heq | hin
        · exact heq.symm
        · exact absurd rfl (hout _ hin)
      refine ⟨l, ?_, ?_⟩
      · simp [ahead, hself]
      · rw [without, filter_cons_of_neg (by simp [he]),
          filter_eq_self.2 fun x hx => by simp [hout x hx]]
        simp [ahead, he]
    · have hin : (t, a) ∈ l :=
        (mem_cons.1 hmem).resolve_left fun heq => he (congrArg Prod.fst heq).symm
      obtain ⟨rest, hl, hwithout⟩ := ih hnodup.2 hin
      have hahead : ahead t (e :: l) = e :: ahead t l := by simp [ahead, he]
      refine ⟨rest, ?_, ?_⟩
      · rw [hahead, cons_append, ← hl]
      · rw [hahead, cons_append, ← hwithout, without, filter_cons_of_pos (by simp [he])]
        rfl

section Parties

variable {start state : σ} {published : List κ} {outbox : List (τ × κ)} {due due' : τ → Option κ}
  {t : τ} {a a' : κ}

theorem Balanced.publish (h : Balanced act start published outbox state)
    (hnodup : (outbox.map Prod.fst).Nodup) (hmem : (t, a) ∈ outbox)
    (hform : ∀ s, act s a' = act s a) (hcomm : ∀ e ∈ ahead t outbox, Commutes act e.2 a) :
    Balanced act start (published ++ [a']) (without t outbox) state := by
  obtain ⟨rest, hsplit, hwithout⟩ := exists_split hnodup hmem
  have hfront : ∀ b ∈ (ahead t outbox).map Prod.snd, Commutes act b a := by
    intro b hb
    obtain ⟨e, he, rfl⟩ := mem_map.1 hb
    exact hcomm e he
  rw [Balanced] at h ⊢
  rw [hwithout, h]
  conv_lhs => rw [hsplit]
  rw [map_append, map_append, foldl_append, foldl_append, map_cons,
    foldl_cons, act_foldl hfront, foldl_append, foldl_cons, foldl_nil, hform]

theorem Ok.apply (h : Ok act start published outbox due state) (hnone : due t = none)
    (hdue : due' = Function.update due t (some a)) :
    Ok act start published (outbox ++ [(t, a)]) due' (act state a) := by
  have hout : ∀ e ∈ outbox, e.1 ≠ t := fun e he heq => by
    have hdue := (h.mem e.1 e.2).1 he
    rw [heq, hnone] at hdue
    cases hdue
  refine ⟨h.balanced.apply t a, ?_, fun t' a' => ?_⟩
  · rw [map_append]
    exact Pairwise.concat h.nodup (forall_mem_map.2 hout)
  · rw [mem_append, mem_singleton, hdue]
    by_cases ht : t' = t
    · subst ht
      rw [Function.update_self]
      constructor
      · rintro (hin | heq)
        · exact absurd rfl (hout _ hin)
        · cases heq
          rfl
      · rintro ⟨⟩
        exact .inr rfl
    · rw [Function.update_of_ne ht, ← h.mem]
      exact or_iff_left fun heq => ht (congrArg Prod.fst heq)

theorem Ok.publish (h : Ok act start published outbox due state) (hsome : due t = some a)
    (hform : ∀ s, act s a' = act s a) (hcomm : ∀ e ∈ ahead t outbox, Commutes act e.2 a)
    (hdue : due' = Function.update due t none) :
    Ok act start (published ++ [a']) (without t outbox) due' state := by
  refine ⟨h.balanced.publish h.nodup ((h.mem t a).2 hsome) hform hcomm,
    h.nodup.sublist (filter_sublist.map Prod.fst), fun t' b => ?_⟩
  rw [mem_without, h.mem, hdue]
  by_cases ht : t' = t
  · simp [ht]
  · simp [ht]

end Parties

end Outbox
