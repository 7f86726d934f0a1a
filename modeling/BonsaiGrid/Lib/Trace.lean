import Mathlib.Logic.Relation

/-!
# Runs of a machine that is driven by calls

A machine whose state changes by calls, and a condition on the calls that may be made in a state.
-/

namespace List

/-- What holds along a history and of the next event holds along the longer history. -/
theorem forall_mem_concat {α : Type*} {p : α → Prop} {l : List α} {a : α} (hl : ∀ x ∈ l, p x)
    (ha : p a) : ∀ x ∈ l ++ [a], p x :=
  forall_mem_append.2 ⟨hl, forall_mem_singleton.2 ha⟩

theorem Pairwise.concat {α : Type*} {R : α → α → Prop} {l : List α} {a : α} (hl : l.Pairwise R)
    (ha : ∀ x ∈ l, R x a) : (l ++ [a]).Pairwise R :=
  pairwise_append.2 ⟨hl, pairwise_singleton R a, fun x hx => forall_mem_singleton.2 (ha x hx)⟩

end List

namespace Trace

variable {σ κ : Type*} {exec : σ → κ → σ} {ok : σ → κ → Prop}

/-- `t` is reached from `s` by calls that each meet the condition. -/
def Reaches (exec : σ → κ → σ) (ok : σ → κ → Prop) : σ → σ → Prop :=
  Relation.ReflTransGen fun s t => ∃ c, ok s c ∧ t = exec s c

theorem Reaches.invariant {I : σ → Prop} {s t : σ} (h : Reaches exec ok s t)
    (hstep : ∀ s c, I s → ok s c → I (exec s c)) (hs : I s) : I t := by
  induction h with
  | refl => exact hs
  | tail _ hlast ih =>
    obtain ⟨c, hok, rfl⟩ := hlast
    exact hstep _ c ih hok

/-- Each call of the list meets the condition where it is made. -/
def Allowed (exec : σ → κ → σ) (ok : σ → κ → Prop) : σ → List κ → Prop
  | _, [] => True
  | s, c :: calls => ok s c ∧ Allowed exec ok (exec s c) calls

instance decidableAllowed [∀ s c, Decidable (ok s c)] :
    ∀ (s : σ) (calls : List κ), Decidable (Allowed exec ok s calls)
  | _, [] => isTrue trivial
  | s, c :: calls =>
    have := decidableAllowed (exec s c) calls
    inferInstanceAs (Decidable (_ ∧ _))

theorem Reaches.of_allowed {s : σ} (calls : List κ) (h : Allowed exec ok s calls) :
    Reaches exec ok s (calls.foldl exec s) := by
  induction calls generalizing s with
  | nil => exact .refl
  | cons c calls ih => exact .head ⟨c, h.1, rfl⟩ (ih h.2)

end Trace
