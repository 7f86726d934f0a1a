import Mathlib.Data.List.Basic

/-!
# Changes laid over a copy

Cells by key are changed by actions, each on one key, and now and then replaced by copies that
come from elsewhere.
-/

namespace Overlay

variable {K V A : Type} (act : A → V → V)

def laid (base : K → V) (actions : K → List A) (k : K) : V :=
  (actions k).foldl (fun v a => act a v) (base k)

variable {act} {cells base : K → V} {actions : K → List A}

theorem laid_act [DecidableEq K] (h : cells = laid act base actions) (k : K) (a : A) :
    Function.update cells k (act a (cells k)) =
      laid act base (Function.update actions k (actions k ++ [a])) := by
  funext j
  by_cases hj : j = k
  · subst hj
    simp [laid, h]
  · simp [laid, h, hj]

def install (copy : K → Option V) (cells : K → V) (k : K) : V := (copy k).getD (cells k)

def single [DecidableEq K] (k : K) (v : V) : K → Option V := Function.update (fun _ => none) k (some v)

@[simp] theorem install_single [DecidableEq K] (k : K) (v : V) (cells : K → V) :
    install (single k v) cells = Function.update cells k v := by
  funext j
  by_cases hj : j = k
  · subst hj
    simp [install, single]
  · simp [install, single, hj]

theorem eq_of_isSome_single [DecidableEq K] {k j : K} {v : V} (h : (single k v j).isSome) : j = k := by
  by_contra hj
  simp [single, hj] at h

theorem laid_install (h : cells = laid act base actions) {copy : K → Option V}
    (hcopy : ∀ k, (copy k).isSome → actions k = []) :
    install copy cells = laid act (install copy base) actions := by
  funext k
  cases hk : copy k with
  | none => simp [install, laid, h, hk]
  | some v => simp [install, laid, hk, hcopy k (by simp [hk])]

end Overlay
