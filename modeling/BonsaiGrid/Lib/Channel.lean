import BonsaiGrid.Lib.Dict

/-!
# One channel among several

Messages of several channels are kept in one list. To one channel this is the list of its own
messages, in which each of them has another place.
-/

namespace Channel

open List

variable {α β : Type*} (f : α → Option β)

def place (l : List α) (k : ℕ) : ℕ := ((l.take k).filterMap f).length

variable {f} {l : List α} {k : ℕ} {a : α} {b : β}

theorem eq_take_append (h : l[k]? = some a) : l = l.take k ++ a :: l.drop (k + 1) := by
  obtain ⟨hk, rfl⟩ := List.getElem?_eq_some_iff.mp h
  rw [← drop_eq_getElem_cons hk, take_append_drop]

theorem filterMap_eq_append (h : l[k]? = some a) (hf : f a = some b) :
    l.filterMap f = (l.take k).filterMap f ++ b :: (l.drop (k + 1)).filterMap f := by
  conv_lhs => rw [eq_take_append h]
  rw [filterMap_append, filterMap_cons_some hf]

theorem filterMap_getElem? (h : l[k]? = some a) (hf : f a = some b) :
    (l.filterMap f)[place f l k]? = some b := by
  rw [filterMap_eq_append h hf, place, List.getElem?_append_right (Nat.le_refl _), Nat.sub_self,
    List.getElem?_cons_zero]

theorem filterMap_eraseIdx (h : l[k]? = some a) (hf : f a = some b) :
    (l.eraseIdx k).filterMap f = (l.filterMap f).eraseIdx (place f l k) := by
  rw [filterMap_eq_append h hf, place, eraseIdx_append_of_length_le (Nat.le_refl _),
    Nat.sub_self, eraseIdx_cons_zero, eraseIdx_eq_take_drop_succ, filterMap_append]

theorem filterMap_eraseIdx_of_none (h : l[k]? = some a) (hf : f a = none) :
    (l.eraseIdx k).filterMap f = l.filterMap f := by
  conv_rhs => rw [eq_take_append h]
  rw [eraseIdx_eq_take_drop_succ, filterMap_append, filterMap_append,
    filterMap_cons_none hf]

/-- Of the messages that the entries of a dictionary give, each those of its own channel, the
channel of `k` has those of the entry at `k`. -/
theorem filterMap_flatMap_entries {K V : Type} [DecidableEq K] {g : (Sigma fun _ : K => V) → List α}
    {k : K} (hother : ∀ e, e.1 ≠ k → (g e).filterMap f = []) (d : Dict K V) :
    (d.entries.flatMap g).filterMap f =
      ((d.lookup k).map fun v => (g ⟨k, v⟩).filterMap f).getD [] := by
  obtain ⟨entries, hnodup⟩ := d
  change (entries.flatMap g).filterMap f =
    ((entries.dlookup k).map fun v => (g ⟨k, v⟩).filterMap f).getD []
  induction entries with
  | nil => rfl
  | cons e entries ih =>
    obtain ⟨hmem, htail⟩ := nodupKeys_cons.mp hnodup
    rw [flatMap_cons, filterMap_append, ih htail]
    by_cases hk : e.1 = k
    · subst hk
      rw [dlookup_cons_eq, dlookup_eq_none.mpr hmem]
      simp
    · rw [hother e hk, nil_append, dlookup_cons_ne _ _ (Ne.symm hk)]

end Channel
