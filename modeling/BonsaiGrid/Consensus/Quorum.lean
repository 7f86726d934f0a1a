import Mathlib.Data.Finset.Card

/-!
# Quorums

A quorum system is an upward closed family of sets of which any two share a member.
-/

namespace Consensus

open List Finset

/-- An upward closed family of sets of members, any two of which share a
member. -/
structure QuorumSystem (N : Type*) where
  IsQuorum : Set N → Prop
  mono : ∀ {A B : Set N}, A ⊆ B → IsQuorum A → IsQuorum B
  meet : ∀ {A B : Set N}, IsQuorum A → IsQuorum B → ∃ p, p ∈ A ∧ p ∈ B

def majorities {N : Type*} [DecidableEq N] (members : Finset N) : QuorumSystem N where
  IsQuorum A := ∃ F : Finset N, F ⊆ members ∧ (∀ p ∈ F, p ∈ A) ∧ members.card < 2 * F.card
  mono := by
    rintro A B hAB ⟨F, hF, hFA, hc⟩
    exact ⟨F, hF, fun p hp => hAB (hFA p hp), hc⟩
  meet := by
    rintro A B ⟨F, hF, hFA, hcF⟩ ⟨G, hG, hGB, hcG⟩
    have hunion : (F ∪ G).card ≤ members.card := Finset.card_le_card (Finset.union_subset hF hG)
    have hsum := Finset.card_union_add_card_inter F G
    have hpos : 0 < (F ∩ G).card := by omega
    obtain ⟨p, hp⟩ := Finset.card_pos.1 hpos
    rw [Finset.mem_inter] at hp
    exact ⟨p, hFA p hp.1, hGB p hp.2⟩

theorem majorities_isQuorum_of_card {N : Type*} [DecidableEq N] {members F : Finset N}
    {A : Set N} (hF : F ⊆ members) (hFA : ∀ p ∈ F, p ∈ A)
    (hcard : members.card / 2 + 1 ≤ F.card) : (majorities members).IsQuorum A := by
  refine ⟨F, hF, hFA, ?_⟩
  omega

theorem majorities_isQuorum_of_countP {N : Type*} [DecidableEq N] {members : Finset N} {l : List N}
    (hnodup : l.Nodup) (hmem : ∀ p, p ∈ l ↔ p ∈ members) {f : N → Bool} {A : Set N}
    (hA : ∀ p ∈ members, f p = true → p ∈ A) (hcount : l.length / 2 + 1 ≤ l.countP f) :
    (majorities members).IsQuorum A := by
  have hcard : members.card = l.length := by
    rw [← toFinset_card_of_nodup hnodup]
    exact congrArg card (ext fun p => by rw [mem_toFinset, hmem])
  have hfilter : (l.filter f).toFinset.card = l.countP f := by
    rw [toFinset_card_of_nodup (hnodup.filter f), countP_eq_length_filter]
  refine majorities_isQuorum_of_card (F := (l.filter f).toFinset) ?_ ?_ ?_
  · intro p hp
    rw [mem_toFinset, mem_filter, hmem] at hp
    exact hp.1
  · intro p hp
    rw [mem_toFinset, mem_filter, hmem] at hp
    exact hA p hp.1 hp.2
  · rw [hcard, hfilter]
    exact hcount

theorem card_flagged (flags : List Bool) :
    ((Finset.range flags.length).filter fun p => flags[p]? = some true).card = flags.count true := by
  induction flags using reverseRecOn with
  | nil => rfl
  | append_singleton flags b ih =>
    have hold : ((Finset.range flags.length).filter fun p => (flags ++ [b])[p]? = some true) =
        (Finset.range flags.length).filter fun p => flags[p]? = some true := by
      refine filter_congr fun p hp => ?_
      rw [getElem?_append_left (Finset.mem_range.1 hp)]
    have hlast : (flags ++ [b])[flags.length]? = some b := by simp
    rw [length_append, length_singleton, range_add_one, filter_insert,
      hold]
    cases b with
    | false => simpa using ih
    | true => simp [ih]

theorem majorities_isQuorum_of_count {members : Finset ℕ} {flags : List Bool} {A : Set ℕ}
    (hmem : ∀ p, flags[p]? = some true → p ∈ members) (hA : ∀ p, flags[p]? = some true → p ∈ A)
    (hcount : members.card / 2 + 1 ≤ flags.count true) : (majorities members).IsQuorum A := by
  rw [← card_flagged flags] at hcount
  refine majorities_isQuorum_of_card (fun p hp => ?_) (fun p hp => ?_) hcount
  · exact hmem p (Finset.mem_filter.1 hp).2
  · exact hA p (Finset.mem_filter.1 hp).2

end Consensus
