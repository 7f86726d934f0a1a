import BonsaiGrid.Consensus.Preservation

/-!
# Leader completeness and agreement

An entry is committed in a term when it is of that term and a quorum has taken it over.
-/

namespace Consensus

open List

namespace Replog

variable {N α : Type*} {Q : QuorumSystem N} {m m' : Replog N α}

/-- A quorum has taken over the entry at position `k` of the leader of term
`t`, and that entry is of the term `t` itself. -/
def Committed (Q : QuorumSystem N) (m : Replog N α) (t k : ℕ) : Prop :=
  Own m t k ∧ Q.IsQuorum {p | k < m.ack p t}

/-- `x` is empty, or it ends with an entry committed in a term of at most `b`. -/
def Decided (Q : QuorumSystem N) (m : Replog N α) (b : ℕ) (x : List (Ent α)) : Prop :=
  x = [] ∨ ∃ t k, t ≤ b ∧ Committed Q m t k ∧ x = (m.hist t).take (k + 1)

theorem Own.lt_length {t k : ℕ} (h : Own m t k) : k < (m.hist t).length := by
  obtain ⟨e, he, -⟩ := h
  exact (List.getElem?_eq_some_iff.1 he).1

theorem Inv.leader_ne_none_of_own (hm : Inv Q m) {t k : ℕ} (h : Own m t k) :
    m.leader t ≠ none := by
  intro hnone
  have := h.lt_length
  rw [hm.hist_nil t hnone] at this
  exact absurd this (Nat.not_lt_zero k)

/-- Leader completeness: what is committed in a term is in the log of the
leader of that term and of every later one. A quorum that has taken the entry
over and a quorum that blocks it would share a member. -/
theorem Inv.committed_prefix (hm : Inv Q m) {t k u : ℕ} (hc : Committed Q m t k) (htu : t ≤ u)
    (hu : m.leader u ≠ none) : (m.hist t).take (k + 1) <+: m.hist u := by
  rcases htu.eq_or_lt with rfl | hlt
  · exact take_prefix _ _
  · rcases hm.chosen t u k hlt hu hc.1 with hp | hb
    · exact hp
    · obtain ⟨p, hp, -, hle⟩ := Q.meet hc.2 hb
      exact absurd hp (Nat.not_lt.2 hle)

theorem Grows.committed (h : Grows m m') {t k : ℕ} (hc : Committed Q m t k) :
    Committed Q m' t k :=
  ⟨h.own hc.1, Q.mono (fun p hp => lt_of_lt_of_le hp (h.ack p t)) hc.2⟩

variable {x : List (Ent α)} {b b' : ℕ}

theorem Grows.decided (h : Grows m m') (hb : b ≤ b')
    (hd : Decided Q m b x) : Decided Q m' b' x := by
  rcases hd with rfl | ⟨t, k, htb, hc, rfl⟩
  · exact .inl rfl
  · refine .inr ⟨t, k, htb.trans hb, h.committed hc, ?_⟩
    rw [h.take_eq hc.1.lt_length]

theorem Decided.mono (hd : Decided Q m b x) (hb : b ≤ b') :
    Decided Q m b' x :=
  hd.imp id fun ⟨t, k, htb, h⟩ => ⟨t, k, htb.trans hb, h⟩

theorem Inv.decided_prefix (hm : Inv Q m) {b u : ℕ} (hd : Decided Q m b x)
    (hbu : b ≤ u) (hu : m.leader u ≠ none) : x <+: m.hist u := by
  rcases hd with rfl | ⟨t, k, htb, hc, rfl⟩
  · exact nil_prefix
  · exact hm.committed_prefix hc (htb.trans hbu) hu

theorem Inv.decided_prefix_or_prefix (hm : Inv Q m) {x y : List (Ent α)}
    (hx : Decided Q m b x) (hy : Decided Q m b' y) : x <+: y ∨ y <+: x := by
  rcases hx with rfl | ⟨t, k, -, hc, rfl⟩
  · exact .inl nil_prefix
  · rcases hy with rfl | ⟨u, j, -, hd, rfl⟩
    · exact .inr nil_prefix
    · rcases le_total t u with h | h
      · exact prefix_or_prefix_of_prefix
          (hm.committed_prefix hc h (hm.leader_ne_none_of_own hd.1)) ( take_prefix _ _)
      · exact prefix_or_prefix_of_prefix ( take_prefix _ _)
          (hm.committed_prefix hd h (hm.leader_ne_none_of_own hc.1))

end Replog

end Consensus
