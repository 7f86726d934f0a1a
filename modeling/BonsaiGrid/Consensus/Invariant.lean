import BonsaiGrid.Consensus.Replog

/-!
# The invariant of the replicated log

Log matching is kept in the form `Chain`: every entry of every log, recorded or current, comes
with the whole prefix of its leader's log.
-/

namespace Consensus

open List Option

namespace Replog

variable {N α : Type*} (m : Replog N α)

/-- Every entry of `l` has a term of at most `b` that had a leader, and the
part of `l` up to that entry is a prefix of that leader's log. -/
def Chain (b : ℕ) (l : List (Ent α)) : Prop :=
  ∀ i e, l[i]? = some e →
    e.term ≤ b ∧ m.leader e.term ≠ none ∧ l.take (i + 1) <+: m.hist e.term

/-- The entry at position `k` of the leader of term `t` is of its own term. -/
def Own (t k : ℕ) : Prop :=
  ∃ e, (m.hist t)[k]? = some e ∧ e.term = t

/-- Some leader after `t` and before `u` lacks the first `k + 1` entries of the
leader of term `t`. -/
def Lost (t k u : ℕ) : Prop :=
  ∃ v, t < v ∧ v < u ∧ m.leader v ≠ none ∧ ¬ (m.hist t).take (k + 1) <+: m.hist v

/-- A quorum has left the term `t` without having taken over position `k`. -/
def Blocked (Q : QuorumSystem N) (m : Replog N α) (t k : ℕ) : Prop :=
  Q.IsQuorum {p | t < m.term p ∧ m.ack p t ≤ k}

structure Inv (Q : QuorumSystem N) (m : Replog N α) : Prop where
  ballot : Ballot.Inv Q m.toBallot
  cand_le : ∀ c t l, m.cand c t = some l → 0 < t ∧ t ≤ m.term c
  vote_cand : ∀ p t c, m.vote p t = some c → m.cand c t ≠ none
  hist_nil : ∀ t, m.leader t = none → m.hist t = []
  chain_log : ∀ p, Chain m (m.term p) (m.log p)
  chain_cand : ∀ c t l, m.cand c t = some l → Chain m (t - 1) l
  chain_hist : ∀ t, Chain m t (m.hist t)
  leader_log : ∀ c, m.leader (m.term c) = some c → m.log c = m.hist (m.term c)
  ack_le : ∀ p t, m.ack p t ≤ (m.hist t).length
  ack_term : ∀ p t, 0 < m.ack p t → t ≤ m.term p
  ack_cur : ∀ p, (m.hist (m.term p)).take (m.ack p (m.term p)) <+: m.log p
  ack_log : ∀ p t k, Own m t k → k < m.ack p t →
    (m.hist t).take (k + 1) <+: m.log p ∨ Lost m t k (m.term p + 1)
  vote_ack : ∀ p u c l t k, m.vote p u = some c → m.cand c u = some l → m.leader u = none →
    t < u → Own m t k → k < m.ack p t → (m.hist t).take (k + 1) <+: l ∨ Lost m t k u
  chosen : ∀ t u k, t < u → m.leader u ≠ none → Own m t k →
    (m.hist t).take (k + 1) <+: m.hist u ∨ Blocked Q m t k

theorem inv_init (Q : QuorumSystem N) : Inv Q (init : Replog N α) where
  ballot := Ballot.inv_init Q
  cand_le := by
    intro c t l h
    cases h
  vote_cand := by
    intro p t c h
    cases h
  hist_nil := fun _ _ => rfl
  chain_log := by
    intro p i e h
    simp [init] at h
  chain_cand := by
    intro c t l h
    cases h
  chain_hist := by
    intro t i e h
    simp [init] at h
  leader_log := fun _ _ => rfl
  ack_le := fun _ _ => le_rfl
  ack_term := by
    intro p t h
    cases h
  ack_cur := fun _ => nil_prefix
  ack_log := by
    intro p t k _ h
    cases h
  vote_ack := by
    intro p u c l t k h
    cases h
  chosen := by
    intro t u k _ h
    exact absurd rfl h

section Chain

variable {m : Replog N α} {b b' : ℕ} {l l' : List (Ent α)}

theorem Chain.mono (h : Chain m b l) (hb : b ≤ b') : Chain m b' l := fun i e hi =>
  ⟨(h i e hi).1.trans hb, (h i e hi).2⟩

theorem Chain.of_isPrefix (h : Chain m b l) (hp : l' <+: l) : Chain m b l' := by
  intro i e hi
  have hil : l[i]? = some e := by
    obtain ⟨s, rfl⟩ := hp
    have hlt : i < l'.length := (List.getElem?_eq_some_iff.1 hi).1
    rw [getElem?_append_left hlt]
    exact hi
  obtain ⟨hle, hlead, hpre⟩ := h i e hil
  exact ⟨hle, hlead, (hp.take (i + 1)).trans hpre⟩

theorem Chain.getElem?_hist (h : Chain m b l) {i j : ℕ} {e f : Ent α} (hi : l[i]? = some e)
    (hj : l[j]? = some f) (hij : i ≤ j) : (m.hist f.term)[i]? = some e := by
  obtain ⟨s, hs⟩ := (h j f hj).2.2
  have hlt : i < (l.take (j + 1)).length := by
    have := (List.getElem?_eq_some_iff.1 hj).1
    rw [length_take]
    omega
  rw [← hs, getElem?_append_left hlt, getElem?_take_of_lt (by omega)]
  exact hi

theorem Chain.take_eq (h : Chain m b l) (h' : Chain m b' l') {i : ℕ} {e e' : Ent α}
    (hi : l[i]? = some e) (hi' : l'[i]? = some e') (he : e.term = e'.term) :
    l.take (i + 1) = l'.take (i + 1) := by
  have hl := (List.getElem?_eq_some_iff.1 hi).1
  have hl' := (List.getElem?_eq_some_iff.1 hi').1
  have hp := (h i e hi).2.2
  have hp' := (h' i e' hi').2.2
  rw [← he] at hp'
  rw [prefix_iff_eq_take] at hp hp'
  rw [hp, hp']
  congr 1
  simp only [length_take]
  omega

theorem lastTerm_eq {i : ℕ} {e : Ent α} (hi : l[i]? = some e) (hlen : l.length = i + 1) :
    lastTerm l = e.term := by
  have : l.getLast? = some e := by
    rw [getLast?_eq_getElem?, hlen]
    exact hi
  simp [lastTerm, this]

end Chain

variable {l : List (Ent α)}

section

variable {Q : QuorumSystem N} {m : Replog N α}

theorem Inv.term_mono (hm : Inv Q m) {b : ℕ} (h : Chain m b l) {i j : ℕ}
    {e f : Ent α} (hi : l[i]? = some e) (hj : l[j]? = some f) (hij : i ≤ j) :
    e.term ≤ f.term :=
  (hm.chain_hist f.term i e (h.getElem?_hist hi hj hij)).1

theorem Inv.leader_pos (hm : Inv Q m) {t : ℕ} (h : m.leader t ≠ none) : 0 < t := by
  obtain ⟨c, hc⟩ := ne_none_iff_exists'.1 h
  obtain ⟨p, hp, -⟩ := Q.meet (hm.ballot.leader_quorum t c hc) (hm.ballot.leader_quorum t c hc)
  obtain ⟨l, hl⟩ := ne_none_iff_exists'.1 (hm.vote_cand p t c hp)
  exact (hm.cand_le c t l hl).1

theorem Inv.term_ne_of_mem (hm : Inv Q m) {t v k : ℕ} (htv : t < v) {e : Ent α}
    (he : e ∈ (m.hist t).take (k + 1)) : e.term ≠ v := by
  obtain ⟨i, hi⟩ := getElem?_of_mem (mem_of_mem_take he)
  have := (hm.chain_hist t i e hi).1
  omega

end

/-- `m'` extends the records of `m`: votes, leaders and candidacies stay, the
logs of leaders only grow, by entries of their own term, and nobody takes over
anything in a term it has left. -/
structure Grows (m m' : Replog N α) : Prop where
  ballot : m.toBallot.Extends m'.toBallot
  cand : ∀ c t l, m.cand c t = some l → m'.cand c t = some l
  hist : ∀ t, m.hist t <+: m'.hist t
  hist_new : ∀ t, m.leader t ≠ none → ∀ x, x <+: m'.hist t →
    x <+: m.hist t ∨ ∃ e ∈ x, e.term = t
  ack : ∀ p t, m.ack p t ≤ m'.ack p t
  ack_past : ∀ p t, t < m.term p → m'.ack p t = m.ack p t

namespace Grows

variable {Q : QuorumSystem N} {m m' : Replog N α}

@[refl] theorem refl (m : Replog N α) : Grows m m :=
  ⟨Ballot.Extends.refl _, fun _ _ _ h => h, fun _ => prefix_rfl, fun _ _ _ h => .inl h,
    fun _ _ => le_rfl, fun _ _ _ => rfl⟩

@[trans] theorem trans {m'' : Replog N α} (h : Grows m m') (h' : Grows m' m'') : Grows m m'' where
  ballot := h.ballot.trans h'.ballot
  cand := fun c t l hl => h'.cand c t l (h.cand c t l hl)
  hist := fun t => (h.hist t).trans (h'.hist t)
  hist_new := fun t hl x hx => by
    rcases h'.hist_new t (h.ballot.leader_ne_none hl) x hx with hx | hx
    · exact h.hist_new t hl x hx
    · exact .inr hx
  ack := fun p t => (h.ack p t).trans (h'.ack p t)
  ack_past := fun p t ht =>
    (h'.ack_past p t (ht.trans_le (h.ballot.term_le p))).trans (h.ack_past p t ht)

section

variable (h : Grows m m')

include h

variable {t k : ℕ}

theorem take_eq (hk : k ≤ (m.hist t).length) :
    (m'.hist t).take k = (m.hist t).take k := by
  obtain ⟨s, hs⟩ := h.hist t
  rw [← hs, take_append_of_le_length hk]

theorem own (ho : Own m t k) : Own m' t k := by
  obtain ⟨e, he, het⟩ := ho
  obtain ⟨s, hs⟩ := h.hist t
  refine ⟨e, ?_, het⟩
  rw [← hs, getElem?_append_left (List.getElem?_eq_some_iff.1 he).1]
  exact he

theorem own_of_lt (hk : k < (m.hist t).length) (ho : Own m' t k) :
    Own m t k := by
  obtain ⟨e, he, het⟩ := ho
  obtain ⟨s, hs⟩ := h.hist t
  refine ⟨e, ?_, het⟩
  rw [← hs, getElem?_append_left hk] at he
  exact he

theorem chain {b : ℕ} (hc : Chain m b l) : Chain m' b l := by
  intro i e hi
  obtain ⟨hle, hlead, hp⟩ := hc i e hi
  exact ⟨hle, h.ballot.leader_ne_none hlead, hp.trans (h.hist e.term)⟩

theorem lost (hm : Inv Q m) {t k u u' : ℕ} (hk : k < (m.hist t).length)
    (hu : u ≤ u') (hl : Lost m t k u) : Lost m' t k u' := by
  obtain ⟨v, htv, hvu, hlead, hnot⟩ := hl
  refine ⟨v, htv, hvu.trans_le hu, h.ballot.leader_ne_none hlead, fun hp => ?_⟩
  rw [h.take_eq hk] at hp
  rcases h.hist_new v hlead _ hp with hp | ⟨e, he, het⟩
  · exact hnot hp
  · exact hm.term_ne_of_mem htv he het

theorem blocked (hb : Blocked Q m t k) : Blocked Q m' t k := by
  refine Q.mono (fun p hp => ?_) hb
  obtain ⟨hlt, hle⟩ := hp
  refine ⟨hlt.trans_le (h.ballot.term_le p), ?_⟩
  rw [h.ack_past p t hlt]
  exact hle

theorem prefix_or_lost (hm : Inv Q m) {t k u u' : ℕ} (hk : k < (m.hist t).length) (hu : u ≤ u')
    (hl : (m.hist t).take (k + 1) <+: l ∨ Lost m t k u) :
    (m'.hist t).take (k + 1) <+: l ∨ Lost m' t k u' := by
  rw [h.take_eq hk]
  exact hl.imp id (h.lost hm hk hu)

/-- An entry of a term that already has a later leader is in that leader's log
or blocked; a new one is blocked by the voters of the later leader, who have
left its term. -/
theorem chosen (hm : Inv Q m) {t u k : ℕ} (htu : t < u)
    (hu : m.leader u ≠ none) (ho : Own m' t k) :
    (m'.hist t).take (k + 1) <+: m'.hist u ∨ Blocked Q m' t k := by
  by_cases hk : k < (m.hist t).length
  · rcases hm.chosen t u k htu hu (h.own_of_lt hk ho) with hp | hb
    · left
      rw [h.take_eq hk]
      exact hp.trans (h.hist u)
    · exact .inr (h.blocked hb)
  · obtain ⟨c, hc⟩ := ne_none_iff_exists'.1 hu
    refine .inr (Q.mono (fun p hp => ?_) (hm.ballot.leader_quorum u c hc))
    have hup : u ≤ m.term p := hm.ballot.vote_le p u c hp
    refine ⟨(htu.trans_le hup).trans_le (h.ballot.term_le p), ?_⟩
    rw [h.ack_past p t (htu.trans_le hup)]
    exact (hm.ack_le p t).trans (Nat.le_of_not_lt hk)

/-- A vote that was already cast is accounted for by what the voter had taken
over then, since the voter has left all earlier terms. -/
theorem vote_ack (hm : Inv Q m) {p c : N} {u t k : ℕ}
    (hv : m.vote p u = some c) (hc : m'.cand c u = some l) (hu : m'.leader u = none)
    (htu : t < u) (ho : Own m' t k) (hk : k < m'.ack p t) :
    (m'.hist t).take (k + 1) <+: l ∨ Lost m' t k u := by
  have hup : u ≤ m.term p := hm.ballot.vote_le p u c hv
  rw [h.ack_past p t (htu.trans_le hup)] at hk
  have hkl : k < (m.hist t).length := hk.trans_le (hm.ack_le p t)
  obtain ⟨l', hl'⟩ := ne_none_iff_exists'.1 (hm.vote_cand p u c hv)
  have hll : l' = l := some.inj ((h.cand c u l' hl').symm.trans hc)
  subst hll
  have hu' : m.leader u = none := by
    by_contra hne
    exact h.ballot.leader_ne_none hne hu
  exact h.prefix_or_lost hm hkl le_rfl
    (hm.vote_ack p u c l' t k hv hl' hu' htu (h.own_of_lt hkl ho) hk)

end

end Grows

end Replog

end Consensus
