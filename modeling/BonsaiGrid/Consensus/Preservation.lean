import BonsaiGrid.Consensus.Invariant

/-!
# Every step keeps the invariant

One section for the three steps that only touch the ballots and the candidacies, and one for each
of `elect`, `propose` and `accept`.
-/

namespace Consensus

open Replog List Ballot Option

namespace Replog

open Function

variable {N α : Type*} {Q : QuorumSystem N} {m m' : Replog N α} {p : N} {l : List (Ent α)}

/-- An entry in the log of a voter is in the log of the candidate it finds up
to date, unless a leader in between lacks it. Either both logs end with an
entry of one term, and the candidate's is the longer prefix of that leader's
log, or the candidate's ends with an entry of a later leader. -/
theorem Inv.upToDate_prefix_or_lost (hm : Inv Q m) {t k u : ℕ}
    (hchain : Chain m (u - 1) l) (hup : UpToDate l (m.log p)) (htu : t < u) (ho : Own m t k)
    (hp : (m.hist t).take (k + 1) <+: m.log p) :
    (m.hist t).take (k + 1) <+: l ∨ Lost m t k u := by
  obtain ⟨e, he, het⟩ := ho
  have hk : k < (m.hist t).length := (List.getElem?_eq_some_iff.1 he).1
  have hek : (m.log p)[k]? = some e := by
    obtain ⟨s, hs⟩ := hp
    rw [← hs, getElem?_append_left (by rw [length_take]; omega),
      getElem?_take_of_lt (Nat.lt_succ_self k)]
    exact he
  have hkp : k < (m.log p).length := (List.getElem?_eq_some_iff.1 hek).1
  obtain ⟨f, hf⟩ : ∃ f, (m.log p)[(m.log p).length - 1]? = some f :=
    ⟨_, getElem?_eq_getElem (by omega)⟩
  have hlast : lastTerm (m.log p) = f.term := lastTerm_eq hf (by omega)
  have htf : t ≤ f.term := het ▸ hm.term_mono (hm.chain_log p) hek hf (by omega)
  have hlpos : 0 < l.length := by
    rcases hup with hlt | ⟨-, hle⟩
    · by_contra hnil
      have hl : l = [] := length_eq_zero_iff.1 (by omega)
      simp [hl, lastTerm] at hlt
    · omega
  obtain ⟨g, hg⟩ : ∃ g, l[l.length - 1]? = some g := ⟨_, getElem?_eq_getElem (by omega)⟩
  have hglast : lastTerm l = g.term := lastTerm_eq hg (by omega)
  obtain ⟨hgu, hglead, hgp⟩ := hchain _ g hg
  rw [show l.length - 1 + 1 = l.length by omega, take_length] at hgp
  rw [UpToDate, hlast, hglast] at hup
  rcases hup with hlt | ⟨heq, hle⟩
  · by_cases hpg : (m.hist t).take (k + 1) <+: m.hist g.term
    · left
      rcases prefix_or_prefix_of_prefix hpg hgp with h | h
      · exact h
      · have hmem : g ∈ (m.hist t).take (k + 1) := h.subset (mem_of_getElem? hg)
        exact absurd rfl (hm.term_ne_of_mem (v := g.term) (by omega) hmem)
    · exact .inr ⟨g.term, by omega, by omega, hglead, hpg⟩
  · left
    have hfp := (hm.chain_log p _ f hf).2.2
    rw [show (m.log p).length - 1 + 1 = (m.log p).length by omega, take_length, heq] at hfp
    exact hp.trans (prefix_of_prefix_length_le hfp hgp hle)

/-- The steps that change neither a log nor a leader nor what has been taken
over: what is left to show is about terms, votes and candidacies. -/
theorem Inv.of_static (hm : Inv Q m) (hg : Grows m m') (hb : Ballot.Inv Q m'.toBallot)
    (hlog : m'.log = m.log) (hhist : m'.hist = m.hist) (hack : m'.ack = m.ack)
    (hlead : m'.leader = m.leader)
    (hcand : ∀ c t l, m'.cand c t = some l → 0 < t ∧ t ≤ m'.term c ∧ Chain m (t - 1) l)
    (hvote : ∀ p t c, m'.vote p t = some c → m'.cand c t ≠ none)
    (hnew : ∀ p u c l t k, m'.vote p u = some c → m.vote p u ≠ some c → m'.cand c u = some l →
      m.leader u = none → t < u → Own m t k → k < m.ack p t →
      (m.hist t).take (k + 1) <+: l ∨ Lost m t k u) : Inv Q m' := by
  have hle : ∀ t c, m'.leader t = some c → t ≤ m.term c := by
    intro t c h
    rw [hlead] at h
    exact hm.ballot.leader_le t c h
  refine
    { ballot := hb
      cand_le := fun c t l h => ⟨(hcand c t l h).1, (hcand c t l h).2.1⟩
      vote_cand := hvote
      hist_nil := ?_
      chain_log := ?_
      chain_cand := fun c t l h => hg.chain (hcand c t l h).2.2
      chain_hist := ?_
      leader_log := ?_
      ack_le := ?_
      ack_term := ?_
      ack_cur := ?_
      ack_log := ?_
      vote_ack := ?_
      chosen := ?_ }
  · intro t h
    rw [hlead] at h
    rw [hhist]
    exact hm.hist_nil t h
  · intro p
    rw [hlog]
    exact hg.chain ((hm.chain_log p).mono (hg.ballot.term_le p))
  · intro t
    rw [hhist]
    exact hg.chain (hm.chain_hist t)
  · intro c h
    have hterm : m'.term c = m.term c := le_antisymm (hle _ c h) (hg.ballot.term_le c)
    rw [hlead, hterm] at h
    rw [hlog, hhist, hterm]
    exact hm.leader_log c h
  · intro p t
    rw [hack, hhist]
    exact hm.ack_le p t
  · intro p t h
    rw [hack] at h
    exact (hm.ack_term p t h).trans (hg.ballot.term_le p)
  · intro p
    rw [hack, hhist, hlog]
    rcases Nat.eq_zero_or_pos (m.ack p (m'.term p)) with h0 | hpos
    · rw [h0]
      exact nil_prefix
    · have hterm : m'.term p = m.term p :=
        le_antisymm (hm.ack_term p _ hpos) (hg.ballot.term_le p)
      rw [hterm]
      exact hm.ack_cur p
  · intro p t k ho hk
    rw [hack] at hk
    have hkl : k < (m.hist t).length := hk.trans_le (hm.ack_le p t)
    rw [hlog]
    exact hg.prefix_or_lost hm hkl (Nat.succ_le_succ (hg.ballot.term_le p))
      (hm.ack_log p t k (hg.own_of_lt hkl ho) hk)
  · intro p u c l t k hv hc hu htu ho hk
    by_cases hv' : m.vote p u = some c
    · exact hg.vote_ack hm hv' hc hu htu ho hk
    · rw [hack] at hk
      have hkl : k < (m.hist t).length := hk.trans_le (hm.ack_le p t)
      rw [hlead] at hu
      exact hg.prefix_or_lost hm hkl le_rfl
        (hnew p u c l t k hv hv' hc hu htu (hg.own_of_lt hkl ho) hk)
  · intro t u k htu hu ho
    rw [hlead] at hu
    exact hg.chosen hm htu hu ho

/-- A step of a member in its own term: only its own log changes, and what it has taken over in
this term. -/
structure Takes (m m' : Replog N α) (p : N) : Prop where
  term : m'.term = m.term
  vote : m'.vote = m.vote
  cand : m'.cand = m.cand
  log : ∀ q, q ≠ p → m'.log q = m.log q
  ack : ∀ q t, ¬ (q = p ∧ t = m.term p) → m'.ack q t = m.ack q t

theorem Inv.of_takes (hm : Inv Q m) (hg : Grows m m') (h : Takes m m' p)
    (hb : Ballot.Inv Q m'.toBallot) (hnil : ∀ t, m'.leader t = none → m'.hist t = [])
    (hchain : Chain m' (m.term p) (m'.log p)) (hhist : ∀ t, Chain m' t (m'.hist t))
    (hlead : ∀ c, m'.leader (m.term c) = some c → m'.log c = m'.hist (m.term c))
    (hle : m'.ack p (m.term p) ≤ (m'.hist (m.term p)).length)
    (hcur : (m'.hist (m.term p)).take (m'.ack p (m.term p)) <+: m'.log p)
    (hack : ∀ t k, Own m' t k → k < m'.ack p t →
      (m'.hist t).take (k + 1) <+: m'.log p ∨ Lost m' t k (m.term p + 1))
    (hchosen : ∀ t u k, t < u → m'.leader u ≠ none → Own m' t k →
      (m'.hist t).take (k + 1) <+: m'.hist u ∨ Blocked Q m' t k) : Inv Q m' := by
  refine
    { ballot := hb
      cand_le := by
        rw [h.cand, h.term]
        exact hm.cand_le
      vote_cand := by
        rw [h.cand, h.vote]
        exact hm.vote_cand
      hist_nil := hnil
      chain_log := fun q => ?_
      chain_cand := fun c t l hc => hg.chain (hm.chain_cand c t l (h.cand ▸ hc))
      chain_hist := hhist
      leader_log := by
        rw [h.term]
        exact hlead
      ack_le := fun q t => ?_
      ack_term := fun q t hpos => ?_
      ack_cur := fun q => ?_
      ack_log := fun q t k ho hk => ?_
      vote_ack := fun q u c l t k hv => hg.vote_ack hm (h.vote ▸ hv)
      chosen := hchosen }
  · rw [h.term]
    by_cases hq : q = p
    · subst hq
      exact hchain
    · rw [h.log q hq]
      exact hg.chain (hm.chain_log q)
  · by_cases hqt : q = p ∧ t = m.term p
    · obtain ⟨rfl, rfl⟩ := hqt
      exact hle
    · rw [h.ack q t hqt]
      exact (hm.ack_le q t).trans (hg.hist t).length_le
  · rw [h.term]
    by_cases hqt : q = p ∧ t = m.term p
    · obtain ⟨rfl, rfl⟩ := hqt
      exact le_rfl
    · rw [h.ack q t hqt] at hpos
      exact hm.ack_term q t hpos
  · rw [h.term]
    by_cases hq : q = p
    · subst hq
      exact hcur
    · rw [h.ack q _ fun hqt => hq hqt.1, h.log q hq, hg.take_eq (hm.ack_le q _)]
      exact hm.ack_cur q
  · rw [h.term]
    by_cases hq : q = p
    · subst hq
      exact hack t k ho hk
    · rw [h.ack q t fun hqt => hq hqt.1] at hk
      have hkl : k < (m.hist t).length := hk.trans_le (hm.ack_le q t)
      rw [h.log q hq]
      exact hg.prefix_or_lost hm hkl le_rfl (hm.ack_log q t k (hg.own_of_lt hkl ho) hk)

variable {c : N} {u : ℕ}

section Ballots

variable [DecidableEq N]

theorem grows_adopt {t : ℕ} (h : m.term p ≤ t) : Grows m (m.adopt p t) where
  ballot := extends_adopt h
  cand := fun _ _ _ hc => hc
  hist := fun _ => prefix_rfl
  hist_new := fun _ _ _ hx => .inl hx
  ack := fun _ _ => le_rfl
  ack_past := fun _ _ _ => rfl

theorem Inv.adopt (hm : Inv Q m) {t : ℕ} (h : m.term p < t) : Inv Q (m.adopt p t) := by
  have hstep : Ballot.Step Q p m.toBallot (m.toBallot.adopt p t) := Ballot.Step.adopt t h
  have hg : Grows m (m.adopt p t) := grows_adopt h.le
  refine hm.of_static hg (hstep.inv hm.ballot) rfl rfl rfl rfl ?_ hm.vote_cand ?_
  · intro c u l hc
    obtain ⟨hpos, hle⟩ := hm.cand_le c u l hc
    exact ⟨hpos, hle.trans (hg.ballot.term_le c), hm.chain_cand c u l hc⟩
  · intro q u c l v k hv hv'
    exact absurd hv hv'

@[simp] theorem campaign_term (m : Replog N α) (p : N) :
    (m.campaign p).term p = m.term p + 1 := by
  simp [campaign, Ballot.campaign, Ballot.grant, Ballot.adopt]

@[simp] theorem campaign_cand (m : Replog N α) (p : N) :
    (m.campaign p).cand p (m.term p + 1) = some (m.log p) := by
  simp [campaign]

@[simp] theorem campaign_vote (m : Replog N α) (p : N) :
    (m.campaign p).vote p (m.term p + 1) = some p := by
  simp [campaign, Ballot.campaign, Ballot.grant, Ballot.adopt]

theorem campaign_cand_of_ne (m : Replog N α) (p : N)
    (h : ¬ (c = p ∧ u = m.term p + 1)) : (m.campaign p).cand c u = m.cand c u :=
  update_update_of_ne _ _ h

theorem campaign_vote_of_ne (m : Replog N α) (p : N) {q : N}
    (h : ¬ (q = p ∧ u = m.term p + 1)) : (m.campaign p).vote q u = m.vote q u := by
  refine update_update_of_ne _ _ fun hq => h ⟨hq.1, hq.2.trans ?_⟩
  simp [Ballot.adopt]

theorem grows_campaign (hm : Inv Q m) (p : N) : Grows m (m.campaign p) where
  ballot := hm.ballot.extends_campaign p
  cand := by
    intro c u l hc
    rw [campaign_cand_of_ne m p, hc]
    rintro ⟨rfl, rfl⟩
    have := (hm.cand_le _ _ l hc).2
    omega
  hist := fun _ => prefix_rfl
  hist_new := fun _ _ _ hx => .inl hx
  ack := fun _ _ => le_rfl
  ack_past := fun _ _ _ => rfl

theorem Inv.campaign (hm : Inv Q m) (p : N) : Inv Q (m.campaign p) := by
  have hstep : Ballot.Step Q p m.toBallot (m.toBallot.campaign p) := Ballot.Step.campaign
  have hg : Grows m (m.campaign p) := grows_campaign hm p
  refine hm.of_static hg (hstep.inv hm.ballot) rfl rfl rfl rfl ?_ ?_ ?_
  · intro c u l hc
    by_cases h : c = p ∧ u = m.term p + 1
    · obtain ⟨rfl, rfl⟩ := h
      rw [campaign_cand] at hc
      cases hc
      exact ⟨Nat.succ_pos _, (campaign_term m c).ge, hm.chain_log c⟩
    · rw [campaign_cand_of_ne m p h] at hc
      obtain ⟨hpos, hle⟩ := hm.cand_le c u l hc
      exact ⟨hpos, hle.trans (hg.ballot.term_le c), hm.chain_cand c u l hc⟩
  · intro q u c hv
    by_cases h : q = p ∧ u = m.term p + 1
    · obtain ⟨rfl, rfl⟩ := h
      rw [campaign_vote] at hv
      cases hv
      rw [campaign_cand]
      exact some_ne_none _
    · rw [campaign_vote_of_ne m p h] at hv
      obtain ⟨l, hl⟩ := ne_none_iff_exists'.1 (hm.vote_cand q u c hv)
      rw [hg.cand c u l hl]
      exact some_ne_none _
  · intro q u c l t k hv hv' hc hu htu ho hk
    by_cases h : q = p ∧ u = m.term p + 1
    · obtain ⟨rfl, rfl⟩ := h
      rw [campaign_vote] at hv
      cases hv
      rw [campaign_cand] at hc
      cases hc
      exact hm.ack_log q t k ho hk
    · rw [campaign_vote_of_ne m p h] at hv
      exact absurd hv hv'

@[simp] theorem grant_vote (m : Replog N α) (p c : N) :
    (m.grant p c).vote p (m.term p) = some c := by
  simp [grant, Ballot.grant]

theorem grant_vote_of_ne (m : Replog N α) (p c : N) {q : N}
    (h : ¬ (q = p ∧ u = m.term p)) : (m.grant p c).vote q u = m.vote q u :=
  update_update_of_ne _ _ h

theorem grows_grant {p c : N} (h : m.vote p (m.term p) = none ∨ m.vote p (m.term p) = some c) :
    Grows m (m.grant p c) where
  ballot := extends_grant h
  cand := fun _ _ _ hc => hc
  hist := fun _ => prefix_rfl
  hist_new := fun _ _ _ hx => .inl hx
  ack := fun _ _ => le_rfl
  ack_past := fun _ _ _ => rfl

theorem Inv.grant (hm : Inv Q m) {p c : N}
    (h : m.vote p (m.term p) = none ∨ m.vote p (m.term p) = some c)
    (hl : m.cand c (m.term p) = some l) (hup : UpToDate l (m.log p)) : Inv Q (m.grant p c) := by
  have hstep : Ballot.Step Q p m.toBallot (m.toBallot.grant p c) := Ballot.Step.grant c h
  have hg : Grows m (m.grant p c) := grows_grant h
  refine hm.of_static hg (hstep.inv hm.ballot) rfl rfl rfl rfl ?_ ?_ ?_
  · intro d u l' hc
    obtain ⟨hpos, hle⟩ := hm.cand_le d u l' hc
    exact ⟨hpos, hle, hm.chain_cand d u l' hc⟩
  · intro q u d hv
    by_cases hqu : q = p ∧ u = m.term p
    · obtain ⟨rfl, rfl⟩ := hqu
      rw [grant_vote] at hv
      cases hv
      change m.cand c (m.term q) ≠ none
      rw [hl]
      exact some_ne_none _
    · rw [grant_vote_of_ne m p c hqu] at hv
      exact hm.vote_cand q u d hv
  · intro q u d l' t k hv hv' hc hu htu ho hk
    by_cases hqu : q = p ∧ u = m.term p
    · obtain ⟨rfl, rfl⟩ := hqu
      rw [grant_vote] at hv
      cases hv
      have hll : l' = l := some.inj (hc.symm.trans hl)
      subst hll
      rcases hm.ack_log q t k ho hk with hp | ⟨v, htv, hvu, hlead, hnot⟩
      · exact hm.upToDate_prefix_or_lost (hm.chain_cand c _ l' hl) hup htu ho hp
      · have hne : v ≠ m.term q := by
          rintro rfl
          exact hlead hu
        exact .inr ⟨v, htv, by omega, hlead, hnot⟩
    · rw [grant_vote_of_ne m p c hqu] at hv
      exact absurd hv hv'

end Ballots

section Elect

variable [DecidableEq N]

theorem grows_elect (hm : Inv Q m) (hnone : m.leader (m.term c) = none) :
    Grows m (m.elect c) where
  ballot := extends_elect hnone
  cand := fun _ _ _ hc => hc
  hist := by
    intro t
    by_cases ht : t = m.term c
    · rw [ht, hm.hist_nil _ hnone]
      exact nil_prefix
    · simp [elect, ht]
  hist_new := by
    intro t hlead x hx
    have ht : t ≠ m.term c := by
      rintro rfl
      exact hlead hnone
    left
    simpa [elect, ht] using hx
  ack := by
    intro p t
    by_cases h : p = c ∧ t = m.term c
    · obtain ⟨rfl, rfl⟩ := h
      have hle := hm.ack_le p (m.term p)
      rw [hm.hist_nil _ hnone] at hle
      exact hle.trans (Nat.zero_le _)
    · exact (update_update_of_ne _ _ h).ge
  ack_past := by
    intro p t ht
    refine update_update_of_ne _ _ ?_
    rintro ⟨rfl, rfl⟩
    exact ht.false

/-- The election is where it is decided which entries of earlier terms the new
leader has: a voter that had taken one over vouches for it, and if there is no
such voter then the voters block it. -/
theorem Inv.elect (hm : Inv Q m) (hne : m.leader (m.term c) ≠ some c)
    (hl : m.cand c (m.term c) = some (m.log c))
    (hq : Q.IsQuorum {p | m.vote p (m.term c) = some c}) : Inv Q (m.elect c) := by
  have hnone : m.leader (m.term c) = none := hm.ballot.leader_eq_none hne hq
  have hg : Grows m (m.elect c) := grows_elect hm hnone
  have hstep : Ballot.Step Q c m.toBallot (m.toBallot.elect c) := Ballot.Step.elect hne hq
  have hlead : (m.elect c).leader (m.term c) = some c := by simp [Replog.elect, Ballot.elect]
  have hleado : ∀ t, t ≠ m.term c → (m.elect c).leader t = m.leader t := by
    intro t ht
    simp [Replog.elect, Ballot.elect, ht]
  have hhist : (m.elect c).hist (m.term c) = m.log c := by simp [Replog.elect]
  have hhisto : ∀ t, t ≠ m.term c → (m.elect c).hist t = m.hist t := by
    intro t ht
    simp [Replog.elect, ht]
  have hack : (m.elect c).ack c (m.term c) = (m.log c).length := by simp [Replog.elect]
  have htakes : Takes m (m.elect c) c :=
    ⟨rfl, rfl, rfl, fun _ _ => rfl, fun p t h => update_update_of_ne _ _ h⟩
  refine hm.of_takes hg htakes (hstep.inv hm.ballot) ?_ (hg.chain (hm.chain_log c)) ?_ ?_
    (by rw [hack, hhist]) (by rw [hack, hhist, take_length]; rfl) ?_ ?_
  · intro t h
    have ht : t ≠ m.term c := by
      rintro rfl
      rw [hlead] at h
      cases h
    rw [hleado t ht] at h
    rw [hhisto t ht]
    exact hm.hist_nil t h
  · intro t
    by_cases ht : t = m.term c
    · rw [ht, hhist]
      exact hg.chain (hm.chain_log c)
    · rw [hhisto t ht]
      exact hg.chain (hm.chain_hist t)
  · intro d h
    change m.log d = (m.elect c).hist (m.term d)
    by_cases ht : m.term d = m.term c
    · rw [ht, hlead] at h
      cases h
      rw [hhist]
    · rw [hleado _ ht] at h
      rw [hhisto _ ht]
      exact hm.leader_log d h
  · intro t k ho hk
    have ht : t ≠ m.term c := by
      rintro rfl
      obtain ⟨e, he, het⟩ := ho
      rw [hhist] at he
      have hle := (hm.chain_cand c _ _ hl k e he).1
      have hpos := (hm.cand_le c _ _ hl).1
      omega
    rw [htakes.ack c t fun h => ht h.2] at hk
    have hkl : k < (m.hist t).length := hk.trans_le (hm.ack_le c t)
    exact hg.prefix_or_lost hm hkl le_rfl (hm.ack_log c t k (hg.own_of_lt hkl ho) hk)
  · intro t u k htu hu ho
    by_cases huc : u = m.term c
    · subst huc
      have ho' : Own m t k := by
        obtain ⟨e, he, het⟩ := ho
        rw [hhisto t htu.ne] at he
        exact ⟨e, he, het⟩
      have hkl : k < (m.hist t).length := by
        obtain ⟨e, he, -⟩ := ho'
        exact (List.getElem?_eq_some_iff.1 he).1
      rw [hhist, hg.take_eq hkl]
      by_cases hlost : Lost m t k (m.term c)
      · obtain ⟨v, htv, -, hvlead, hnot⟩ := hlost
        rcases hm.chosen t v k htv hvlead ho' with hp | hb
        · exact absurd hp hnot
        · exact .inr (hg.blocked hb)
      · by_cases hvoter : ∃ p, m.vote p (m.term c) = some c ∧ k < m.ack p t
        · obtain ⟨p, hv, hk⟩ := hvoter
          rcases hm.vote_ack p _ c _ t k hv hl hnone htu ho' hk with hp | hl'
          · exact .inl hp
          · exact absurd hl' hlost
        · refine .inr (hg.blocked (Q.mono (fun p hp => ?_) hq))
          have hup := hm.ballot.vote_le p _ c hp
          refine ⟨htu.trans_le hup, ?_⟩
          by_contra hk
          exact hvoter ⟨p, hp, not_le.1 hk⟩
    · rw [hleado u huc] at hu
      exact hg.chosen hm htu hu ho

end Elect

section Propose

theorem Chain.concat {b : ℕ} {e : Ent α} (h : Chain m b l) (he : e.term ≤ b)
    (hlead : m.leader e.term ≠ none) (hp : l ++ [e] <+: m.hist e.term) :
    Chain m b (l ++ [e]) := by
  intro i f hi
  rcases Nat.lt_or_ge i l.length with hlt | hge
  · rw [getElem?_append_left hlt] at hi
    rw [take_append_of_le_length hlt]
    exact h i f hi
  · have hlen := (List.getElem?_eq_some_iff.1 hi).1
    rw [length_append, length_singleton] at hlen
    have hil : i = l.length := by omega
    subst hil
    have hfe : e = f := by simpa using hi
    subst hfe
    rw [take_of_length_le (by simp)]
    exact ⟨he, hlead, hp⟩

variable [DecidableEq N]

theorem grows_propose (hm : Inv Q m) (v : α) (h : m.leader (m.term c) = some c) :
    Grows m (m.propose c v) where
  ballot := Ballot.Extends.refl _
  cand := fun _ _ _ hc => hc
  hist := by
    intro t
    by_cases ht : t = m.term c
    · subst ht
      simp [propose, hm.leader_log c h]
    · simp [propose, ht]
  hist_new := by
    intro t _ x hx
    by_cases ht : t = m.term c
    · subst ht
      have hx' : x <+: m.hist (m.term c) ++ [⟨m.term c, v⟩] := by
        simpa [propose, hm.leader_log c h] using hx
      rcases prefix_concat_iff.1 hx' with rfl | hp
      · exact .inr ⟨⟨m.term c, v⟩, by simp, rfl⟩
      · exact .inl hp
    · left
      simpa [propose, ht] using hx
  ack := by
    intro p t
    by_cases hpt : p = c ∧ t = m.term c
    · obtain ⟨rfl, rfl⟩ := hpt
      have hle := hm.ack_le p (m.term p)
      rw [← hm.leader_log p h] at hle
      simp only [propose, update_self]
      omega
    · exact (update_update_of_ne _ _ hpt).ge
  ack_past := by
    intro p t ht
    refine update_update_of_ne _ _ ?_
    rintro ⟨rfl, rfl⟩
    exact ht.false

theorem Inv.propose (hm : Inv Q m) (v : α) (h : m.leader (m.term c) = some c) :
    Inv Q (m.propose c v) := by
  have hg : Grows m (m.propose c v) := grows_propose hm v h
  have hhist : (m.propose c v).hist (m.term c) = m.log c ++ [⟨m.term c, v⟩] := by
    simp [Replog.propose]
  have hhisto : ∀ t, t ≠ m.term c → (m.propose c v).hist t = m.hist t := by
    intro t ht
    simp [Replog.propose, ht]
  have hlog : (m.propose c v).log c = m.log c ++ [⟨m.term c, v⟩] := by simp [Replog.propose]
  have hack : (m.propose c v).ack c (m.term c) = (m.log c).length + 1 := by
    simp [Replog.propose]
  have htakes : Takes m (m.propose c v) c :=
    ⟨rfl, rfl, rfl, fun _ hp => update_of_ne hp _ _, fun p t h => update_update_of_ne _ _ h⟩
  have hchain : Chain (m.propose c v) (m.term c) (m.log c ++ [⟨m.term c, v⟩]) := by
    refine (hg.chain (hm.chain_log c)).concat le_rfl ?_ ?_
    · change m.leader (m.term c) ≠ none
      rw [h]
      exact some_ne_none c
    · rw [hhist]
  refine hm.of_takes hg htakes hm.ballot ?_ (hlog ▸ hchain) ?_ ?_ ?_ ?_ ?_
    fun t u k htu hu ho => hg.chosen hm htu hu ho
  · intro t ht
    have hne : t ≠ m.term c := by
      rintro rfl
      rw [show (m.propose c v).leader (m.term c) = m.leader (m.term c) from rfl, h] at ht
      cases ht
    rw [hhisto t hne]
    exact hm.hist_nil t ht
  · intro t
    by_cases ht : t = m.term c
    · rw [ht, hhist]
      exact hchain
    · rw [hhisto t ht]
      exact hg.chain (hm.chain_hist t)
  · intro d hd
    by_cases hdc : d = c
    · subst hdc
      rw [hlog, hhist]
    · have ht : m.term d ≠ m.term c := by
        intro ht
        rw [ht] at hd
        exact hdc (some.inj (h.symm.trans hd)).symm
      rw [htakes.log d hdc, hhisto _ ht]
      exact hm.leader_log d hd
  · rw [hack, hhist, length_append, length_singleton]
  · rw [hhist, hack, hlog, take_of_length_le (by simp)]
  · intro t k ho hk
    rw [hlog]
    by_cases ht : t = m.term c
    · left
      rw [ht, hhist]
      exact take_prefix _ _
    · rw [htakes.ack c t fun hct => ht hct.2] at hk
      have hkl : k < (m.hist t).length := hk.trans_le (hm.ack_le c t)
      have hold := hm.ack_log c t k (hg.own_of_lt hkl ho) hk
      exact hg.prefix_or_lost hm hkl le_rfl (hold.imp (fun hp => hp.trans (prefix_append _ _)) id)

end Propose

section Accept

variable [DecidableEq N]

theorem grows_accept (m : Replog N α) (p : N) (k : ℕ) : Grows m (m.accept p k) where
  ballot := Ballot.Extends.refl _
  cand := fun _ _ _ hc => hc
  hist := fun _ => prefix_rfl
  hist_new := fun _ _ _ hx => .inl hx
  ack := by
    intro q t
    by_cases hqt : q = p ∧ t = m.term p
    · obtain ⟨rfl, rfl⟩ := hqt
      simp [accept]
    · exact (update_update_of_ne _ _ hqt).ge
  ack_past := by
    intro q t ht
    refine update_update_of_ne _ _ ?_
    rintro ⟨rfl, rfl⟩
    exact ht.false

/-- Taking over a prefix of the leader keeps every entry that was taken over
before, from this leader or from one whose entry this leader has. -/
theorem Inv.accept (hm : Inv Q m) {k : ℕ} (h : m.leader (m.term p) ≠ none)
    (hk : k ≤ (m.hist (m.term p)).length) : Inv Q (m.accept p k) := by
  have hg : Grows m (m.accept p k) := grows_accept m p k
  have hlog : (m.accept p k).log p = splice ((m.hist (m.term p)).take k) (m.log p) := by
    simp [Replog.accept]
  have hack : (m.accept p k).ack p (m.term p) = max (m.ack p (m.term p)) k := by
    simp [Replog.accept]
  have htakes : Takes m (m.accept p k) p :=
    ⟨rfl, rfl, rfl, fun _ hq => update_of_ne hq _ _, fun q t h => update_update_of_ne _ _ h⟩
  have htake : (m.hist (m.term p)).take k <+: m.hist (m.term p) := take_prefix _ _
  refine hm.of_takes hg htakes hm.ballot hm.hist_nil ?_ (fun t => hg.chain (hm.chain_hist t)) ?_
    (hack ▸ max_le (hm.ack_le p _) hk) ?_ ?_ fun t u i htu hu ho => hg.chosen hm htu hu ho
  · rw [hlog]
    rcases splice_eq_or (h := (m.hist (m.term p)).take k) (l := m.log p) with hs | hs
    · rw [hs]
      exact hg.chain (hm.chain_log p)
    · rw [hs]
      exact hg.chain ((hm.chain_hist (m.term p)).of_isPrefix htake)
  · intro d hd
    change (m.accept p k).log d = m.hist (m.term d)
    by_cases hdp : d = p
    · subst hdp
      rw [hlog, hm.leader_log d hd, splice_of_isPrefix htake]
    · rw [htakes.log d hdp]
      exact hm.leader_log d hd
  · rw [hack, hlog]
    rcases max_choice (m.ack p (m.term p)) k with hmax | hmax
    · rw [hmax]
      exact prefix_splice_of_isPrefix (hm.ack_cur p) ( take_prefix _ _) htake
    · rw [hmax]
      exact prefix_splice
  · intro t i ho hi
    rw [hlog]
    change (m.hist t).take (i + 1) <+: _ ∨ Lost m t i (m.term p + 1)
    by_cases ht : t = m.term p
    · subst ht
      rw [hack, lt_max_iff] at hi
      rcases hi with hi | hi
      · rcases hm.ack_log p _ i ho hi with hp | ⟨v, hv, hv', -⟩
        · exact .inl (prefix_splice_of_isPrefix hp ( take_prefix _ _) htake)
        · omega
      · exact .inl ((take_prefix_take_left hi).trans prefix_splice)
    · rw [htakes.ack p t fun hqt => ht hqt.2] at hi
      rcases hm.ack_log p t i ho hi with hp | hl
      · by_cases hpu : (m.hist t).take (i + 1) <+: m.hist (m.term p)
        · exact .inl (prefix_splice_of_isPrefix hp hpu htake)
        · have htq : t ≤ m.term p := hm.ack_term p t (by omega)
          exact .inr ⟨m.term p, by omega, by omega, h, hpu⟩
      · exact .inr hl

end Accept

section Steps

variable [DecidableEq N]

theorem Step.inv (hm : Inv Q m) (h : Step Q p m m') : Inv Q m' := by
  cases h with
  | adopt t h => exact hm.adopt h
  | campaign => exact hm.campaign p
  | grant c l h hl hup => exact hm.grant h hl hup
  | elect hne hl hq => exact hm.elect hne hl hq
  | propose v h => exact hm.propose v h
  | accept k h hk => exact hm.accept h hk

theorem Step.grows (hm : Inv Q m) (h : Step Q p m m') : Grows m m' := by
  cases h with
  | adopt t h => exact grows_adopt h.le
  | campaign => exact grows_campaign hm p
  | grant c l h hl hup => exact grows_grant h
  | elect hne hl hq => exact grows_elect hm (hm.ballot.leader_eq_none hne hq)
  | propose v h => exact grows_propose hm v h
  | accept k h hk => exact grows_accept m p k

theorem Step.frame {p q : N} (h : Step Q p m m') (hq : q ≠ p) : m'.log q = m.log q := by
  cases h with
  | adopt t h | campaign | grant c l h hl hup | elect hne hl hq => rfl
  | propose v h => simp [Replog.propose, hq]
  | accept k h hk => simp [Replog.accept, hq]

end Steps

end Replog

end Consensus
