import BonsaiGrid.Consensus.Quorum

/-!
# Ballots

The election half of a leader-based protocol, without logs and without messages: every member has
a term and may cast one vote in each term, and a term has a leader once a quorum has voted for it.
-/

namespace Consensus

open Function

theorem update_update_of_ne {A B β : Type*} [DecidableEq A] [DecidableEq B] (f : A → B → β)
    {a c : A} {b d : B} (x : β) (h : ¬ (c = a ∧ d = b)) :
    update f a (update (f a) b x) c d = f c d := by
  by_cases hc : c = a
  · subst hc
    rw [update_self, update_of_ne fun hd => h ⟨rfl, hd⟩]
  · rw [update_of_ne hc]

/-- The terms of the members, the votes they have cast so far in each term, and
the leaders elected so far. -/
structure Ballot (N : Type*) where
  term : N → ℕ
  vote : N → ℕ → Option N
  leader : ℕ → Option N

namespace Ballot

variable {N : Type*}

def init : Ballot N where
  term := fun _ => 0
  vote := fun _ _ => none
  leader := fun _ => none

def elect (b : Ballot N) (c : N) : Ballot N :=
  { b with leader := update b.leader (b.term c) (some c) }

/-- A vote is never cast in a term the voter has not reached, a leader has been
in its term, and it has the votes of a quorum. -/
structure Inv (Q : QuorumSystem N) (b : Ballot N) : Prop where
  vote_le : ∀ p t c, b.vote p t = some c → t ≤ b.term p
  leader_le : ∀ t c, b.leader t = some c → t ≤ b.term c
  leader_quorum : ∀ t c, b.leader t = some c → Q.IsQuorum {p | b.vote p t = some c}

theorem inv_init (Q : QuorumSystem N) : Inv Q (init : Ballot N) := by
  constructor
  · intro p t c h
    cases h
  · intro t c h
    cases h
  · intro t c h
    cases h

variable {Q : QuorumSystem N} {b : Ballot N} {t : ℕ}

/-- Two candidates with a quorum of votes in one term are the same: the two
quorums share a voter, and a voter has one vote. -/
theorem quorum_unique {c d : N}
    (hc : Q.IsQuorum {p | b.vote p t = some c}) (hd : Q.IsQuorum {p | b.vote p t = some d}) :
    c = d := by
  obtain ⟨p, hp, hp'⟩ := Q.meet hc hd
  exact Option.some.inj (hp.symm.trans hp')

theorem Inv.leader_eq_none (hb : Inv Q b) {c : N}
    (hne : b.leader t ≠ some c) (hq : Q.IsQuorum {p | b.vote p t = some c}) :
    b.leader t = none := by
  cases h : b.leader t with
  | none => rfl
  | some d =>
    have hcd : d = c := quorum_unique (hb.leader_quorum t d h) hq
    rw [h, hcd] at hne
    exact absurd rfl hne

/-- `b'` extends the votes and the leaders of `b`, and no term goes back. -/
structure Extends (b b' : Ballot N) : Prop where
  term_le : ∀ p, b.term p ≤ b'.term p
  vote : ∀ p t c, b.vote p t = some c → b'.vote p t = some c
  leader : ∀ t c, b.leader t = some c → b'.leader t = some c

namespace Extends

@[refl] theorem refl (b : Ballot N) : Extends b b :=
  ⟨fun _ => le_rfl, fun _ _ _ h => h, fun _ _ h => h⟩

@[trans] theorem trans {b₁ b₂ b₃ : Ballot N} (h₁ : Extends b₁ b₂) (h₂ : Extends b₂ b₃) :
    Extends b₁ b₃ :=
  ⟨fun p => (h₁.term_le p).trans (h₂.term_le p),
    fun p t c h => h₂.vote p t c (h₁.vote p t c h),
    fun t c h => h₂.leader t c (h₁.leader t c h)⟩

theorem leader_ne_none {b b' : Ballot N} (h : Extends b b') (hl : b.leader t ≠ none) :
    b'.leader t ≠ none := by
  obtain ⟨c, hc⟩ := Option.ne_none_iff_exists'.1 hl
  rw [h.leader t c hc]
  exact Option.some_ne_none c

theorem isQuorum {b b' : Ballot N} (h : Extends b b') {c : N}
    (hq : Q.IsQuorum {p | b.vote p t = some c}) : Q.IsQuorum {p | b'.vote p t = some c} :=
  Q.mono (fun p hp => h.vote p t c hp) hq

end Extends

theorem extends_elect {c : N} (h : b.leader (b.term c) = none) :
    Extends b (b.elect c) := by
  refine ⟨fun _ => le_rfl, fun _ _ _ hv => hv, fun t d hl => ?_⟩
  by_cases ht : t = b.term c
  · subst ht
    rw [h] at hl
    cases hl
  · simpa [elect, ht] using hl

theorem Inv.vote_succ_eq_none (hb : Inv Q b) (p : N) :
    b.vote p (b.term p + 1) = none := by
  cases h : b.vote p (b.term p + 1) with
  | none => rfl
  | some c =>
    have := hb.vote_le p _ c h
    omega

variable [DecidableEq N]

def adopt (b : Ballot N) (p : N) (t : ℕ) : Ballot N :=
  { b with term := update b.term p t }

def grant (b : Ballot N) (p c : N) : Ballot N :=
  { b with vote := update b.vote p (update (b.vote p) (b.term p) (some c)) }

def campaign (b : Ballot N) (p : N) : Ballot N :=
  (b.adopt p (b.term p + 1)).grant p p

inductive Step (Q : QuorumSystem N) : N → Ballot N → Ballot N → Prop
  | adopt {b : Ballot N} {p : N} (t : ℕ) (h : b.term p < t) : Step Q p b (b.adopt p t)
  | campaign {b : Ballot N} {p : N} : Step Q p b (b.campaign p)
  | grant {b : Ballot N} {p : N} (c : N)
      (h : b.vote p (b.term p) = none ∨ b.vote p (b.term p) = some c) :
      Step Q p b (b.grant p c)
  | elect {b : Ballot N} {c : N} (hne : b.leader (b.term c) ≠ some c)
      (hq : Q.IsQuorum {p | b.vote p (b.term c) = some c}) : Step Q c b (b.elect c)

theorem extends_adopt {p : N} (h : b.term p ≤ t) :
    Extends b (b.adopt p t) := by
  refine ⟨fun q => ?_, fun _ _ _ hv => hv, fun _ _ hl => hl⟩
  by_cases hq : q = p
  · subst hq
    simpa [adopt] using h
  · simp [adopt, hq]

theorem extends_grant {p c : N}
    (h : b.vote p (b.term p) = none ∨ b.vote p (b.term p) = some c) :
    Extends b (b.grant p c) := by
  refine ⟨fun _ => le_rfl, fun q t d hv => ?_, fun _ _ hl => hl⟩
  by_cases hq : q = p
  · subst hq
    by_cases ht : t = b.term q
    · subst ht
      rcases h with h | h
      · rw [h] at hv
        cases hv
      · simpa [grant, h] using hv
    · simpa [grant, ht] using hv
  · simpa [grant, hq] using hv

theorem Inv.extends_campaign (hb : Inv Q b) (p : N) :
    Extends b (b.campaign p) := by
  have hnone : (b.adopt p (b.term p + 1)).vote p ((b.adopt p (b.term p + 1)).term p) = none := by
    simpa [adopt] using hb.vote_succ_eq_none p
  exact (extends_adopt (Nat.le_succ _)).trans (extends_grant (.inl hnone))

theorem Step.extends {b b' : Ballot N} {p : N} (hb : Inv Q b)
    (h : Step Q p b b') : Extends b b' := by
  cases h with
  | adopt t h => exact extends_adopt h.le
  | campaign => exact hb.extends_campaign p
  | grant c h => exact extends_grant h
  | elect hne hq => exact extends_elect (hb.leader_eq_none hne hq)

theorem grant_vote_le (h : ∀ p t c, b.vote p t = some c → t ≤ b.term p)
    (p c : N) : ∀ q t d, (b.grant p c).vote q t = some d → t ≤ (b.grant p c).term q := by
  intro q t d hv
  by_cases hq : q = p
  · subst hq
    by_cases ht : t = b.term q
    · simp [grant, ht]
    · have hv' : b.vote q t = some d := by simpa [grant, ht] using hv
      exact h q t d hv'
  · have hv' : b.vote q t = some d := by simpa [grant, hq] using hv
    exact h q t d hv'

theorem adopt_vote_le (h : ∀ p t c, b.vote p t = some c → t ≤ b.term p)
    {p : N} {u : ℕ} (hu : b.term p ≤ u) :
    ∀ q t d, (b.adopt p u).vote q t = some d → t ≤ (b.adopt p u).term q := fun q t d hv =>
  (h q t d hv).trans ((extends_adopt hu).term_le q)

theorem Step.inv {b b' : Ballot N} {p : N} (hb : Inv Q b)
    (h : Step Q p b b') : Inv Q b' := by
  have hext := h.extends hb
  have hle : ∀ t c, b.leader t = some c → t ≤ b'.term c := fun t c hl =>
    (hb.leader_le t c hl).trans (hext.term_le c)
  have hquorum : ∀ t c, b.leader t = some c → Q.IsQuorum {p | b'.vote p t = some c} :=
    fun t c hl => hext.isQuorum (hb.leader_quorum t c hl)
  cases h with
  | adopt t h => exact ⟨adopt_vote_le hb.vote_le h.le, hle, hquorum⟩
  | campaign =>
    exact ⟨grant_vote_le (adopt_vote_le hb.vote_le (Nat.le_succ _)) p p, hle, hquorum⟩
  | grant c h => exact ⟨grant_vote_le hb.vote_le p c, hle, hquorum⟩
  | elect hne hq =>
    refine ⟨hb.vote_le, fun t d hl => ?_, fun t d hl => ?_⟩
    · by_cases ht : t = b.term p
      · have hcd : p = d := by simpa [Ballot.elect, ht] using hl
        exact hcd ▸ ht.le
      · exact hle t d (by simpa [Ballot.elect, ht] using hl)
    · by_cases ht : t = b.term p
      · subst ht
        have hcd : p = d := by simpa [Ballot.elect] using hl
        exact hcd ▸ hq
      · exact hquorum t d (by simpa [Ballot.elect, ht] using hl)

theorem Step.frame {b b' : Ballot N} {p q : N} (h : Step Q p b b')
    (hq : q ≠ p) : b'.term q = b.term q ∧ b'.vote q = b.vote q ∧
      ∀ t, b'.leader t = some q → b.leader t = some q := by
  cases h with
  | adopt t h => simp [Ballot.adopt, hq]
  | campaign => simp [Ballot.campaign, Ballot.grant, Ballot.adopt, hq]
  | grant c h => simp [Ballot.grant, hq]
  | elect hne hmaj =>
    refine ⟨rfl, rfl, fun t hl => ?_⟩
    by_cases ht : t = b.term p
    · have : p = q := by simpa [Ballot.elect, ht] using hl
      exact absurd this.symm hq
    · simpa [Ballot.elect, ht] using hl

end Ballot

end Consensus
