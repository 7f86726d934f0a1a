import BonsaiGrid.Consensus.Ballot

/-!
# A replicated log over ballots

Logs are added to the ballots: a candidate campaigns with the log it has, a voter refuses a
candidate whose log is behind its own, a leader appends to its log, and a member of the leader's
term takes over a prefix of the leader's log.
-/

namespace Consensus

open Function

/-- A log entry: the term of the leader that created it, and its value. -/
structure Ent (α : Type*) where
  term : ℕ
  val : α

def lastTerm {α : Type*} (l : List (Ent α)) : ℕ :=
  (l.getLast?.map Ent.term).getD 0

/-- The log `l` is at least as recent as `l'`: its last term is later, or the
last terms agree and it is not shorter. -/
def UpToDate {α : Type*} (l l' : List (Ent α)) : Prop :=
  lastTerm l' < lastTerm l ∨ lastTerm l' = lastTerm l ∧ l'.length ≤ l.length

open Classical in
/-- Taking over `h`: a log that already has the prefix `h` stays as it is,
with whatever follows the prefix; any other log is replaced by `h`. -/
noncomputable def splice {α : Type*} (h l : List (Ent α)) : List (Ent α) :=
  if h <+: l then l else h

section Splice

variable {α : Type*} {h l x H : List (Ent α)}

theorem splice_of_isPrefix (hp : h <+: l) : splice h l = l := if_pos hp

theorem prefix_splice : h <+: splice h l := by
  by_cases hp : h <+: l
  · rw [splice_of_isPrefix hp]
    exact hp
  · rw [splice, if_neg hp]

theorem prefix_splice_of_isPrefix (hx : x <+: l) (hxH : x <+: H) (hH : h <+: H) :
    x <+: splice h l := by
  by_cases hp : h <+: l
  · rw [splice_of_isPrefix hp]
    exact hx
  · rw [splice, if_neg hp]
    rcases List.prefix_or_prefix_of_prefix hxH hH with hxh | hhx
    · exact hxh
    · exact absurd (hhx.trans hx) hp

theorem splice_eq_or : splice h l = l ∨ splice h l = h := by
  by_cases hp : h <+: l
  · exact .inl (if_pos hp)
  · exact .inr (if_neg hp)

end Splice

/-- The ballots, the logs of the members, and the records of what the logs have
been. -/
structure Replog (N α : Type*) extends Ballot N where
  log : N → List (Ent α)
  cand : N → ℕ → Option (List (Ent α))
  hist : ℕ → List (Ent α)
  ack : N → ℕ → ℕ

namespace Replog

variable {N α : Type*}

def init : Replog N α where
  toBallot := Ballot.init
  log := fun _ => []
  cand := fun _ _ => none
  hist := fun _ => []
  ack := fun _ _ => 0

variable [DecidableEq N] (m : Replog N α)

def adopt (p : N) (t : ℕ) : Replog N α :=
  { m with toBallot := m.toBallot.adopt p t }

def campaign (p : N) : Replog N α :=
  { m with
    toBallot := m.toBallot.campaign p
    cand := update m.cand p (update (m.cand p) (m.term p + 1) (some (m.log p))) }

def grant (p c : N) : Replog N α :=
  { m with toBallot := m.toBallot.grant p c }

def elect (c : N) : Replog N α :=
  { m with
    toBallot := m.toBallot.elect c
    hist := update m.hist (m.term c) (m.log c)
    ack := update m.ack c (update (m.ack c) (m.term c) (m.log c).length) }

def propose (c : N) (v : α) : Replog N α :=
  { m with
    log := update m.log c (m.log c ++ [⟨m.term c, v⟩])
    hist := update m.hist (m.term c) (m.log c ++ [⟨m.term c, v⟩])
    ack := update m.ack c (update (m.ack c) (m.term c) ((m.log c).length + 1)) }

noncomputable def accept (p : N) (k : ℕ) : Replog N α :=
  { m with
    log := update m.log p (splice ((m.hist (m.term p)).take k) (m.log p))
    ack := update m.ack p (update (m.ack p) (m.term p) (max (m.ack p (m.term p)) k)) }

inductive Step (Q : QuorumSystem N) : N → Replog N α → Replog N α → Prop
  | adopt {m : Replog N α} {p : N} (t : ℕ) (h : m.term p < t) : Step Q p m (m.adopt p t)
  | campaign {m : Replog N α} {p : N} : Step Q p m (m.campaign p)
  | grant {m : Replog N α} {p : N} (c : N) (l : List (Ent α))
      (h : m.vote p (m.term p) = none ∨ m.vote p (m.term p) = some c)
      (hl : m.cand c (m.term p) = some l) (hup : UpToDate l (m.log p)) :
      Step Q p m (m.grant p c)
  | elect {m : Replog N α} {c : N} (hne : m.leader (m.term c) ≠ some c)
      (hl : m.cand c (m.term c) = some (m.log c))
      (hq : Q.IsQuorum {p | m.vote p (m.term c) = some c}) : Step Q c m (m.elect c)
  | propose {m : Replog N α} {c : N} (v : α) (h : m.leader (m.term c) = some c) :
      Step Q c m (m.propose c v)
  | accept {m : Replog N α} {p : N} (k : ℕ) (h : m.leader (m.term p) ≠ none)
      (hk : k ≤ (m.hist (m.term p)).length) : Step Q p m (m.accept p k)

end Replog

end Consensus
