import BonsaiGrid.Cp.Machine

/-!
# Exclusion and fencing

Who holds a lock can be told from the commands and their replies alone: an owner's account of a
lock goes up with every acquisition that was answered with a fence, down with every unlock that
was answered with `true`, and to zero when its session is closed or expires.
-/

namespace BonsaiGrid.Cp

open CpSm FencedLockSm List Int Option Int32 AList Prod Nat

abbrev Owner := Int64 × Int64

def acquireRequest (c : Bytes) : Option (Str × Owner) :=
  if c.head? = some 4 then
    match FencedLock.decode c.tail with
    | some (name, .lock session thread) => some (name, (session, thread))
    | some (name, .tryLock session thread) => some (name, (session, thread))
    | _ => none
  else none

def releaseRequest (c : Bytes) : Option (Str × Owner) :=
  if c.head? = some 4 then
    match FencedLock.decode c.tail with
    | some (name, .unlock session thread) => some (name, (session, thread))
    | _ => none
  else none

def endedBy (sm : CpSm) (c : Bytes) : List Int64 :=
  if c.head? = some 5 then
    match Session.decode c.tail with
    | some (.close id) => [id]
    | some .tick => sm.sessions.tick.2
    | _ => []
  else []

def ownerOf (sm : FencedLockSm) (name : Str) : Option Owner :=
  (sm.locks.lookup name).bind fun l => if 0 < l.count then some (l.session, l.thread) else none

def held (sm : FencedLockSm) (name : Str) (o : Owner) : ℕ :=
  match sm.locks.lookup name with
  | some l => if (l.session, l.thread) = o then l.count.toInt.toNat else 0
  | none => 0

def account (sm : CpSm) (c : Bytes) (name : Str) (o : Owner) (n : ℕ) : ℕ :=
  if acquireRequest c = some (name, o) ∧ (sm.apply c).2 ≠ .long 0 then n + 1
  else if releaseRequest c = some (name, o) ∧ (sm.apply c).2 = .bool true then n - 1
  else if o.1 ∈ endedBy sm c then 0
  else n

/-- The account after commands: acquisitions that succeeded and have not been unlocked, since the
owner's session last ended. -/
def outstanding (name : Str) (o : Owner) : CpSm → ℕ → List Bytes → ℕ
  | _, n, [] => n
  | sm, n, c :: commands => outstanding name o (sm.apply c).1 (account sm c name o n) commands

/-! ## One lock command -/

namespace FencedLockSm

structure Sound (k : ℕ) (sm : FencedLockSm) : Prop where
  count_pos : ∀ {name l}, sm.locks.lookup name = some l → 0 < l.count
  count_le : ∀ {name l}, sm.locks.lookup name = some l → l.count.toInt ≤ k
  fence_pos : ∀ {name l}, sm.locks.lookup name = some l → 0 < l.fence.toInt
  fence_le : ∀ {name l}, sm.locks.lookup name = some l → l.fence.toInt ≤ sm.nextFence.toInt
  next_nonneg : 0 ≤ sm.nextFence.toInt
  next_le : sm.nextFence.toInt ≤ k

section Commands

variable {k : ℕ} {sm : FencedLockSm} {name : Str} {session thread : Int64}

theorem toInt_succ_next (h : sm.Sound k) (hk : k + 1 < 2 ^ 31) :
    (sm.nextFence + 1).toInt = sm.nextFence.toInt + 1 := by
  have hlow := h.next_nonneg
  have hhigh := h.next_le
  rw [Int64.toInt_add]
  exact bmod_eq_of_le (by simp; omega) (by simp; omega)

theorem toInt_pos_iff {n : Int32} : 0 < n ↔ 0 < n.toInt := by
  rw [lt_iff_toInt_lt, toInt_zero]

variable {l : LockState}

theorem toInt_succ_count (h : sm.Sound k) (hl : sm.locks.lookup name = some l)
    (hk : k + 1 < 2 ^ 31) : (l.count + 1).toInt = l.count.toInt + 1 := by
  have hlow := toInt_pos_iff.1 (h.count_pos hl)
  have hhigh := h.count_le hl
  rw [toInt_add]
  exact bmod_eq_of_le (by simp; omega) (by simp; omega)

theorem toInt_pred_count {count : Int32} (h : 0 < count) : (count - 1).toInt = count.toInt - 1 := by
  have hlow := toInt_pos_iff.1 h
  have hhigh := count.toInt_lt
  rw [toInt_sub]
  exact bmod_eq_of_le (by simp; omega) (by simp; omega)

theorem acquire_cases (h : sm.Sound k) (name : Str) (session thread : Int64) :
    (sm.locks.lookup name = none ∧ sm.acquire name session thread =
      (⟨sm.locks.insert name ⟨sm.nextFence + 1, session, thread, 1⟩, sm.nextFence + 1⟩,
        sm.nextFence + 1)) ∨
    ∃ l, sm.locks.lookup name = some l ∧
      (((l.session, l.thread) = (session, thread) ∧ sm.acquire name session thread =
        (⟨sm.locks.insert name { l with count := l.count + 1 }, sm.nextFence⟩, l.fence)) ∨
      ((l.session, l.thread) ≠ (session, thread) ∧ sm.acquire name session thread = (sm, 0))) := by
  cases hl : sm.locks.lookup name with
  | none =>
    refine .inl ⟨rfl, ?_⟩
    rw [acquire, hl]
  | some l =>
    refine .inr ⟨l, rfl, ?_⟩
    by_cases ho : l.session = session ∧ l.thread = thread
    · refine .inl ⟨Prod.ext ho.1 ho.2, ?_⟩
      rw [acquire, hl]
      dsimp only
      rw [if_pos (h.count_pos hl), if_pos ho]
    · refine .inr ⟨fun heq => ho ⟨congrArg fst heq, congrArg snd heq⟩, ?_⟩
      rw [acquire, hl]
      dsimp only
      rw [if_pos (h.count_pos hl), if_neg ho]

theorem release_cases (h : sm.Sound k) (name : Str) (session thread : Int64) :
    (∃ l, sm.locks.lookup name = some l ∧ (l.session, l.thread) = (session, thread) ∧
      ((l.count - 1 = 0 ∧ sm.release name session thread =
        (⟨sm.locks.erase name, sm.nextFence⟩, true)) ∨
      (l.count - 1 ≠ 0 ∧ sm.release name session thread =
        (⟨sm.locks.insert name { l with count := l.count - 1 }, sm.nextFence⟩, true)))) ∨
    ((∀ l, sm.locks.lookup name = some l → (l.session, l.thread) ≠ (session, thread)) ∧
      sm.release name session thread = (sm, false)) := by
  cases hl : sm.locks.lookup name with
  | none =>
    refine .inr ⟨fun l hl' => (by cases hl'), ?_⟩
    rw [release, hl]
  | some l =>
    by_cases ho : l.session = session ∧ l.thread = thread
    · refine .inl ⟨l, rfl, Prod.ext ho.1 ho.2, ?_⟩
      rw [release, hl]
      dsimp only
      rw [if_pos ⟨h.count_pos hl, ho⟩]
      by_cases hlast : l.count - 1 = 0
      · exact .inl ⟨hlast, if_pos hlast⟩
      · exact .inr ⟨hlast, if_neg hlast⟩
    · refine .inr ⟨fun l' hl' heq => ?_, ?_⟩
      · cases hl'
        exact ho ⟨congrArg fst heq, congrArg snd heq⟩
      · rw [release, hl]
        dsimp only
        rw [if_neg fun hheld => ho hheld.2]

theorem Sound.insert {next : Int64} {k' : ℕ} (h : sm.Sound k) (hk : k ≤ k')
    (hnext : sm.nextFence.toInt ≤ next.toInt) (hle : next.toInt ≤ k') (hpos : 0 < l.count)
    (hcount : l.count.toInt ≤ k') (hfence : 0 < l.fence.toInt) (hbound : l.fence.toInt ≤ next.toInt) :
    Sound k' ⟨sm.locks.insert name l, next⟩ := by
  refine ⟨fun hl => ?_, fun hl => ?_, fun hl => ?_, fun hl => ?_,
    Int.le_trans h.next_nonneg hnext, hle⟩
  all_goals rcases Dict.lookup_insert_eq_some hl with ⟨-, rfl⟩ | hold
  · exact hpos
  · exact h.count_pos hold
  · exact hcount
  · exact Int.le_trans (h.count_le hold) (Int.ofNat_le.2 hk)
  · exact hfence
  · exact h.fence_pos hold
  · exact hbound
  · exact Int.le_trans (h.fence_le hold) hnext

theorem Sound.recount {count : Int32} (h : sm.Sound k)
    (hl : sm.locks.lookup name = some l) (hpos : 0 < count.toInt) (hle : count.toInt ≤ k + 1) :
    Sound (k + 1) ⟨sm.locks.insert name { l with count }, sm.nextFence⟩ := by
  have hnext := h.next_le
  have hfence := h.fence_pos hl
  have hbound := h.fence_le hl
  exact h.insert (le_succ k) (Int.le_refl _) (by omega) (toInt_pos_iff.2 hpos) hle hfence hbound

theorem Sound.subset {locks : Dict Str LockState} {k' : ℕ} (h : sm.Sound k) (hk : k ≤ k')
    (hsub : ∀ {name l}, locks.lookup name = some l → sm.locks.lookup name = some l) :
    Sound k' ⟨locks, sm.nextFence⟩ where
  count_pos hl := h.count_pos (hsub hl)
  count_le hl := by
    have hle := h.count_le (hsub hl)
    omega
  fence_pos hl := h.fence_pos (hsub hl)
  fence_le hl := h.fence_le (hsub hl)
  next_nonneg := h.next_nonneg
  next_le := by
    have hle := h.next_le
    dsimp only
    omega

theorem Sound.mono {k' : ℕ} (h : sm.Sound k) (hk : k ≤ k') : sm.Sound k' := h.subset hk id

theorem held_of_lookup (hl : sm.locks.lookup name = some l) (o : Owner) :
    held sm name o = if (l.session, l.thread) = o then l.count.toInt.toNat else 0 := by
  rw [held, hl]

theorem Sound.acquire (h : sm.Sound k) (hk : k + 1 < 2 ^ 31) :
    (sm.acquire name session thread).1.Sound (k + 1) := by
  have hnext := h.next_le
  have hlow := h.next_nonneg
  rcases acquire_cases h name session thread with ⟨-, heq⟩ | ⟨l, hl, ⟨-, heq⟩ | ⟨-, heq⟩⟩
  · have hsucc := toInt_succ_next h hk
    rw [heq]
    refine h.insert (le_succ k) (by omega) (by omega) (show (0 : Int32) < 1 by decide) ?_
      (by dsimp only; omega)
      (Int.le_refl _)
    rw [toInt_one]
    omega
  · have hsucc := toInt_succ_count h hl hk
    have hpos := toInt_pos_iff.1 (h.count_pos hl)
    have hle := h.count_le hl
    rw [heq]
    exact h.recount hl (by omega) (by omega)
  · rw [heq]
    exact h.mono (le_succ k)

theorem Sound.release (h : sm.Sound k) : (sm.release name session thread).1.Sound (k + 1) := by
  rcases release_cases h name session thread with ⟨l, hl, -, ⟨-, heq⟩ | ⟨hne, heq⟩⟩ | ⟨-, heq⟩
  · rw [heq]
    exact h.subset (le_succ k) fun hl' => (Dict.lookup_of_lookup_erase hl').2
  · have hpred := toInt_pred_count (h.count_pos hl)
    have hpos := toInt_pos_iff.1 (h.count_pos hl)
    have hle := h.count_le hl
    have hzero : (l.count - 1).toInt ≠ 0 := fun h0 =>
      hne (toInt_inj.mp (h0.trans toInt_zero.symm))
    rw [heq]
    exact h.recount hl (by omega) (by omega)
  · rw [heq]
    exact h.mono (le_succ k)

theorem toInt_ne_zero {f : Int64} (h : 0 < f.toInt) : f ≠ 0 := by
  rintro rfl
  exact absurd h (by decide)

/-- The count of one owner of one lock changes. -/
theorem held_change {sm' : FencedLockSm} {ow : Owner} {n : ℕ} {f : ℕ → ℕ} {P : Prop} [Decidable P]
    (hP : P) (hold : ∀ o, held sm name o = if ow = o then n else 0)
    (hnew : ∀ o, held sm' name o = if ow = o then f n else 0)
    (hrest : ∀ name' ≠ name, sm'.locks.lookup name' = sm.locks.lookup name') (name' : Str)
    (o : Owner) : held sm' name' o =
      if (name, ow) = (name', o) ∧ P then f (held sm name' o) else held sm name' o := by
  by_cases hname : name' = name
  · subst hname
    rw [hnew, hold]
    by_cases howner : ow = o
    · rw [if_pos howner, if_pos ⟨Prod.ext rfl howner, hP⟩, if_pos howner]
    · rw [if_neg howner, if_neg fun hreq => howner (congrArg snd hreq.1), if_neg howner]
  · rw [if_neg fun hreq => hname (congrArg fst hreq.1).symm, held, hrest name' hname, held]

theorem held_insert (l : LockState) (next : Int64) (o : Owner) :
    held ⟨sm.locks.insert name l, next⟩ name o =
      if (l.session, l.thread) = o then l.count.toInt.toNat else 0 := by
  rw [held, lookup_insert]

theorem held_acquire (h : sm.Sound k) (hk : k + 1 < 2 ^ 31) (name' : Str) (o : Owner) :
    held (sm.acquire name session thread).1 name' o =
      if (name, (session, thread)) = (name', o) ∧ (sm.acquire name session thread).2 ≠ 0 then
        held sm name' o + 1
      else held sm name' o := by
  rcases acquire_cases h name session thread with ⟨hl, heq⟩ | ⟨l, hl, ⟨ho, heq⟩ | ⟨ho, heq⟩⟩
  · have hsucc := toInt_succ_next h hk
    have hlow := h.next_nonneg
    rw [heq]
    exact held_change (n := 0) (f := (· + 1)) (toInt_ne_zero (by dsimp only; omega))
      (fun o => by rw [held, hl, ite_self]) (held_insert _ _)
      (fun _ hname => lookup_insert_ne hname) name' o
  · have hsucc := toInt_succ_count h hl hk
    have hpos := toInt_pos_iff.1 (h.count_pos hl)
    rw [heq]
    refine held_change (f := (· + 1)) (toInt_ne_zero (h.fence_pos hl))
      (fun o => ho ▸ held_of_lookup hl o) (fun o => ?_)
      (fun _ hname => lookup_insert_ne hname) name' o
    rw [held_insert, ← ho, hsucc, toNat_add (by omega) (by omega)]
    rfl
  · rw [heq, if_neg fun hreq => hreq.2 rfl]

theorem held_release (h : sm.Sound k) (name' : Str) (o : Owner) :
    held (sm.release name session thread).1 name' o =
      if (name, (session, thread)) = (name', o) ∧ (sm.release name session thread).2 = true then
        held sm name' o - 1
      else held sm name' o := by
  rcases release_cases h name session thread with ⟨l, hl, ho, hcases⟩ | ⟨-, heq⟩
  · have hpred := toInt_pred_count (h.count_pos hl)
    have hcount : (l.count - 1).toInt.toNat = l.count.toInt.toNat - 1 := by omega
    rcases hcases with ⟨hlast, heq⟩ | ⟨-, heq⟩
    all_goals
      rw [heq]
      refine held_change (f := (· - 1)) rfl (fun o => ho ▸ held_of_lookup hl o) (fun o => ?_)
        (fun _ hname => ?_) name' o
    · rw [← hcount, hlast, held, lookup_erase, toInt_zero, toNat_zero, ite_self]
    · exact lookup_erase_ne hname
    · rw [held_insert, ← ho, hcount]
    · exact lookup_insert_ne hname
  · rw [heq, if_neg fun hreq => Bool.false_ne_true hreq.2]

theorem Sound.releaseSession {id : Int64} (h : sm.Sound k) : (sm.releaseSession id).Sound k :=
  h.subset (le_refl k) fun hl => (Dict.lookup_retain.mp hl).1

theorem held_releaseSession (id : Int64) (name' : Str) (o : Owner) :
    held (sm.releaseSession id) name' o = if o.1 = id then 0 else held sm name' o := by
  rw [held, releaseSession, Dict.lookup_retain_eq, held]
  cases sm.locks.lookup name' with
  | none => simp
  | some l =>
    by_cases howner : (l.session, l.thread) = o
    · subst howner
      by_cases hid : l.session = id
      all_goals simp [filter_some, hid]
    · by_cases hid : l.session = id
      · subst hid
        simp [filter_some, howner]
      · simp [filter_some, hid, howner]

theorem Sound.releaseSessions {ids : List Int64} (h : sm.Sound k) :
    (ids.foldl FencedLockSm.releaseSession sm).Sound k := by
  induction ids generalizing sm with
  | nil => exact h
  | cons id ids ih => exact ih h.releaseSession

theorem held_releaseSessions (ids : List Int64) (name' : Str) (o : Owner) :
    held (ids.foldl releaseSession sm) name' o =
      if o.1 ∈ ids then 0 else held sm name' o := by
  induction ids generalizing sm with
  | nil => rw [if_neg not_mem_nil, foldl_nil]
  | cons id ids ih =>
    rw [foldl_cons, ih, held_releaseSession]
    by_cases hid : o.1 = id
    · rw [if_pos hid, if_pos (mem_cons.mpr (.inl hid)), ite_self]
    · by_cases hids : o.1 ∈ ids
      · rw [if_pos hids, if_pos (mem_cons_of_mem id hids)]
      · rw [if_neg hids, if_neg hid, if_neg fun hmem => (mem_cons.mp hmem).elim hid hids]

theorem acquire_fence (name : Str) (session thread : Int64) (h : sm.Sound k)
    (hk : k + 1 < 2 ^ 31) :
    (sm.acquire name session thread).2.toInt ≤ (sm.acquire name session thread).1.nextFence.toInt ∧
      sm.nextFence.toInt ≤ (sm.acquire name session thread).1.nextFence.toInt ∧
      ((sm.acquire name session thread).2 ≠ 0 →
        ownerOf (sm.acquire name session thread).1 name = some (session, thread) ∧
        (ownerOf sm name ≠ some (session, thread) →
          sm.nextFence.toInt < (sm.acquire name session thread).2.toInt)) := by
  have hlow := h.next_nonneg
  rcases acquire_cases h name session thread with ⟨hl, heq⟩ | ⟨l, hl, ⟨ho, heq⟩ | ⟨ho, heq⟩⟩
  · have hsucc := toInt_succ_next h hk
    rw [heq]
    refine ⟨Int.le_refl _, by dsimp only; omega, fun _ => ⟨?_, fun _ => by dsimp only; omega⟩⟩
    rw [ownerOf, lookup_insert]
    rfl
  · have hsucc := toInt_succ_count h hl hk
    have hpos := toInt_pos_iff.1 (h.count_pos hl)
    have hcount : 0 < l.count + 1 := toInt_pos_iff.2 (by omega)
    have howner : ownerOf sm name = some (session, thread) := by
      rw [ownerOf, hl, bind_some, if_pos (h.count_pos hl), ho]
    rw [heq]
    refine ⟨h.fence_le hl, Int.le_refl _, fun _ => ⟨?_, fun hnot => absurd howner hnot⟩⟩
    rw [ownerOf, lookup_insert, bind_some, if_pos hcount]
    exact congrArg some ho
  · rw [heq]
    exact ⟨hlow, Int.le_refl _, fun hne => absurd rfl hne⟩

theorem nextFence_release : (sm.release name session thread).1.nextFence = sm.nextFence := by
  rw [release]
  split
  · split
    · split
      all_goals rfl
    · rfl
  · rfl

theorem nextFence_releaseSessions (ids : List Int64) :
    (ids.foldl releaseSession sm).nextFence = sm.nextFence := by
  induction ids generalizing sm with
  | nil => rfl
  | cons id ids ih => exact ih

theorem ownerOf_eq_some_iff (h : sm.Sound k) (name : Str) (o : Owner) :
    ownerOf sm name = some o ↔ 0 < held sm name o := by
  rw [ownerOf, held]
  cases hl : sm.locks.lookup name with
  | none => simp
  | some l =>
    have hpos := h.count_pos hl
    have hint := toInt_pos_iff.1 hpos
    rw [bind_some, if_pos hpos, some.injEq]
    dsimp only
    constructor
    · intro ho
      rw [if_pos ho]
      omega
    · intro hheld
      by_contra ho
      rw [if_neg ho] at hheld
      exact absurd hheld (lt_irrefl 0)

end Commands

end FencedLockSm

/-! ## One command -/

namespace CpSm

variable {sm : CpSm} {c : Bytes} {k : ℕ}

theorem fencedLock_apply_other {obj : UInt8} {body : Bytes} (h₄ : obj ≠ 4) (h₅ : obj ≠ 5) :
    (sm.apply (obj :: body)).1.fencedLock = sm.fencedLock := by
  unfold apply
  dsimp only
  split
  all_goals first | rfl | exact absurd rfl h₄ | exact absurd rfl h₅

theorem fencedLock_applySession (sm : CpSm) (body : Bytes) :
    (sm.applySession body).1.fencedLock =
      (endedBy sm (5 :: body)).foldl releaseSession sm.fencedLock := by
  have hended : endedBy sm (5 :: body) =
      match Session.decode body with
      | some (.close id) => [id]
      | some .tick => sm.sessions.tick.2
      | _ => [] := if_pos rfl
  rw [hended, applySession]
  cases Session.decode body with
  | none => rfl
  | some op =>
    cases op
    all_goals rfl

theorem apply_locks (sm : CpSm) (c : Bytes) :
    (∃ name o, acquireRequest c = some (name, o) ∧ releaseRequest c = none ∧ endedBy sm c = [] ∧
      (sm.apply c).1.fencedLock = (sm.fencedLock.acquire name o.1 o.2).1 ∧
      (sm.apply c).2 = .long (sm.fencedLock.acquire name o.1 o.2).2) ∨
    (∃ name o, acquireRequest c = none ∧ releaseRequest c = some (name, o) ∧ endedBy sm c = [] ∧
      (sm.apply c).1.fencedLock = (sm.fencedLock.release name o.1 o.2).1 ∧
      (sm.apply c).2 = .bool (sm.fencedLock.release name o.1 o.2).2) ∨
    (acquireRequest c = none ∧ releaseRequest c = none ∧
      (sm.apply c).1.fencedLock =
        (endedBy sm c).foldl releaseSession sm.fencedLock) := by
  cases c with
  | nil => exact .inr (.inr ⟨rfl, rfl, rfl⟩)
  | cons obj body =>
    by_cases h₄ : obj = 4
    · subst h₄
      have happly : sm.apply (4 :: body) =
          ({ sm with fencedLock := (sm.fencedLock.apply body).1 },
            (sm.fencedLock.apply body).2) := rfl
      rw [happly, acquireRequest, releaseRequest,
        FencedLockSm.apply, tail_cons]
      cases FencedLock.decode body with
      | none => exact .inr (.inr ⟨rfl, rfl, rfl⟩)
      | some r =>
        obtain ⟨name, op⟩ := r
        cases op with
        | lock session thread
        | tryLock session thread => exact .inl ⟨name, _, rfl, rfl, rfl, rfl, rfl⟩
        | unlock session thread => exact .inr (.inl ⟨name, _, rfl, rfl, rfl, rfl, rfl⟩)
    · have hhead : (obj :: body).head? ≠ some 4 := fun h => h₄ (some.inj h)
      refine .inr (.inr ⟨if_neg hhead, if_neg hhead, ?_⟩)
      by_cases h₅ : obj = 5
      · subst h₅
        exact fencedLock_applySession sm body
      · have hended : endedBy sm (obj :: body) = [] :=
          if_neg fun h => h₅ (some.inj h)
        rw [hended]
        exact fencedLock_apply_other h₄ h₅

theorem account_acquire {name : Str} {o : Owner} (hrel : releaseRequest c = none)
    (hend : endedBy sm c = []) (n : ℕ) :
    account sm c name o n =
      if acquireRequest c = some (name, o) ∧ (sm.apply c).2 ≠ .long 0 then n + 1 else n := by
  rw [account, hrel, hend]
  split
  next => rfl
  next => exact if_neg fun h => (by cases h.1)

theorem account_release {name : Str} {o : Owner} (hacq : acquireRequest c = none)
    (hend : endedBy sm c = []) (n : ℕ) :
    account sm c name o n =
      if releaseRequest c = some (name, o) ∧ (sm.apply c).2 = .bool true then n - 1 else n := by
  rw [account, hacq, hend, if_neg fun h => (by cases h.1)]
  split
  next => rfl
  next => exact if_neg not_mem_nil

theorem account_end {name : Str} {o : Owner} (hacq : acquireRequest c = none)
    (hrel : releaseRequest c = none) (n : ℕ) :
    account sm c name o n = if o.1 ∈ endedBy sm c then 0 else n := by
  rw [account, hacq, hrel, if_neg fun h => (by cases h.1), if_neg fun h => (by cases h.1)]

theorem sound_apply (h : sm.fencedLock.Sound k) (hk : k + 1 < 2 ^ 31) (c : Bytes) :
    (sm.apply c).1.fencedLock.Sound (k + 1) ∧ ∀ name o,
      held (sm.apply c).1.fencedLock name o = account sm c name o (held sm.fencedLock name o) := by
  rcases apply_locks sm c with ⟨name, o, hacq, hrel, hend, hlock, hreply⟩ |
    ⟨name, o, hacq, hrel, hend, hlock, hreply⟩ | ⟨hacq, hrel, hlock⟩
  · rw [hlock]
    refine ⟨h.acquire hk, fun name' o' => ?_⟩
    rw [held_acquire h hk, account_acquire hrel hend, hacq, hreply]
    refine if_congr ?_ rfl rfl
    rw [some.injEq, ne_eq, ne_eq, CpReply.long.injEq]
  · rw [hlock]
    refine ⟨h.release, fun name' o' => ?_⟩
    rw [held_release h, account_release hacq hend, hrel, hreply]
    refine if_congr ?_ rfl rfl
    rw [some.injEq, CpReply.bool.injEq]
  · rw [hlock]
    refine ⟨h.releaseSessions.mono (le_succ k), fun name' o' => ?_⟩
    rw [FencedLockSm.held_releaseSessions, account_end hacq hrel]

theorem nextFence_apply (h : sm.fencedLock.Sound k) (hk : k + 1 < 2 ^ 31) (c : Bytes) :
    sm.fencedLock.nextFence.toInt ≤ (sm.apply c).1.fencedLock.nextFence.toInt ∧
      ∀ name o f, acquireRequest c = some (name, o) → (sm.apply c).2 = .long f →
        f.toInt ≤ (sm.apply c).1.fencedLock.nextFence.toInt := by
  rcases apply_locks sm c with ⟨name, o, hacq, hrel, hend, hlock, hreply⟩ |
    ⟨name, o, hacq, hrel, hend, hlock, hreply⟩ | ⟨hacq, hrel, hlock⟩
  · obtain ⟨hle, hmono, -⟩ := acquire_fence name o.1 o.2 h hk
    rw [hlock, hreply]
    refine ⟨hmono, fun _ _ f _ hf => ?_⟩
    cases hf
    exact hle
  all_goals
    simp only [hlock, nextFence_release, nextFence_releaseSessions]
    refine ⟨Int.le_refl _, fun _ _ f hreq => ?_⟩
    rw [hacq] at hreq
    cases hreq

/-! ## Commands -/

theorem sound_run (commands : List Bytes) (h : sm.fencedLock.Sound k)
    (hk : k + commands.length < 2 ^ 31) :
    (sm.run commands).fencedLock.Sound (k + commands.length) ∧ ∀ name o,
      held (sm.run commands).fencedLock name o =
        outstanding name o sm (held sm.fencedLock name o) commands := by
  induction commands generalizing sm k with
  | nil => exact ⟨h, fun name o => rfl⟩
  | cons c commands ih =>
    rw [length_cons] at hk ⊢
    obtain ⟨hsound, hheld⟩ := sound_apply h (by omega) c
    obtain ⟨hrun, houtstanding⟩ := ih hsound (by omega)
    refine ⟨?_, fun name o => ?_⟩
    · rw [show k + (commands.length + 1) = k + 1 + commands.length by omega]
      exact hrun
    · rw [outstanding, ← hheld name o]
      exact houtstanding name o

theorem nextFence_run (commands : List Bytes) (h : sm.fencedLock.Sound k)
    (hk : k + commands.length < 2 ^ 31) :
    sm.fencedLock.nextFence.toInt ≤ (sm.run commands).fencedLock.nextFence.toInt := by
  induction commands generalizing sm k with
  | nil => exact Int.le_refl _
  | cons c commands ih =>
    rw [length_cons] at hk
    exact Int.le_trans (nextFence_apply h (by omega) c).1
      (ih (sound_apply h (by omega) c).1 (by omega))

end CpSm

theorem sound_start : FencedLockSm.Sound 0 ({} : CpSm).fencedLock where
  count_pos hl := by cases hl
  count_le hl := by cases hl
  fence_pos hl := by cases hl
  fence_le hl := by cases hl
  next_nonneg := by decide
  next_le := by decide

theorem run_concat (sm : CpSm) (before : List Bytes) (c : Bytes) :
    sm.run (before ++ [c]) = ((sm.run before).apply c).1 := by
  rw [run, foldl_append]
  rfl

theorem fence_le_of_before {before' after' : List Bytes} {c' : Bytes} {name' : Str} {o' : Owner}
    {f' : Int64} (hlen : (before' ++ c' :: after').length < 2 ^ 31)
    (hreq : acquireRequest c' = some (name', o'))
    (hreply : ((run {} before').apply c').2 = .long f') :
    f'.toInt ≤ (run {} (before' ++ c' :: after')).fencedLock.nextFence.toInt := by
  rw [length_append, length_cons] at hlen
  have hsound := (sound_run before' sound_start (by omega)).1
  have hfence := (nextFence_apply hsound (by omega) c').2 name' o' f' hreq hreply
  have hmono := nextFence_run after'
    (sound_apply hsound (by omega) c').1 (by omega)
  have hrun : run {} (before' ++ c' :: after') =
      ((run {} before').apply c').1.run after' := by
    rw [run, foldl_append]
    rfl
  rw [hrun]
  exact Int.le_trans hfence hmono

/-- **Exclusion and fencing.** After fewer than `2 ^ 31` commands a lock is held by the owner, if
there is one, that has acquired it more often than it has unlocked it since its session last
ended. A `Lock` or `TryLock` that is answered with a fence makes its owner the holder, and if the
owner did not hold the lock before, the fence is above all fences returned before, whatever the
lock and whoever the owner. -/
theorem fenced_lock_exclusion {commands : List Bytes} (hlen : commands.length < 2 ^ 31) :
    (∀ name o, ownerOf (run {} commands).fencedLock name = some o ↔
      0 < outstanding name o {} 0 commands) ∧
    ∀ before c after, commands = before ++ c :: after → ∀ name o f,
      acquireRequest c = some (name, o) → ((run {} before).apply c).2 = .long f → f ≠ 0 →
      ownerOf (run {} (before ++ [c])).fencedLock name = some o ∧
      (ownerOf (run {} before).fencedLock name ≠ some o →
        ∀ before' c' after', before = before' ++ c' :: after' → ∀ name' o' f',
          acquireRequest c' = some (name', o') →
          ((run {} before').apply c').2 = .long f' → f' < f) := by
  constructor
  · intro name o
    obtain ⟨hsound, hheld⟩ := sound_run commands sound_start (by omega)
    rw [ownerOf_eq_some_iff hsound, hheld name o]
    rfl
  · rintro before c after rfl name o f hreq hreply hne
    rw [length_append, length_cons] at hlen
    have hsound := (sound_run before sound_start (by omega)).1
    rw [run_concat]
    rcases apply_locks (run {} before) c with
      ⟨name₁, o₁, hacq, -, -, hlock, hlong⟩ | ⟨_, _, hacq, -⟩ | ⟨hacq, -⟩
    · rw [hreq] at hacq
      cases hacq
      rw [hreply] at hlong
      cases hlong
      obtain ⟨-, -, hfence⟩ := acquire_fence name o.1 o.2 hsound (by omega)
      obtain ⟨howner, hfresh⟩ := hfence hne
      rw [hlock]
      refine ⟨howner, fun hnot before' c' after' hsplit name' o' f' hreq' hreply' => ?_⟩
      rw [Int64.lt_iff_toInt_lt]
      subst hsplit
      exact Int.lt_of_le_of_lt (fence_le_of_before (by omega) hreq' hreply') (hfresh hnot)
    all_goals
      rw [hacq] at hreq
      cases hreq

def reentry : List Bytes :=
  [sessCommand .create, flCommand lockName (.lock 1 7), flCommand lockName (.tryLock 1 7),
    flCommand lockName (.unlock 1 7)]

set_option maxRecDepth 100000 in
theorem fenced_lock_exclusion_reentry :
    0 < outstanding lockName (1, 7) {} 0 reentry ∧
      ownerOf (run {} reentry).fencedLock lockName = some (1, 7) := by
  have houtstanding : 0 < outstanding lockName (1, 7) {} 0 reentry := by decide +kernel
  have hlen : reentry.length < 2 ^ 31 := by decide
  exact ⟨houtstanding, ((fenced_lock_exclusion hlen).1 lockName (1, 7)).mpr houtstanding⟩

end BonsaiGrid.Cp
