import BonsaiGrid.Lib.Dict
import BonsaiGrid.Lib.Trace
import BonsaiGrid.Lib.Utf8

/-!
# Locks on keys

The store keeps for each locked key the thread that owns it, how often, and who waits for it.
-/

namespace BonsaiGrid.Store

abbrev LockKey := Str × Bytes

abbrev Waiter := UInt64 × Int64 × Int64

structure LockState where
  owner : Int64
  count : UInt32
  waiters : List Waiter
deriving DecidableEq

abbrev Locks := Dict LockKey LockState

namespace Locks

variable (l : Locks) (k : LockKey) (tid : Int64)

def tryLock : Locks × Bool :=
  match l.lookup k with
  | some s => if s.owner = tid then (l.insert k { s with count := s.count + 1 }, true) else (l, false)
  | none => (l.insert k ⟨tid, 1, []⟩, true)

def lockOrWait (conn : UInt64) (corr : Int64) : Locks × Bool :=
  match l.lookup k with
  | some s =>
    if s.owner = tid then (l.insert k { s with count := s.count + 1 }, true)
    else (l.insert k { s with waiters := s.waiters ++ [(conn, corr, tid)] }, false)
  | none => (l.insert k ⟨tid, 1, []⟩, true)

def unlock : Locks × Option Waiter :=
  match l.lookup k with
  | some s =>
    if s.owner = tid then
      if s.count - 1 = 0 then
        match s.waiters with
        | w :: waiters => (l.insert k ⟨w.2.2, 1, waiters⟩, some w)
        | [] => (l.erase k, none)
      else (l.insert k { s with count := s.count - 1 }, none)
    else (l, none)
  | none => (l, none)

end Locks

end BonsaiGrid.Store

namespace BonsaiGrid.Server

open Store Function Nat AList List

abbrev Party := UInt64 × Int64

inductive LockCall where
  | lock (k : LockKey) (tid corr : Int64)
  | tryLock (k : LockKey) (tid : Int64)
  | unlock (k : LockKey) (tid : Int64)
  | close

structure LockWorld where
  locks : Locks
  /-- how often a party has acquired a key and not released it -/
  held : LockKey → Party → ℕ
  /-- the waiters in the order in which they asked -/
  asked : LockKey → List Waiter
  /-- the waiters in the order in which they were granted the key -/
  served : LockKey → List Waiter
  closed : List UInt64

variable (w : LockWorld)

namespace LockWorld

def init : LockWorld := ⟨∅, fun _ _ => 0, fun _ => [], fun _ => [], []⟩

def acquire (k : LockKey) (p : Party) : LockWorld :=
  { w with held := update w.held k (update (w.held k) p (w.held k p + 1)) }

def release (k : LockKey) (p : Party) : LockWorld :=
  { w with held := update w.held k (update (w.held k) p (w.held k p - 1)) }

def await (k : LockKey) (x : Waiter) : LockWorld :=
  { w with asked := update w.asked k (w.asked k ++ [x]) }

def serve (k : LockKey) (x : Waiter) : LockWorld :=
  { w.acquire k (x.1, x.2.2) with served := update w.served k (w.served k ++ [x]) }

def exec (c : UInt64 × LockCall) : LockWorld :=
  match c.2 with
  | .lock k tid corr =>
    let r := w.locks.lockOrWait k tid c.1 corr
    let w := { w with locks := r.1 }
    if r.2 then w.acquire k (c.1, tid) else w.await k (c.1, corr, tid)
  | .tryLock k tid =>
    let r := w.locks.tryLock k tid
    let w := { w with locks := r.1 }
    if r.2 then w.acquire k (c.1, tid) else w
  | .unlock k tid =>
    let r := w.locks.unlock k tid
    let w := { w with locks := r.1 }.release k (c.1, tid)
    r.2.elim w (w.serve k)
  | .close => { w with closed := c.1 :: w.closed }

def waiting (k : LockKey) : List Waiter :=
  ((w.locks.lookup k).map LockState.waiters).getD []

/-- The connection is open and no other one holds the key under its thread id. -/
structure MayAsk (w : LockWorld) (conn : UInt64) (k : LockKey) (tid : Int64) : Prop where
  isOpen : conn ∉ w.closed
  own : ∀ c ≠ conn, w.held k (c, tid) = 0

structure MayLock (w : LockWorld) (conn : UInt64) (k : LockKey) (tid : Int64) : Prop
    extends w.MayAsk conn k tid where
  room : ∀ s ∈ w.locks.lookup k, s.owner = tid → s.count.toNat + 1 < 2 ^ 32

def Allows (c : UInt64 × LockCall) : Prop :=
  match c.2 with
  | .lock k tid _ => w.MayLock c.1 k tid
  | .tryLock k tid => w.MayLock c.1 k tid
  | .unlock k tid => w.MayAsk c.1 k tid
  | .close => ∀ k, (∀ tid, w.held k (c.1, tid) = 0) ∧ ∀ x ∈ w.waiting k, x.1 ≠ c.1

/-! ## What holds in every state -/

/-- Locks exclude: a key is held by one party at most, which the store knows as its owner with its
count; the waiters are served in their order and once each; none waits for a free key; and no
closed connection holds a key or waits for one. -/
structure Exclusive (w : LockWorld) : Prop where
  one : ∀ k p q, 0 < w.held k p → 0 < w.held k q → p = q
  kept : ∀ k p, 0 < w.held k p →
    ∃ s, w.locks.lookup k = some s ∧ s.owner = p.2 ∧ s.count.toNat = w.held k p
  fifo : ∀ k, w.asked k = w.served k ++ w.waiting k
  free : ∀ k, (∀ p, w.held k p = 0) → w.locks.lookup k = none
  closed : ∀ conn ∈ w.closed, ∀ k,
    (∀ tid, w.held k (conn, tid) = 0) ∧ ∀ x ∈ w.waiting k, x.1 ≠ conn

/-- The same for one key, from what the store and the clients have for it. -/
structure KeyInv (closed : List UInt64) (o : Option LockState) (held : Party → ℕ)
    (asked served : List Waiter) : Prop where
  free : o = none → ∀ p, held p = 0
  owned : ∀ s, o = some s → ∃ conn, conn ∉ closed ∧ 0 < s.count.toNat ∧
    held (conn, s.owner) = s.count.toNat ∧ ∀ p ≠ (conn, s.owner), held p = 0
  fifo : asked = served ++ (o.map LockState.waiters).getD []
  waiters : ∀ s, o = some s → ∀ x ∈ s.waiters, x.1 ∉ closed

def Inv : Prop :=
  ∀ k, KeyInv w.closed (w.locks.lookup k) (w.held k) (w.asked k) (w.served k)

namespace KeyInv

variable {closed : List UInt64} {s : LockState} {held : Party → ℕ} {asked served : List Waiter}
  {conn : UInt64} {tid corr : Int64}

theorem enter (h : KeyInv closed none held asked served) (hopen : conn ∉ closed) :
    KeyInv closed (some ⟨tid, 1, []⟩) (update held (conn, tid) (held (conn, tid) + 1))
      asked served where
  free := by simp
  owned := by
    rintro s ⟨⟩
    refine ⟨conn, hopen, Nat.one_pos, ?_, fun p hp => ?_⟩
    · rw [update_self, h.free rfl]
      rfl
    · rw [update_of_ne hp, h.free rfl]
  fifo := h.fifo
  waiters := by
    rintro s ⟨⟩ x hx
    cases hx

section

variable (h : KeyInv closed (some s) held asked served)

include h

theorem holder_eq
    (hown : ∀ c ≠ conn, held (c, s.owner) = 0) :
    0 < s.count.toNat ∧ held (conn, s.owner) = s.count.toNat ∧
      (∀ p ≠ (conn, s.owner), held p = 0) := by
  obtain ⟨c, -, hpos, hheld, hrest⟩ := h.owned s rfl
  by_cases hc : c = conn
  · rw [← hc]
    exact ⟨hpos, hheld, hrest⟩
  · rw [hown c hc] at hheld
    omega

theorem recount {count : UInt32} {n : ℕ} (hopen : conn ∉ closed)
    (hown : ∀ c ≠ conn, held (c, s.owner) = 0) (hpos : 0 < count.toNat) (hn : n = count.toNat) :
    KeyInv closed (some { s with count }) (update held (conn, s.owner) n) asked
      served where
  free := by simp
  owned := by
    rintro s' ⟨⟩
    refine ⟨conn, hopen, hpos, ?_, fun p hp => ?_⟩
    · rw [update_self, hn]
    · rw [update_of_ne hp]
      exact (h.holder_eq hown).2.2 p hp
  fifo := h.fifo
  waiters := by
    rintro s' ⟨⟩ x hx
    exact h.waiters s rfl x hx

theorem reenter (hopen : conn ∉ closed)
    (hown : ∀ c ≠ conn, held (c, s.owner) = 0) (hroom : s.count.toNat + 1 < 2 ^ 32) :
    KeyInv closed (some { s with count := s.count + 1 })
      (update held (conn, s.owner) (held (conn, s.owner) + 1)) asked served := by
  have hcount : (s.count + 1).toNat = s.count.toNat + 1 := by
    exact mod_eq_of_lt hroom
  exact h.recount hopen hown (by omega) (by rw [hcount, (h.holder_eq hown).2.1])

theorem pred_holder (hown : ∀ c ≠ conn, held (c, s.owner) = 0) :
    held (conn, s.owner) - 1 = (s.count - 1).toNat := by
  obtain ⟨hpos, hheld, -⟩ := h.holder_eq hown
  have hle : (1 : UInt32) ≤ s.count := UInt32.le_iff_toNat_le.2 hpos
  rw [hheld, UInt32.toNat_sub_of_le _ _ hle]
  rfl

theorem await (hopen : conn ∉ closed) :
    KeyInv closed (some { s with waiters := s.waiters ++ [(conn, corr, tid)] }) held
      (asked ++ [(conn, corr, tid)]) served where
  free := by simp
  owned := by
    rintro s' ⟨⟩
    exact h.owned s rfl
  fifo := by simp [h.fifo]
  waiters := by
    rintro s' ⟨⟩
    exact forall_mem_concat (h.waiters s rfl) hopen

theorem release (hopen : conn ∉ closed)
    (hown : ∀ c ≠ conn, held (c, s.owner) = 0) (hcount : s.count - 1 ≠ 0) :
    KeyInv closed (some { s with count := s.count - 1 })
      (update held (conn, s.owner) (held (conn, s.owner) - 1)) asked served :=
  h.recount hopen hown (Nat.pos_of_ne_zero fun h0 => hcount (UInt32.toNat_inj.1 h0))
    (h.pred_holder hown)

theorem held_release
    (hown : ∀ c ≠ conn, held (c, s.owner) = 0) (hcount : s.count - 1 = 0) (p : Party) :
    update held (conn, s.owner) (held (conn, s.owner) - 1) p = 0 := by
  by_cases hp : p = (conn, s.owner)
  · rw [hp, update_self, h.pred_holder hown, hcount]
    rfl
  · rw [update_of_ne hp]
    exact (h.holder_eq hown).2.2 p hp

end

theorem leave (hs : s.waiters = []) (h : KeyInv closed (some s) held asked served)
    {held' : Party → ℕ} (hheld : ∀ p, held' p = 0) : KeyInv closed none held' asked served where
  free := fun _ => hheld
  owned := by simp
  fifo := by simpa [hs] using h.fifo
  waiters := by simp

theorem serve {x : Waiter} {xs : List Waiter} (hs : s.waiters = x :: xs)
    (h : KeyInv closed (some s) held asked served) {held' : Party → ℕ} (hheld : ∀ p, held' p = 0) :
    KeyInv closed (some ⟨x.2.2, 1, xs⟩)
      (update held' (x.1, x.2.2) (held' (x.1, x.2.2) + 1)) asked (served ++ [x]) where
  free := by simp
  owned := by
    rintro s' ⟨⟩
    refine ⟨x.1, h.waiters s rfl x (by simp [hs]), Nat.one_pos, ?_, fun p hp => ?_⟩
    · rw [update_self, hheld]
      rfl
    · rw [update_of_ne hp, hheld]
  fifo := by simpa [hs] using h.fifo
  waiters := by
    rintro s' ⟨⟩ y hy
    exact h.waiters s rfl y (by rw [hs]; exact mem_cons_of_mem _ hy)

end KeyInv

/-! ## Steps -/

section Steps

variable {w : LockWorld} {conn : UInt64} {k : LockKey} {tid corr : Int64}

theorem Inv.changeAt {w' : LockWorld} (h : w.Inv) (k : LockKey) (hclosed : w'.closed = w.closed)
    (hother : ∀ k' ≠ k, w'.locks.lookup k' = w.locks.lookup k' ∧ w'.held k' = w.held k' ∧
      w'.asked k' = w.asked k' ∧ w'.served k' = w.served k')
    (hk : KeyInv w.closed (w'.locks.lookup k) (w'.held k) (w'.asked k) (w'.served k)) : w'.Inv := by
  intro k'
  rw [hclosed]
  by_cases heq : k' = k
  · rw [heq]
    exact hk
  · obtain ⟨hl, hh, ha, hs⟩ := hother k' heq
    rw [hl, hh, ha, hs]
    exact h k'

section

variable (h : w.Inv) (hok : w.MayLock conn k tid)

include h hok

theorem Inv.granted :
    (w.locks.lookup k = none → Inv { w.acquire k (conn, tid) with
      locks := w.locks.insert k ⟨tid, 1, []⟩ }) ∧
    (∀ s, w.locks.lookup k = some s → s.owner = tid → Inv { w.acquire k (conn, tid) with
      locks := w.locks.insert k { s with count := s.count + 1 } }) := by
  have hk := h k
  constructor
  · intro hnone
    refine h.changeAt k rfl (fun k' hk' => ?_) ?_
    · simp [acquire, hk', lookup_insert_ne hk']
    · rw [hnone] at hk
      simpa [acquire] using hk.enter hok.isOpen
  · rintro s hs rfl
    refine h.changeAt k rfl (fun k' hk' => ?_) ?_
    · simp [acquire, hk', lookup_insert_ne hk']
    · rw [hs] at hk
      simpa [acquire] using hk.reenter hok.isOpen hok.own (hok.room s hs rfl)

theorem Inv.lock :
    (w.exec (conn, .lock k tid corr)).Inv := by
  have hk := h k
  rw [exec]
  dsimp only
  rw [Locks.lockOrWait]
  cases hl : w.locks.lookup k with
  | none => exact (h.granted hok).1 hl
  | some s =>
    dsimp only
    split
    next howner => exact (h.granted hok).2 s hl howner
    next =>
      refine h.changeAt k rfl (fun k' hk' => ?_) ?_
      · simp [await, hk', lookup_insert_ne hk']
      · rw [hl] at hk
        simpa [await] using hk.await hok.isOpen

theorem Inv.tryLock :
    (w.exec (conn, .tryLock k tid)).Inv := by
  rw [exec]
  dsimp only
  rw [Locks.tryLock]
  cases hl : w.locks.lookup k with
  | none => exact (h.granted hok).1 hl
  | some s =>
    dsimp only
    split
    next howner => exact (h.granted hok).2 s hl howner
    next => exact h

end

theorem Inv.release_none (h : w.Inv) (hheld : w.held k (conn, tid) = 0) :
    (w.release k (conn, tid)).Inv := by
  have hsame : w.held k (conn, tid) - 1 = w.held k (conn, tid) := by rw [hheld]
  have hrelease : w.release k (conn, tid) = w := by
    rw [release, hsame, update_eq_self, update_eq_self]
  rw [hrelease]
  exact h

theorem Inv.unlock (h : w.Inv) (hok : w.MayAsk conn k tid) : (w.exec (conn, .unlock k tid)).Inv := by
  have hk := h k
  rw [exec]
  dsimp only
  rw [Locks.unlock]
  cases hl : w.locks.lookup k with
  | none =>
    rw [hl] at hk
    exact h.release_none (hk.free rfl _)
  | some s =>
    rw [hl] at hk
    dsimp only
    split
    next howner =>
      have hown : ∀ c ≠ conn, w.held k (c, s.owner) = 0 := howner ▸ hok.own
      subst howner
      split
      next hcount =>
        have hnobody := hk.held_release hown hcount
        cases hs : s.waiters with
        | nil =>
          refine h.changeAt k rfl (fun k' hk' => ?_) ?_
          · simp [release, hk', lookup_erase_ne hk']
          · simpa [release] using hk.leave hs hnobody
        | cons x xs =>
          refine h.changeAt k rfl (fun k' hk' => ?_) ?_
          · simp [serve, acquire, release, hk',
              lookup_insert_ne hk']
          · simpa [serve, acquire, release] using hk.serve hs hnobody
      next hcount =>
        refine h.changeAt k rfl (fun k' hk' => ?_) ?_
        · simp [release, hk', lookup_insert_ne hk']
        · simpa [release] using hk.release hok.isOpen hown hcount
    next howner =>
      obtain ⟨c, -, -, -, hrest⟩ := hk.owned s rfl
      exact h.release_none (hrest _ fun heq => howner (Prod.mk.inj heq).2.symm)

theorem Inv.close (h : w.Inv) (hok : w.Allows (conn, .close)) : (w.exec (conn, .close)).Inv := by
  intro k
  have hk := h k
  obtain ⟨hheld, hwait⟩ := hok k
  refine ⟨hk.free, fun s hs => ?_, hk.fifo, fun s hs x hx => ?_⟩
  · obtain ⟨c, hc, hpos, hcount, hrest⟩ := hk.owned s hs
    refine ⟨c, ?_, hpos, hcount, hrest⟩
    change c ∉ conn :: w.closed
    rw [mem_cons, not_or]
    refine ⟨?_, hc⟩
    rintro rfl
    rw [hheld s.owner] at hcount
    omega
  · change x.1 ∉ conn :: w.closed
    rw [mem_cons, not_or]
    refine ⟨hwait x ?_, hk.waiters s hs x hx⟩
    have hlookup : w.locks.lookup k = some s := hs
    simpa [waiting, hlookup] using hx

theorem Inv.exec (h : w.Inv) (c : UInt64 × LockCall) (hok : w.Allows c) : (w.exec c).Inv := by
  obtain ⟨conn, call⟩ := c
  cases call with
  | lock k tid corr => exact h.lock hok
  | tryLock k tid => exact h.tryLock hok
  | unlock k tid => exact h.unlock hok
  | close => exact h.close hok

theorem inv_init : init.Inv := fun _ => ⟨fun _ _ => rfl, by simp [init], rfl, by simp [init]⟩

theorem Inv.exclusive (h : w.Inv) : w.Exclusive where
  one := by
    intro k p q hp hq
    cases hl : w.locks.lookup k with
    | none => exact absurd ((h k).free hl p) (ne_of_gt hp)
    | some s =>
      obtain ⟨c, -, -, -, hrest⟩ := (h k).owned s hl
      rw [not_imp_comm.1 (hrest p) (ne_of_gt hp), not_imp_comm.1 (hrest q) (ne_of_gt hq)]
  kept := by
    intro k p hp
    cases hl : w.locks.lookup k with
    | none => exact absurd ((h k).free hl p) (ne_of_gt hp)
    | some s =>
      obtain ⟨c, -, -, hcount, hrest⟩ := (h k).owned s hl
      have hp' := not_imp_comm.1 (hrest p) (ne_of_gt hp)
      exact ⟨s, rfl, by rw [hp'], by rw [hp', hcount]⟩
  fifo := fun k => (h k).fifo
  free := by
    intro k hfree
    cases hl : w.locks.lookup k with
    | none => rfl
    | some s =>
      obtain ⟨c, -, hpos, hcount, -⟩ := (h k).owned s hl
      rw [hfree] at hcount
      omega
  closed := by
    intro conn hconn k
    cases hl : w.locks.lookup k with
    | none => exact ⟨fun tid => (h k).free hl _, by simp [waiting, hl]⟩
    | some s =>
      obtain ⟨c, hc, -, -, hrest⟩ := (h k).owned s hl
      refine ⟨fun tid => hrest _ ?_, fun x hx heq => ?_⟩
      · rintro heq
        exact hc ((Prod.mk.inj heq).1 ▸ hconn)
      · have hmem : x ∈ s.waiters := by simpa [waiting, hl] using hx
        exact (h k).waiters s hl x hmem (heq ▸ hconn)

end Steps

end LockWorld

/-- In every run whose steps are allowed locks exclude. -/
theorem locks_exclude (w : LockWorld)
    (h : Trace.Reaches LockWorld.exec LockWorld.Allows LockWorld.init w) : w.Exclusive :=
  (h.invariant (fun _ c hw hok => hw.exec c hok) LockWorld.inv_init).exclusive

/-! ## Two connections -/

theorem valid_m : Utf8.valid [0x6d] = true := by decide

def lockKey : LockKey := (⟨[0x6d], valid_m⟩, [1])

def LockWorld.mayLock (conn : UInt64) (k : LockKey) (tid : Int64) : Bool :=
  !w.closed.contains conn && (w.locks.lookup k).all fun s =>
    s.count.toNat + 1 < 2 ^ 32 && (s.owner ≠ tid || 0 < w.held k (conn, tid))

theorem LockWorld.Inv.mayLock {w : LockWorld} (h : w.Inv) {conn : UInt64} {k : LockKey}
    {tid : Int64} (hcheck : w.mayLock conn k tid = true) : w.MayLock conn k tid := by
  simp only [LockWorld.mayLock, Bool.and_eq_true, Bool.not_eq_true', contains_eq_mem,
    decide_eq_false_iff_not] at hcheck
  refine ⟨⟨hcheck.1, fun c hc => ?_⟩, fun s hs _ => ?_⟩
  · cases hl : w.locks.lookup k with
    | none => exact (h k).free hl _
    | some s =>
      obtain ⟨c', -, -, -, hrest⟩ := (h k).owned s hl
      simp only [hl, Option.all_some, Bool.and_eq_true, Bool.or_eq_true,
        decide_eq_true_eq] at hcheck
      rcases hcheck.2.2 with hne | hpos
      · exact hrest _ fun heq => hne (Prod.mk.inj heq).2.symm
      · have hself := not_imp_comm.1 (hrest (conn, tid)) (ne_of_gt hpos)
        exact hrest _ fun heq => hc ((Prod.mk.inj heq).1.trans (Prod.mk.inj hself).1.symm)
  · simp only [Option.mem_def.1 hs, Option.all_some, Bool.and_eq_true, decide_eq_true_eq] at hcheck
    exact hcheck.2.1

def worldAfter (calls : List (UInt64 × LockCall)) : LockWorld :=
  calls.foldl LockWorld.exec LockWorld.init

def handoverCalls : List (UInt64 × LockCall) :=
  [(1, .lock lockKey 7 0), (1, .tryLock lockKey 7), (2, .lock lockKey 8 5), (1, .unlock lockKey 7),
    (1, .unlock lockKey 7)]

theorem allowed_handover :
    Trace.Allowed LockWorld.exec LockWorld.Allows LockWorld.init handoverCalls := by
  have h0 := LockWorld.inv_init
  have a0 : LockWorld.Allows _ (1, .lock lockKey 7 0) := h0.mayLock (by decide +kernel)
  have h1 := h0.exec _ a0
  have a1 : LockWorld.Allows _ (1, .tryLock lockKey 7) := h1.mayLock (by decide +kernel)
  have h2 := h1.exec _ a1
  have a2 : LockWorld.Allows _ (2, .lock lockKey 8 5) := h2.mayLock (by decide +kernel)
  have h3 := h2.exec _ a2
  have a3 : LockWorld.Allows _ (1, .unlock lockKey 7) := (h3.mayLock (by decide +kernel)).toMayAsk
  have h4 := h3.exec _ a3
  have a4 : LockWorld.Allows _ (1, .unlock lockKey 7) := (h4.mayLock (by decide +kernel)).toMayAsk
  exact ⟨a0, a1, a2, a3, a4, trivial⟩

theorem locks_exclude_handover :
    (worldAfter handoverCalls).Exclusive ∧ (worldAfter handoverCalls).held lockKey (2, 8) = 1 :=
  ⟨locks_exclude _ (.of_allowed handoverCalls allowed_handover), by decide +kernel⟩

def sharedThread : LockWorld := worldAfter [(1, .lock lockKey 7 0), (2, .lock lockKey 7 0)]

def closedOwner : LockWorld := worldAfter [(1, .lock lockKey 7 0), (1, .close)]

def closedWaiter : LockWorld :=
  worldAfter [(1, .lock lockKey 7 0), (2, .lock lockKey 8 5), (2, .close), (1, .unlock lockKey 7)]

/-- Two connections hold a key at once, a closed connection holds a key, and a key is granted to a
closed connection. -/
theorem locks_do_not_exclude :
    (sharedThread.held lockKey (1, 7) = 1 ∧ sharedThread.held lockKey (2, 7) = 1) ∧
    (1 ∈ closedOwner.closed ∧ closedOwner.held lockKey (1, 7) = 1 ∧
      (closedOwner.locks.lookup lockKey).map LockState.owner = some 7) ∧
    (2 ∈ closedWaiter.closed ∧ closedWaiter.held lockKey (2, 8) = 1 ∧
      (closedWaiter.locks.lookup lockKey).map LockState.owner = some 8) := by
  decide +kernel

end BonsaiGrid.Server
