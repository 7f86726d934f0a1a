import Mathlib.Data.List.GetD
import Mathlib.Data.List.Induction
import Mathlib.Data.List.Nodup
import Mathlib.Data.List.Perm.Basic

/-!
# Open addressing with linear probing

A table of slots that are empty, deleted or full. An item is looked for from the slot its hash
gives, one slot after the other and round the end of the table, up to the first empty slot.
-/

namespace Probing

open List Nat

variable {α κ : Type*}

inductive Slot (α : Type*) where
  | empty
  | tombstone
  | full (a : α)
deriving DecidableEq, Repr

namespace Slot

def item : Slot α → Option α
  | full a => some a
  | _ => none

def occupied : Slot α → Bool
  | full _ => true
  | _ => false

def used : Slot α → Bool
  | empty => false
  | _ => true

def deleted : Slot α → Bool
  | tombstone => true
  | _ => false

end Slot

def slotAt (t : List (Slot α)) (i : ℕ) : Slot α := t.getD i .empty

def items (t : List (Slot α)) : List α := t.filterMap Slot.item

def usedSlots (t : List (Slot α)) : ℕ := t.countP Slot.used

def deletedSlots (t : List (Slot α)) : ℕ := t.countP Slot.deleted

/-- How a walk over the slots ends: at an item that is looked for, at an empty slot
(the first deleted one on the way is then free too), or not at all. -/
inductive Probe (α : Type*) where
  | found (i : ℕ) (a : α)
  | vacant (i : ℕ)
  | spins
deriving DecidableEq, Repr

def probe (t : List (Slot α)) (hit : α → Bool) (next : ℕ → ℕ) : ℕ → ℕ → Option ℕ → Probe α
  | 0, _, _ => .spins
  | fuel + 1, i, free =>
    match slotAt t i with
    | .empty => .vacant (free.getD i)
    | .tombstone => probe t hit next fuel (next i) (free.or (some i))
    | .full a => if hit a then .found i a else probe t hit next fuel (next i) free

def place (t : List (Slot α)) (next : ℕ → ℕ) : ℕ → ℕ → Option ℕ
  | 0, _ => none
  | fuel + 1, i => if (slotAt t i).occupied then place t next fuel (next i) else some i

def reinsert (home : α → ℕ) (next : ℕ → ℕ) (t : List (Slot α)) (a : α) : List (Slot α) :=
  match place t next t.length (home a) with
  | some i => t.set i (.full a)
  | none => t

variable (p : α → Bool)

def wipe (t : List (Slot α)) : List (Slot α) :=
  t.map fun
    | .full a => if p a then .tombstone else .full a
    | s => s

section Slots

variable {t : List (Slot α)} {i j : ℕ} {a b : α} {s : Slot α}

theorem slotAt_set (hi : i < t.length) : slotAt (t.set i s) j = if i = j then s else slotAt t j := by
  rw [slotAt, getD_eq_getElem?_getD, getElem?_set, slotAt]
  split
  · rfl
  · rfl

theorem slotAt_set_self (hi : i < t.length) : slotAt (t.set i s) i = s := by
  rw [slotAt_set hi, if_pos rfl]

theorem lt_length_of_slotAt (h : slotAt t i ≠ .empty) : i < t.length := by
  by_contra hge
  exact h (getD_eq_default _ _ (Nat.le_of_not_lt hge))

theorem lt_length_of_full (h : slotAt t i = .full a) : i < t.length :=
  lt_length_of_slotAt (by simp [h])

theorem perm_eraseIdx (hi : i < t.length) : t.Perm (slotAt t i :: t.eraseIdx i) := by
  rw [slotAt, getD_eq_getElem _ _ hi]
  exact (getElem_cons_eraseIdx_perm hi).symm

theorem items_perm (hi : i < t.length) :
    (items t).Perm ((slotAt t i).item.toList ++ items (t.eraseIdx i)) := by
  refine ((perm_eraseIdx hi).filterMap _).trans (List.Perm.of_eq ?_)
  rw [filterMap_cons]
  cases (slotAt t i).item with
  | none | some a => rfl

theorem items_set_perm (hi : i < t.length) :
    (items (t.set i s)).Perm (s.item.toList ++ items (t.eraseIdx i)) := by
  have h := items_perm (t := t.set i s) (i := i) (by rwa [length_set])
  rwa [slotAt_set_self hi, eraseIdx_set_eq] at h

theorem items_set_full (hi : i < t.length) (hfree : (slotAt t i).occupied = false) :
    (items (t.set i (.full a))).Perm (a :: items t) := by
  have hnone : (slotAt t i).item.toList = [] := by
    cases hs : slotAt t i with
    | full b => rw [hs] at hfree; cases hfree
    | empty | tombstone => rfl
  have hitems := items_perm hi
  rw [hnone] at hitems
  exact (items_set_perm hi).trans (hitems.symm.cons a)

theorem items_set_tombstone (ha : slotAt t i = .full a) :
    (items t).Perm (a :: items (t.set i .tombstone)) := by
  have hi : i < t.length := lt_length_of_full ha
  have hitems := items_perm hi
  rw [ha] at hitems
  exact hitems.trans ((items_set_perm (s := .tombstone) hi).symm.cons a)

theorem items_set_replace (ha : slotAt t i = .full a) :
    (items (t.set i (.full b))).Perm (b :: items (t.set i .tombstone)) := by
  have hi : i < t.length := lt_length_of_full ha
  exact (items_set_perm hi).trans ((items_set_perm (s := .tombstone) hi).symm.cons b)

theorem mem_items : a ∈ items t ↔ ∃ i, slotAt t i = .full a := by
  rw [items, mem_filterMap]
  constructor
  · rintro ⟨s, hs, ha⟩
    obtain ⟨i, hi, rfl⟩ := mem_iff_getElem.1 hs
    refine ⟨i, ?_⟩
    rw [slotAt, getD_eq_getElem _ _ hi]
    cases hslot : t[i] with
    | full b =>
      rw [hslot] at ha
      rw [Option.some.inj ha]
    | empty | tombstone => rw [hslot] at ha; cases ha
  · rintro ⟨i, hi⟩
    have hlt : i < t.length := lt_length_of_full hi
    rw [slotAt, getD_eq_getElem _ _ hlt] at hi
    exact ⟨t[i], getElem_mem hlt, by rw [hi]; rfl⟩

theorem usedSlots_set (hi : i < t.length) (hs : s.used = true) :
    usedSlots (t.set i s) = usedSlots t + if (slotAt t i).used = true then 0 else 1 := by
  have hset := (set_perm_cons_eraseIdx hi s).countP_eq Slot.used
  have ht := (perm_eraseIdx hi).countP_eq Slot.used
  rw [countP_cons, if_pos hs] at hset
  rw [countP_cons] at ht
  rw [usedSlots, usedSlots, ht]
  split <;> omega

theorem deletedSlots_set (hi : i < t.length) :
    deletedSlots (t.set i s) + (if (slotAt t i).deleted = true then 1 else 0) =
      deletedSlots t + if s.deleted = true then 1 else 0 := by
  have hset := (set_perm_cons_eraseIdx hi s).countP_eq Slot.deleted
  have ht := (perm_eraseIdx hi).countP_eq Slot.deleted
  rw [countP_cons] at hset ht
  rw [deletedSlots, deletedSlots]
  omega

theorem deletedSlots_set_full [DecidableEq α] (hi : i < t.length)
    (hfree : (slotAt t i).occupied = false) :
    deletedSlots (t.set i (.full a)) =
      if slotAt t i = .tombstone then deletedSlots t - 1 else deletedSlots t := by
  have hset := deletedSlots_set (s := .full a) hi
  cases hs : slotAt t i with
  | empty =>
    rw [hs] at hset
    change deletedSlots (t.set i (.full a)) + 0 = deletedSlots t + 0 at hset
    rw [if_neg (by simp)]
    omega
  | tombstone =>
    rw [hs] at hset
    change deletedSlots (t.set i (.full a)) + 1 = deletedSlots t + 0 at hset
    rw [if_pos rfl]
    omega
  | full b =>
    rw [hs] at hfree
    cases hfree

theorem deletedSlots_set_tombstone (ha : slotAt t i = .full a) :
    deletedSlots (t.set i .tombstone) = deletedSlots t + 1 := by
  have hset := deletedSlots_set (s := .tombstone) (lt_length_of_full ha)
  rw [ha] at hset
  exact hset

theorem deletedSlots_set_replace (ha : slotAt t i = .full a) :
    deletedSlots (t.set i (.full b)) = deletedSlots t := by
  have hset := deletedSlots_set (s := .full b) (lt_length_of_full ha)
  rw [ha] at hset
  exact hset

theorem usedSlots_eq (t : List (Slot α)) : usedSlots t = (items t).length + deletedSlots t := by
  induction t with
  | nil => rfl
  | cons s t ih =>
    rw [usedSlots, items, deletedSlots, countP_cons, countP_cons, filterMap_cons]
    rw [usedSlots, items, deletedSlots] at ih
    cases s with
    | empty => exact ih
    | tombstone =>
      simp only [Slot.used, Slot.item, Slot.deleted, if_true]
      omega
    | full a =>
      simp only [Slot.used, Slot.item, Slot.deleted, if_true, length_cons]
      simp only [Bool.false_eq_true, if_false]
      omega

end Slots

section Walk

variable {t : List (Slot α)} {hit : α → Bool} {h d : ℕ}

def walkSlot (t : List (Slot α)) (h d : ℕ) : ℕ := (h + d) % t.length

/-- The walk from the home slot of `h` gets past the first `d` slots. -/
def Passed (t : List (Slot α)) (hit : α → Bool) (h d : ℕ) : Prop :=
  ∀ x < d, slotAt t (walkSlot t h x) ≠ .empty ∧
    ∀ a, slotAt t (walkSlot t h x) = .full a → hit a = false

/-- Slot `i` is reached from the home slot of `h` over slots that are not empty. -/
def Reached (t : List (Slot α)) (h i : ℕ) : Prop :=
  ∃ d, i = walkSlot t h d ∧ ∀ x < d, slotAt t (walkSlot t h x) ≠ .empty

theorem walkSlot_succ (t : List (Slot α)) (h d : ℕ) :
    (walkSlot t h d + 1) % t.length = walkSlot t h (d + 1) := by
  rw [walkSlot, walkSlot, mod_add_mod, Nat.add_assoc]

theorem Passed.succ (hp : Passed t hit h d) (hne : slotAt t (walkSlot t h d) ≠ .empty)
    (hmiss : ∀ a, slotAt t (walkSlot t h d) = .full a → hit a = false) :
    Passed t hit h (d + 1) := by
  intro x hx
  rcases Nat.lt_succ_iff_lt_or_eq.1 hx with hx | rfl
  · exact hp x hx
  · exact ⟨hne, hmiss⟩

def Ended (t : List (Slot α)) (hit : α → Bool) (h : ℕ) : Probe α → Prop
  | .found i a => slotAt t i = .full a ∧ hit a = true
  | .vacant j => ∃ d, Passed t hit h d ∧ slotAt t (walkSlot t h d) = .empty ∧
      ∃ x ≤ d, j = walkSlot t h x ∧ (slotAt t j).occupied = false
  | .spins => True

theorem probe_ended (hit : α → Bool) (h fuel : ℕ) {d : ℕ} {free : Option ℕ}
    (hp : Passed t hit h d)
    (hfree : ∀ j ∈ free, ∃ x < d, j = walkSlot t h x ∧ (slotAt t j).occupied = false) :
    Ended t hit h (probe t hit (fun i => (i + 1) % t.length) fuel (walkSlot t h d) free) := by
  induction fuel generalizing d free with
  | zero => exact trivial
  | succ fuel ih =>
    rw [probe]
    cases hs : slotAt t (walkSlot t h d) with
    | empty =>
      refine ⟨d, hp, hs, ?_⟩
      cases free with
      | none => exact ⟨d, Nat.le_refl d, rfl, by rw [Option.getD_none, hs]; rfl⟩
      | some j =>
        obtain ⟨x, hx, hj⟩ := hfree j rfl
        exact ⟨x, Nat.le_of_lt hx, hj⟩
    | tombstone =>
      rw [walkSlot_succ]
      refine ih (hp.succ (by rw [hs]; simp) (by rw [hs]; simp)) fun j hj => ?_
      cases free with
      | none =>
        cases hj
        exact ⟨d, lt_succ_self d, rfl, by rw [hs]; rfl⟩
      | some i =>
        obtain ⟨x, hx, hj'⟩ := hfree j hj
        exact ⟨x, lt_succ_of_lt hx, hj'⟩
    | full a =>
      dsimp only
      split
      next hhit => exact ⟨hs, hhit⟩
      next hmiss =>
        rw [walkSlot_succ]
        refine ih (hp.succ (by rw [hs]; simp) ?_) fun j hj => ?_
        · intro b hb
          rw [hs] at hb
          cases hb
          exact Bool.eq_false_iff.2 hmiss
        · obtain ⟨x, hx, hj'⟩ := hfree j hj
          exact ⟨x, lt_succ_of_lt hx, hj'⟩

theorem probe_started (t : List (Slot α)) (hit : α → Bool) (h fuel : ℕ) :
    Ended t hit h (probe t hit (fun i => (i + 1) % t.length) fuel (walkSlot t h 0) none) :=
  probe_ended hit h fuel (fun x hx => absurd hx (not_lt_zero x))
    fun j hj => absurd hj (by simp)

theorem passed_of_spins (hit : α → Bool) (h fuel : ℕ) {d : ℕ} {free : Option ℕ}
    (hspin : probe t hit (fun i => (i + 1) % t.length) fuel (walkSlot t h d) free = .spins) :
    ∀ x, d ≤ x → x < d + fuel → slotAt t (walkSlot t h x) ≠ .empty := by
  induction fuel generalizing d free with
  | zero => omega
  | succ fuel ih =>
    intro x hdx hx hempty
    rw [probe] at hspin
    by_cases hxd : x = d
    · subst hxd
      rw [hempty] at hspin
      cases hspin
    · cases hs : slotAt t (walkSlot t h d) with
      | empty => rw [hs] at hspin; cases hspin
      | tombstone =>
        rw [hs] at hspin
        rw [walkSlot_succ] at hspin
        exact ih hspin x (by omega) (by omega) hempty
      | full a =>
        rw [hs] at hspin
        dsimp only at hspin
        split at hspin
        · cases hspin
        · rw [walkSlot_succ] at hspin
          exact ih hspin x (by omega) (by omega) hempty

theorem exists_walkSlot (h : ℕ) {i : ℕ} (hi : i < t.length) :
    ∃ d < t.length, walkSlot t h d = i := by
  have hlt : h % t.length < t.length := mod_lt _ (by omega)
  refine ⟨(i + (t.length - h % t.length)) % t.length, mod_lt _ (by omega), ?_⟩
  rw [walkSlot, add_mod_mod, ← mod_add_mod,
    show h % t.length + (i + (t.length - h % t.length)) = i + t.length by omega,
    add_mod_right, mod_eq_of_lt hi]

end Walk

/-- No two items have one key, every item is reached from the home slot of its
key, and there is an empty slot. -/
structure WellFormed (hash : κ → ℕ) (key : α → κ) (t : List (Slot α)) : Prop where
  nodup : ((items t).map key).Nodup
  reached : ∀ i a, slotAt t i = .full a → Reached t (hash (key a)) i
  room : usedSlots t < t.length

section Table

variable {t : List (Slot α)} {hash : κ → ℕ} {key key' : α → κ} {hit : α → Bool}
  {i j : ℕ} {a b : α} {s : Slot α}

theorem exists_empty (h : usedSlots t < t.length) : ∃ i < t.length, slotAt t i = .empty := by
  have hall : ¬ ∀ s ∈ t, s.used = true := by
    intro hall
    rw [usedSlots, countP_eq_length.2 hall] at h
    exact Nat.lt_irrefl _ h
  push Not at hall
  obtain ⟨s, hs, hempty⟩ := hall
  obtain ⟨i, hi, rfl⟩ := mem_iff_getElem.1 hs
  refine ⟨i, hi, ?_⟩
  rw [slotAt, getD_eq_getElem _ _ hi]
  cases hslot : t[i] with
  | empty => rfl
  | tombstone | full a => rw [hslot] at hempty; exact absurd rfl hempty

theorem probe_ne_spins (hroom : usedSlots t < t.length) (hit : α → Bool) (h : ℕ) :
    probe t hit (fun i => (i + 1) % t.length) t.length (walkSlot t h 0) none ≠ .spins := by
  intro hprobe
  obtain ⟨i, hi, hempty⟩ := exists_empty hroom
  obtain ⟨d, hd, rfl⟩ := exists_walkSlot h hi
  exact passed_of_spins hit h t.length hprobe d (zero_le d) (by omega) hempty

section

variable (hw : WellFormed hash key t)

include hw

theorem WellFormed.length_pos : 0 < t.length :=
  Nat.lt_of_le_of_lt (Nat.zero_le _) hw.room

theorem WellFormed.slot_eq (hi : slotAt t i = .full a)
    (hj : slotAt t j = .full b) (hkey : key a = key b) : i = j := by
  by_contra hne
  have hlt : i < t.length := lt_length_of_full hi
  have hb : b ∈ items (t.set i .tombstone) :=
    mem_items.2 ⟨j, by rw [slotAt_set hlt, if_neg hne]; exact hj⟩
  have hnodup := (((items_set_tombstone hi).map key).nodup_iff).1 hw.nodup
  rw [map_cons, nodup_cons] at hnodup
  exact hnodup.1 (hkey ▸ mem_map_of_mem hb)

theorem WellFormed.probe_vacant (h : ℕ)
    (hmiss : ∀ b ∈ items t, hit b = false) :
    ∃ j, probe t hit (fun i => (i + 1) % t.length) t.length (walkSlot t h 0) none = .vacant j ∧
      j < t.length ∧ (slotAt t j).occupied = false ∧ Reached t h j := by
  have hend := probe_started t hit h t.length
  cases hprobe : probe t hit (fun i => (i + 1) % t.length) t.length (walkSlot t h 0) none with
  | found i a =>
    rw [hprobe] at hend
    obtain ⟨ha, hhit⟩ := hend
    rw [hmiss a (mem_items.2 ⟨i, ha⟩)] at hhit
    cases hhit
  | spins => exact absurd hprobe (probe_ne_spins hw.room hit h)
  | vacant j =>
    rw [hprobe] at hend
    obtain ⟨d, hpassed, -, x, hx, rfl, hfree⟩ := hend
    exact ⟨_, rfl, mod_lt _ hw.length_pos, hfree, x, rfl, fun y hy =>
      (hpassed y (Nat.lt_of_lt_of_le hy hx)).1⟩

theorem WellFormed.probe_found {k : κ}
    (hhit : ∀ b ∈ items t, (hit b = true ↔ key b = k)) (hi : slotAt t i = .full a)
    (hk : key a = k) :
    probe t hit (fun i => (i + 1) % t.length) t.length (walkSlot t (hash k) 0) none = .found i a := by
  have hend := probe_started t hit (hash k) t.length
  cases hprobe : probe t hit (fun i => (i + 1) % t.length) t.length (walkSlot t (hash k) 0) none with
  | found j b =>
    rw [hprobe] at hend
    obtain ⟨hb, hhitb⟩ := hend
    have hkey : key b = k := (hhit b (mem_items.2 ⟨j, hb⟩)).1 hhitb
    obtain rfl := hw.slot_eq hi hb (hk.trans hkey.symm)
    rw [hi] at hb
    cases hb
    rfl
  | spins => exact absurd hprobe (probe_ne_spins hw.room hit _)
  | vacant j =>
    rw [hprobe] at hend
    obtain ⟨d, hpassed, hempty, -⟩ := hend
    obtain ⟨e, rfl, hreach⟩ := hw.reached i a hi
    rw [hk] at hi hreach
    have hhita : hit a = true := (hhit a (mem_items.2 ⟨_, hi⟩)).2 hk
    -- the empty slot at distance `d` is neither before, at nor beyond the item
    rcases Nat.lt_trichotomy d e with hlt | rfl | hgt
    · exact absurd hempty (hreach d hlt)
    · rw [hempty] at hi
      cases hi
    · rw [(hpassed e hgt).2 a hi] at hhita
      cases hhita

end

theorem Reached.set {h : ℕ} (hr : Reached t h i) (hj : j < t.length) (hs : s ≠ .empty) :
    Reached (t.set j s) h i := by
  obtain ⟨d, rfl, hpass⟩ := hr
  refine ⟨d, by rw [walkSlot, walkSlot, length_set], fun x hx => ?_⟩
  rw [show walkSlot (t.set j s) h x = walkSlot t h x by rw [walkSlot, walkSlot, length_set],
    slotAt_set hj]
  split
  · exact hs
  · exact hpass x hx

section

variable (hw : WellFormed hash key t)

include hw

theorem WellFormed.insert (hj : j < t.length)
    (hfree : (slotAt t j).occupied = false) (hreach : Reached t (hash (key a)) j)
    (hnew : ∀ b ∈ items t, key b ≠ key a) (hroom : usedSlots t + 1 < t.length) :
    WellFormed hash key (t.set j (.full a)) where
  nodup := by
    rw [((items_set_full hj hfree).map key).nodup_iff, map_cons, nodup_cons]
    refine ⟨fun hmem => ?_, hw.nodup⟩
    obtain ⟨b, hb, hkey⟩ := mem_map.1 hmem
    exact hnew b hb hkey
  reached := by
    intro i b hi
    rw [slotAt_set hj] at hi
    split at hi
    next hij =>
      cases hi
      exact hij ▸ hreach.set hj (by simp)
    next => exact (hw.reached i b hi).set hj (by simp)
  room := by
    rw [usedSlots_set hj rfl, length_set]
    split <;> omega

theorem WellFormed.erase (hi : slotAt t i = .full a) :
    WellFormed hash key (t.set i .tombstone) where
  nodup := by
    have hnodup := (((items_set_tombstone hi).map key).nodup_iff).1 hw.nodup
    rw [map_cons, nodup_cons] at hnodup
    exact hnodup.2
  reached := by
    have hlt : i < t.length := lt_length_of_full hi
    intro j b hj
    rw [slotAt_set hlt] at hj
    split at hj
    next => cases hj
    next => exact (hw.reached j b hj).set hlt (by simp)
  room := by
    have hlt : i < t.length := lt_length_of_full hi
    rw [usedSlots_set hlt rfl, hi, length_set]
    exact hw.room

theorem WellFormed.replace (hi : slotAt t i = .full a)
    (hkey : key' b = key a) (hrest : ∀ c ∈ items (t.set i .tombstone), key' c = key c) :
    WellFormed hash key' (t.set i (.full b)) where
  nodup := by
    have hnodup := (((items_set_tombstone hi).map key).nodup_iff).1 hw.nodup
    rwa [((items_set_replace hi).map key').nodup_iff, map_cons, hkey,
      map_congr_left hrest]
  reached := by
    have hlt : i < t.length := lt_length_of_full hi
    intro j c hj
    rw [slotAt_set hlt] at hj
    split at hj
    next hij =>
      cases hj
      rw [hkey, ← hij]
      exact (hw.reached i a hi).set hlt (by simp)
    next hij =>
      rw [hrest c (mem_items.2 ⟨j, by rw [slotAt_set hlt, if_neg hij]; exact hj⟩)]
      exact (hw.reached j c hj).set hlt (by simp)
  room := by
    have hlt : i < t.length := lt_length_of_full hi
    rw [usedSlots_set hlt rfl, hi, length_set]
    exact hw.room

theorem WellFormed.congr (hkey : ∀ a ∈ items t, key' a = key a) :
    WellFormed hash key' t where
  nodup := by
    rw [map_congr_left hkey]
    exact hw.nodup
  reached := by
    intro i a hi
    rw [hkey a (mem_items.2 ⟨i, hi⟩)]
    exact hw.reached i a hi
  room := hw.room

end

theorem slotAt_wipe {p : α → Bool} :
    slotAt (wipe p t) i =
      match slotAt t i with
      | .full a => if p a then .tombstone else .full a
      | s => s := by
  simp only [slotAt, wipe, getD_eq_getElem?_getD, getElem?_map]
  cases t[i]? with
  | none | some s => rfl

theorem slotAt_wipe_eq_full {p : α → Bool} (h : slotAt (wipe p t) i = .full a) :
    slotAt t i = .full a := by
  rw [slotAt_wipe] at h
  cases hs : slotAt t i with
  | empty | tombstone => rw [hs] at h; cases h
  | full b =>
    rw [hs] at h
    dsimp only at h
    split at h
    · cases h
    · exact h

theorem items_wipe (t : List (Slot α)) :
    items (wipe p t) = (items t).filter fun a => !p a := by
  induction t with
  | nil => rfl
  | cons s t ih =>
    rw [items, items, wipe, map_cons, filterMap_cons]
    rw [items, items, wipe] at ih
    cases s with
    | empty | tombstone => exact ih
    | full a =>
      cases hp : p a with
      | true | false => simp [Slot.item, hp, ih]

theorem usedSlots_wipe (t : List (Slot α)) : usedSlots (wipe p t) = usedSlots t := by
  rw [usedSlots, wipe, countP_map]
  refine congrArg (fun q => countP q t) (funext fun s => ?_)
  cases s with
  | empty | tombstone => rfl
  | full a =>
    dsimp only [Function.comp_apply]
    split <;> rfl

theorem WellFormed.wipe (hw : WellFormed hash key t) (p : α → Bool) :
    WellFormed hash key (wipe p t) where
  nodup := by
    rw [items_wipe]
    exact hw.nodup.sublist (filter_sublist.map key)
  reached := by
    intro i a hi
    have hlen : (Probing.wipe p t).length = t.length := length_map _
    obtain ⟨d, rfl, hpass⟩ := hw.reached i a (slotAt_wipe_eq_full hi)
    refine ⟨d, by rw [walkSlot, walkSlot, hlen], fun x hx => ?_⟩
    rw [walkSlot, hlen, slotAt_wipe]
    have hne := hpass x hx
    cases hs : slotAt t ((hash (key a) + x) % t.length) with
    | empty => exact absurd hs hne
    | tombstone => simp
    | full b =>
      dsimp only
      split <;> simp
  room := by
    rw [usedSlots_wipe, show (Probing.wipe p t).length = t.length from length_map _]
    exact hw.room

theorem items_replicate (n : ℕ) : items (replicate n (Slot.empty (α := α))) = [] := by
  induction n with
  | zero => rfl
  | succ n ih => exact ih

theorem deletedSlots_replicate (n : ℕ) :
    deletedSlots (replicate n (Slot.empty (α := α))) = 0 := by
  rw [deletedSlots, countP_replicate]
  rfl

theorem wellFormed_replicate {n : ℕ} (hn : 0 < n) :
    WellFormed hash key (replicate n .empty) where
  nodup := by
    rw [items_replicate]
    exact nodup_nil
  reached := by
    intro i a hi
    have hmem : a ∈ items (replicate n .empty) := mem_items.2 ⟨i, hi⟩
    rw [items_replicate] at hmem
    cases hmem
  room := by
    rw [usedSlots_eq, items_replicate, deletedSlots_replicate, length_replicate]
    exact hn

theorem place_reached (h fuel : ℕ) {d : ℕ}
    (hpass : ∀ x < d, slotAt t (walkSlot t h x) ≠ .empty)
    (hempty : ∃ x, d ≤ x ∧ x < d + fuel ∧ slotAt t (walkSlot t h x) = .empty) :
    ∃ j, place t (fun i => (i + 1) % t.length) fuel (walkSlot t h d) = some j ∧
      (slotAt t j).occupied = false ∧ Reached t h j := by
  induction fuel generalizing d with
  | zero => omega
  | succ fuel ih =>
    rw [place]
    split
    next hocc =>
      have hne : slotAt t (walkSlot t h d) ≠ .empty := by
        intro hs
        rw [hs] at hocc
        cases hocc
      obtain ⟨x, hdx, hx, hslot⟩ := hempty
      have hxd : x ≠ d := by
        rintro rfl
        exact hne hslot
      rw [walkSlot_succ]
      refine ih (fun y hy => ?_) ⟨x, by omega, by omega, hslot⟩
      rcases Nat.lt_succ_iff_lt_or_eq.1 hy with hy | rfl
      · exact hpass y hy
      · exact hne
    next hfree => exact ⟨_, rfl, Bool.eq_false_iff.2 hfree, d, rfl, hpass⟩

/-- An item is put into a free slot that is reached from its home slot. -/
theorem exists_reinsert (hroom : usedSlots t < t.length) {home : α → ℕ} {h : ℕ}
    (hhome : home a = h % t.length) :
    ∃ j < t.length, reinsert home (fun i => (i + 1) % t.length) t a = t.set j (.full a) ∧
      (slotAt t j).occupied = false ∧ Reached t h j := by
  obtain ⟨i, hi, hempty⟩ := exists_empty hroom
  obtain ⟨d, hd, rfl⟩ := exists_walkSlot h hi
  obtain ⟨j, hplace, hfree, hreach⟩ := place_reached (t := t) h t.length (d := 0)
    (fun x hx => absurd hx (not_lt_zero x)) ⟨d, zero_le d, by omega, hempty⟩
  have hj : j < t.length := by
    obtain ⟨x, rfl, -⟩ := hreach
    exact mod_lt _ (by omega)
  refine ⟨j, hj, ?_, hfree, hreach⟩
  rw [reinsert, hhome, show h % t.length = walkSlot t h 0 from rfl, hplace]

section Rehash

variable (home : α → ℕ) {n : ℕ} (l : List α) (hlen : l.length < n)

include hlen

theorem rehash_perm (hhome : ∀ a ∈ l, home a < n) :
    let t := l.foldl (reinsert home fun i => (i + 1) % n) (replicate n .empty)
    (items t).Perm l ∧ deletedSlots t = 0 ∧ t.length = n := by
  induction l using reverseRecOn with
  | nil => exact ⟨.of_eq (items_replicate n), deletedSlots_replicate n, length_replicate⟩
  | append_singleton l a ih =>
    rw [length_append] at hlen
    obtain ⟨hperm, hdel, hn⟩ := ih (by omega) fun b hb => hhome b (mem_append_left _ hb)
    rw [foldl_append, foldl_cons]
    generalize l.foldl (reinsert home fun i => (i + 1) % n) (replicate n .empty) = t
      at hperm hdel hn ⊢
    subst hn
    obtain ⟨j, hj, heq, hfree, -⟩ := exists_reinsert (t := t) (h := home a)
      (by rw [usedSlots_eq, hdel, hperm.length_eq]; omega)
      (mod_eq_of_lt (hhome a (by simp))).symm
    have hset := deletedSlots_set (s := .full a) hj
    change deletedSlots (t.set j (.full a)) + _ = deletedSlots t + 0 at hset
    rw [foldl_nil, heq]
    exact ⟨((items_set_full hj hfree).trans (hperm.cons a)).trans (perm_append_singleton a l).symm,
      by omega, length_set⟩

theorem wellFormed_rehash (hash : κ → ℕ) (key : α → κ) (hnodup : (l.map key).Nodup)
    (hhome : ∀ a ∈ l, home a = hash (key a) % n) :
    WellFormed hash key (l.foldl (reinsert home fun i => (i + 1) % n) (replicate n .empty)) := by
  induction l using reverseRecOn with
  | nil => exact wellFormed_replicate (by omega)
  | append_singleton l a ih =>
    rw [length_append] at hlen
    rw [map_append, nodup_append] at hnodup
    have hold : ∀ b ∈ l, home b = hash (key b) % n := fun b hb => hhome b (mem_append_left _ hb)
    have hw := ih (by omega) hnodup.1 hold
    obtain ⟨hperm, hdel, hn⟩ := rehash_perm home l (n := n) (by omega) fun b hb =>
      hold b hb ▸ mod_lt _ (by omega)
    rw [foldl_append, foldl_cons]
    generalize l.foldl (reinsert home fun i => (i + 1) % n) (replicate n .empty) = t
      at hw hperm hdel hn ⊢
    subst hn
    obtain ⟨j, hj, heq, hfree, hreach⟩ := exists_reinsert hw.room (hhome a (by simp))
    rw [foldl_nil, heq]
    refine hw.insert hj hfree hreach (fun b hb => ?_) ?_
    · exact hnodup.2.2 _ (mem_map_of_mem (hperm.mem_iff.1 hb)) _ (by simp)
    · rw [usedSlots_eq, hdel, hperm.length_eq]
      omega

end Rehash

end Table

end Probing
