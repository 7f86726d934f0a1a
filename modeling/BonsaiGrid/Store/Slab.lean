import BonsaiGrid.Lib.LittleEndian
import BonsaiGrid.Lib.Trace
import Mathlib.Data.List.GetD
import Mathlib.Data.List.Nodup

/-!
# The slab allocator

The bytes of an entry, its key and its value, are kept in an arena of fixed-size objects, one
arena for each size class, with a list of the slots that were given back. What does not fit the
largest class goes to a list of its own.

The slots of a class are counted in 32 bits. The definitions take the arithmetic of the counters
as a parameter: `u32` is the one of the code, and `id` is that of counters that do not end, over
which the shards are modelled. A slab holds an assignment of bytes to handles if what is live
reads back and the free slots are the others; each operation keeps this, as long as a counter that
moves does not end.

With the counters of the code this is a condition on the calls: there is a slot as long as fewer
than `2 ^ 32 - 1` objects of the class are live. The next one cuts the arena.
-/

namespace BonsaiGrid.Store

open Function List Nat

def slice (bytes : Bytes) (off n : ℕ) : Bytes := (bytes.drop off).take n

def overwrite (bytes : Bytes) (off : ℕ) (data : Bytes) : Bytes :=
  bytes.take off ++ data ++ bytes.drop (off + data.length)

section Ranges

variable {bytes data : Bytes} {off : ℕ}

theorem length_overwrite (h : off + data.length ≤ bytes.length) :
    (overwrite bytes off data).length = bytes.length := by
  simp only [overwrite, length_append, length_take, length_drop]
  omega

theorem slice_overwrite_self (h : off + data.length ≤ bytes.length) :
    slice (overwrite bytes off data) off data.length = data := by
  have hoff : (bytes.take off).length = off := by
    rw [length_take]
    omega
  rw [slice, overwrite, append_assoc]
  nth_rewrite 1 [← hoff]
  rw [drop_left, take_left]

theorem slice_overwrite_of_disjoint {off' n : ℕ} (h : off + data.length ≤ bytes.length)
    (hdisj : off' + n ≤ off ∨ off + data.length ≤ off') :
    slice (overwrite bytes off data) off' n = slice bytes off' n := by
  apply ext_getElem?
  intro i
  simp only [slice, overwrite, getElem?_take, getElem?_drop, append_assoc,
    getElem?_append, length_take]
  split
  next hi =>
    rcases hdisj with hbefore | hafter
    · rw [if_pos (by omega), if_pos (by omega)]
    · rw [if_neg (by omega), if_neg (by omega)]
      congr 1
      omega
  next => rfl

theorem slice_append (r : Bytes) {n : ℕ} (h : off + n ≤ bytes.length) :
    slice (bytes ++ r) off n = slice bytes off n := by
  rw [slice, slice, drop_append_of_le_length (by omega),
    take_append_of_le_length (by rw [length_drop]; omega)]

def resize (bytes : Bytes) (n : ℕ) : Bytes :=
  bytes.take n ++ List.replicate (n - bytes.length) 0

theorem length_resize (bytes : Bytes) (n : ℕ) : (resize bytes n).length = n := by
  rw [resize, length_append, length_take, length_replicate]
  omega

theorem slice_resize {n m : ℕ} (h : off + n ≤ bytes.length) (hm : bytes.length ≤ m) :
    slice (resize bytes m) off n = slice bytes off n := by
  rw [resize, take_of_length_le hm, slice_append _ h]

end Ranges

def u32 (n : ℕ) : ℕ := n % 2 ^ 32

structure Handle where
  cls : ℕ
  slot : ℕ
deriving DecidableEq, Repr

def CLASSES : List ℕ :=
  [8, 16, 24, 32, 48, 64, 96, 128, 192, 256, 384, 512, 768, 1024, 1536, 2048, 3072, 4096, 6144,
    8192]

def OVERFLOW : ℕ := 2 ^ 16 - 1

structure SizeClass where
  obj : ℕ
  bytes : Bytes
  free : List ℕ
  used : ℕ
  cap : ℕ

namespace SizeClass

def new (obj cap : ℕ) : SizeClass where
  obj := obj
  bytes := List.replicate (obj * cap) 0
  free := []
  used := 0
  cap := cap

variable (wrap : ℕ → ℕ)

def grow (c : SizeClass) : SizeClass :=
  let cap := max (wrap (c.cap + c.cap / 2)) (wrap (c.cap + 1))
  { c with
    cap := cap
    bytes := resize c.bytes (c.obj * cap) }

def alloc (c : SizeClass) : SizeClass × ℕ :=
  match c.free.getLast? with
  | some s => ({ c with free := c.free.dropLast }, s)
  | none =>
    let c := if c.used = c.cap then c.grow wrap else c
    ({ c with used := wrap (c.used + 1) }, c.used)

def off (c : SizeClass) (slot : ℕ) : ℕ := slot * c.obj

end SizeClass

structure Slab where
  classes : List SizeClass
  overflow : List Bytes
  overflowFree : List ℕ

namespace Slab

def new : Slab where
  classes := CLASSES.map fun o => SizeClass.new o 64
  overflow := []
  overflowFree := []

def classFor (len : ℕ) : Option ℕ := CLASSES.findIdx? fun o => len ≤ o

def classAt (s : Slab) (ci : ℕ) : SizeClass := s.classes.getD ci (SizeClass.new 0 0)

def setClass (s : Slab) (ci : ℕ) (c : SizeClass) : Slab :=
  { s with classes := s.classes.set ci c }

def putOverflow (wrap : ℕ → ℕ) (s : Slab) (data : Bytes) : Slab × Handle :=
  match s.overflowFree.getLast? with
  | some f =>
    ({ s with
      overflow := s.overflow.set f data
      overflowFree := s.overflowFree.dropLast }, ⟨OVERFLOW, f⟩)
  | none => ({ s with overflow := s.overflow ++ [data] }, ⟨OVERFLOW, wrap s.overflow.length⟩)

/-- There is no handle if the slot does not lie in the arena: the code panics, with the slot
taken. -/
def putTwo (s : Slab) (a b : Bytes) : Slab × Option Handle :=
  match classFor (a.length + b.length) with
  | some ci =>
    let (c, slot) := (s.classAt ci).alloc u32
    if c.off slot + (a.length + b.length) ≤ c.bytes.length then
      (s.setClass ci { c with bytes := overwrite c.bytes (c.off slot) (a ++ b) }, some ⟨ci, slot⟩)
    else (s.setClass ci c, none)
  | none =>
    let (s, h) := s.putOverflow u32 (a ++ b)
    (s, some h)

/-- The same with counters that do not end. -/
def store (s : Slab) (a b : Bytes) : Slab × Handle :=
  match classFor (a.length + b.length) with
  | some ci =>
    let (c, slot) := (s.classAt ci).alloc id
    (s.setClass ci { c with bytes := overwrite c.bytes (c.off slot) (a ++ b) }, ⟨ci, slot⟩)
  | none => s.putOverflow id (a ++ b)

/-- What does not lie in the arena is cut; the code panics. -/
def get (s : Slab) (h : Handle) (len : ℕ) : Bytes :=
  if h.cls = OVERFLOW then (s.overflow.getD h.slot []).take len
  else slice (s.classAt h.cls).bytes ((s.classAt h.cls).off h.slot) len

def free (s : Slab) (h : Handle) : Slab :=
  if h.cls = OVERFLOW then
    { s with
      overflow := s.overflow.set h.slot []
      overflowFree := s.overflowFree ++ [h.slot] }
  else
    let c := s.classAt h.cls
    s.setClass h.cls { c with free := c.free ++ [h.slot] }

end Slab

/-- The slots of a free list lie below `used`, appear once and hold nothing. The other slots below
`used` hold something. -/
structure FreeSlots (free : List ℕ) (used : ℕ) (live : ℕ → Option Bytes) : Prop where
  lt : ∀ s ∈ free, s < used
  nodup : free.Nodup
  dead : ∀ s ∈ free, live s = none
  covers : ∀ s < used, s ∉ free → live s ≠ none

namespace FreeSlots

variable {free : List ℕ} {used slot : ℕ} {live : ℕ → Option Bytes} {data : Bytes}

theorem take (h : FreeSlots free used live) (data : Bytes) (hlast : free.getLast? = some slot) :
    slot < used ∧ live slot = none ∧
      FreeSlots free.dropLast used (update live slot (some data)) := by
  have hsplit : free = free.dropLast ++ [slot] := (dropLast_append_getLast? slot hlast).symm
  have hmem : slot ∈ free := hsplit ▸ mem_append_right _ (mem_singleton_self slot)
  have hnodup := h.nodup
  rw [hsplit, nodup_append] at hnodup
  refine ⟨h.lt slot hmem, h.dead slot hmem, fun s hs => h.lt s (dropLast_subset _ hs),
    hnodup.1, fun s hs => ?_, fun s hs hfree => ?_⟩
  · rw [update_of_ne (hnodup.2.2 s hs slot (mem_singleton_self slot))]
    exact h.dead s (dropLast_subset _ hs)
  · by_cases hslot : s = slot
    · simp [hslot]
    · rw [update_of_ne hslot]
      refine h.covers s hs fun hmem => ?_
      rw [hsplit, mem_append, mem_singleton] at hmem
      exact hmem.elim hfree hslot

theorem extend (h : FreeSlots free used live) :
    FreeSlots free (used + 1) (update live used (some data)) := by
  refine ⟨fun s hs => Nat.lt_succ_of_lt (h.lt s hs), h.nodup, fun s hs => ?_, fun s hs hfree => ?_⟩
  · rw [update_of_ne (Nat.ne_of_lt (h.lt s hs))]
    exact h.dead s hs
  · by_cases hslot : s = used
    · simp [hslot]
    · rw [update_of_ne hslot]
      exact h.covers s (by omega) hfree

theorem release (h : FreeSlots free used live) (hslot : slot < used)
    (hlive : live slot = some data) :
    FreeSlots (free ++ [slot]) used (update live slot none) := by
  have hnew : ∀ s ∈ free, s ≠ slot := by
    rintro s hs rfl
    rw [h.dead s hs] at hlive
    cases hlive
  refine ⟨forall_mem_concat h.lt hslot, Pairwise.concat h.nodup hnew,
    forall_mem_concat (fun s hs => ?_) ?_, fun s hs hfree => ?_⟩
  · rw [update_of_ne (hnew s hs)]
    exact h.dead s hs
  · exact update_self ..
  · rw [mem_append, mem_singleton, not_or] at hfree
    rw [update_of_ne hfree.2]
    exact h.covers s hs hfree.1

theorem nil (live : ℕ → Option Bytes) : FreeSlots [] 0 live :=
  ⟨fun _ hs => absurd hs not_mem_nil, nodup_nil, fun _ hs => absurd hs not_mem_nil,
    fun _ hs => absurd hs (not_lt_zero _)⟩

/-- The slots that hold something and the free ones are those below `used`. -/
theorem length_add (h : FreeSlots free used live) {slots : List ℕ} (hnodup : slots.Nodup)
    (hmem : ∀ s, s ∈ slots ↔ live s ≠ none) (hlt : ∀ s, live s ≠ none → s < used) :
    slots.length + free.length = used := by
  have hperm : (slots ++ free).Perm (range used) := by
    refine (perm_ext_iff_of_nodup ?_ nodup_range).2 fun s => ?_
    · refine nodup_append.2 ⟨hnodup, h.nodup, ?_⟩
      rintro s hs _ hfree rfl
      exact (hmem s).1 hs (h.dead s hfree)
    · rw [mem_append, hmem, mem_range]
      refine ⟨fun hs => hs.elim (hlt s) (h.lt s), fun hs => ?_⟩
      by_cases hfree : s ∈ free
      · exact .inr hfree
      · exact .inl (h.covers s hs hfree)
  rw [← length_append, hperm.length_eq, length_range]

end FreeSlots

namespace SizeClass

variable {wrap : ℕ → ℕ} {c : SizeClass} {live : ℕ → Option Bytes} {slot : ℕ} {data : Bytes}

/-- A counter that moves does not end. -/
def Room (wrap : ℕ → ℕ) (c : SizeClass) : Prop :=
  c.free = [] → wrap (c.used + 1) = c.used + 1 ∧ (c.used = c.cap → c.cap < (c.grow wrap).cap)

theorem room_id (c : SizeClass) : c.Room id :=
  fun _ => ⟨rfl, fun _ => lt_of_lt_of_le (lt_succ_self _) (le_max_right _ _)⟩

theorem room_u32 (h : c.free ≠ [] ∨ c.used < 2 ^ 32 - 1) : c.Room u32 := by
  intro hfree
  have hused : c.used < 2 ^ 32 - 1 := h.resolve_left fun hne => hne hfree
  refine ⟨mod_eq_of_lt (by omega), fun hfull => lt_of_lt_of_le ?_ (le_max_right _ _)⟩
  rw [u32, mod_eq_of_lt (by omega)]
  exact lt_succ_self _

structure Holds (c : SizeClass) (live : ℕ → Option Bytes) : Prop where
  room : c.used ≤ c.cap
  size : c.bytes.length = c.obj * c.cap
  free : FreeSlots c.free c.used live
  live_lt : ∀ s d, live s = some d → s < c.used ∧ d.length ≤ c.obj
  read : ∀ s d, live s = some d → slice c.bytes (c.off s) d.length = d

theorem Holds.off_le (h : c.Holds live) (hslot : slot < c.cap) :
    c.off slot + c.obj ≤ c.bytes.length := by
  rw [h.size, off, mul_comm]
  exact mul_le_mul_left _ hslot

theorem Holds.grow (h : c.Holds live) (hcap : c.cap < (c.grow wrap).cap) :
    (c.grow wrap).Holds live := by
  have hsize : c.bytes.length ≤ c.obj * (c.grow wrap).cap := by
    rw [h.size]
    exact mul_le_mul_left _ (le_of_lt hcap)
  refine ⟨le_trans h.room (le_of_lt hcap), length_resize _ _, h.free, h.live_lt, fun s d hs => ?_⟩
  have hlt := h.live_lt s d hs
  have hoff := h.off_le (lt_of_lt_of_le hlt.1 h.room)
  refine (slice_resize ?_ hsize).trans (h.read s d hs)
  exact Nat.le_trans (Nat.add_le_add_left hlt.2 _) hoff

theorem Holds.write (h : c.Holds live) {free : List ℕ} {used : ℕ} (hused : used ≤ c.cap)
    (hlt : c.used ≤ used) (hslot : slot < used) (hdata : data.length ≤ c.obj)
    (hfree : FreeSlots free used (update live slot (some data))) :
    Holds { c with free := free, used := used, bytes := overwrite c.bytes (c.off slot) data }
      (update live slot (some data)) := by
  have hoff := h.off_le (lt_of_lt_of_le hslot hused)
  have hfits : c.off slot + data.length ≤ c.bytes.length := by omega
  refine ⟨hused, ?_, hfree, fun s d hs => ?_, fun s d hs => ?_⟩
  · exact (length_overwrite hfits).trans h.size
  · by_cases hsl : s = slot
    · subst hsl
      rw [update_self] at hs
      cases hs
      exact ⟨hslot, hdata⟩
    · rw [update_of_ne hsl] at hs
      exact ⟨lt_of_lt_of_le (h.live_lt s d hs).1 hlt, (h.live_lt s d hs).2⟩
  · by_cases hsl : s = slot
    · subst hsl
      rw [update_self] at hs
      cases hs
      exact slice_overwrite_self hfits
    · rw [update_of_ne hsl] at hs
      refine (slice_overwrite_of_disjoint hfits ?_).trans (h.read s d hs)
      -- the objects of two slots lie one behind the other
      have hd := (h.live_lt s d hs).2
      rcases lt_or_gt_of_ne hsl with hlow | hhigh
      · have hmul : (s + 1) * c.obj ≤ slot * c.obj := mul_le_mul_right _ hlow
        rw [succ_mul] at hmul
        simp only [off]
        omega
      · have hmul : (slot + 1) * c.obj ≤ s * c.obj := mul_le_mul_right _ hhigh
        rw [succ_mul] at hmul
        simp only [off]
        omega

theorem Holds.alloc (h : c.Holds live) (hroom : c.Room wrap) (data : Bytes)
    (hdata : data.length ≤ c.obj) :
    let r := c.alloc wrap
    live r.2 = none ∧ r.1.obj = c.obj ∧ r.1.off r.2 + c.obj ≤ r.1.bytes.length ∧
      Holds { r.1 with bytes := overwrite r.1.bytes (r.1.off r.2) data }
        (update live r.2 (some data)) := by
  rw [SizeClass.alloc]
  cases hlast : c.free.getLast? with
  | some slot =>
    obtain ⟨hlt, hdead, hfree⟩ := h.free.take data hlast
    exact ⟨hdead, rfl, h.off_le (lt_of_lt_of_le hlt h.room),
      h.write h.room (le_refl _) hlt hdata hfree⟩
  | none =>
    obtain ⟨hnext, hgrow⟩ := hroom (getLast?_eq_none_iff.1 hlast)
    have hdead : live c.used = none := by
      cases hl : live c.used with
      | none => rfl
      | some d => exact absurd (h.live_lt _ d hl).1 (lt_irrefl _)
    dsimp only
    split
    next hfull =>
      have hcap := hgrow hfull
      have hholds := h.grow hcap
      have hused : c.used < (c.grow wrap).cap := lt_of_le_of_lt h.room hcap
      refine ⟨hdead, rfl, hholds.off_le hused, ?_⟩
      change Holds { c.grow wrap with
        used := wrap (c.used + 1), bytes := overwrite _ _ data } (update live c.used (some data))
      rw [hnext]
      exact hholds.write hused (le_succ _) (lt_succ_self _) hdata hholds.free.extend
    next hroom =>
      have hused : c.used < c.cap := lt_of_le_of_ne h.room hroom
      refine ⟨hdead, rfl, h.off_le hused, ?_⟩
      rw [hnext]
      exact h.write hused (le_succ _) (lt_succ_self _) hdata h.free.extend

theorem cap_alloc (h : c.cap < 2 ^ 32) : (c.alloc u32).1.cap < 2 ^ 32 := by
  rw [SizeClass.alloc]
  split
  next => exact h
  next =>
    dsimp only
    split
    next => exact max_lt (mod_lt _ (by decide)) (mod_lt _ (by decide))
    next => exact h

theorem Holds.alloc_u32 (h : c.Holds live) (hsmall : c.cap + c.cap / 2 + 1 < 2 ^ 32) :
    c.alloc u32 = c.alloc id := by
  have hgrow : c.grow u32 = c.grow id := by
    rw [SizeClass.grow, SizeClass.grow, u32, u32, mod_eq_of_lt (by omega), mod_eq_of_lt (by omega)]
    rfl
  have hroom := h.room
  rw [SizeClass.alloc, SizeClass.alloc, hgrow]
  split
  next => rfl
  next =>
    have hnext : u32 (c.used + 1) = c.used + 1 := mod_eq_of_lt (by omega)
    split <;> simp [SizeClass.grow, hnext]

theorem alloc_fresh (hroom : c.Room wrap) (hfree : c.free = []) :
    (c.alloc wrap).2 = c.used ∧ (c.alloc wrap).1.free = [] ∧
      (c.alloc wrap).1.used = c.used + 1 := by
  have hnext := (hroom hfree).1
  rw [SizeClass.alloc, hfree, getLast?_nil]
  dsimp only
  split <;> exact ⟨rfl, hfree, hnext⟩

/-- A class whose counters have ended: the arena is cut and the slots are counted anew. -/
def ended (c : SizeClass) : SizeClass :=
  { c with
    used := 0
    cap := 2 ^ 31 - 2
    bytes := resize c.bytes (c.obj * (2 ^ 31 - 2)) }

theorem free_ended (c : SizeClass) : c.ended.free = c.free := by
  -- over variables, since comparing the arenas of both sides would write out the whole arena
  have hmk : ∀ obj bytes free used cap, (⟨obj, bytes, free, used, cap⟩ : SizeClass).free = free :=
    fun _ _ _ _ _ => rfl
  rw [ended, hmk]

theorem alloc_full (hfree : c.free = []) (hused : c.used = 2 ^ 32 - 1) (hcap : c.cap = 2 ^ 32 - 1) :
    c.alloc u32 = (c.ended, 2 ^ 32 - 1) := by
  rw [SizeClass.alloc, hfree, getLast?_nil]
  dsimp only
  rw [if_pos (hused.trans hcap.symm), SizeClass.grow, ended, hcap]
  simp [hused, hfree, u32]

theorem Holds.release (h : c.Holds live) (hlive : live slot = some data) :
    Holds { c with free := c.free ++ [slot] } (update live slot none) := by
  refine ⟨h.room, h.size, h.free.release (h.live_lt slot data hlive).1 hlive, fun s d hs => ?_,
    fun s d hs => ?_⟩
  · by_cases hsl : s = slot
    · subst hsl
      rw [update_self] at hs
      cases hs
    · rw [update_of_ne hsl] at hs
      exact h.live_lt s d hs
  · by_cases hsl : s = slot
    · subst hsl
      rw [update_self] at hs
      cases hs
    · rw [update_of_ne hsl] at hs
      exact h.read s d hs

theorem holds_new (obj cap : ℕ) : (new obj cap).Holds fun _ => none where
  room := zero_le _
  size := length_replicate
  free := .nil _
  live_lt := fun s d hs => (by cases hs)
  read := fun s d hs => (by cases hs)

end SizeClass

namespace Slab

variable {s : Slab} {live : Handle → Option Bytes} {h : Handle} {data a b : Bytes}

structure Holds (s : Slab) (live : Handle → Option Bytes) : Prop where
  length : s.classes.length = CLASSES.length
  obj : ∀ ci < CLASSES.length, (s.classAt ci).obj = CLASSES.getD ci 0
  classes : ∀ ci < CLASSES.length, (s.classAt ci).Holds fun slot => live ⟨ci, slot⟩
  overflowFree : FreeSlots s.overflowFree s.overflow.length fun slot => live ⟨OVERFLOW, slot⟩
  overflow : ∀ slot d, live ⟨OVERFLOW, slot⟩ = some d → s.overflow[slot]? = some d
  cls : ∀ h d, live h = some d → h.cls < CLASSES.length ∨ h.cls = OVERFLOW

theorem Holds.get (hs : s.Holds live) (hlive : live h = some data) :
    s.get h data.length = data := by
  rw [Slab.get]
  split
  next hcls =>
    have hh : h = ⟨OVERFLOW, h.slot⟩ := by rw [← hcls]
    rw [hh] at hlive
    rw [getD_eq_getElem?_getD, hs.overflow _ _ hlive, Option.getD_some, take_length]
  next hcls =>
    exact (hs.classes h.cls ((hs.cls h data hlive).resolve_right hcls)).read h.slot data hlive

theorem classFor_spec {len ci : ℕ} (h : classFor len = some ci) :
    ci < CLASSES.length ∧ len ≤ CLASSES.getD ci 0 := by
  obtain ⟨hlt, hle, -⟩ := findIdx?_eq_some_iff_getElem.1 h
  refine ⟨hlt, ?_⟩
  rw [getD_eq_getElem _ _ hlt]
  simpa using hle

theorem classAt_set {ci : ℕ} (c : SizeClass) (hci : ci < s.classes.length) (cj : ℕ) :
    (s.setClass ci c).classAt cj = if ci = cj then c else s.classAt cj := by
  rw [classAt, setClass, getD_eq_getElem?_getD, getElem?_set, classAt]
  split
  next => rfl
  next => rfl

variable {v : Option Bytes}

theorem update_same_cls {ci slot : ℕ} :
    (fun x => update live ⟨ci, slot⟩ v ⟨ci, x⟩) =
      update (fun x => live ⟨ci, x⟩) slot v := by
  funext x
  by_cases hx : x = slot
  · subst hx
    rw [update_self, update_self]
  · rw [update_of_ne hx, update_of_ne]
    intro heq
    exact hx (congrArg Handle.slot heq)

theorem update_other_cls {ci cj slot : ℕ} (hne : cj ≠ ci) :
    (fun x => update live ⟨ci, slot⟩ v ⟨cj, x⟩) = fun x => live ⟨cj, x⟩ := by
  funext x
  rw [update_of_ne]
  intro heq
  exact hne (congrArg Handle.cls heq)

theorem lt_overflow {ci : ℕ} (hci : ci < CLASSES.length) : ci ≠ OVERFLOW := by
  have hlen : CLASSES.length = 20 := rfl
  rw [OVERFLOW]
  omega

theorem Holds.set_class (hs : s.Holds live) {ci slot : ℕ} {c : SizeClass}
    (hci : ci < CLASSES.length) (hobj : c.obj = (s.classAt ci).obj)
    (hc : c.Holds (update (fun x => live ⟨ci, x⟩) slot v)) :
    (s.setClass ci c).Holds (update live ⟨ci, slot⟩ v) := by
  have hset := classAt_set (s := s) c (hs.length ▸ hci)
  refine ⟨length_set.trans hs.length, fun cj hcj => ?_, fun cj hcj => ?_, ?_, fun x d hx => ?_,
    fun h d hh => ?_⟩
  · rw [hset]
    split
    next heq => rw [hobj, ← heq, hs.obj ci hci]
    next => exact hs.obj cj hcj
  · rw [hset]
    split
    next heq => rw [← heq, update_same_cls]; exact hc
    next hne => rw [update_other_cls (Ne.symm hne)]; exact hs.classes cj hcj
  · rw [update_other_cls (lt_overflow hci).symm]
    exact hs.overflowFree
  · rw [update_of_ne (fun heq => (lt_overflow hci).symm (congrArg Handle.cls heq))] at hx
    exact hs.overflow x d hx
  · by_cases heq : h = ⟨ci, slot⟩
    · exact .inl (heq ▸ hci)
    · rw [update_of_ne heq] at hh
      exact hs.cls h d hh

theorem Holds.set_overflow (hs : s.Holds live) {slot : ℕ} {overflow : List Bytes} {free : List ℕ}
    (hfree : FreeSlots free overflow.length
      (update (fun x => live ⟨OVERFLOW, x⟩) slot v))
    (hread : ∀ x d, update (fun x => live ⟨OVERFLOW, x⟩) slot v x = some d →
      overflow[x]? = some d) :
    Holds { s with overflow := overflow, overflowFree := free }
      (update live ⟨OVERFLOW, slot⟩ v) := by
  refine ⟨hs.length, hs.obj, fun ci hci => ?_, ?_, fun x d hx => ?_, fun h d hh => ?_⟩
  · rw [update_other_cls (lt_overflow hci)]
    exact hs.classes ci hci
  · rw [update_same_cls]
    exact hfree
  · exact hread x d (by rw [← update_same_cls]; exact hx)
  · by_cases heq : h = ⟨OVERFLOW, slot⟩
    · exact .inr (congrArg Handle.cls heq)
    · rw [update_of_ne heq] at hh
      exact hs.cls h d hh

theorem Holds.putOverflow {wrap : ℕ → ℕ} (hs : s.Holds live)
    (hroom : s.overflowFree = [] → wrap s.overflow.length = s.overflow.length) :
    let r := s.putOverflow wrap data
    live r.2 = none ∧ r.1.Holds (update live r.2 (some data)) := by
  rw [Slab.putOverflow]
  cases hlast : s.overflowFree.getLast? with
  | some f =>
    obtain ⟨hlt, hdead, hfree⟩ := hs.overflowFree.take data hlast
    refine ⟨hdead, hs.set_overflow (by rwa [length_set]) fun x d hx => ?_⟩
    rw [getElem?_set]
    by_cases hxf : x = f
    · subst hxf
      rw [update_self] at hx
      rw [if_pos rfl, if_pos hlt, hx]
    · rw [update_of_ne hxf] at hx
      rw [if_neg (Ne.symm hxf)]
      exact hs.overflow x d hx
  | none =>
    dsimp only
    rw [hroom (getLast?_eq_none_iff.1 hlast)]
    have hdead : live ⟨OVERFLOW, s.overflow.length⟩ = none := by
      cases hl : live ⟨OVERFLOW, s.overflow.length⟩ with
      | none => rfl
      | some d =>
        have hget := hs.overflow _ d hl
        rw [getElem?_eq_none (le_refl _)] at hget
        cases hget
    refine ⟨hdead, hs.set_overflow ?_ fun x d hx => ?_⟩
    · rw [length_append]
      exact hs.overflowFree.extend
    · by_cases hxl : x = s.overflow.length
      · subst hxl
        rw [update_self] at hx
        rw [getElem?_concat_length, hx]
      · rw [update_of_ne hxl] at hx
        have hget := hs.overflow x d hx
        rw [List.getElem?_append_left (List.getElem?_eq_some_iff.1 hget).1]
        exact hget

theorem Holds.store (hs : s.Holds live) :
    let r := s.store a b
    live r.2 = none ∧ r.1.Holds (update live r.2 (some (a ++ b))) := by
  rw [Slab.store]
  cases hclass : classFor (a.length + b.length) with
  | some ci =>
    obtain ⟨hci, hlen⟩ := classFor_spec hclass
    obtain ⟨hdead, hobj, -, hstore⟩ := (hs.classes ci hci).alloc (SizeClass.room_id _) (a ++ b)
      (by rw [length_append, hs.obj ci hci]; exact hlen)
    exact ⟨hdead, hs.set_class hci hobj hstore⟩
  | none => exact hs.putOverflow fun _ => rfl

/-- An object of this length finds a slot that the counters can name. -/
def Room (s : Slab) (len : ℕ) : Prop :=
  match classFor len with
  | some ci => (s.classAt ci).Room u32
  | none => s.overflowFree = [] → u32 s.overflow.length = s.overflow.length

theorem Holds.putTwo (hs : s.Holds live) (hroom : s.Room (a.length + b.length)) :
    ∃ h, (s.putTwo a b).2 = some h ∧ live h = none ∧
      (s.putTwo a b).1.Holds (update live h (some (a ++ b))) := by
  rw [Room] at hroom
  rw [Slab.putTwo]
  cases hclass : classFor (a.length + b.length) with
  | some ci =>
    rw [hclass] at hroom
    obtain ⟨hci, hlen⟩ := classFor_spec hclass
    obtain ⟨hdead, hobj, hin, hstore⟩ := (hs.classes ci hci).alloc hroom (a ++ b)
      (by rw [length_append, hs.obj ci hci]; exact hlen)
    rw [hs.obj ci hci] at hin
    dsimp only
    rw [if_pos (by omega)]
    exact ⟨_, rfl, hdead, hs.set_class hci hobj hstore⟩
  | none =>
    rw [hclass] at hroom
    exact ⟨_, rfl, hs.putOverflow hroom⟩

theorem Holds.free (hs : s.Holds live) (hlive : live h = some data) :
    (s.free h).Holds (update live h none) := by
  rw [Slab.free]
  split
  next hcls =>
    obtain ⟨cls, slot⟩ := h
    subst hcls
    have hget := hs.overflow slot data hlive
    have hlt := (List.getElem?_eq_some_iff.1 hget).1
    refine hs.set_overflow ?_ fun x d hx => ?_
    · rw [length_set]
      exact hs.overflowFree.release hlt hlive
    · have hxs : x ≠ slot := by
        rintro rfl
        rw [update_self] at hx
        cases hx
      rw [update_of_ne hxs] at hx
      rw [getElem?_set_ne (Ne.symm hxs)]
      exact hs.overflow x d hx
  next hcls =>
    have hci := (hs.cls h data hlive).resolve_right hcls
    exact hs.set_class hci rfl ((hs.classes h.cls hci).release hlive)

theorem classAt_new {ci : ℕ} (hci : ci < CLASSES.length) :
    new.classAt ci = SizeClass.new (CLASSES.getD ci 0) 64 := by
  rw [classAt, new, getD_eq_getElem _ _ (by rwa [length_map]), getElem_map,
    getD_eq_getElem _ _ hci]

theorem holds_new : new.Holds fun _ => none where
  length := length_map _
  obj := by decide
  classes := by
    intro ci hci
    rw [classAt_new hci]
    exact SizeClass.holds_new _ _
  overflowFree := .nil _
  overflow := fun slot d hd => (by cases hd)
  cls := fun h d hd => (by cases hd)

/-! ## Counters of 32 bits -/

structure Bounded (s : Slab) : Prop where
  cap : ∀ ci < CLASSES.length, (s.classAt ci).cap < 2 ^ 32
  overflow : s.overflow.length ≤ 2 ^ 32

theorem bounded_new : new.Bounded where
  cap := by
    intro ci hci
    rw [classAt_new hci, SizeClass.new]
    exact (by decide : 64 < 2 ^ 32)
  overflow := Nat.zero_le _

theorem Bounded.setClass (h : s.Bounded) {ci : ℕ} {c : SizeClass} (hci : ci < s.classes.length)
    (hc : c.cap < 2 ^ 32) : (s.setClass ci c).Bounded where
  cap := by
    intro cj hcj
    rw [classAt_set c hci]
    split
    next => exact hc
    next => exact h.cap cj hcj
  overflow := h.overflow

theorem Bounded.putTwo (h : s.Bounded) (hs : s.Holds live)
    (hroom : s.Room (a.length + b.length)) : (s.putTwo a b).1.Bounded := by
  rw [Room] at hroom
  rw [Slab.putTwo]
  cases hclass : classFor (a.length + b.length) with
  | some ci =>
    have hci := (classFor_spec hclass).1
    have hcap := SizeClass.cap_alloc (h.cap ci hci)
    have hlen : ci < s.classes.length := hs.length ▸ hci
    dsimp only
    split
    next => exact h.setClass hlen hcap
    next => exact h.setClass hlen hcap
  | none =>
    rw [hclass] at hroom
    refine ⟨?_, ?_⟩ <;> dsimp only <;> rw [Slab.putOverflow] <;> split
    · exact h.cap
    · exact h.cap
    · simpa using h.overflow
    next hlast =>
      have hshort := mod_lt s.overflow.length (show 0 < 2 ^ 32 by decide)
      have hsame := hroom (getLast?_eq_none_iff.1 hlast)
      rw [u32] at hsame
      simp only [length_append, length_singleton]
      omega

theorem Bounded.free {h : Handle} (hb : s.Bounded) (hs : s.Holds live) (hlive : live h = some data) :
    (s.free h).Bounded := by
  rw [Slab.free]
  split
  next => exact ⟨hb.cap, by simpa using hb.overflow⟩
  next hcls =>
    have hci := (hs.cls h data hlive).resolve_right hcls
    exact hb.setClass (hs.length ▸ hci) (hb.cap h.cls hci)

/-- When the last slot that a class can count is in use, the next one is not in the arena. -/
theorem putTwo_full {ci : ℕ} (hclass : classFor (a.length + b.length) = some ci)
    (hobj : 0 < (s.classAt ci).obj) (hfree : (s.classAt ci).free = [])
    (hused : (s.classAt ci).used = 2 ^ 32 - 1) (hcap : (s.classAt ci).cap = 2 ^ 32 - 1) :
    s.putTwo a b = (s.setClass ci (s.classAt ci).ended, none) := by
  have hmul : (s.classAt ci).obj * (2 ^ 31 - 2) < (2 ^ 32 - 1) * (s.classAt ci).obj := by
    rw [mul_comm]
    exact Nat.mul_lt_mul_of_pos_right (by decide) hobj
  have hout : ¬ (s.classAt ci).ended.off (2 ^ 32 - 1) + (a.length + b.length) ≤
      (s.classAt ci).ended.bytes.length := by
    rw [SizeClass.off, SizeClass.ended, length_resize]
    dsimp only
    omega
  rw [Slab.putTwo, hclass]
  dsimp only
  rw [SizeClass.alloc_full hfree hused hcap]
  exact if_neg hout

theorem obj_pos (hs : s.Holds live) {ci : ℕ} (hci : ci < CLASSES.length) :
    0 < (s.classAt ci).obj := by
  have hall : ∀ ci < CLASSES.length, 0 < CLASSES.getD ci 0 := by decide
  rw [hs.obj ci hci]
  exact hall ci hci

/-- As long as the counters do not end, the slab of the code is the one over which the shards are
modelled. -/
theorem Holds.putTwo_eq_store (hs : s.Holds live)
    (hsmall : ∀ ci < CLASSES.length, (s.classAt ci).cap + (s.classAt ci).cap / 2 + 1 < 2 ^ 32)
    (hoverflow : s.overflow.length < 2 ^ 32) :
    s.putTwo a b = ((s.store a b).1, some (s.store a b).2) := by
  rw [Slab.putTwo, Slab.store]
  cases hclass : classFor (a.length + b.length) with
  | some ci =>
    obtain ⟨hci, hlen⟩ := classFor_spec hclass
    have hin := ((hs.classes ci hci).alloc (SizeClass.room_id _) (a ++ b)
      (by rw [length_append, hs.obj ci hci]; exact hlen)).2.2.1
    rw [hs.obj ci hci] at hin
    dsimp only
    rw [(hs.classes ci hci).alloc_u32 (hsmall ci hci), if_pos (by omega)]
  | none =>
    dsimp only
    rw [Slab.putOverflow, Slab.putOverflow, u32, mod_eq_of_lt hoverflow]
    rfl

/-! ## Runs -/

inductive Call
  | putTwo (a b : Bytes)
  | free (h : Handle)

/-- A slab, and beside it the live handles with the bytes each was given for. -/
structure Tenants where
  slab : Slab
  live : List (Handle × Bytes)

/-- The class of the handles for objects of a length. -/
def clsOf (len : ℕ) : ℕ := (classFor len).getD OVERFLOW

/-- How many objects of a class the handles can tell apart; a class does not use the last of its
slots. -/
def capacity (cls : ℕ) : ℕ := if cls = OVERFLOW then 2 ^ 32 else 2 ^ 32 - 1

namespace Tenants

variable {t : Tenants}

def exec (t : Tenants) : Call → Tenants
  | .putTwo a b =>
    let r := t.slab.putTwo a b
    ⟨r.1, (r.2.map fun h => (h, a ++ b)).toList ++ t.live⟩
  | .free h => ⟨t.slab.free h, t.live.filter fun e => e.1 ≠ h⟩

def slotsOf (t : Tenants) (cls : ℕ) : List ℕ :=
  (t.live.filter fun e => e.1.cls = cls).map fun e => e.1.slot

/-- Only a live handle is given back, and an object is put only while there is a handle for it. -/
def Admits (t : Tenants) : Call → Prop
  | .putTwo a b =>
    (t.slotsOf (clsOf (a.length + b.length))).length < capacity (clsOf (a.length + b.length))
  | .free h => h ∈ t.live.map Prod.fst

instance (t : Tenants) : (c : Call) → Decidable (t.Admits c)
  | .putTwo .. => inferInstanceAs (Decidable (_ < _))
  | .free _ => inferInstanceAs (Decidable (_ ∈ _))

structure Inv (t : Tenants) (live : Handle → Option Bytes) : Prop where
  holds : t.slab.Holds live
  nodup : (t.live.map Prod.fst).Nodup
  mem : ∀ e, e ∈ t.live ↔ live e.1 = some e.2
  bounded : t.slab.Bounded

namespace Inv

variable (ht : t.Inv live)
include ht

theorem nodup_slotsOf (cls : ℕ) : (t.slotsOf cls).Nodup := by
  rw [slotsOf, nodup_map_iff_inj_on ((Nodup.of_map _ ht.nodup).filter _)]
  intro x hx y hy hslot
  rw [mem_filter, decide_eq_true_eq] at hx hy
  refine inj_on_of_nodup_map ht.nodup hx.1 hy.1 ?_
  obtain ⟨⟨_, _⟩, _⟩ := x
  obtain ⟨⟨_, _⟩, _⟩ := y
  cases hx.2
  cases hy.2
  cases hslot
  rfl

theorem mem_slotsOf {cls slot : ℕ} : slot ∈ t.slotsOf cls ↔ live ⟨cls, slot⟩ ≠ none := by
  simp only [slotsOf, mem_map, mem_filter, decide_eq_true_eq]
  constructor
  · rintro ⟨⟨⟨_, _⟩, data⟩, ⟨he, rfl⟩, rfl⟩
    simp [(ht.mem _).1 he]
  · intro hlive
    obtain ⟨data, hdata⟩ := Option.ne_none_iff_exists'.1 hlive
    exact ⟨(⟨cls, slot⟩, data), ⟨(ht.mem _).2 hdata, rfl⟩, rfl⟩

theorem length_class {ci : ℕ} (hci : ci < CLASSES.length) :
    (t.slotsOf ci).length + (t.slab.classAt ci).free.length = (t.slab.classAt ci).used := by
  refine (ht.holds.classes ci hci).free.length_add (ht.nodup_slotsOf ci)
    (fun _ => ht.mem_slotsOf) fun slot hlive => ?_
  obtain ⟨data, hdata⟩ := Option.ne_none_iff_exists'.1 hlive
  exact ((ht.holds.classes ci hci).live_lt slot data hdata).1

theorem length_overflow :
    (t.slotsOf OVERFLOW).length + t.slab.overflowFree.length = t.slab.overflow.length := by
  refine ht.holds.overflowFree.length_add (ht.nodup_slotsOf OVERFLOW)
    (fun _ => ht.mem_slotsOf) fun slot hlive => ?_
  obtain ⟨data, hdata⟩ := Option.ne_none_iff_exists'.1 hlive
  exact (List.getElem?_eq_some_iff.1 (ht.holds.overflow slot data hdata)).1

theorem not_mem_iff {h : Handle} : h ∉ t.live.map Prod.fst ↔ live h = none := by
  rw [mem_map, not_exists]
  constructor
  · intro hnot
    cases hlive : live h with
    | none => rfl
    | some data => exact absurd ⟨(ht.mem (h, data)).2 hlive, rfl⟩ (hnot (h, data))
  · rintro hnone e ⟨he, rfl⟩
    rw [(ht.mem e).1 he] at hnone
    cases hnone

theorem room (hc : t.Admits (.putTwo a b)) : t.slab.Room (a.length + b.length) := by
  rw [Admits, clsOf] at hc
  rw [Room]
  cases hclass : classFor (a.length + b.length) with
  | some ci =>
    have hci := (classFor_spec hclass).1
    have hlen := ht.length_class hci
    rw [hclass, Option.getD_some, capacity, if_neg (lt_overflow hci)] at hc
    refine SizeClass.room_u32 ?_
    rw [← length_pos_iff]
    omega
  | none =>
    have hlen := ht.length_overflow
    rw [hclass, Option.getD_none, capacity, if_pos rfl] at hc
    intro hfree
    rw [hfree, length_nil] at hlen
    exact mod_eq_of_lt (by omega)

/-- Past the capacity a class has no slot left, and the handles of the list start again. -/
theorem admits_of_new {h : Handle} (hput : (t.slab.putTwo a b).2 = some h)
    (hnew : h ∉ t.live.map Prod.fst) : t.Admits (.putTwo a b) := by
  rw [ht.not_mem_iff] at hnew
  by_contra hfull
  rw [Admits, clsOf, not_lt] at hfull
  cases hclass : classFor (a.length + b.length) with
  | some ci =>
    have hci := (classFor_spec hclass).1
    have hlen := ht.length_class hci
    have hroom := (ht.holds.classes ci hci).room
    have hcap := ht.bounded.cap ci hci
    rw [hclass, Option.getD_some, capacity, if_neg (lt_overflow hci)] at hfull
    rw [putTwo_full hclass (obj_pos ht.holds hci) (length_eq_zero_iff.1 (by omega)) (by omega)
      (by omega)] at hput
    cases hput
  | none =>
    have hlen := ht.length_overflow
    have hover := ht.bounded.overflow
    rw [hclass, Option.getD_none, capacity, if_pos rfl] at hfull
    have hfree : t.slab.overflowFree = [] := length_eq_zero_iff.1 (by omega)
    have hall : t.slab.overflow.length = 2 ^ 32 := by omega
    rw [Slab.putTwo, hclass, Slab.putOverflow, hfree, getLast?_nil, hall] at hput
    cases hput
    refine ht.holds.overflowFree.covers 0 (by omega) ?_ hnew
    rw [hfree]
    exact not_mem_nil

theorem exec {c : Call} (hc : t.Admits c) : ∃ live', (t.exec c).Inv live' := by
  cases c with
  | putTwo a b =>
    have hroom := ht.room hc
    obtain ⟨h, hput, hdead, hholds⟩ := ht.holds.putTwo hroom
    have hlive : (t.exec (.putTwo a b)).live = (h, a ++ b) :: t.live := by
      rw [Tenants.exec, hput]
      rfl
    have hnew : h ∉ t.live.map Prod.fst := ht.not_mem_iff.2 hdead
    refine ⟨_, hholds, ?_, fun e => ?_, ht.bounded.putTwo ht.holds hroom⟩
    · rw [hlive, map_cons, nodup_cons]
      exact ⟨hnew, ht.nodup⟩
    · rw [hlive]
      obtain ⟨h', data⟩ := e
      by_cases heq : h' = h
      · have hnot : (h', data) ∉ t.live := fun he => hnew (heq ▸ mem_map_of_mem he)
        subst heq
        simp [hnot, eq_comm]
      · simp [heq, ht.mem]
  | free h =>
    obtain ⟨⟨h, data⟩, he, rfl⟩ := mem_map.1 hc
    have hlive := (ht.mem _).1 he
    refine ⟨_, ht.holds.free hlive, ?_, fun e => ?_, ht.bounded.free ht.holds hlive⟩
    · exact ht.nodup.sublist (filter_sublist.map Prod.fst)
    · by_cases heq : e.1 = h
      · simp [Tenants.exec, heq]
      · simp [Tenants.exec, heq, ht.mem]

end Inv

theorem inv_of_reaches (h : Trace.Reaches exec Admits ⟨new, []⟩ t) : ∃ live, t.Inv live := by
  have hnew : Inv ⟨new, []⟩ fun _ => none :=
    ⟨holds_new, nodup_nil, fun e => by simp, bounded_new⟩
  refine h.invariant (I := fun t => ∃ live, t.Inv live) (fun t c ht hc => ?_) ⟨_, hnew⟩
  obtain ⟨live, ht⟩ := ht
  exact ht.exec hc

/-- **Live handles do not share storage.** In every run in which only live handles are given back
and no class has more objects than handles, the live handles are distinct and each still reads the
bytes it was given for. The next object gets a handle of its own exactly if its class is not
full. -/
theorem live_handles (h : Trace.Reaches exec Admits ⟨new, []⟩ t) :
    (t.live.map Prod.fst).Nodup ∧ (∀ e ∈ t.live, t.slab.get e.1 e.2.length = e.2) ∧
      ∀ a b, (∃ h, (t.slab.putTwo a b).2 = some h ∧ h ∉ t.live.map Prod.fst) ↔
        t.Admits (.putTwo a b) := by
  obtain ⟨live, ht⟩ := inv_of_reaches h
  refine ⟨ht.nodup, fun e he => ht.holds.get ((ht.mem e).1 he), fun a b => ⟨?_, fun hc => ?_⟩⟩
  · rintro ⟨h, hput, hnew⟩
    exact ht.admits_of_new hput hnew
  · obtain ⟨h, hput, hdead, -⟩ := ht.holds.putTwo (ht.room hc)
    exact ⟨h, hput, ht.not_mem_iff.2 hdead⟩

/-- The slot of the first object is used again for the third. -/
theorem live_handles_reused :
    let t := [Call.putTwo [1] [2], .putTwo [3] [], .free ⟨0, 0⟩, .putTwo [] [4]].foldl exec ⟨new, []⟩
    (t.live.map Prod.fst).Nodup ∧ (∀ e ∈ t.live, t.slab.get e.1 e.2.length = e.2) ∧
      ∀ a b, (∃ h, (t.slab.putTwo a b).2 = some h ∧ h ∉ t.live.map Prod.fst) ↔
        t.Admits (.putTwo a b) :=
  live_handles (Trace.Reaches.of_allowed _ (by decide +kernel))

/-! ## A class that is full -/

def fill (n : ℕ) : Tenants := (List.replicate n (Call.putTwo [7] [])).foldl exec ⟨new, []⟩

theorem fill_succ (n : ℕ) : fill (n + 1) = (fill n).exec (.putTwo [7] []) := by
  rw [fill, replicate_succ', foldl_append]
  rfl

theorem putTwo_fresh (hs : s.Holds live) (hroom : (s.classAt 0).Room u32)
    (hfree : (s.classAt 0).free = []) :
    (s.putTwo [7] []).2 = some ⟨0, (s.classAt 0).used⟩ ∧
      ((s.putTwo [7] []).1.classAt 0).free = [] ∧
      ((s.putTwo [7] []).1.classAt 0).used = (s.classAt 0).used + 1 := by
  have hclass : classFor 1 = some 0 := rfl
  have hci : 0 < CLASSES.length := by decide
  obtain ⟨hslot, hfree', hused⟩ := SizeClass.alloc_fresh hroom hfree
  have hobj : (s.classAt 0).obj = 8 := hs.obj 0 hci
  have hin := ((hs.classes 0 hci).alloc hroom [7] (by simp [hobj])).2.2.1
  have hput : s.putTwo [7] [] = (s.setClass 0 { ((s.classAt 0).alloc u32).1 with
      bytes := overwrite ((s.classAt 0).alloc u32).1.bytes
        (((s.classAt 0).alloc u32).1.off ((s.classAt 0).alloc u32).2) [7] },
      some ⟨0, ((s.classAt 0).alloc u32).2⟩) := by
    rw [Slab.putTwo]
    exact if_pos (by rw [hobj] at hin; exact Nat.le_trans (Nat.add_le_add_left (by decide) _) hin)
  rw [hput, classAt_set _ (hs.length ▸ hci), if_pos rfl, hslot]
  exact ⟨rfl, hfree', hused⟩

theorem inv_fill {n : ℕ} (hn : n ≤ 2 ^ 32 - 1) :
    (∃ live, (fill n).Inv live) ∧ ((fill n).slab.classAt 0).free = [] ∧
      ((fill n).slab.classAt 0).used = n ∧ ∀ i < n, (⟨0, i⟩, [7]) ∈ (fill n).live := by
  induction n with
  | zero => exact ⟨inv_of_reaches .refl, rfl, rfl, fun i hi => absurd hi (not_lt_zero i)⟩
  | succ n ih =>
    obtain ⟨⟨live, ht⟩, hfree, hused, hall⟩ := ih (by omega)
    have hroom : ((fill n).slab.classAt 0).Room u32 :=
      SizeClass.room_u32 (.inr (by omega))
    obtain ⟨hput, hfree', hused'⟩ := putTwo_fresh ht.holds hroom hfree
    have hlen := ht.length_class (show 0 < CLASSES.length by decide)
    rw [hused, hfree, length_nil] at hlen
    rw [fill_succ]
    refine ⟨ht.exec ?_, hfree', hused'.trans (by rw [hused]), fun i hi => ?_⟩
    · change (slotsOf _ 0).length < 2 ^ 32 - 1
      omega
    · rw [Tenants.exec, hput, hused]
      rcases Nat.lt_succ_iff_lt_or_eq.1 hi with hi | rfl
      · exact mem_append_right _ (hall i hi)
      · exact mem_append_left _ (mem_singleton_self _)

theorem putTwo_ended {c : SizeClass} (hs : s.classAt 0 = c.ended) (hobj : c.obj = 8)
    (hfree : c.free = []) (a : UInt8) : (s.putTwo [a] []).2 = some ⟨0, 0⟩ := by
  have hused : (s.classAt 0).used = 0 := by rw [hs]; rfl
  have hcap : (s.classAt 0).cap = 2 ^ 31 - 2 := by rw [hs]; rfl
  have hfree' : (s.classAt 0).free = [] := by rw [hs, SizeClass.free_ended, hfree]
  have hlen : (s.classAt 0).bytes.length = 8 * (2 ^ 31 - 2) := by
    rw [hs, SizeClass.ended, length_resize, hobj]
  have halloc : (s.classAt 0).alloc u32 = ({ s.classAt 0 with used := 1 }, 0) := by
    rw [SizeClass.alloc, hfree', getLast?_nil]
    dsimp only
    rw [if_neg (by omega), hused, hfree', u32, Nat.mod_eq_of_lt (by decide)]
  have hclass : classFor ([a].length + ([] : Bytes).length) = some 0 := rfl
  rw [Slab.putTwo, hclass]
  dsimp only
  rw [halloc]
  dsimp only
  rw [if_pos]
  rw [hlen, SizeClass.off, Nat.zero_mul, length_singleton, length_nil]
  omega

theorem shares_of_full (ht : t.Inv live) (hfree : (t.slab.classAt 0).free = [])
    (hused : (t.slab.classAt 0).used = 2 ^ 32 - 1)
    (hall : ∀ i < 2 ^ 32 - 1, (⟨0, i⟩, [7]) ∈ t.live) :
    (⟨0, 2 ^ 32 - 2⟩, [7]) ∈ t.live ∧ t.slab.get ⟨0, 2 ^ 32 - 2⟩ 1 = [7] ∧
      (t.slab.putTwo [7] []).2 = none ∧ (t.exec (.putTwo [7] [])).live = t.live ∧
      (t.exec (.putTwo [7] [])).slab.get ⟨0, 2 ^ 32 - 2⟩ 1 = [] ∧ (⟨0, 0⟩, [7]) ∈ t.live ∧
      ((t.exec (.putTwo [7] [])).slab.putTwo [8] []).2 = some ⟨0, 0⟩ := by
  have hcls : 0 < CLASSES.length := by decide
  have hcap : (t.slab.classAt 0).cap = 2 ^ 32 - 1 := by
    have hroom := (ht.holds.classes 0 hcls).room
    have hbound := ht.bounded.cap 0 hcls
    omega
  have hobj : (t.slab.classAt 0).obj = 8 := ht.holds.obj 0 hcls
  have hput : t.slab.putTwo [7] [] = (t.slab.setClass 0 (t.slab.classAt 0).ended, none) :=
    putTwo_full rfl (obj_pos ht.holds hcls) hfree hused hcap
  have hslab : (t.exec (.putTwo [7] [])).slab = t.slab.setClass 0 (t.slab.classAt 0).ended := by
    rw [Tenants.exec, hput]
  have hlive : (t.exec (.putTwo [7] [])).live = t.live := by
    rw [Tenants.exec, hput]
    rfl
  have hended : (t.exec (.putTwo [7] [])).slab.classAt 0 = (t.slab.classAt 0).ended := by
    rw [hslab, classAt_set _ (ht.holds.length ▸ hcls), if_pos rfl]
  have hlast := hall (2 ^ 32 - 2) (by omega)
  refine ⟨hlast, ht.holds.get ((ht.mem _).1 hlast), by rw [hput], hlive, ?_, hall 0 (by omega),
    putTwo_ended hended hobj hfree 8⟩
  have hout : (t.slab.classAt 0).ended.bytes.length ≤ (t.slab.classAt 0).ended.off (2 ^ 32 - 2) := by
    rw [SizeClass.off, SizeClass.ended, length_resize]
    dsimp only
    omega
  rw [Slab.get, if_neg (by decide)]
  dsimp only
  rw [hended, slice, drop_eq_nil_of_le hout, take_nil]

/-- With `2 ^ 32 - 1` objects in a class each reads the byte it was given for. The next object gets
no handle and the last of them cannot be read any more; the one after it gets the handle of the
first. -/
theorem full_class_shares :
    (⟨0, 2 ^ 32 - 2⟩, [7]) ∈ (fill (2 ^ 32 - 1)).live ∧
      (fill (2 ^ 32 - 1)).slab.get ⟨0, 2 ^ 32 - 2⟩ 1 = [7] ∧
      ((fill (2 ^ 32 - 1)).slab.putTwo [7] []).2 = none ∧
      ((fill (2 ^ 32 - 1)).exec (.putTwo [7] [])).live = (fill (2 ^ 32 - 1)).live ∧
      ((fill (2 ^ 32 - 1)).exec (.putTwo [7] [])).slab.get ⟨0, 2 ^ 32 - 2⟩ 1 = [] ∧
      (⟨0, 0⟩, [7]) ∈ (fill (2 ^ 32 - 1)).live ∧
      (((fill (2 ^ 32 - 1)).exec (.putTwo [7] [])).slab.putTwo [8] []).2 = some ⟨0, 0⟩ := by
  obtain ⟨⟨_, ht⟩, hfree, hused, hall⟩ := inv_fill (Nat.le_refl (2 ^ 32 - 1))
  exact shares_of_full ht hfree hused hall

end Tenants

end Slab

end BonsaiGrid.Store
