import BonsaiGrid.Store.IndexedStore
import Mathlib.Data.Nat.Cast.Basic
import Mathlib.Tactic.Linarith

/-!
# Pages

A query with pages cuts the entries of its inner query, sorted by their keys, into slices. The
numbers of the client are made unsigned before they are multiplied and added.
-/

namespace BonsaiGrid.Store

open Query Protocol IndexedStore List

theorem flatMap_range_take {α : Type*} (l : List α) (m n : ℕ) :
    ((range n).flatMap fun k => (l.drop (k * m)).take m) = l.take (n * m) := by
  induction n with
  | zero => simp
  | succ n ih => rw [range_succ, flatMap_append, ih, flatMap_singleton, Nat.succ_mul, take_add]

def sorted (l : List (Bytes × Bytes)) : List (Bytes × Bytes) :=
  l.insertionSort fun a b => a.1 ≤ b.1

def pageSlice (l : List (Bytes × Bytes)) (page pageSize : ℕ) : List (Bytes × Bytes) :=
  ((sorted l).drop (page * pageSize)).take pageSize

theorem asUsize_mul (a b : ℤ) : asUsize a * asUsize b % 2 ^ 64 = asUsize (a * b) := by
  have hcast : ∀ v : ℤ, (asUsize v : ℤ) = v % 2 ^ 64 := fun v =>
    Int.toNat_of_nonneg (Int.emod_nonneg v (by decide))
  refine Int.ofNat_inj.1 ?_
  rw [Int.natCast_emod, Int.natCast_mul, hcast, hcast, hcast, Nat.cast_pow, Nat.cast_ofNat,
    ← Int.mul_emod]

/-- The slice of a page is in range: its length is not negative, or it is the page at the front, or
there are fewer entries than the negative length takes back. -/
def Sliceable (page pageSize : Int32) (n : ℕ) : Prop :=
  0 ≤ pageSize.toInt ∨ page.toInt = 0 ∨ n < -pageSize.toInt

instance (page pageSize : Int32) (n : ℕ) : Decidable (Sliceable page pageSize n) :=
  inferInstanceAs (Decidable (_ ∨ _ ∨ _))

/-- A page other than the first, of a negative size, starts behind all entries or takes back no
more than it has in front. -/
theorem start_lt_iff {page pageSize : ℤ} {n : ℕ} (hpage : page ≠ 0) (hsize : pageSize < 0)
    (hlow : -2 ^ 31 ≤ pageSize) (hbounds : -2 ^ 31 ≤ page ∧ page < 2 ^ 31) (hn : n < 2 ^ 63) :
    min (asUsize (page * pageSize)) n < -pageSize ↔ n < -pageSize := by
  rcases lt_or_gt_of_ne hpage with hneg | hpos
  · have hprod : -pageSize ≤ page * pageSize := by nlinarith
    have hprod' : page * pageSize ≤ 2 ^ 31 * 2 ^ 31 := by nlinarith
    have hcast : (asUsize (page * pageSize) : ℤ) = page * pageSize := by
      rw [asUsize]
      omega
    omega
  · have hprod : page * pageSize < 0 := Int.mul_neg_of_pos_of_neg hpos hsize
    have hprod' : -2 ^ 62 ≤ page * pageSize := by nlinarith
    have hcast : (asUsize (page * pageSize) : ℤ) = page * pageSize + 2 ^ 64 := by
      rw [asUsize]
      omega
    omega

theorem pageOf_returns_iff {l : List (Bytes × Bytes)} {page pageSize : Int32}
    (hlen : l.length < 2 ^ 63) :
    Fault.Returns (pageOf page pageSize l) ↔ Sliceable page pageSize l.length := by
  have hsort : (sorted l).length = l.length := length_insertionSort _ l
  have hlow := pageSize.le_toInt
  have hhigh := pageSize.toInt_lt
  rw [pageOf, ← sorted, asUsize_mul, Sliceable, Fault.slice_returns_iff, hsort]
  by_cases hsize : 0 ≤ pageSize.toInt
  · have hcast : asUsize pageSize.toInt < 2 ^ 31 := by
      rw [asUsize]
      omega
    refine iff_of_true ?_ (.inl hsize)
    omega
  · have hcast : (asUsize pageSize.toInt : ℤ) = pageSize.toInt + 2 ^ 64 := by
      rw [asUsize]
      omega
    by_cases hpage : page.toInt = 0
    · refine iff_of_true ?_ (.inr (.inl hpage))
      rw [hpage, Int.zero_mul, show asUsize 0 = 0 from rfl]
      omega
    · have hstart := start_lt_iff hpage (not_le.1 hsize) hlow ⟨page.le_toInt, page.toInt_lt⟩ hlen
      generalize asUsize (page.toInt * pageSize.toInt) = start at hstart ⊢
      omega

theorem pageOf_eq {l : List (Bytes × Bytes)} {page pageSize : Int32} (hpage : 0 ≤ page.toInt)
    (hsize : 0 ≤ pageSize.toInt) (hlen : l.length < 2 ^ 63) :
    pageOf page pageSize l = .ok (pageSlice l page.toInt.toNat pageSize.toInt.toNat) := by
  have hsort : (sorted l).length = l.length := length_insertionSort _ l
  have hprod : page.toInt * pageSize.toInt ≤ 2 ^ 31 * 2 ^ 31 := by
    have := page.toInt_lt
    have := pageSize.toInt_lt
    nlinarith
  have hstart : asUsize (page.toInt * pageSize.toInt) = page.toInt.toNat * pageSize.toInt.toNat := by
    rw [asUsize, Int.emod_eq_of_lt (Int.mul_nonneg hpage hsize) (by omega),
      Int.toNat_mul hpage hsize]
  have hcast : asUsize pageSize.toInt = pageSize.toInt.toNat := by
    have := pageSize.toInt_lt
    rw [asUsize]
    omega
  have hlt : pageSize.toInt.toNat < 2 ^ 31 := by
    have := pageSize.toInt_lt
    omega
  rw [pageOf, ← sorted, asUsize_mul, hstart, hcast, pageSlice]
  generalize page.toInt.toNat * pageSize.toInt.toNat = prod
  have hdrop : (sorted l).drop (min prod (sorted l).length) = (sorted l).drop prod :=
    drop_eq_drop_iff.2 (by omega)
  rw [Nat.mod_eq_of_lt (by omega), Fault.slice_eq (by omega) (by omega), drop_take, hdrop,
    take_eq_take_iff.2]
  rw [length_drop]
  omega

/-- What a query with pages sorts. -/
def IndexedStore.matched (patterns : Patterns) (s : IndexedStore) (env : StoreEnv) (map : Str) :
    Option Predicate → Except Fault (IndexedStore × List (Bytes × Bytes))
  | some inner => s.query patterns env map inner
  | none => .ok (s, s.base.entries env.now map)

theorem query_paging (patterns : Patterns) (s : IndexedStore) (env : StoreEnv) (map : Str)
    (inner : Option Predicate) (page pageSize : Int32) (iterationType : Str) :
    s.query patterns env map (.paging inner page pageSize iterationType) =
      s.matched patterns env map inner >>= fun r =>
        (pageOf page pageSize r.2).map fun found => (r.1, found) := by
  cases inner with
  | none =>
    rw [query, matched, Fault.ok_bind]
    cases pageOf page pageSize (s.base.entries env.now map) with
    | error f | ok found => rfl
  | some inner =>
    rw [query, matched]
    refine bind_congr fun (s', l) => ?_
    dsimp only
    cases pageOf page pageSize l with
    | error f | ok found => rfl

def ink : Str := ⟨[105], by decide +kernel⟩

def inked : IndexedStore :=
  [[3], [1], [2]].foldl (fun s key => s.exec ⟨⟨0, 0⟩, 0⟩ (.put ink key [2] 0))
    (IndexedStore.withShardsSeed 1 0)

def inkedPage (page pageSize : Int32) : Except Fault (IndexedStore × List (Bytes × Bytes)) :=
  inked.query ⟨fun _ _ _ => false, fun _ _ => false⟩ ⟨⟨0, 0⟩, 0⟩ ink (.paging none page pageSize ink)

end BonsaiGrid.Store
