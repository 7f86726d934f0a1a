import BonsaiGrid.Lib.Reader
import BonsaiGrid.Query.Fields

/-!
# Partial aggregates

A member aggregates its own entries by group, with one accumulator for each aggregate of the
SELECT. The groups, or the rows of a SELECT without aggregates, are gathered as byte strings.
-/

namespace BonsaiGrid.Query.Distributed

open Serialization LittleEndian Reader

/-- A row of a result: a column that is null has no text. -/
abbrev Row := List (Option Str)

structure Acc where
  rows : Int64 := 0
  sum : F64 := ⟨0⟩
  nvals : Int64 := 0
  min : F64 := ⟨0⟩
  max : F64 := ⟨0⟩
  seen : Bool := false
deriving DecidableEq

structure Partial where
  groups : Dict Row (List Acc) := ∅

/-! ## On the wire -/

section Wire

variable {α : Type}

def putI64 (v : Int64) : Bytes := encode 8 v.toUInt64.toNat

def putF64 (v : F64) : Bytes := encode 8 v.bits.toNat

def putStr : Option Str → Bytes
  | some s => [1] ++ (encode 4 s.bytes.length ++ s.bytes)
  | none => [0]

def putAcc (a : Acc) : Bytes :=
  putI64 a.rows ++ (putF64 a.sum ++ (putI64 a.nvals ++ (putF64 a.min ++ (putF64 a.max ++
    [if a.seen then 1 else 0]))))

def putList (put : α → Bytes) (l : List α) : Bytes := encode 4 l.length ++ l.flatMap put

def putGroup (g : Row × List Acc) : Bytes := putList putStr g.1 ++ putList putAcc g.2

def encodePartial (p : Partial) : Bytes := putList putGroup p.groups.pairs

def encodeRows (rows : List Row) : Bytes := putList (putList putStr) rows

def getI64 : Reader Int64 := do
  let n ← number 8
  pure (Int64.ofNat n)

def getF64 : Reader F64 := do
  let n ← number 8
  pure ⟨UInt64.ofNat n⟩

def optStr : Reader (Option Str) := do
  let tag ← byte
  if tag = 0 then pure none
  else
    let n ← number 4
    let b ← bytes n
    pure (some (.fromUtf8Lossy b))

def getAcc : Reader Acc := do
  let rows ← getI64
  let sum ← getF64
  let nvals ← getI64
  let min ← getF64
  let max ← getF64
  let seen ← byte
  pure ⟨rows, sum, nvals, min, max, seen ≠ 0⟩

def getList (r : Reader α) : Reader (List α) := do
  let n ← number 4
  times r n

def getGroup : Reader (Row × List Acc) := do
  let key ← getList optStr
  let accs ← getList getAcc
  pure (key, accs)

def decodePartial (b : Bytes) : Option Partial :=
  (getList getGroup b).map fun r => ⟨r.1.foldl (fun d g => d.insert g.1 g.2) ∅⟩

def decodeRows (b : Bytes) : Option (List Row) := (getList (getList optStr) b).map Prod.fst

/-- The number of elements fits its four bytes. -/
def Counted (P : α → Prop) (l : List α) : Prop := l.length < 2 ^ 32 ∧ ∀ a ∈ l, P a

def CellFits (c : Option Str) : Prop := ∀ s ∈ c, s.bytes.length < 2 ^ 32

def GroupFits (g : Row × List Acc) : Prop := Counted CellFits g.1 ∧ g.2.length < 2 ^ 32

def Partial.Fits (p : Partial) : Prop := Counted GroupFits p.groups.pairs

theorem exact_i64 (v : Int64) : Exact getI64 (putI64 v) v := by
  have h := (Exact.number (k := 8) (UInt64.toNat_lt v.toUInt64)).map Int64.ofNat
  rwa [int64_ofNat_toNat] at h

theorem exact_f64 (v : F64) : Exact getF64 (putF64 v) v := by
  have h := (Exact.number (k := 8) (UInt64.toNat_lt v.bits)).map fun n => F64.mk (UInt64.ofNat n)
  rwa [UInt64.ofNat_toNat] at h

theorem exact_str {c : Option Str} (h : CellFits c) : Exact optStr (putStr c) c := by
  cases c with
  | none => exact (Exact.byte 0).bind (.pure none)
  | some s =>
    have hs := (Exact.bytes s.bytes).map fun b => some (Str.fromUtf8Lossy b)
    rw [Str.fromUtf8Lossy_bytes] at hs
    exact (Exact.byte 1).bind ((Exact.number (h s rfl)).bind hs)

theorem exact_acc (a : Acc) : Exact getAcc (putAcc a) a := by
  have hseen : Exact (do let seen ← byte; pure (Acc.mk a.rows a.sum a.nvals a.min a.max (seen ≠ 0)))
      [if a.seen then 1 else 0] a := by
    have hbyte := (Exact.byte (if a.seen then 1 else 0)).map fun seen =>
      Acc.mk a.rows a.sum a.nvals a.min a.max (seen ≠ 0)
    have hflag : decide ((if a.seen then 1 else 0 : UInt8) ≠ 0) = a.seen := by
      cases a.seen <;> rfl
    rwa [hflag] at hbyte
  exact (exact_i64 _).bind ((exact_f64 _).bind ((exact_i64 _).bind ((exact_f64 _).bind
    ((exact_f64 _).bind hseen))))

theorem exact_list {P : α → Prop} {r : Reader α} {put : α → Bytes}
    (h : ∀ a, P a → Exact r (put a) a) {l : List α} (hl : Counted P l) :
    Exact (getList r) (putList put l) l := by
  have htimes := Exact.times fun a ha => h a (hl.2 a ha)
  rw [List.map_id'] at htimes
  exact (Exact.number hl.1).bind htimes

theorem exact_group {g : Row × List Acc} (h : GroupFits g) : Exact getGroup (putGroup g) g :=
  (exact_list (fun _ => exact_str) h.1).bind
    ((exact_list (fun a _ => exact_acc a) ⟨h.2, fun _ _ => trivial⟩).map fun accs => (g.1, accs))

/-- **Gathered payloads round-trip, and a payload that is cut off is refused.** The groups of a
partial are written in the order in which the map yields them. -/
theorem gathered_round_trip (p : Partial) (hp : p.Fits) (rows : List Row)
    (hrows : Counted (Counted CellFits) rows) :
    (∃ q, decodePartial (encodePartial p) = some q ∧
      ∀ key, q.groups.lookup key = p.groups.lookup key) ∧
    decodeRows (encodeRows rows) = some rows ∧
    (∀ k < (encodePartial p).length, decodePartial ((encodePartial p).take k) = none) ∧
    ∀ k < (encodeRows rows).length, decodeRows ((encodeRows rows).take k) = none := by
  have hgathered := exact_list (fun _ => exact_group) hp
  have hall := exact_list (fun _ => exact_list fun _ => exact_str) hrows
  refine ⟨⟨_, congrArg _ hgathered.reads, p.groups.lookup_foldl_pairs⟩, congrArg _ hall.reads,
    fun k hk => congrArg _ (hgathered.cut k hk), fun k hk => congrArg _ (hall.cut k hk)⟩

end Wire

/-- Two groups, one of them of the rows without a value in the first column. -/
def twoGroups : Partial :=
  let sums : Acc := { rows := 3, sum := ⟨0x4008000000000000⟩, nvals := 3, seen := true }
  ⟨AList.insert [some (Sql.str "a"), some (Sql.str "b")] [sums, { rows := 3 }]
    (AList.insert [none, some (Sql.str "b")] [{ rows := -1 }, {}] ∅)⟩

def twoRows : List Row := [[some (Sql.str "a"), none], [none, some (Sql.str "bc")]]

instance (c : Option Str) : Decidable (CellFits c) :=
  match c with
  | none => isTrue fun s hs => by cases hs
  | some s => decidable_of_iff (s.bytes.length < 2 ^ 32) (by simp [CellFits])

instance {α : Type} (P : α → Prop) [DecidablePred P] (l : List α) : Decidable (Counted P l) :=
  inferInstanceAs (Decidable (_ ∧ _))

instance (g : Row × List Acc) : Decidable (GroupFits g) := inferInstanceAs (Decidable (_ ∧ _))

theorem gathered_round_trip_groups :
    (∃ q, decodePartial (encodePartial twoGroups) = some q ∧
      ∀ key, q.groups.lookup key = twoGroups.groups.lookup key) ∧
    decodeRows (encodeRows twoRows) = some twoRows ∧
    decodePartial ((encodePartial twoGroups).take 100) = none ∧
    decodeRows ((encodeRows twoRows).take 20) = none := by
  have hgroups : twoGroups.Fits := show Counted GroupFits _ by decide +kernel
  have hrows : Counted (Counted CellFits) twoRows := by decide +kernel
  obtain ⟨hwhole, hread, hcut, hcut'⟩ := gathered_round_trip twoGroups hgroups twoRows hrows
  exact ⟨hwhole, hread, hcut 100 (by decide +kernel), hcut' 20 (by decide +kernel)⟩

end BonsaiGrid.Query.Distributed
