import BonsaiGrid.Lib.Postings
import BonsaiGrid.Query.Predicate

/-!
# Indexes and the planner

An index lists the keys of a map under the values of one field. The planner takes the
first condition of a conjunction that an index can answer.
-/

namespace BonsaiGrid.Query

open Serialization Postings List

inductive IndexType where
  | sorted
  | hash
  | bitmap
deriving DecidableEq

structure IndexConfig where
  ty : IndexType
  attributes : List Str

def sameOrder (a b : FieldValue) : Bool := a.cmp b == .eq

def sameValue (a b : FieldValue) : Bool := a = b

inductive Index where
  | sorted (map : Postings sameOrder Bytes)
  | hash (map : Postings sameValue Bytes)

variable {keys : List Bytes}

namespace Index

def new : IndexType → Index
  | .sorted => .sorted .empty
  | .hash => .hash .empty
  | .bitmap => .hash .empty

variable (val : FieldValue)

def insert (key : Bytes) : Index → Index
  | .sorted map => .sorted (map.insert val key)
  | .hash map => .hash (map.insert val key)

def remove (key : Bytes) : Index → Index
  | .sorted map => .sorted (map.remove val key)
  | .hash map => .hash (map.remove val key)

def query (op : Op) (val : FieldValue) : Index → List Bytes
  | .sorted map =>
    match op with
    | .eq => map.get val
    | .notEq => map.collect fun k => k ≠ val
    | .lt => map.collect fun k => k.cmp val = .lt
    | .le => map.collect fun k => k.cmp val ≠ .gt
    | .gt => map.collect fun k => k.cmp val = .gt
    | .ge => map.collect fun k => k.cmp val ≠ .lt
  | .hash map =>
    match op with
    | .eq => map.get val
    | .notEq => map.collect fun k => k ≠ val
    | _ => []

/-- The keys for a range of constants, which an ordered dictionary refuses if its bounds
are in the wrong order. -/
def queryBetween (low high : FieldValue) : Index → Except Fault (List Bytes)
  | .sorted map =>
    if low.cmp high = .gt then .error .outOfRange
    else .ok (map.collect fun k => k.cmp low ≠ .lt ∧ k.cmp high ≠ .gt)
  | .hash _ => .ok []

def isSorted : Index → Bool
  | .sorted _ => true
  | .hash _ => false

def Holds (key : Bytes) : Index → Prop
  | .sorted map => map.Holds val key
  | .hash map => map.Holds val key

section Rules

variable {x : Index} {fv pv low high : FieldValue} {key other : Bytes} {op : Op}

theorem holds_insert_self : (x.insert fv key).Holds fv key := by
  cases x with
  | sorted map => exact holds_insert_self (by simp [sameOrder])
  | hash map => exact holds_insert_self (by simp [sameValue])

theorem Holds.insert (h : x.Holds pv other) (fv : FieldValue) (key : Bytes) :
    (x.insert fv key).Holds pv other := by
  cases x with
  | sorted map | hash map => exact Postings.Holds.insert h fv key

theorem Holds.remove (h : x.Holds pv other) (fv : FieldValue) (hne : other ≠ key) :
    (x.remove fv key).Holds pv other := by
  cases x with
  | sorted map | hash map => exact Postings.Holds.remove h fv hne

theorem sameOrder_trans (a b c : FieldValue) (hab : sameOrder a b = true)
    (hcb : sameOrder c b = true) : sameOrder a c = true := by
  simp only [sameOrder, beq_iff_eq] at hab hcb ⊢
  rw [Std.TransCmp.congr_left hab]
  exact Std.OrientedCmp.eq_symm hcb

theorem exists_sorted {map : Postings sameOrder Bytes} (h : map.Holds fv key) :
    ∃ e ∈ map.entries, (∀ v, e.1.cmp v = fv.cmp v) ∧ key ∈ e.2 := by
  obtain ⟨e, he, hsame, hkey⟩ := h
  exact ⟨e, he, fun v => Std.TransCmp.congr_left (by simpa [sameOrder] using hsame), hkey⟩

theorem mem_query (hfloat : fv.isFloat = false) (h : x.Holds fv key) (hop : op.test fv pv = true)
    (hplan : op = .eq ∨ op = .notEq ∨ x.isSorted = true)
    (hwidth : x.isSorted = false → op = .eq → fv.equals pv = true → fv = pv) :
    key ∈ x.query op pv := by
  obtain ⟨o, ho, hholds⟩ : ∃ o, fv.compare pv = some o ∧ op.holds o = true := by
    simpa [Op.test, Option.any_eq_true] using hop
  have hcmp := FieldValue.cmp_of_compare hfloat ho
  cases x with
  | sorted map =>
    obtain ⟨e, he, hlike, hkey⟩ := exists_sorted h
    have hepv : e.1.cmp pv = o := (hlike pv).trans hcmp
    cases op with
    | eq =>
      refine mem_get sameOrder_trans ⟨e, he, ?_, hkey⟩
      simpa [sameOrder, hepv, Op.holds] using hholds
    | notEq =>
      have hne : e.1 ≠ pv := by
        intro heq
        rw [heq] at hepv
        simp [← hepv, Op.holds] at hholds
      rw [query, mem_collect]
      exact ⟨e, he, by simpa using hne, hkey⟩
    | _ =>
      rw [query, mem_collect]
      exact ⟨e, he, by simpa [hepv, Op.holds] using hholds, hkey⟩
  | hash map =>
    cases op with
    | eq =>
      have hequals : fv.equals pv = true := by
        simpa [FieldValue.equals, ho, Op.holds] using hholds
      rw [← hwidth rfl rfl hequals]
      exact mem_get (by simp_all [sameValue]) h
    | notEq =>
      obtain ⟨e, he, hsame, hkey⟩ := h
      have hval : e.1 = fv := by simpa [sameValue] using hsame
      have hne : fv ≠ pv := by
        intro heq
        rw [heq] at hcmp
        simp [← hcmp, Op.holds] at hholds
      rw [query, mem_collect]
      exact ⟨e, he, by simpa [hval] using hne, hkey⟩
    | _ => simp [isSorted] at hplan

theorem nodup_query : (x.query op pv).Nodup := by
  cases x <;> cases op <;>
    simp [query, nodup_get, nodup_collect]

theorem mem_queryBetween (hfloat : fv.isFloat = false) (h : x.Holds fv key)
    (hin : isBetween fv low high = true) (hsorted : x.isSorted = true)
    (hq : x.queryBetween low high = .ok keys) : key ∈ keys := by
  cases x with
  | hash map => cases hsorted
  | sorted map =>
    obtain ⟨e, he, hlike, hkey⟩ := exists_sorted h
    simp only [isBetween, Bool.and_eq_true, Op.test, Option.any_eq_true, Op.holds,
      bne_iff_ne] at hin
    obtain ⟨⟨lo, hlo, hlo'⟩, hi, hhi, hhi'⟩ := hin
    rw [queryBetween] at hq
    split at hq
    · cases hq
    · cases hq
      refine mem_collect.2 ⟨e, he, ?_, hkey⟩
      simpa [hlike, FieldValue.cmp_of_compare hfloat hlo, FieldValue.cmp_of_compare hfloat hhi]
        using ⟨hlo', hhi'⟩

end Rules

end Index

/-! ## The planner -/

mutual

def planAndResolve (indexes : Dict Str Index) : Predicate → Except Fault (Option (List Bytes))
  | .compare field op value =>
    match indexes.lookup field with
    | some index =>
      if op = .eq ∨ op = .notEq ∨ index.isSorted then .ok (some (index.query op value))
      else .ok none
    | none => .ok none
  | .between field low high =>
    match indexes.lookup field with
    | some index =>
      if index.isSorted then (index.queryBetween low high).map some else .ok none
    | none => .ok none
  | .isIn field values =>
    match indexes.lookup field with
    | some index => .ok (some (values.flatMap fun v => index.query .eq v).dedup)
    | none => .ok none
  | .and preds => planFirst indexes preds
  | _ => .ok none

def planFirst (indexes : Dict Str Index) : List Predicate → Except Fault (Option (List Bytes))
  | [] => .ok none
  | p :: ps => do
      match ← planAndResolve indexes p with
      | some keys => .ok (some keys)
      | none => planFirst indexes ps

end

/-! ## What the planner answers from -/

inductive Atom where
  | compare (op : Op) (value : FieldValue)
  | between (low high : FieldValue)
  | isIn (values : List FieldValue)

namespace Atom

def test (fv : FieldValue) : Atom → Bool
  | compare op value => op.test fv value
  | between low high => isBetween fv low high
  | isIn values => values.any fv.equals

def fits (x : Index) : Atom → Bool
  | compare op _ => op = .eq ∨ op = .notEq ∨ x.isSorted
  | between _ _ => x.isSorted
  | isIn _ => true

def resolve (x : Index) : Atom → Except Fault (List Bytes)
  | compare op value => .ok (x.query op value)
  | between low high => x.queryBetween low high
  | isIn values => .ok (values.flatMap fun v => x.query .eq v).dedup

def constants : Atom → List FieldValue
  | compare .eq value => [value]
  | isIn values => values
  | _ => []

/-- The bounds of a range are in order, and on a hashed index no field is equal to a constant
by its number only. -/
structure Answerable (x : Index) (fields : FieldValue → Prop) (a : Atom) : Prop where
  range : ∀ low high, a = between low high → low.cmp high ≠ .gt
  width : x.isSorted = false → ∀ fv, fields fv → ∀ v ∈ a.constants, fv.equals v = true → fv = v

variable {x : Index} {a : Atom} {fields : FieldValue → Prop} {fv : FieldValue} {key : Bytes}

theorem Answerable.returns (h : a.Answerable x fields) : Fault.Returns (a.resolve x) := by
  cases a with
  | compare op value | isIn values => exact Fault.returns_ok _
  | between low high =>
    cases x with
    | hash map => exact Fault.returns_ok _
    | sorted map => simp [resolve, Index.queryBetween, h.range low high rfl, Fault.Returns]

theorem Answerable.mem_resolve (h : a.Answerable x fields) (hfits : a.fits x = true)
    (hfields : fields fv) (hfloat : fv.isFloat = false) (hholds : x.Holds fv key)
    (htest : a.test fv = true) (hkeys : a.resolve x = .ok keys) :
    key ∈ keys := by
  cases a with
  | compare op value =>
    cases hkeys
    refine Index.mem_query hfloat hholds htest (by simpa [fits] using hfits) ?_
    rintro hhash rfl
    exact h.width hhash fv hfields value (by simp [constants])
  | between low high => exact Index.mem_queryBetween hfloat hholds htest hfits hkeys
  | isIn values =>
    cases hkeys
    obtain ⟨v, hv, heq⟩ : ∃ v ∈ values, fv.equals v = true := by simpa [test] using htest
    rw [mem_dedup, mem_flatMap]
    refine ⟨v, hv, Index.mem_query hfloat hholds ?_ (.inl rfl) ?_⟩
    · rwa [Op.test_eq]
    · exact fun hhash _ => h.width hhash fv hfields v hv

theorem nodup_resolve (h : a.resolve x = .ok keys) : keys.Nodup := by
  cases a with
  | compare op value =>
    cases h
    exact Index.nodup_query
  | isIn values =>
    cases h
    exact nodup_dedup _
  | between low high =>
    cases x with
    | hash map =>
      cases h
      exact nodup_nil
    | sorted map =>
      rw [resolve, Index.queryBetween] at h
      split at h
      · cases h
      · cases h
        exact nodup_collect

@[simp] theorem test_null : a.test .null = false := by
  cases a with
  | compare op value => cases value <;> rfl
  | between low high => cases low <;> rfl
  | isIn values =>
    have hnull : FieldValue.null.equals = fun _ => false := by
      funext v
      cases v <;> rfl
    simp [test, hnull]

end Atom

section Planner

variable (indexes : Dict Str Index)

def planAtom (field : Str) (a : Atom) : Option (Str × Atom × Index) :=
  (indexes.lookup field).bind fun x => if a.fits x then some (field, a, x) else none

mutual

def pick : Predicate → Option (Str × Atom × Index)
  | .compare field op value => planAtom indexes field (.compare op value)
  | .between field low high => planAtom indexes field (.between low high)
  | .isIn field values => planAtom indexes field (.isIn values)
  | .and preds => pickFirst preds
  | _ => none

def pickFirst : List Predicate → Option (Str × Atom × Index)
  | [] => none
  | p :: ps => (pick p).or (pickFirst ps)

end

def resolvePick (o : Option (Str × Atom × Index)) : Except Fault (Option (List Bytes)) :=
  match o with
  | none => .ok none
  | some (_, a, x) => (a.resolve x).map some

variable {indexes : Dict Str Index} {patterns : Patterns} {extract : Str → FieldValue}
  {field : Str} {a : Atom} {x : Index}

theorem of_planAtom {b : Atom} {g : Str} (h : planAtom indexes g b = some (field, a, x)) :
    field = g ∧ a = b ∧ indexes.lookup field = some x ∧ a.fits x = true := by
  simp only [planAtom, Option.bind_eq_some_iff, Option.ite_none_right_eq_some] at h
  obtain ⟨y, hlook, hfits, heq⟩ := h
  cases heq
  exact ⟨rfl, rfl, hlook, hfits⟩

mutual

theorem planAndResolve_eq : ∀ p, planAndResolve indexes p = resolvePick (pick indexes p)
  | .compare field op value => by
      rw [planAndResolve, pick, planAtom]
      cases indexes.lookup field with
      | none => rfl
      | some x => by_cases h : op = .eq ∨ op = .notEq ∨ x.isSorted = true <;>
          simp [resolvePick, Atom.fits, Atom.resolve, h, Except.map]
  | .between field low high => by
      rw [planAndResolve, pick, planAtom]
      cases indexes.lookup field with
      | none => rfl
      | some x => by_cases h : x.isSorted = true <;> simp [resolvePick, Atom.fits, Atom.resolve, h]
  | .isIn field values => by
      rw [planAndResolve, pick, planAtom]
      cases indexes.lookup field with
      | none | some x => rfl
  | .and preds => by
      rw [planAndResolve, pick]
      exact planFirst_eq preds
  | .or _ | .not _ | .like _ _ | .ilike _ _ | .regex _ _ | .true | .false | .sql _
  | .paging _ _ _ _ | .partition _ _ | .matchNone => rfl

theorem planFirst_eq : ∀ ps, planFirst indexes ps = resolvePick (pickFirst indexes ps)
  | [] => rfl
  | p :: ps => by
      rw [planFirst, planAndResolve_eq p, planFirst_eq ps, pickFirst]
      cases pick indexes p with
      | none => rfl
      | some r =>
        obtain ⟨field, a, x⟩ := r
        cases h : a.resolve x <;> simp [resolvePick, h, Except.map]

end

variable (patterns extract) in
mutual

theorem of_pick : ∀ p, pick indexes p = some (field, a, x) →
    (indexes.lookup field = some x ∧ a.fits x = true) ∧
      (eval patterns extract p = true → a.test (extract field) = true)
  | .compare g op value, h | .between g low high, h | .isIn g values, h => by
      obtain ⟨rfl, rfl, hx⟩ := of_planAtom h
      exact ⟨hx, id⟩
  | .and preds, h => by
      obtain ⟨hx, htest⟩ := of_pickFirst preds h
      exact ⟨hx, fun heval => htest (by simpa [eval] using heval)⟩
  | .or _, h | .not _, h | .like _ _, h | .ilike _ _, h | .regex _ _, h | .true, h
  | .false, h | .sql _, h | .paging _ _ _ _, h | .partition _ _, h | .matchNone, h => by cases h

theorem of_pickFirst : ∀ ps, pickFirst indexes ps = some (field, a, x) →
    (indexes.lookup field = some x ∧ a.fits x = true) ∧
      ((∀ p ∈ ps, eval patterns extract p = true) → a.test (extract field) = true)
  | [], h => by cases h
  | p :: ps, h => by
      rw [pickFirst] at h
      rcases Option.or_eq_some_iff.1 h with hp | ⟨-, hps⟩
      · obtain ⟨hx, htest⟩ := of_pick p hp
        exact ⟨hx, fun hall => htest (hall p mem_cons_self)⟩
      · obtain ⟨hx, htest⟩ := of_pickFirst ps hps
        exact ⟨hx, fun hall => htest fun q hq => hall q (mem_cons_of_mem p hq)⟩

end

end Planner

end BonsaiGrid.Query
