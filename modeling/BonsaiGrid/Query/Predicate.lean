import BonsaiGrid.Serialization.Compact

/-!
# Predicates

A predicate is evaluated against a value through the fields that are extracted from it. A field
that is null, or not comparable to the constant of the predicate, does not match.
-/

namespace BonsaiGrid.Query

open Serialization List

inductive Op where
  | eq
  | notEq
  | lt
  | le
  | gt
  | ge
deriving DecidableEq

inductive Predicate where
  | compare (field : Str) (op : Op) (value : FieldValue)
  | and (children : List Predicate)
  | or (children : List Predicate)
  | not (inner : Predicate)
  | between (field : Str) (low high : FieldValue)
  | isIn (field : Str) (values : List FieldValue)
  | like (field expr : Str)
  | ilike (field expr : Str)
  | regex (field regex : Str)
  | true
  | false
  | sql (text : Str)
  | paging (inner : Option Predicate) (page pageSize : Int32) (iterationType : Str)
  | partition (partitionId : Int32) (target : Predicate)
  | matchNone

/-- What patterns match: the ones of SQL, with the case of letters or without, and
regular expressions. -/
structure Patterns where
  like : Str → Bool → Str → Bool
  regex : Str → Str → Bool

def Op.holds : Op → Ordering → Bool
  | .eq, o => o == .eq
  | .notEq, o => o != .eq
  | .lt, o => o == .lt
  | .le, o => o != .gt
  | .gt, o => o == .gt
  | .ge, o => o != .lt

def Op.test (op : Op) (fv pv : FieldValue) : Bool := (fv.compare pv).any op.holds

theorem Op.test_eq (fv pv : FieldValue) : Op.eq.test fv pv = fv.equals pv := by
  rw [Op.test, FieldValue.equals]
  cases fv.compare pv <;> rfl

def isBetween (fv low high : FieldValue) : Bool := Op.ge.test fv low && Op.le.test fv high

def textHolds (f : Str → Bool) : FieldValue → Bool
  | .str s => f s
  | _ => false

variable (patterns : Patterns) (extract : Str → FieldValue)

mutual

def eval : Predicate → Bool
  | .compare field op value => op.test (extract field) value
  | .and children => evalAll children
  | .or children => evalAny children
  | .not inner => !eval inner
  | .between field low high => isBetween (extract field) low high
  | .isIn field values => values.any (extract field).equals
  | .like field expr => textHolds (patterns.like expr false) (extract field)
  | .ilike field expr => textHolds (patterns.like expr true) (extract field)
  | .regex field regex => textHolds (patterns.regex regex) (extract field)
  | .true => true
  | .false => false
  | .sql _ => false
  | .paging (some inner) _ _ _ => eval inner
  | .paging none _ _ _ => true
  | .partition _ target => eval target
  | .matchNone => false

def evalAll : List Predicate → Bool
  | [] => true
  | p :: ps => eval p && evalAll ps

def evalAny : List Predicate → Bool
  | [] => false
  | p :: ps => eval p || evalAny ps

end

variable {patterns : Patterns} {extract : Str → FieldValue}

/-! ## The fields a predicate asks for -/

mutual

def Predicate.names : Predicate → List Str
  | .compare field _ _ => [field]
  | .and children => namesAll children
  | .or children => namesAll children
  | .not inner => inner.names
  | .between field _ _ => [field]
  | .isIn field _ => [field]
  | .like field _ => [field]
  | .ilike field _ => [field]
  | .regex field _ => [field]
  | .paging (some inner) _ _ _ => inner.names
  | .paging none _ _ _ => []
  | .partition _ target => target.names
  | .true | .false | .sql _ | .matchNone => []

def namesAll : List Predicate → List Str
  | [] => []
  | p :: ps => p.names ++ namesAll ps

end

section Congruence

variable {extract' : Str → FieldValue}

mutual

/-- The value of a predicate depends on the fields that it names, and on no others. -/
theorem eval_congr : ∀ p : Predicate, (∀ name ∈ p.names, extract name = extract' name) →
    eval patterns extract p = eval patterns extract' p
  | .compare field _ _, h | .between field _ _, h | .isIn field _, h | .like field _, h
  | .ilike field _, h | .regex field _, h => by
    simp only [eval, h field (mem_singleton_self field)]
  | .and children, h => evalAll_congr children h
  | .or children, h => evalAny_congr children h
  | .not inner, h => congrArg (!·) (eval_congr inner h)
  | .paging (some inner) _ _ _, h => eval_congr inner h
  | .partition _ target, h => eval_congr target h
  | .true, _ | .false, _ | .sql _, _ | .paging none _ _ _, _ | .matchNone, _ => rfl

theorem evalAll_congr : ∀ ps : List Predicate,
    (∀ name ∈ namesAll ps, extract name = extract' name) →
    evalAll patterns extract ps = evalAll patterns extract' ps
  | [], _ => rfl
  | p :: ps, h => congrArg₂ (· && ·) (eval_congr p fun n hn => h n (mem_append_left _ hn))
      (evalAll_congr ps fun n hn => h n (mem_append_right _ hn))

theorem evalAny_congr : ∀ ps : List Predicate,
    (∀ name ∈ namesAll ps, extract name = extract' name) →
    evalAny patterns extract ps = evalAny patterns extract' ps
  | [], _ => rfl
  | p :: ps, h => congrArg₂ (· || ·) (eval_congr p fun n hn => h n (mem_append_left _ hn))
      (evalAny_congr ps fun n hn => h n (mem_append_right _ hn))

end

end Congruence

@[simp] theorem evalAll_eq (ps : List Predicate) :
    evalAll patterns extract ps = ps.all (eval patterns extract) := by
  induction ps with
  | nil => rfl
  | cons p ps ih => rw [evalAll, ih, all_cons]

end BonsaiGrid.Query
