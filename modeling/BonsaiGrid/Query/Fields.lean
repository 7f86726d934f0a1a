import BonsaiGrid.Query.Predicate
import Mathlib.Data.List.TakeWhile

/-!
# Rows of fields

Where rows are lists of named values, as in a join, a predicate is evaluated on the list and the
columns are picked from it. Of several fields of one name the first counts.
-/

namespace BonsaiGrid.Query

open Serialization List

namespace Sql

def str (s : String) : Str := .fromUtf8Lossy (Utf8.ascii s)

/-- A column name without the alias in front of it: the part behind the last dot. -/
def bareCol (c : Str) : Str :=
  .fromUtf8Lossy (c.bytes.reverse.takeWhile fun b => b ≠ 46).reverse

end Sql

abbrev Field := Str × FieldValue

def fieldNamed (fields : List Field) (name : Str) : Option FieldValue :=
  (fields.find? fun f => f.1 = name).map Prod.snd

section Evaluation

variable (patterns : Patterns) (fields : List Field)

mutual

def evalFields : Predicate → Bool
  | .compare field op value => (fieldNamed fields (Sql.bareCol field)).any fun v => op.test v value
  | .and children => evalFieldsAll children
  | .or children => evalFieldsAny children
  | .not inner => !evalFields inner
  | .between field low high =>
    (fieldNamed fields (Sql.bareCol field)).any fun v => isBetween v low high
  | .isIn field values => (fieldNamed fields (Sql.bareCol field)).any fun v => values.any v.equals
  | .like field expr =>
    (fieldNamed fields (Sql.bareCol field)).any (textHolds (patterns.like expr false))
  | .ilike field expr =>
    (fieldNamed fields (Sql.bareCol field)).any (textHolds (patterns.like expr true))
  | .regex field regex =>
    (fieldNamed fields (Sql.bareCol field)).any (textHolds (patterns.regex regex))
  | .true => true
  | .false => false
  | .sql _ => false
  | .paging (some inner) _ _ _ => evalFields inner
  | .paging none _ _ _ => true
  | .partition _ target => evalFields target
  | .matchNone => false

def evalFieldsAll : List Predicate → Bool
  | [] => true
  | p :: ps => evalFields p && evalFieldsAll ps

def evalFieldsAny : List Predicate → Bool
  | [] => false
  | p :: ps => evalFields p || evalFieldsAny ps

end

end Evaluation

def valueNamed (fields : List Field) (name : Str) : FieldValue :=
  (fieldNamed fields (Sql.bareCol name)).getD .null

/-! ## Evaluation by values -/

section Values

variable {patterns : Patterns} {fields : List Field}

theorem Op.test_null (op : Op) (v : FieldValue) : op.test .null v = false := by
  cases v <;> rfl

theorem any_fieldNamed {f : FieldValue → Bool} (h : f .null = false) (name : Str) :
    (fieldNamed fields (Sql.bareCol name)).any f = f (valueNamed fields name) := by
  rw [valueNamed]
  cases fieldNamed fields (Sql.bareCol name) with
  | none => exact h.symm
  | some v => rfl

mutual

/-- A field that is not there is evaluated as null. -/
theorem evalFields_eq : ∀ p, evalFields patterns fields p = eval patterns (valueNamed fields) p
  | .compare field op value => any_fieldNamed (op.test_null value) field
  | .between field low high => any_fieldNamed (by rw [isBetween, Op.test_null]; rfl) field
  | .isIn field values => any_fieldNamed (by simp [← Op.test_eq, Op.test_null]) field
  | .like field _ | .ilike field _ | .regex field _ => any_fieldNamed rfl field
  | .and children => evalFieldsAll_eq children
  | .or children => evalFieldsAny_eq children
  | .not inner => congrArg (!·) (evalFields_eq inner)
  | .paging (some inner) _ _ _ => evalFields_eq inner
  | .partition _ target => evalFields_eq target
  | .true | .false | .sql _ | .paging none _ _ _ | .matchNone => rfl

theorem evalFieldsAll_eq : ∀ ps,
    evalFieldsAll patterns fields ps = evalAll patterns (valueNamed fields) ps
  | [] => rfl
  | p :: ps => congrArg₂ (· && ·) (evalFields_eq p) (evalFieldsAll_eq ps)

theorem evalFieldsAny_eq : ∀ ps,
    evalFieldsAny patterns fields ps = evalAny patterns (valueNamed fields) ps
  | [] => rfl
  | p :: ps => congrArg₂ (· || ·) (evalFields_eq p) (evalFieldsAny_eq ps)

end

def recordFields (extract : Str → FieldValue) (names : List Str) : List Field :=
  names.map fun name => (name, extract name)

/-- On the fields of a record a predicate has the value that it has on the record itself, if the
part of each name in front of its last dot is left out. -/
theorem evalFields_bareCol (patterns : Patterns) (extract : Str → FieldValue) (names : List Str)
    (h : ∀ name, name ∉ names → extract name = .null) (p : Predicate) :
    evalFields patterns (recordFields extract names) p =
      eval patterns (fun name => extract (Sql.bareCol name)) p := by
  rw [evalFields_eq]
  congr 1
  funext name
  rw [valueNamed, fieldNamed, recordFields, find?_map]
  cases hfind : names.find? ((fun f : Field => decide (f.1 = Sql.bareCol name)) ∘
      fun name => (name, extract name)) with
  | none => exact (h _ fun hmem => by simpa using find?_eq_none.1 hfind _ hmem).symm
  | some n =>
    have hname : n = Sql.bareCol name := by simpa using find?_some hfind
    rw [← hname]
    rfl

/-- There is no dot in the name. -/
def Dotless (name : Str) : Prop := 46 ∉ name.bytes

instance (name : Str) : Decidable (Dotless name) := inferInstanceAs (Decidable (¬ _))

theorem bareCol_of_dotless {name : Str} (h : Dotless name) : Sql.bareCol name = name := by
  have hall : ∀ b ∈ name.bytes.reverse, decide (b ≠ 46) = true := by
    intro b hb
    rw [decide_eq_true_eq]
    rintro rfl
    exact h (mem_reverse.1 hb)
  rw [Sql.bareCol, takeWhile_eq_self_iff.2 hall, reverse_reverse, Str.fromUtf8Lossy_bytes]

/-- **The two evaluators.** Over the fields of a record a predicate has the value that it has over
the record, if of each of its field names only the part behind the last dot is asked for. So a
predicate whose own names have no dots has one value. -/
theorem evalFields_record (patterns : Patterns) (extract : Str → FieldValue) (names : List Str)
    (h : ∀ name, name ∉ names → extract name = .null) (p : Predicate) :
    evalFields patterns (recordFields extract names) p =
      eval patterns (fun name => extract (Sql.bareCol name)) p ∧
    ((∀ name ∈ p.names, Dotless name) →
      evalFields patterns (recordFields extract names) p = eval patterns extract p) := by
  have hbare := evalFields_bareCol patterns extract names h p
  refine ⟨hbare, fun hdotless => hbare.trans (eval_congr p fun name hname => ?_)⟩
  rw [bareCol_of_dotless (hdotless name hname)]

def ages (name : Str) : FieldValue := if name = Sql.str "age" then .i64 31 else .null

def older (name : String) : Predicate := .compare (Sql.str name) .gt (.i64 30)

def olderAnn : Predicate :=
  .and [older "age", .not (.or [.compare (Sql.str "name") .eq (.str (Sql.str "ann")), .matchNone])]

/-- A predicate that asks for a field which is there and for one which is not. -/
theorem evalFields_record_ages :
    (∀ name ∈ olderAnn.names, Dotless name) ∧
    evalFields ⟨fun _ _ _ => false, fun _ _ => false⟩ (recordFields ages [Sql.str "age"])
      olderAnn = eval ⟨fun _ _ _ => false, fun _ _ => false⟩ ages olderAnn := by
  have hages : ∀ name, name ∉ [Sql.str "age"] → ages name = .null := fun name h =>
    if_neg (by simpa using h)
  have hnames : ∀ name ∈ olderAnn.names, Dotless name := by decide +kernel
  exact ⟨hnames, (evalFields_record _ ages _ hages olderAnn).2 hnames⟩

/-- A name with a qualifier is found in the list of fields, and not in the record. -/
theorem evalFields_qualified :
    evalFields ⟨fun _ _ _ => false, fun _ _ => false⟩ (recordFields ages [Sql.str "age"])
      (older "people.age") = true ∧
    eval ⟨fun _ _ _ => false, fun _ _ => false⟩ ages (older "people.age") = false := by
  decide +kernel

end Values

end BonsaiGrid.Query
