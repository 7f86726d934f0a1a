import BonsaiGrid.Lib.Utf8

/-!
# Captured columns

A captured change lists the columns of a row, each with its name, its type and its value.
-/

namespace BonsaiGrid.Cdc

open List

/-- What stands in front of the quote that closes a text, and what behind it. -/
def parseQuoted : Bytes → Bytes × Bytes
  | [] => ([], [])
  | 39 :: 39 :: b => let r := parseQuoted b; (39 :: r.1, r.2)
  | c :: b => if c = 39 then ([], b) else let r := parseQuoted b; (c :: r.1, r.2)

def parseValue (b : Bytes) : Bytes × Bytes :=
  if b.head? = some 39 then
    let r := parseQuoted (b.drop 1)
    ((Str.fromUtf8Lossy r.1).bytes, r.2)
  else (b.takeWhile (· ≠ 32), b.dropWhile (· ≠ 32))

def parseColumn (b : Bytes) : (Bytes × Bytes) × Bytes :=
  let name := b.takeWhile (· ≠ 91)
  let b := ((b.dropWhile (· ≠ 91)).dropWhile (· ≠ 93)).drop 1
  let r := parseValue (if b.head? = some 58 then b.drop 1 else b)
  ((name, r.1), r.2)

def columnsFrom : ℕ → Bytes → List (Bytes × Bytes)
  | 0, _ => []
  | fuel + 1, b =>
    let b := b.dropWhile (· = 32)
    if b = [] then []
    else
      let r := parseColumn b
      r.1 :: columnsFrom fuel r.2

def parseColumns (s : Bytes) : List (Bytes × Bytes) := columnsFrom s.length s

/-! ## The rendering -/

inductive Value where
  | word (s : Str)
  | text (s : Str)

def double (b : Bytes) : Bytes := b.flatMap fun c => if c = 39 then [39, 39] else [c]

namespace Value

def str : Value → Str
  | word s => s
  | text s => s

def render : Value → Bytes
  | word s => s.bytes
  | text s => 39 :: (double s.bytes ++ [39])

def Plain : Value → Prop
  | word s => s.bytes ≠ [] ∧ 32 ∉ s.bytes ∧ 39 ∉ s.bytes
  | text _ => True

end Value

/-- A column whose type is a base type or the array type over it. -/
structure Column where
  name : Str
  base : Str
  isArray : Bool
  value : Value

namespace Column

structure Plain (c : Column) : Prop where
  name : ∀ b ∈ c.name.bytes, b ∉ ([32, 58, 91, 93] : Bytes)
  base : ∀ b ∈ c.base.bytes, b ∉ ([91, 93] : Bytes)
  value : c.value.Plain

def type (c : Column) : Bytes := c.base.bytes ++ if c.isArray then [91, 93] else []

def render (c : Column) : Bytes := c.name.bytes ++ 91 :: (c.type ++ 93 :: 58 :: c.value.render)

end Column

def render (cols : List Column) : Bytes := [32].intercalate (cols.map Column.render)

section Scan

variable {l rest : Bytes} {b : UInt8}

theorem span_ne (h : b ∉ l) (rest : Bytes) (hrest : rest.head? = some b ∨ rest = []) :
    (l ++ rest).takeWhile (· ≠ b) = l ∧ (l ++ rest).dropWhile (· ≠ b) = rest := by
  have hl : ∀ a ∈ l, decide (a ≠ b) = true := fun a ha =>
    decide_eq_true fun hab => h (hab ▸ ha)
  rw [takeWhile_append_of_pos hl, dropWhile_append_of_pos hl]
  rcases hrest with hhead | rfl
  · obtain ⟨rest, rfl⟩ := head?_eq_some_iff.1 hhead
    simp
  · simp

theorem parseQuoted_double (t : Bytes) (h : rest.head? ≠ some 39) :
    parseQuoted (double t ++ 39 :: rest) = (t, rest) := by
  induction t with
  | nil =>
    cases rest with
    | nil => rfl
    | cons c rest =>
      have hc : c ≠ 39 := by simpa using h
      simp [double, parseQuoted, hc]
  | cons c t ih =>
    rw [double, flatMap_cons, ← double]
    by_cases hc : c = 39
    · subst hc
      simp [parseQuoted, ih]
    · rw [if_neg hc, singleton_append, cons_append]
      cases hd : double t ++ 39 :: rest with
      | nil => simp at hd
      | cons d b => rw [parseQuoted] <;> simp [hc, ← hd, ih]

theorem parseValue_render {v : Value} (hv : v.Plain) (h : rest.head? = some 32 ∨ rest = []) :
    parseValue (v.render ++ rest) = (v.str.bytes, rest) := by
  cases v with
  | word s =>
    obtain ⟨hne, hspace, hquote⟩ := hv
    obtain ⟨c, l, hs⟩ := exists_cons_of_ne_nil hne
    have hc : c ≠ 39 := fun hc => hquote (by simp [hs, hc])
    obtain ⟨htake, hdrop⟩ := span_ne hspace rest h
    rw [parseValue, if_neg (by simp [Value.render, hs, hc]), Value.render, htake, hdrop]
    rfl
  | text s =>
    have hrest : rest.head? ≠ some 39 := by
      rcases h with hhead | rfl
      · simp [hhead]
      · simp
    simp [parseValue, Value.render, parseQuoted_double s.bytes hrest, Str.fromUtf8Lossy_bytes,
      Value.str]

variable {c : Column}

theorem parseColumn_render (hc : c.Plain) (rest : Bytes) :
    parseColumn (c.render ++ rest) =
      let r := parseValue (if c.isArray then 93 :: 58 :: (c.value.render ++ rest)
        else c.value.render ++ rest)
      ((c.name.bytes, r.1), r.2) := by
  have hname : (91 : UInt8) ∉ c.name.bytes := fun h => hc.name 91 h (by simp)
  have hbase : (93 : UInt8) ∉ c.base.bytes := fun h => hc.base 93 h (by simp)
  obtain ⟨htake, hdrop⟩ := span_ne hname
    (91 :: (c.type ++ 93 :: 58 :: (c.value.render ++ rest))) (.inl rfl)
  have hrender : c.render ++ rest =
      c.name.bytes ++ 91 :: (c.type ++ 93 :: 58 :: (c.value.render ++ rest)) := by
    simp [Column.render]
  rw [parseColumn, hrender, htake, hdrop, Column.type]
  cases c.isArray with
  | false =>
    have hskip := (span_ne (l := 91 :: c.base.bytes) (b := 93) (by simpa using hbase)
      (93 :: 58 :: (c.value.render ++ rest)) (.inl rfl)).2
    simp at hskip ⊢
    simp [hskip]
  | true =>
    have hskip := (span_ne (l := 91 :: (c.base.bytes ++ [91])) (b := 93) (by simpa using hbase)
      (93 :: 93 :: 58 :: (c.value.render ++ rest)) (.inl rfl)).2
    simp at hskip ⊢
    simp [hskip]

theorem length_le_double (b : Bytes) : b.length ≤ (double b).length := by
  induction b with
  | nil => rfl
  | cons c b ih =>
    rw [double, flatMap_cons, ← double, length_append, length_cons]
    split <;> simp <;> omega

theorem length_le_render (v : Value) : v.str.bytes.length ≤ v.render.length := by
  cases v with
  | word s => exact le_rfl
  | text s =>
    have hle := length_le_double s.bytes
    simp [Value.str, Value.render]
    omega

theorem space_notMem_render {v : Value} (h : 32 ∉ v.str.bytes) : 32 ∉ v.render := by
  cases v with
  | word s => exact h
  | text s =>
    simp only [Value.render, double, mem_cons, mem_append, mem_flatMap]
    rintro (hc | ⟨c, hc, hin⟩ | hc)
    · cases hc
    · split at hin
      · simp at hin
      · exact h (mem_singleton.1 hin ▸ hc)
    · simp at hc

/-- Behind an array type the rest of the brackets is taken for the value. -/
theorem parseValue_array (v : Value) (h : rest.head? = some 32 ∨ rest = []) :
    (parseValue (93 :: 58 :: (v.render ++ rest))).1 ≠ v.str.bytes := by
  intro heq
  rw [parseValue, if_neg (by simp)] at heq
  by_cases hspace : 32 ∈ v.str.bytes
  · rw [← heq] at hspace
    simpa using all_eq_true.1 all_takeWhile 32 hspace
  · have hrender : 32 ∉ 93 :: 58 :: v.render := by simpa using space_notMem_render hspace
    rw [← cons_append, ← cons_append, (span_ne hrender rest h).1] at heq
    have hlen := congrArg length heq
    have hle := length_le_render v
    simp at hlen
    omega

end Scan

section Columns

variable {c : Column} {cols : List Column} {fuel : ℕ}

def spaced (cols : List Column) : Bytes := cols.flatMap fun c => 32 :: c.render

theorem render_cons (c : Column) (cols : List Column) :
    32 :: render (c :: cols) = spaced (c :: cols) := by
  induction cols generalizing c with
  | nil => simp [render, intercalate, spaced]
  | cons d cols ih =>
    rw [spaced, flatMap_cons, ← spaced, ← ih]
    simp [render, intercalate]

theorem head?_spaced (cols : List Column) : (spaced cols).head? = some 32 ∨ spaced cols = [] := by
  cases cols <;> simp [spaced]

theorem length_le_spaced (cols : List Column) : 2 * cols.length ≤ (spaced cols).length := by
  induction cols with
  | nil => rfl
  | cons c cols ih =>
    rw [spaced, flatMap_cons, ← spaced]
    simp [Column.render]
    omega

theorem columnsFrom_space (b : Bytes) : columnsFrom fuel (32 :: b) = columnsFrom fuel b := by
  cases fuel with
  | zero => rfl
  | succ fuel => simp [columnsFrom]

theorem columnsFrom_cons (hc : c.Plain) (rest : Bytes) :
    columnsFrom (fuel + 1) (32 :: (c.render ++ rest)) =
      let r := parseColumn (c.render ++ rest)
      r.1 :: columnsFrom fuel r.2 := by
  have hdrop : (c.render ++ rest).dropWhile (· = 32) = c.render ++ rest := by
    rw [Column.render]
    cases hname : c.name.bytes with
    | nil => rfl
    | cons b name =>
      have hb := hc.name b (by simp [hname])
      simp_all
  have hne : c.render ++ rest ≠ [] := by simp [Column.render]
  rw [columnsFrom_space, columnsFrom, hdrop, if_neg hne]

theorem columnsFrom_iff (h : ∀ c ∈ cols, c.Plain) (hfuel : cols.length ≤ fuel) :
    columnsFrom fuel (spaced cols) = cols.map (fun c => (c.name.bytes, c.value.str.bytes)) ↔
      ∀ c ∈ cols, c.isArray = false := by
  induction cols generalizing fuel with
  | nil => cases fuel <;> simp [columnsFrom, spaced]
  | cons c cols ih =>
    obtain ⟨hc, hcols⟩ := forall_mem_cons.1 h
    cases fuel with
    | zero => cases hfuel
    | succ fuel =>
      rw [spaced, flatMap_cons, ← spaced, cons_append, columnsFrom_cons hc, parseColumn_render hc,
        forall_mem_cons]
      cases c.isArray with
      | false =>
        rw [if_neg Bool.false_ne_true, parseValue_render hc.value (head?_spaced cols)]
        simp [ih hcols (Nat.le_of_succ_le_succ hfuel)]
      | true => simp [parseValue_array c.value (head?_spaced cols)]

end Columns

/-- The columns are read back exactly if none has an array type. -/
theorem parseColumns_render_iff (cols : List Column) (h : ∀ c ∈ cols, c.Plain) :
    parseColumns (render cols) = cols.map (fun c => (c.name.bytes, c.value.str.bytes)) ↔
      ∀ c ∈ cols, c.isArray = false := by
  cases cols with
  | nil => simp [parseColumns, render, columnsFrom]
  | cons c cols =>
    have hlen : (c :: cols).length ≤ (render (c :: cols)).length := by
      have hle := length_le_spaced (c :: cols)
      rw [← render_cons] at hle
      simp at hle ⊢
      omega
    rw [parseColumns, ← columnsFrom_space, render_cons]
    exact columnsFrom_iff h hlen

def idColumn : Column :=
  ⟨⟨[105, 100], by decide⟩, ⟨[105, 110, 116], by decide⟩, false, .word ⟨[49], by decide⟩⟩

def nameColumn : Column :=
  ⟨⟨[110, 109], by decide⟩, ⟨[116, 101, 120, 116], by decide⟩, false, .text ⟨[97, 32, 39], by decide⟩⟩

theorem parseColumns_render_iff_pair :
    parseColumns (render [idColumn, nameColumn]) = [([105, 100], [49]), ([110, 109], [97, 32, 39])] :=
  (parseColumns_render_iff [idColumn, nameColumn] (by
    intro c hc
    rcases mem_pair.1 hc with rfl | rfl
    · constructor <;> simp [idColumn, Value.Plain]
    · constructor <;> simp [nameColumn, Value.Plain])).2 (by simp [idColumn, nameColumn])

/-- `id[int[]]:1` is read as the column `id` with the value `]:1`. -/
theorem parseColumns_array :
    parseColumns (render [{ idColumn with isArray := true }]) = [([105, 100], [93, 58, 49])] ∧
      ([{ idColumn with isArray := true }].map fun c => (c.name.bytes, c.value.str.bytes)) =
        [([105, 100], [49])] := by
  decide +kernel

end BonsaiGrid.Cdc
