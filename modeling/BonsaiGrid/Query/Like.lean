import Mathlib.Computability.Language

/-!
# Wildcards

The patterns of `LIKE` are translated to regular expressions. Here a regular expression is a row of
atoms between the two anchors; what such a row matches is all that is known of the `regex` crate.
-/

namespace BonsaiGrid.Query

open List

def isMeta (c : Char) : Bool :=
  c ∈ ['\\', '.', '+', '*', '?', '(', ')', '|', '[', ']', '\x7b', '\x7d', '^', '$', '#', '&', '-',
    '~']

def escape (c : Char) : List Char := if isMeta c then ['\\', c] else [c]

/-- An escaped character, or a dot if there is none, with a star behind it or without. -/
structure RegexAtom where
  char : Option Char
  starred : Bool

namespace RegexAtom

def text (a : RegexAtom) : List Char := a.char.elim ['.'] escape ++ if a.starred then ['*'] else []

def once (a : RegexAtom) : Language Char := a.char.elim {w | w.length = 1} fun c => {[c]}

def language (a : RegexAtom) : Language Char := if a.starred then KStar.kstar a.once else a.once

end RegexAtom

/-- The `regex` crate, where the dot matches line ends too: a text is compiled, with regard to the
case of letters or without, or refused. -/
class RegexCrate where
  build (caseInsensitive : Bool) (text : List Char) : Option (List Char → Bool)
  anchored : ∀ {atoms : List RegexAtom} {isMatch},
    build false ('^' :: (atoms.flatMap RegexAtom.text ++ ['$'])) = some isMatch →
      ∀ s, isMatch s = true ↔ s ∈ (atoms.map RegexAtom.language).prod

def translate : List Char → List Char
  | [] => []
  | c :: chars =>
    if c = '\\' then
      match chars with
      | [] => escape '\\'
      | next :: rest =>
        if next = '%' ∨ next = '_' ∨ next = '\\' then escape next ++ translate rest
        else escape '\\' ++ translate (next :: rest)
    else if c = '%' then ['.', '*'] ++ translate chars
    else if c = '_' then '.' :: translate chars
    else escape c ++ translate chars

def likeToRegex [RegexCrate] (expr : List Char) (caseInsensitive : Bool) :
    Option (List Char → Bool) :=
  RegexCrate.build caseInsensitive ('^' :: (translate expr ++ ['$']))

/-! ## What a pattern stands for -/

inductive Symbol where
  | any
  | one
  | char (c : Char)

def Symbol.Matches : Symbol → List Char → Prop
  | any, _ => True
  | one, piece => piece.length = 1
  | char c, piece => piece = [c]

/-- The string is cut into pieces for the symbols, one after the other. -/
def Splits (xs : List Symbol) (s : List Char) : Prop :=
  ∃ pieces : List (List Char), pieces.flatten = s ∧ Forall₂ Symbol.Matches xs pieces

def symbols : List Char → List Symbol
  | [] => []
  | '\\' :: '%' :: expr => .char '%' :: symbols expr
  | '\\' :: '_' :: expr => .char '_' :: symbols expr
  | '\\' :: '\\' :: expr => .char '\\' :: symbols expr
  | '%' :: expr => .any :: symbols expr
  | '_' :: expr => .one :: symbols expr
  | c :: expr => .char c :: symbols expr

def Symbol.atom : Symbol → RegexAtom
  | any => ⟨none, true⟩
  | one => ⟨none, false⟩
  | char c => ⟨some c, false⟩

@[simp] theorem text_atom_any : Symbol.any.atom.text = ['.', '*'] := rfl

@[simp] theorem text_atom_one : Symbol.one.atom.text = ['.'] := rfl

@[simp] theorem text_atom_char (c : Char) : (Symbol.char c).atom.text = escape c := append_nil _

theorem translate_eq (expr : List Char) :
    translate expr = (symbols expr).flatMap fun x => x.atom.text := by
  fun_induction symbols expr with
  | case1 => rfl
  | case2 expr ih | case3 expr ih | case4 expr ih => simp [translate, ih]
  | case5 expr ih | case6 expr ih =>
    rw [translate.eq_def]
    simp [ih]
  | case7 c expr hpercent hunder hslash hany hone ih =>
    rw [flatMap_cons, text_atom_char, ← ih, translate.eq_def]
    dsimp only
    by_cases hc : c = '\\'
    · subst hc
      cases expr with
      | nil => simp [translate]
      | cons next rest =>
        have hnext : ¬ (next = '%' ∨ next = '_' ∨ next = '\\') := by
          rintro (rfl | rfl | rfl)
          · exact hpercent rest rfl rfl
          · exact hunder rest rfl rfl
          · exact hslash rest rfl rfl
        exact if_neg hnext
    · rw [if_neg hc, if_neg hany, if_neg hone]

theorem language_any : Symbol.any.atom.language = ⊤ := by
  refine eq_top_iff.2 fun w _ => Language.mem_kstar.2 ⟨w.map fun c => [c], ?_, fun piece h => ?_⟩
  · rw [← flatMap_def, flatMap_singleton']
  · obtain ⟨c, -, rfl⟩ := mem_map.1 h
    rfl

theorem mem_language_atom {x : Symbol} {piece : List Char} :
    piece ∈ x.atom.language ↔ x.Matches piece := by
  cases x with
  | any =>
    rw [language_any]
    exact iff_of_true trivial trivial
  | one | char c => rfl

theorem mem_prod_language {xs : List Symbol} {s : List Char} :
    s ∈ (xs.map fun x => x.atom.language).prod ↔ Splits xs s := by
  induction xs generalizing s with
  | nil => simp [Splits, eq_comm]
  | cons x xs ih =>
    rw [map_cons, prod_cons, Language.mem_mul]
    simp only [ih, mem_language_atom]
    constructor
    · rintro ⟨piece, hpiece, -, ⟨pieces, rfl, hpieces⟩, rfl⟩
      exact ⟨piece :: pieces, rfl, .cons hpiece hpieces⟩
    · rintro ⟨pieces, rfl, h⟩
      obtain ⟨piece, rest, hpiece, hrest, rfl⟩ := forall₂_cons_left_iff.1 h
      exact ⟨piece, hpiece, _, ⟨rest, rfl, hrest⟩, rfl⟩

/-- **Wildcards.** A pattern that compiles matches the strings that split into its symbols. -/
theorem like_wildcards [RegexCrate] {expr : List Char} {isMatch : List Char → Bool}
    (h : likeToRegex expr false = some isMatch) (s : List Char) :
    isMatch s = true ↔ Splits (symbols expr) s := by
  have htext : '^' :: (translate expr ++ ['$']) =
      '^' :: (((symbols expr).map Symbol.atom).flatMap RegexAtom.text ++ ['$']) := by
    rw [translate_eq, flatMap_map]
  rw [likeToRegex, htext] at h
  rw [RegexCrate.anchored h, map_map]
  exact mem_prod_language

/-! ## A crate for rows of atoms

The assumptions on the crate are those of a matcher that reads the row of atoms back from its text
and tries every way to split the string.
-/

namespace RegexAtom

def takes (a : RegexAtom) (c : Char) : Bool := a.char.elim true (· == c)

def read : List Char → List RegexAtom
  | [] => []
  | '\\' :: c :: '*' :: text => ⟨some c, true⟩ :: read text
  | '\\' :: c :: text => ⟨some c, false⟩ :: read text
  | '.' :: '*' :: text => ⟨none, true⟩ :: read text
  | '.' :: text => ⟨none, false⟩ :: read text
  | c :: '*' :: text => ⟨some c, true⟩ :: read text
  | c :: text => ⟨some c, false⟩ :: read text

def matchRow : List RegexAtom → List Char → Bool
  | [], s => s.isEmpty
  | a :: row, s =>
    if a.starred then
      (range (s.length + 1)).any fun n => (s.take n).all a.takes && matchRow row (s.drop n)
    else s.head?.any a.takes && matchRow row s.tail

theorem mem_once {a : RegexAtom} {w : List Char} : w ∈ a.once ↔ ∃ c, w = [c] ∧ a.takes c = true := by
  obtain ⟨char, starred⟩ := a
  cases char with
  | none =>
    change w.length = 1 ↔ _
    simpa [takes] using length_eq_one_iff
  | some c =>
    change w = [c] ↔ _
    simp [takes]

theorem mem_kstar_once {a : RegexAtom} {w : List Char} :
    w ∈ KStar.kstar a.once ↔ w.all a.takes = true := by
  rw [Language.mem_kstar, all_eq_true]
  constructor
  · rintro ⟨pieces, rfl, h⟩ c hc
    obtain ⟨piece, hpiece, hmem⟩ := mem_flatten.1 hc
    obtain ⟨c', rfl, htakes⟩ := mem_once.1 (h piece hpiece)
    rwa [mem_singleton.1 hmem]
  · intro h
    refine ⟨w.map fun c => [c], ?_, fun piece hpiece => ?_⟩
    · rw [← flatMap_def, flatMap_singleton']
    · obtain ⟨c, hc, rfl⟩ := mem_map.1 hpiece
      exact mem_once.2 ⟨c, rfl, h c hc⟩

theorem matchRow_iff {row : List RegexAtom} {s : List Char} :
    matchRow row s = true ↔ s ∈ (row.map language).prod := by
  induction row generalizing s with
  | nil => simp [matchRow]
  | cons a row ih =>
    rw [map_cons, prod_cons, Language.mem_mul, matchRow, language]
    split
    next =>
      simp only [any_eq_true, Bool.and_eq_true, ih, mem_range, mem_kstar_once]
      constructor
      · rintro ⟨n, -, htake, hdrop⟩
        exact ⟨_, htake, _, hdrop, take_append_drop n s⟩
      · rintro ⟨piece, hpiece, rest, hrest, rfl⟩
        refine ⟨piece.length, ?_, ?_⟩
        · rw [length_append]
          exact Nat.lt_succ_of_le (Nat.le_add_right _ _)
        · rw [take_left, drop_left]
          exact ⟨hpiece, hrest⟩
    next =>
      simp only [mem_once]
      cases s with
      | nil => simp
      | cons c s => simp [ih]

theorem head?_text (row : List RegexAtom) : (row.flatMap text).head? ≠ some '*' := by
  cases row with
  | nil => simp
  | cons a row =>
    obtain ⟨char, starred⟩ := a
    cases char with
    | none => simp [text]
    | some c =>
      by_cases hc : isMeta c
      · simp [text, escape, hc]
      · have hstar : c ≠ '*' := by
          rintro rfl
          exact hc (by decide)
        simp [text, escape, hc, hstar]

/-- Behind the text of an atom stands no star that is not its own. -/
theorem read_text (a : RegexAtom) {t : List Char} (ht : t.head? ≠ some '*') :
    read (a.text ++ t) = a :: read t := by
  obtain ⟨char, starred⟩ := a
  have hstar : ∀ t', t ≠ '*' :: t' := by
    rintro t' rfl
    exact ht rfl
  cases char with
  | none =>
    cases starred with
    | true => simp [text, read]
    | false => simp [text, read]
  | some c =>
    by_cases hc : isMeta c
    · cases starred with
      | true => simp [text, escape, hc, read]
      | false => simp [text, escape, hc, read]
    · have hslash : c ≠ '\\' := by
        rintro rfl
        exact hc (by decide)
      have hdot : c ≠ '.' := by
        rintro rfl
        exact hc (by decide)
      cases starred with
      | true => simp [text, escape, hc, read, hslash]
      | false => simp [text, escape, hc, read, hslash, hdot, hstar]

theorem read_flatMap_text (row : List RegexAtom) : read (row.flatMap text) = row := by
  induction row with
  | nil => rfl
  | cons a row ih => rw [flatMap_cons, read_text a (head?_text row), ih]

/-- Compiles the rows of atoms between the anchors, and nothing else. -/
def build (expr : List Char) : Option (List Char → Bool) :=
  let row := read expr.tail.dropLast
  if '^' :: (row.flatMap text ++ ['$']) = expr then some (matchRow row) else none

theorem build_text (row : List RegexAtom) :
    build ('^' :: (row.flatMap text ++ ['$'])) = some (matchRow row) := by
  simp [build, read_flatMap_text]

end RegexAtom

@[reducible] def rowCrate : RegexCrate where
  build _ := RegexAtom.build
  anchored := by
    intro atoms isMatch h s
    rw [RegexAtom.build_text] at h
    cases h
    exact RegexAtom.matchRow_iff

/-- Any sequence, one character, a percent sign, a dot and a backslash. -/
def percentDot : List Char := ['a', '%', '_', '\\', '%', '.', '\\', 'x']

theorem like_wildcards_percentDot :
    Splits (symbols percentDot) ['a', 'b', '\n', 'c', '%', '.', '\\', 'x'] ∧
      ¬ Splits (symbols percentDot) ['a', 'b', '\n', 'c', '%', 'z', '\\', 'x'] := by
  have htext : '^' :: (translate percentDot ++ ['$']) =
      '^' :: ((RegexAtom.read (translate percentDot)).flatMap RegexAtom.text ++ ['$']) := by
    decide +kernel
  have h : @likeToRegex rowCrate percentDot false =
      some (RegexAtom.matchRow (RegexAtom.read (translate percentDot))) :=
    (congrArg RegexAtom.build htext).trans (RegexAtom.build_text _)
  exact ⟨(@like_wildcards rowCrate _ _ h _).1 (by decide +kernel),
    fun hs => absurd ((@like_wildcards rowCrate _ _ h _).2 hs) (by decide +kernel)⟩

end BonsaiGrid.Query
