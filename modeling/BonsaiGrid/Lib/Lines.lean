import BonsaiGrid.Lib.LittleEndian

/-!
# Lines

Lines of bytes that end with a carriage return and a line feed, and the words of a line.
-/

namespace Lines

open List Option

def crlf : Bytes → Option ℕ
  | a :: b :: rest => if a = 13 ∧ b = 10 then some 0 else (crlf (b :: rest)).map (· + 1)
  | _ => none

def tokens (line : Bytes) : List Bytes := (line.splitOnP (· == 32)).filter (! ·.isEmpty)

def upper (word : Bytes) : Bytes := word.map fun b => if 97 ≤ b ∧ b ≤ 122 then b - 32 else b

def crlfFrom (bytes : Bytes) (i : ℕ) : Option ℕ :=
  if i ≤ bytes.length then (crlf (bytes.drop i)).map (i + ·) else none

section Crlf

variable {bytes p q : Bytes} {i n : ℕ}

theorem crlf_le (h : crlf bytes = some i) : i + 2 ≤ bytes.length := by
  fun_induction crlf bytes generalizing i with
  | case1 a b rest hab =>
    cases h
    simp only [length_cons]
    omega
  | case2 a b rest hab ih =>
    obtain ⟨j, hj, rfl⟩ := map_eq_some_iff.mp h
    have hle := ih hj
    simp only [length_cons] at hle ⊢
    omega
  | case3 => cases h

theorem crlf_append (h : crlf p = some i) (q : Bytes) : crlf (p ++ q) = some i := by
  fun_induction crlf p generalizing i with
  | case1 a b rest hab =>
    cases h
    exact if_pos hab
  | case2 a b rest hab ih =>
    obtain ⟨j, hj, rfl⟩ := map_eq_some_iff.mp h
    have hrest := ih hj
    rw [cons_append] at hrest
    rw [cons_append, cons_append, crlf, if_neg hab, hrest]
    rfl
  | case3 => cases h

theorem of_crlf_append (h : crlf (p ++ q) = some i) (hi : i + 2 ≤ p.length) :
    crlf p = some i := by
  induction p generalizing i with
  | nil => exact absurd hi (by simp)
  | cons a p ih =>
    cases p with
    | nil =>
      rw [length_singleton] at hi
      omega
    | cons b p =>
      rw [cons_append, cons_append, crlf] at h
      rw [crlf]
      split at h
      next hab => rw [if_pos hab, h]
      next hab =>
        obtain ⟨j, hj, rfl⟩ := map_eq_some_iff.mp h
        rw [length_cons] at hi
        rw [if_neg hab, ih hj (by omega)]
        rfl

theorem crlf_take (h : crlf bytes = some i) (hn : i + 2 ≤ n) : crlf (bytes.take n) = some i := by
  have hle := crlf_le h
  rw [← take_append_drop n bytes] at h
  refine of_crlf_append h ?_
  rw [length_take]
  omega

end Crlf

end Lines
