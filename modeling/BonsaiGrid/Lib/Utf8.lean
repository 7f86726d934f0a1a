import BonsaiGrid.Lib.LittleEndian

/-!
# UTF-8 strings

A string is a byte string that is well-formed UTF-8. The check reads the bytes from left to right;
its state is the list of ranges in which the bytes to come must lie for the character that was
begun.
-/

namespace Utf8

open List

/-- The bytes of a literal. -/
def ascii (s : String) : Bytes := s.toList.map fun c => UInt8.ofNat c.toNat

def start (b : UInt8) : Option (List (UInt8 × UInt8)) :=
  if b ≤ 0x7F then some []
  else if 0xC2 ≤ b ∧ b ≤ 0xDF then some [(0x80, 0xBF)]
  else if b = 0xE0 then some [(0xA0, 0xBF), (0x80, 0xBF)]
  else if b = 0xED then some [(0x80, 0x9F), (0x80, 0xBF)]
  else if 0xE1 ≤ b ∧ b ≤ 0xEF then some [(0x80, 0xBF), (0x80, 0xBF)]
  else if b = 0xF0 then some [(0x90, 0xBF), (0x80, 0xBF), (0x80, 0xBF)]
  else if 0xF1 ≤ b ∧ b ≤ 0xF3 then some [(0x80, 0xBF), (0x80, 0xBF), (0x80, 0xBF)]
  else if b = 0xF4 then some [(0x80, 0x8F), (0x80, 0xBF), (0x80, 0xBF)]
  else none

def feed : Option (List (UInt8 × UInt8)) → UInt8 → Option (List (UInt8 × UInt8))
  | none, _ => none
  | some [], b => start b
  | some ((low, high) :: ranges), b => if low ≤ b ∧ b ≤ high then some ranges else none

def valid (bytes : Bytes) : Bool := bytes.foldl feed (some []) == some []

theorem valid_nil : valid [] = true := rfl

theorem valid_of_ascii {bytes : Bytes} (h : ∀ b ∈ bytes, b ≤ 0x7F) : valid bytes = true := by
  rw [valid]
  induction bytes with
  | nil => rfl
  | cons b bytes ih =>
    have hstart : feed (some []) b = some [] := if_pos (h b mem_cons_self)
    rw [foldl_cons, hstart]
    exact ih fun b' hb' => h b' (mem_cons_of_mem b hb')

theorem valid_append {a b : Bytes} (ha : valid a = true) (hb : valid b = true) :
    valid (a ++ b) = true := by
  rw [valid, beq_iff_eq] at ha hb ⊢
  rw [foldl_append, ha, hb]

def replacement : Bytes := [0xEF, 0xBF, 0xBD]

/-- A byte that starts a character: what is put out, the bytes of the character that is begun and
the ranges of those to come. -/
def restart (b : UInt8) : Bytes × Bytes × List (UInt8 × UInt8) :=
  match start b with
  | none => (replacement, [], [])
  | some [] => ([b], [], [])
  | some ranges => ([], [b], ranges)

/-- A byte behind those of a character that is begun. -/
def mend (pending : Bytes) : List (UInt8 × UInt8) → UInt8 → Bytes × Bytes × List (UInt8 × UInt8)
  | [], b => restart b
  | (low, high) :: ranges, b =>
    if low ≤ b ∧ b ≤ high then
      if ranges = [] then (pending ++ [b], [], []) else ([], pending ++ [b], ranges)
    else (replacement ++ (restart b).1, (restart b).2)

def lossy : Bytes → List (UInt8 × UInt8) → Bytes → Bytes
  | pending, _, [] => if pending = [] then [] else replacement
  | pending, ranges, b :: bytes =>
    let r := mend pending ranges b
    r.1 ++ lossy r.2.1 r.2.2 bytes

section Lossy

variable {pending bytes : Bytes} {ranges : List (UInt8 × UInt8)} {b : UInt8}

theorem foldl_feed_none (bytes : Bytes) : bytes.foldl feed none = none := by
  induction bytes with
  | nil => rfl
  | cons b bytes ih => exact ih

theorem foldl_feed_concat (h : pending.foldl feed (some []) = some ranges) (b : UInt8) :
    (pending ++ [b]).foldl feed (some []) = feed (some ranges) b := by
  rw [foldl_concat, h]

theorem replacement_whole : replacement.foldl feed (some []) = some [] := by decide

theorem restart_whole (b : UInt8) :
    (restart b).1.foldl feed (some []) = some [] ∧
      (restart b).2.1.foldl feed (some []) = some (restart b).2.2 := by
  rw [restart]
  cases hb : start b with
  | none => exact ⟨replacement_whole, rfl⟩
  | some ranges =>
    cases ranges with
    | nil => exact ⟨hb, rfl⟩
    | cons r ranges => exact ⟨rfl, hb⟩

theorem mend_whole (h : pending.foldl feed (some []) = some ranges) (b : UInt8) :
    (mend pending ranges b).1.foldl feed (some []) = some [] ∧
      (mend pending ranges b).2.1.foldl feed (some []) = some (mend pending ranges b).2.2 := by
  cases ranges with
  | nil => exact restart_whole b
  | cons r ranges =>
    have hconcat := foldl_feed_concat h b
    rw [feed] at hconcat
    rw [mend]
    split
    next hin =>
      rw [if_pos hin] at hconcat
      split
      next hnil => exact ⟨hnil ▸ hconcat, rfl⟩
      next => exact ⟨rfl, hconcat⟩
    next =>
      refine ⟨?_, (restart_whole b).2⟩
      exact (restart_whole b).1

theorem lossy_whole (h : pending.foldl feed (some []) = some ranges) (bytes : Bytes) :
    (lossy pending ranges bytes).foldl feed (some []) = some [] := by
  induction bytes generalizing pending ranges with
  | nil =>
    rw [lossy]
    split
    next => rfl
    next => exact replacement_whole
  | cons b bytes ih =>
    obtain ⟨hout, hkept⟩ := mend_whole h b
    rw [lossy, foldl_append, hout]
    exact ih hkept

theorem lossy_of_whole (hbegun : ranges = [] → pending = [])
    (h : bytes.foldl feed (some ranges) = some []) :
    lossy pending ranges bytes = pending ++ bytes := by
  induction bytes generalizing pending ranges with
  | nil =>
    obtain rfl := hbegun (Option.some.inj h)
    rfl
  | cons b bytes ih =>
    rw [foldl_cons] at h
    cases ranges with
    | nil =>
      obtain rfl := hbegun rfl
      rw [lossy, mend, restart]
      rw [feed] at h
      cases hb : start b with
      | none =>
        rw [hb, foldl_feed_none] at h
        cases h
      | some ranges =>
        rw [hb] at h
        cases ranges with
        | nil => exact congrArg (b :: ·) (ih (fun _ => rfl) h)
        | cons r ranges => exact ih (fun hnil => by cases hnil) h
    | cons r ranges =>
      rw [feed] at h
      by_cases hin : r.1 ≤ b ∧ b ≤ r.2
      · rw [if_pos hin] at h
        rw [lossy, mend, if_pos hin]
        by_cases hnil : ranges = []
        · subst hnil
          rw [if_pos rfl]
          rw [ih (fun _ => rfl) h, append_assoc]
          rfl
        · rw [if_neg hnil]
          rw [ih (fun heq => absurd heq hnil) h, append_assoc]
          rfl
      · rw [if_neg hin, foldl_feed_none] at h
        cases h

end Lossy

end Utf8

structure Str where
  bytes : Bytes
  valid : Utf8.valid bytes = true
deriving DecidableEq

namespace Str

def fromUtf8 (bytes : Bytes) : Option Str :=
  if h : Utf8.valid bytes = true then some ⟨bytes, h⟩ else none

theorem fromUtf8_bytes (s : Str) : fromUtf8 s.bytes = some s := dif_pos s.valid

def fromUtf8Lossy (bytes : Bytes) : Str :=
  ⟨Utf8.lossy [] [] bytes, beq_iff_eq.2 (Utf8.lossy_whole rfl bytes)⟩

theorem eq_of_bytes {s t : Str} (h : s.bytes = t.bytes) : s = t := by
  cases t
  cases h
  rfl

theorem fromUtf8Lossy_bytes (s : Str) : fromUtf8Lossy s.bytes = s :=
  eq_of_bytes (Utf8.lossy_of_whole (fun _ => rfl) (beq_iff_eq.1 s.valid))

end Str

/-- The euro sign is a character, its overlong form and a surrogate are not. -/
example : Utf8.valid [0xE2, 0x82, 0xAC] = true ∧ Utf8.valid [0xF0, 0x82, 0x82, 0xAC] = false ∧
    Utf8.valid [0xED, 0xA0, 0x80] = false := by
  decide +kernel

/-- A character that breaks off is replaced once, and what follows is kept. -/
example : Utf8.lossy [] [] [0x61, 0xE2, 0x82, 0x62, 0xFF] =
    [0x61, 0xEF, 0xBF, 0xBD, 0x62, 0xEF, 0xBF, 0xBD] := by
  decide +kernel
