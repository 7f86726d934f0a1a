import Mathlib.Data.List.Basic

/-!
# Framed streams

A file that is written by appending frames, one for every item, and read from the front until no
further frame can be read. A crash in the middle of a write leaves a strict prefix of the last
frame.
-/

namespace Frames

open List Nat

variable {α β : Type*}

def readAll (next : List β → Option (α × List β)) : ℕ → List β → List α × List β
  | 0, buf => ([], buf)
  | fuel + 1, buf =>
    match next buf with
    | none => ([], buf)
    | some (x, rest) =>
      let r := readAll next fuel rest
      (x :: r.1, r.2)

def write (frame : α → List β) (xs : List α) : List β := (xs.map frame).flatten

/-- `next` reads what `frame` writes, for the items that fit the format. -/
structure Framing (next : List β → Option (α × List β)) (frame : α → List β)
    (Fits : α → Prop) : Prop where
  next_frame : ∀ x rest, Fits x → next (frame x ++ rest) = some (x, rest)
  next_torn : ∀ x k, Fits x → k < (frame x).length → next ((frame x).take k) = none
  length_pos : ∀ x, 0 < (frame x).length

section Read

variable {next : List β → Option (α × List β)} {frame : α → List β} {Fits : α → Prop}

theorem write_append (xs ys : List α) : write frame (xs ++ ys) = write frame xs ++ write frame ys := by
  rw [write, map_append, flatten_append]
  rfl

theorem write_singleton (x : α) : write frame [x] = frame x := by
  rw [write, map_singleton, flatten_singleton]

theorem Framing.length_le_write (h : Framing next frame Fits) (xs : List α) :
    xs.length ≤ (write frame xs).length := by
  induction xs with
  | nil => exact zero_le _
  | cons x xs ih =>
    have hpos := h.length_pos x
    rw [← singleton_append, write_append, write_singleton, length_append,
      length_append, length_singleton]
    omega

variable {tail : List β} {xs : List α}

theorem Framing.readAll_write (h : Framing next frame Fits)
    (hfits : ∀ x ∈ xs, Fits x) (htail : next tail = none) {fuel : ℕ} (hfuel : xs.length ≤ fuel) :
    readAll next fuel (write frame xs ++ tail) = (xs, tail) := by
  induction xs generalizing fuel with
  | nil =>
    cases fuel with
    | zero => rfl
    | succ fuel =>
      rw [readAll, show write frame [] ++ tail = tail from rfl, htail]
  | cons x xs ih =>
    cases fuel with
    | zero => cases hfuel
    | succ fuel =>
      have hrest := ih (fun y hy => hfits y (mem_cons_of_mem _ hy))
        (le_of_succ_le_succ hfuel)
      rw [readAll, ← singleton_append, write_append, write_singleton, append_assoc,
        h.next_frame x _ (hfits x mem_cons_self)]
      dsimp only
      rw [hrest]
      rfl

theorem Framing.readAll_file (h : Framing next frame Fits)
    (hfits : ∀ x ∈ xs, Fits x) (htail : next tail = none) :
    readAll next (write frame xs ++ tail).length (write frame xs ++ tail) = (xs, tail) := by
  have hlen := h.length_le_write xs
  refine h.readAll_write hfits htail ?_
  rw [length_append]
  omega

theorem Framing.torn_write (h : Framing next frame Fits) (hnil : next [] = none) (xs : List α)
    {x : α} (hx : Fits x) (k : ℕ) :
    ∃ ys tail, write frame xs ++ (frame x).take k = write frame ys ++ tail ∧ next tail = none ∧
      (ys = xs ∨ ys = xs ++ [x]) := by
  rcases Nat.lt_or_ge k (frame x).length with hlt | hge
  · exact ⟨xs, (frame x).take k, rfl, h.next_torn x k hx hlt, .inl rfl⟩
  · refine ⟨xs ++ [x], [], ?_, hnil, .inr rfl⟩
    rw [take_of_length_le hge, write_append, write_singleton, append_nil]

def Torn (frame : α → List β) (Fits : α → Prop) (tail : List β) : Prop :=
  ∃ x k, Fits x ∧ k < (frame x).length ∧ tail = (frame x).take k

theorem Torn.take (h : Torn frame Fits tail) (m : ℕ) :
    Torn frame Fits (tail.take m) := by
  obtain ⟨x, k, hx, hk, rfl⟩ := h
  exact ⟨x, min m k, hx, by omega, take_take⟩

theorem Framing.torn_nil (h : Framing next frame Fits) {x : α} (hx : Fits x) :
    Torn frame Fits ([] : List β) := ⟨x, 0, hx, h.length_pos x, rfl⟩

theorem Framing.next_of_torn (h : Framing next frame Fits)
    (ht : Torn frame Fits tail) : next tail = none := by
  obtain ⟨x, k, hx, hk, rfl⟩ := ht
  exact h.next_torn x k hx hk

theorem cut_write (hfits : ∀ x ∈ xs, Fits x)
    (ht : Torn frame Fits tail) (m : ℕ) :
    ∃ j tail', (write frame xs ++ tail).take m = write frame (xs.take j) ++ tail' ∧
      Torn frame Fits tail' ∧ ∀ i ≤ xs.length, (write frame (xs.take i)).length ≤ m → i ≤ j := by
  induction xs generalizing m with
  | nil => exact ⟨0, tail.take m, rfl, ht.take m, fun i hi _ => hi⟩
  | cons x xs ih =>
    have hx := hfits x mem_cons_self
    have hcons : ∀ ys, write frame (x :: ys) = frame x ++ write frame ys := fun ys => by
      rw [← singleton_append, write_append, write_singleton]
    rcases Nat.lt_or_ge m (frame x).length with hlt | hge
    · refine ⟨0, (frame x).take m, ?_, ⟨x, m, hx, hlt, rfl⟩, fun i hi hlen => ?_⟩
      · rw [hcons, append_assoc, take_append_of_le_length (Nat.le_of_lt hlt)]
        rfl
      · cases i with
        | zero => exact Nat.le_refl 0
        | succ i =>
          rw [take_succ_cons, hcons, length_append] at hlen
          omega
    · obtain ⟨j, tail', htake, htail', hmax⟩ := ih (fun y hy => hfits y (mem_cons_of_mem x hy))
        (m - (frame x).length)
      refine ⟨j + 1, tail', ?_, htail', fun i hi hlen => ?_⟩
      · rw [hcons, append_assoc, take_append, take_of_length_le hge, htake,
          take_succ_cons, hcons, append_assoc]
      · cases i with
        | zero => exact zero_le _
        | succ i =>
          rw [take_succ_cons, hcons, length_append] at hlen
          rw [length_cons] at hi
          exact succ_le_succ (hmax i (by omega) (by omega))

theorem Framing.parse (h : Framing next frame Fits) {γ : Type*} {enc : γ → α} (dec : α → Option γ)
    {Fits' : γ → Prop} (hfits : ∀ y, Fits' y → Fits (enc y)) (hdec : ∀ y, Fits' y → dec (enc y) = some y) :
    Framing (fun buf => (next buf).bind fun r => (dec r.1).map fun y => (y, r.2))
      (fun y => frame (enc y)) Fits' where
  next_frame := fun y rest hy => by
    rw [h.next_frame _ _ (hfits y hy), Option.bind_some, hdec y hy]
    rfl
  next_torn := fun y k hy hk => by
    rw [h.next_torn _ k (hfits y hy) hk]
    rfl
  length_pos := fun y => h.length_pos (enc y)

end Read

end Frames
