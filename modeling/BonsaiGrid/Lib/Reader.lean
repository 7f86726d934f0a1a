import BonsaiGrid.Lib.LittleEndian

/-!
# Readers

A reader takes a value from the front of a byte string and leaves the rest, or finds that the
bytes do not hold one.
-/

abbrev Reader := StateT Bytes Option

namespace Reader

open List LittleEndian

variable {α β : Type}

def reject : Reader α := fun _ => none

def byte : Reader UInt8
  | [] => none
  | b :: rest => some (b, rest)

def bytes (n : ℕ) : Reader Bytes := fun b =>
  if b.length < n then none else some (b.take n, b.drop n)

def number (k : ℕ) : Reader ℕ := do
  let b ← bytes k
  pure (decode b)

def times (r : Reader α) : ℕ → Reader (List α)
  | 0 => pure []
  | n + 1 => do
      let a ← r
      let as ← times r n
      pure (a :: as)

/-- From the bytes the reader takes the value, and leaves what is behind them. -/
def Takes (r : Reader α) (written : Bytes) (a : α) : Prop :=
  ∀ rest, r (written ++ rest) = some (a, rest)

variable {r : Reader α} {f : α → Reader β} {written written' : Bytes} {a : α} {b : β}

theorem Takes.pure (a : α) : Takes (Pure.pure a) [] a := fun _ => rfl

theorem Takes.bind (h : Takes r written a) (h' : Takes (f a) written' b) :
    Takes (r >>= f) (written ++ written') b := by
  intro rest
  change (r (written ++ written' ++ rest)).bind (fun p => f p.1 p.2) = some (b, rest)
  rw [append_assoc, h]
  exact h' rest

theorem Takes.map (h : Takes r written a) (g : α → β) :
    Takes (do let a ← r; Pure.pure (g a)) written (g a) := by
  have hall : Takes (r >>= fun a => Pure.pure (g a)) (written ++ []) (g a) :=
    h.bind (Takes.pure (g a))
  rwa [append_nil] at hall

theorem Takes.byte (b : UInt8) : Takes byte [b] b := fun _ => rfl

theorem Takes.bytes (b : Bytes) : Takes (bytes b.length) b b := by
  intro rest
  have hle : ¬ (b ++ rest).length < b.length := by
    rw [length_append]
    omega
  rw [Reader.bytes, if_neg hle, take_left, drop_left]

theorem Takes.number {k n : ℕ} (h : n < 256 ^ k) :
    Takes (number k) (encode k n) n := by
  have hbytes := Takes.bytes (encode k n)
  rw [encode_length] at hbytes
  have hmap := hbytes.map decode
  rwa [decode_encode h] at hmap

theorem Takes.times {write : α → Bytes} {l : List α} (h : ∀ a ∈ l, Takes r (write a) a) :
    Takes (times r l.length) (l.flatMap write) l := by
  induction l with
  | nil => exact Takes.pure []
  | cons a l ih =>
    exact (h a mem_cons_self).bind
      ((ih fun a' ha' => h a' (mem_cons_of_mem a ha')).map (a :: ·))

/-- The reader takes the value from the bytes, and nothing if some of them are missing. -/
structure Exact (r : Reader α) (written : Bytes) (a : α) : Prop where
  takes : Takes r written a
  cut : ∀ k < written.length, r (written.take k) = none

theorem Exact.reads (h : Exact r written a) : r written = some (a, []) := by
  have htakes := h.takes []
  rwa [append_nil] at htakes

theorem Exact.pure (a : α) : Exact (Pure.pure a) [] a :=
  ⟨.pure a, fun k hk => absurd hk (Nat.not_lt_zero k)⟩

theorem Exact.bind (h : Exact r written a) (h' : Exact (f a) written' b) :
    Exact (r >>= f) (written ++ written') b where
  takes := h.takes.bind h'.takes
  cut := by
    intro k hk
    change (r ((written ++ written').take k)).bind (fun p => f p.1 p.2) = none
    rw [length_append] at hk
    rcases Nat.lt_or_ge k written.length with hlt | hge
    · rw [take_append_of_le_length (Nat.le_of_lt hlt), h.cut k hlt, Option.bind_none]
    · rw [take_append, take_of_length_le hge, h.takes]
      exact h'.cut _ (by omega)

theorem Exact.map (h : Exact r written a) (g : α → β) :
    Exact (do let a ← r; Pure.pure (g a)) written (g a) where
  takes := h.takes.map g
  cut := by
    intro k hk
    change (r (written.take k)).bind _ = none
    rw [h.cut k hk, Option.bind_none]

theorem Exact.byte (b : UInt8) : Exact byte [b] b where
  takes := .byte b
  cut := by
    intro k hk
    rw [Nat.lt_one_iff.1 hk]
    rfl

theorem Exact.bytes (b : Bytes) : Exact (bytes b.length) b b where
  takes := .bytes b
  cut := by
    intro k hk
    refine if_pos ?_
    rw [length_take]
    omega

theorem Exact.number {k n : ℕ} (h : n < 256 ^ k) :
    Exact (number k) (encode k n) n := by
  have hbytes := (Exact.bytes (encode k n)).map decode
  rwa [encode_length, decode_encode h] at hbytes

theorem Exact.times {γ : Type} {write : γ → Bytes} {val : γ → α} {l : List γ}
    (h : ∀ c ∈ l, Exact r (write c) (val c)) :
    Exact (times r l.length) (l.flatMap write) (l.map val) := by
  induction l with
  | nil => exact .pure []
  | cons c l ih =>
    exact (h c mem_cons_self).bind
      ((ih fun c' hc' => h c' (mem_cons_of_mem c hc')).map (val c :: ·))

end Reader
