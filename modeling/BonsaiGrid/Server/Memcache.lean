import BonsaiGrid.Lib.Chunks
import BonsaiGrid.Lib.Decimal
import BonsaiGrid.Lib.Lines

/-!
# The memcached text protocol: framing and parsing

A command is a line, and for a storage verb the data block whose length is the fifth word of the
line.
-/

namespace BonsaiGrid.Memcache

open Fault Lines

/-! ## Verbs and words -/

inductive Verb
  | get
  | gets
  | set
  | add
  | replace
  | cas
  | append
  | prepend
  | incr
  | decr
  | delete
  | touch
  | flushAll
  | version
  | verbosity
  | quit
deriving DecidableEq

def Verb.bytes : Verb → Bytes
  | get => [103, 101, 116]
  | gets => [103, 101, 116, 115]
  | set => [115, 101, 116]
  | add => [97, 100, 100]
  | replace => [114, 101, 112, 108, 97, 99, 101]
  | cas => [99, 97, 115]
  | append => [97, 112, 112, 101, 110, 100]
  | prepend => [112, 114, 101, 112, 101, 110, 100]
  | incr => [105, 110, 99, 114]
  | decr => [100, 101, 99, 114]
  | delete => [100, 101, 108, 101, 116, 101]
  | touch => [116, 111, 117, 99, 104]
  | flushAll => [102, 108, 117, 115, 104, 95, 97, 108, 108]
  | version => [118, 101, 114, 115, 105, 111, 110]
  | verbosity => [118, 101, 114, 98, 111, 115, 105, 116, 121]
  | quit => [113, 117, 105, 116]

def Verb.all : List Verb :=
  [get, gets, set, add, replace, cas, append, prepend, incr, decr, delete, touch, flushAll,
    version, verbosity, quit]

def Verb.read (word : Bytes) : Option Verb := Verb.all.find? (·.bytes = word)

def isStorage (word : Bytes) : Bool :=
  match Verb.read word with
  | some .set | some .add | some .replace | some .append | some .prepend | some .cas => true
  | _ => false

def noreply : Bytes := [110, 111, 114, 101, 112, 108, 121]

def isNoreply (word : Option Bytes) : Bool := word == some noreply

def num {α : Type} (parse : Bytes → Option α) (word : Bytes) : Option α :=
  Decimal.ofUtf8 parse word

def usize (word : Bytes) : Option ℕ := num (Decimal.parseUnsigned (2 ^ 64)) word

/-! ## Framing -/

/-- The length of the data block a line announces: the fifth word of a storage line, if it is
a `usize`. -/
def blockLen (line : Bytes) : Option ℕ :=
  let toks := tokens line
  if toks.head?.any isStorage then toks[4]?.bind usize else none

def frame (acc : Bytes) : Except Fault (Option ℕ) :=
  match crlf acc with
  | none => .ok none
  | some eol =>
    let lineEnd := eol + 2
    match blockLen (acc.take eol) with
    | some bytes => do
        let block ← add lineEnd bytes
        let need ← add block 2
        if need ≤ acc.length then return some need else return none
    -- a line without a block, or a malformed one that `parse` will refuse
    | none => .ok (some lineEnd)

/-! ## Parsing -/

inductive StoreOp
  | set
  | add
  | replace
  | cas
deriving DecidableEq

inductive Command
  | get (keys : List Bytes) (withCas : Bool)
  | store (op : StoreOp) (key : Bytes) (flags : ℕ) (exptime : ℤ) (cas : ℕ) (data : Bytes)
      (noreply : Bool)
  | delete (key : Bytes) (noreply : Bool)
  | touch (key : Bytes) (exptime : ℤ) (noreply : Bool)
  | flushAll (noreply : Bool)
  | version
  | verbosity (noreply : Bool)
  | quit
  | error
  | clientError (msg : String)
  | notImplemented
deriving DecidableEq

def badLine : Command := .clientError "bad command line format"

def badChunk : Command := .clientError "bad data chunk"

def validKey (key : Bytes) : Bool :=
  key ≠ [] ∧ key.length ≤ 250 ∧ key.all fun b => 0x20 < b && b != 0x7f

def parseBlock (op : StoreOp) (cmd : Bytes) (eol : ℕ) (key : Bytes) (flags : ℕ) (exptime : ℤ)
    (bytes cas : ℕ) (noreply : Bool) : Except Fault Command := do
  let ds := eol + 2
  let stop ← add ds bytes
  match getRange cmd ds stop with
  | none => return badChunk
  | some data =>
    let after ← add stop 2
    if getRange cmd stop after ≠ some [13, 10] then return badChunk
    else return .store op key flags exptime cas data noreply

def parseStore (op : StoreOp) (cmd : Bytes) (eol : ℕ) (toks : List Bytes) :
    Except Fault Command :=
  if toks.length < (if op = .cas then 6 else 5) then .ok badLine
  else do
    let key ← index toks 1
    let word₂ ← index toks 2
    let word₃ ← index toks 3
    let word₄ ← index toks 4
    match num (Decimal.parseUnsigned (2 ^ 32)) word₂, num (Decimal.parseSigned (2 ^ 63)) word₃,
        usize word₄ with
    | some flags, some exptime, some bytes =>
      if !validKey key then return badLine
      else if op = .cas then
        let word₅ ← index toks 5
        match num (Decimal.parseUnsigned (2 ^ 64)) word₅ with
        | none => return badLine
        | some cas => parseBlock op cmd eol key flags exptime bytes cas (isNoreply toks[6]?)
      else parseBlock op cmd eol key flags exptime bytes 0 (isNoreply toks[5]?)
    | _, _, _ => return badLine

def parseWords (verb : Verb) (toks : List Bytes) : Except Fault Command :=
  match verb with
  | .get | .gets =>
    let keys := toks.drop 1
    if keys = [] ∨ keys.any (! validKey ·) then .ok badLine
    else .ok (.get keys (verb = .gets))
  | .append | .prepend | .incr | .decr => .ok .notImplemented
  | .delete =>
    if toks.length < 2 then .ok badLine
    else do
      let key ← index toks 1
      if !validKey key then return badLine else return .delete key (isNoreply toks[2]?)
  | .touch =>
    if toks.length < 3 then .ok badLine
    else do
      let key ← index toks 1
      if !validKey key then return badLine
      else
        let word ← index toks 2
        match num (Decimal.parseSigned (2 ^ 63)) word with
        | none => return .clientError "invalid exptime argument"
        | some exptime => return .touch key exptime (isNoreply toks[3]?)
  | .flushAll => .ok (.flushAll (isNoreply toks.getLast?))
  | .version => .ok .version
  | .verbosity => .ok (.verbosity (isNoreply toks.getLast?))
  | .quit => .ok .quit
  | .set | .add | .replace | .cas => .ok .error

def parse (cmd : Bytes) : Except Fault Command :=
  let eol := (crlf cmd).getD cmd.length
  let toks := tokens (cmd.take eol)
  match toks.head?.bind Verb.read with
  | none => .ok .error
  | some .set => parseStore .set cmd eol toks
  | some .add => parseStore .add cmd eol toks
  | some .replace => parseStore .replace cmd eol toks
  | some .cas => parseStore .cas cmd eol toks
  | some verb => parseWords verb toks

def closes (cmd : Bytes) : Bool := parse cmd = .ok .quit

/-! ## What the framing cuts off -/

def commandLen (acc : Bytes) : Option ℕ :=
  match crlf acc with
  | none => none
  | some eol =>
    match blockLen (acc.take eol) with
    | some bytes => if eol + 2 + bytes + 2 ≤ acc.length then some (eol + 2 + bytes + 2) else none
    | none => some (eol + 2)

/-- The first line, if it has ended, announces no block whose end leaves the range of `usize`. -/
def Bounded (acc : Bytes) : Prop :=
  ∀ eol bytes, crlf acc = some eol → blockLen (acc.take eol) = some bytes →
    eol + 2 + bytes + 2 < 2 ^ 64

section Framing

variable {acc : Bytes} {eol n : ℕ}

theorem take_append_line (h : crlf acc = some eol) (q : Bytes) :
    (acc ++ q).take eol = acc.take eol := by
  have hle := crlf_le h
  exact List.take_append_of_le_length (by omega)

theorem Bounded.of_append {q : Bytes} (h : Bounded (acc ++ q)) : Bounded acc := by
  intro eol bytes heol hbytes
  refine h eol bytes (crlf_append heol q) ?_
  rw [take_append_line heol, hbytes]

theorem Bounded.append (h : Bounded acc) (heol : crlf acc = some eol) (q : Bytes) :
    Bounded (acc ++ q) := by
  intro eol' bytes heol' hbytes
  rw [crlf_append heol] at heol'
  cases heol'
  rw [take_append_line heol] at hbytes
  exact h eol bytes heol hbytes

theorem frame_eq (h : Bounded acc) : frame acc = .ok (commandLen acc) := by
  rw [frame, commandLen]
  cases heol : crlf acc with
  | none => rfl
  | some eol =>
    dsimp only
    cases hbytes : blockLen (acc.take eol) with
    | none => rfl
    | some bytes =>
      have hlt := h eol bytes heol hbytes
      dsimp only
      rw [add_eq (by omega), ok_bind, add_eq hlt, ok_bind]
      split
      all_goals rfl

/-- Where the block of the first line is too long, `frame` leaves the range of `usize`. -/
theorem frame_overflows (h : ¬ Bounded acc) : frame acc = .error .overflow := by
  simp only [Bounded, not_forall, not_lt] at h
  obtain ⟨eol, bytes, heol, hbytes, hge⟩ := h
  rw [frame, heol]
  dsimp only
  rw [hbytes]
  dsimp only
  by_cases hblock : eol + 2 + bytes < 2 ^ 64
  · rw [add_eq hblock, ok_bind, Fault.add, if_neg (by omega), error_bind]
  · rw [Fault.add, if_neg hblock, error_bind]

theorem frame_returns_iff : Returns (frame acc) ↔ Bounded acc := by
  constructor
  · rintro ⟨r, hr⟩
    by_contra h
    rw [frame_overflows h] at hr
    cases hr
  · exact fun h => ⟨_, frame_eq h⟩

instance : Decidable (Bounded acc) := decidable_of_iff _ frame_returns_iff

theorem of_commandLen (h : commandLen acc = some n) :
    ∃ eol, crlf acc = some eol ∧ n ≤ acc.length ∧
      ((blockLen (acc.take eol) = none ∧ n = eol + 2) ∨
        ∃ bytes, blockLen (acc.take eol) = some bytes ∧ n = eol + 2 + bytes + 2) := by
  rw [commandLen] at h
  cases heol : crlf acc with
  | none =>
    rw [heol] at h
    cases h
  | some eol =>
    rw [heol] at h
    dsimp only at h
    refine ⟨eol, rfl, ?_⟩
    cases hbytes : blockLen (acc.take eol) with
    | none =>
      rw [hbytes] at h
      cases h
      exact ⟨crlf_le heol, .inl ⟨rfl, rfl⟩⟩
    | some bytes =>
      rw [hbytes] at h
      dsimp only at h
      split at h
      next hle =>
        cases h
        exact ⟨hle, .inr ⟨bytes, rfl, rfl⟩⟩
      next => cases h

theorem commandLen_append (h : commandLen acc = some n) (q : Bytes) :
    commandLen (acc ++ q) = some n := by
  obtain ⟨eol, heol, hle, hcases⟩ := of_commandLen h
  rw [commandLen, crlf_append heol]
  dsimp only
  rw [take_append_line heol]
  rcases hcases with ⟨hnone, rfl⟩ | ⟨bytes, hsome, rfl⟩
  · rw [hnone]
  · rw [hsome]
    exact if_pos (by rw [List.length_append]; omega)

theorem cutting_commandLen : Chunks.Cutting commandLen where
  pos h := by
    obtain ⟨eol, -, -, ⟨-, rfl⟩ | ⟨bytes, -, rfl⟩⟩ := of_commandLen h
    all_goals omega
  le h := by
    obtain ⟨eol, -, hle, -⟩ := of_commandLen h
    exact hle
  stable := commandLen_append

theorem agrees_frame : Chunks.Agrees frame commandLen Bounded where
  frame_eq := frame_eq
  anti := Bounded.of_append

end Framing

/-! ## What is cut off can be parsed -/

section Parsing

variable {cmd : Bytes} {eol bytes : ℕ} {toks : List Bytes}

theorem parseBlock_returns (h : eol + 2 + bytes + 2 < 2 ^ 64) (op : StoreOp) (key : Bytes)
    (flags : ℕ) (exptime : ℤ) (cas : ℕ) (nr : Bool) :
    Returns (parseBlock op cmd eol key flags exptime bytes cas nr) := by
  rw [parseBlock, add_eq (by omega), ok_bind]
  split
  next => exact returns_ok _
  next =>
    rw [add_eq h, ok_bind]
    split
    all_goals exact returns_ok _

theorem parseStore_returns (op : StoreOp)
    (h : ∀ word bytes, toks[4]? = some word → usize word = some bytes →
      eol + 2 + bytes + 2 < 2 ^ 64) : Returns (parseStore op cmd eol toks) := by
  rw [parseStore]
  by_cases hlen : toks.length < (if op = .cas then 6 else 5)
  · rw [if_pos hlen]
    exact returns_ok _
  · have hfive : 5 ≤ toks.length := by
      split at hlen
      all_goals omega
    rw [if_neg hlen, index_eq (show 1 < toks.length by omega), ok_bind,
      index_eq (show 2 < toks.length by omega), ok_bind,
      index_eq (show 3 < toks.length by omega), ok_bind,
      index_eq (show 4 < toks.length by omega), ok_bind]
    split
    next flags exptime bytes hflags hexptime hbytes =>
      have hlt := h _ bytes (List.getElem?_eq_getElem (by omega)) hbytes
      split
      next => exact returns_ok _
      next =>
        split
        next hcas =>
          rw [if_pos hcas] at hlen
          rw [index_eq (show 5 < toks.length by omega), ok_bind]
          split
          next => exact returns_ok _
          next => exact parseBlock_returns hlt _ _ _ _ _ _
        next => exact parseBlock_returns hlt _ _ _ _ _ _
    next => exact returns_ok _

theorem parseWords_returns (verb : Verb) (toks : List Bytes) : Returns (parseWords verb toks) := by
  cases verb with
  | get | gets =>
    rw [parseWords]
    split
    all_goals exact returns_ok _
  | delete =>
    rw [parseWords]
    split
    next => exact returns_ok _
    next hlen =>
      rw [index_eq (show 1 < toks.length by omega), ok_bind]
      split
      all_goals exact returns_ok _
  | touch =>
    rw [parseWords]
    split
    next => exact returns_ok _
    next hlen =>
      rw [index_eq (show 1 < toks.length by omega), ok_bind]
      split
      next => exact returns_ok _
      next =>
        rw [index_eq (show 2 < toks.length by omega), ok_bind]
        split
        all_goals exact returns_ok _
  | set | add | replace | cas | append | prepend | incr | decr | flushAll | version | verbosity
  | quit => exact returns_ok _

theorem parse_returns {acc : Bytes} {n : ℕ} (hb : Bounded acc) (h : commandLen acc = some n) :
    Returns (parse (acc.take n)) := by
  obtain ⟨eol, heol, hle, hcases⟩ := of_commandLen h
  have hn : eol + 2 ≤ n := by
    all_goals omega
  have hline : (acc.take n).take eol = acc.take eol := by
    rw [List.take_take, Nat.min_eq_left (by omega)]
  have hstore : ∀ verb, (tokens (acc.take eol)).head?.bind Verb.read = some verb →
      (∀ word, Verb.read word = some verb → isStorage word = true) → ∀ word bytes,
      (tokens (acc.take eol))[4]? = some word → usize word = some bytes →
      eol + 2 + bytes + 2 < 2 ^ 64 := by
    intro verb hverb hstorage word bytes hword hbytes
    obtain ⟨first, hfirst, hread⟩ := Option.bind_eq_some_iff.mp hverb
    refine hb eol bytes heol ?_
    rw [blockLen, hfirst, Option.any_some, if_pos (hstorage first hread), hword]
    exact hbytes
  rw [parse, crlf_take heol hn, Option.getD_some, hline]
  split
  next => exact returns_ok _
  rotate_right
  next => exact parseWords_returns _ _
  all_goals
    rename_i hverb
    exact parseStore_returns _ (hstore _ hverb fun word hw => by rw [isStorage, hw])

end Parsing

end BonsaiGrid.Memcache
