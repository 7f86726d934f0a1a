import BonsaiGrid.Lib.Decimal
import BonsaiGrid.Lib.Fault
import BonsaiGrid.Lib.Lines

/-!
# The RESP protocol: framing and parsing

A command is an array of bulk strings, `*N\r\n` and then `$len\r\n<data>\r\n` for each.
-/

namespace BonsaiGrid.Resp

open Fault Lines Decimal

/-! ## Elements -/

def i64 (text : Bytes) : Option ℤ := ofUtf8 (parseSigned (2 ^ 63)) text

inductive Piece
  | short
  | malformed
  | null (next : ℕ)
  | bulk (start len : ℕ)
deriving DecidableEq

/-- The head of the element at `pos`, as the loops of `frame` and `parse` read it: a `$`, the
length up to the end of the line, and the data starts behind it. -/
def pieceAt (acc : Bytes) (pos : ℕ) : Piece :=
  match acc[pos]? with
  | none => .short
  | some b =>
    if b ≠ 36 then .malformed
    else
      match crlfFrom acc pos with
      | none => .short
      | some el =>
        match i64 ((acc.take el).drop (pos + 1)) with
        | none => .malformed
        | some len => if len < 0 then .null (el + 2) else .bulk (el + 2) len.toNat

/-! ## Framing -/

def frameElems (acc : Bytes) (header : ℕ) : ℕ → ℕ → Except Fault (Option ℕ)
  | 0, pos => .ok (some pos)
  | count + 1, pos =>
    match pieceAt acc pos with
    | .short => .ok none
    | .malformed => .ok (some header)
    | .null next => frameElems acc header count next
    | .bulk start len => do
        let stop ← add start len
        let need ← add stop 2
        if acc.length < need then return none else frameElems acc header count need

def frame (acc : Bytes) : Except Fault (Option ℕ) :=
  match acc with
  | [] => .ok none
  | b :: _ =>
    match crlf acc with
    | none => .ok none
    | some e₀ =>
      -- an inline command is a line
      if b ≠ 42 then .ok (some (e₀ + 2))
      else
        match i64 ((acc.take e₀).drop 1) with
        | none => .ok (some (e₀ + 2))
        | some count =>
          if count ≤ 0 then .ok (some (e₀ + 2))
          else frameElems acc (e₀ + 2) count.toNat (e₀ + 2)

/-! ## Parsing -/

/-- The allocator of the process: whether it gives a block of so many bytes. -/
class Allocator where
  grants : ℕ → Bool

/-- The allocator that gives blocks of up to `limit` bytes. -/
abbrev Allocator.upTo (limit : ℕ) : Allocator := ⟨fun n => n ≤ limit⟩

/-- `Vec::with_capacity` for vectors of bytes, of which each takes 24 bytes. A capacity beyond
`isize::MAX` bytes is a panic; a block that the allocator refuses ends the process. Nothing is
asked for if there is nothing to hold. -/
def withCapacity [Allocator] (count : ℕ) : Except Fault Unit :=
  if 2 ^ 63 ≤ count * 24 then .error .capacity
  else if count = 0 ∨ Allocator.grants (count * 24) then .ok ()
  else .error .exhausted

def parseElems (cmd : Bytes) : ℕ → ℕ → List Bytes → Except Fault (Option (List Bytes))
  | 0, _, args => .ok (some args)
  | count + 1, pos, args =>
    match pieceAt cmd pos with
    | .short | .malformed => .ok none
    | .null next => parseElems cmd count next (args ++ [[]])
    | .bulk start len => do
        let stop ← add start len
        match getRange cmd start stop with
        | none => return none
        | some arg =>
          let next ← add stop 2
          parseElems cmd count next (args ++ [arg])

def parse [Allocator] (cmd : Bytes) : Except Fault (Option (List Bytes)) :=
  match crlf cmd with
  | none => .ok none
  | some e₀ =>
    if cmd.head? ≠ some 42 then .ok (some (tokens (cmd.take e₀)))
    else
      match i64 ((cmd.take e₀).drop 1) with
      | none => .ok none
      | some count =>
        if count < 0 then .ok (some [])
        else do
          withCapacity count.toNat
          parseElems cmd count.toNat (e₀ + 2) []

end BonsaiGrid.Resp
