import BonsaiGrid.Lib.Dict
import BonsaiGrid.Lib.Utf8
import BonsaiGrid.Protocol.Frame

/-!
# Messages

A message is a list of frames. The first one starts with the message type and the correlation id,
the others hold one value each; a string is a frame of UTF-8.
-/

namespace BonsaiGrid.Protocol

open Fault

def endDs : UInt16 := 0x0800

def isNullFlag : UInt16 := 0x0400

def Frame.isNull (f : Frame) : Bool := f.flags &&& isNullFlag ≠ 0

def Frame.isEnd (f : Frame) : Bool := f.flags &&& endDs ≠ 0

variable (frames : List Frame)

def content (i : ℕ) : Except Fault Bytes := do
  let frame ← index frames i
  return frame.content

def msgType : Except Fault ℤ := do
  let initial ← content frames 0
  readI32Le initial 0

def correlationId : Except Fault ℤ := do
  let initial ← content frames 0
  readI64Le initial 4

def decodeString (bytes : Bytes) : Except Fault Str :=
  match Str.fromUtf8 bytes with
  | some s => .ok s
  | none => .error .notUtf8

def writeI32Le (v : ℕ) : Bytes := LittleEndian.encode 4 (v % 2 ^ 32)

def writeMessage : List Frame → Bytes
  | [] => []
  | [f] =>
    writeI32Le (prefixLen + f.content.length) ++
      LittleEndian.encode 2 (f.flags ||| isFinal).toNat ++ f.content
  | f :: g :: frames =>
    writeI32Le (prefixLen + f.content.length) ++ LittleEndian.encode 2 f.flags.toNat ++
      f.content ++ writeMessage (g :: frames)

/-- `frame_at`: the content of the frame at an offset and where the next one starts. -/
def frameAt (msg : Bytes) (off : ℕ) : Except Fault (Option (Bytes × ℕ)) := do
  match ← readHeader msg off with
  | none => return none
  | some (len, _) =>
    let stop ← add off len
    let content ← slice msg (off + prefixLen) stop
    return some (content, stop)

end BonsaiGrid.Protocol
