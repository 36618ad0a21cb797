import Bitlens.Lib.Bytes

namespace Bitlens
open Lib

/-- The accepted second bytes after a leading byte of a three or four byte
sequence; every other continuation byte lies in `0x80..=0xBF`. -/
def secondByteRange (first : UInt8) : UInt8 × UInt8 :=
  if first = 0xE0 then (0xA0, 0xBF)
  else if first = 0xED then (0x80, 0x9F)
  else if first = 0xF0 then (0x90, 0xBF)
  else if first = 0xF4 then (0x80, 0x8F)
  else (0x80, 0xBF)

/-- Continuation bytes a leading byte asks for; `none` for a byte that starts no
sequence. -/
def continuationCount (first : UInt8) : Option Nat :=
  if first < 0x80 then some 0
  else if 0xC2 ≤ first ∧ first ≤ 0xDF then some 1
  else if 0xE0 ≤ first ∧ first ≤ 0xEF then some 2
  else if 0xF0 ≤ first ∧ first ≤ 0xF4 then some 3
  else none

/-- Length of the longest prefix of `rest` that continues a sequence of which
`wanted` bytes are missing. -/
def continuationLength (range : UInt8 × UInt8) : Nat → Bytes → Nat
  | 0, _ => 0
  | _ + 1, [] => 0
  | wanted + 1, b :: rest =>
    if range.1 ≤ b ∧ b ≤ range.2 then continuationLength (0x80, 0xBF) wanted rest + 1 else 0

def codePoint (first : UInt8) (wanted : Nat) (continuation : Bytes) : Nat :=
  let lead := if wanted = 0 then first.toNat else first.toNat % 2 ^ (6 - wanted)
  continuation.foldl (fun point b => point * 64 + b.toNat % 64) lead

/-- `String::from_utf8_lossy`: every maximal invalid prefix of a sequence becomes
one replacement character. The fuel is the number of bytes. -/
def fromUtf8LossyLoop : Nat → Bytes → List Char
  | 0, _ => []
  | _ + 1, [] => []
  | fuel + 1, first :: rest =>
    match continuationCount first with
    | none => Char.ofNat 0xFFFD :: fromUtf8LossyLoop fuel rest
    | some wanted =>
      let found := continuationLength (secondByteRange first) wanted rest
      let char := if found = wanted then Char.ofNat (codePoint first wanted (rest.take wanted)) else Char.ofNat 0xFFFD
      char :: fromUtf8LossyLoop fuel (rest.drop found)

def fromUtf8Lossy (bytes : Bytes) : String :=
  String.ofList (fromUtf8LossyLoop bytes.length bytes)

example : fromUtf8LossyLoop 5 [0x41, 0xC3, 0xA9, 0xE2, 0x82] = ['A', 'é', Char.ofNat 0xFFFD] := by decide

end Bitlens
