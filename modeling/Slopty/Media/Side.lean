import Slopty.Media.Wire

/-!
What the datagrams that are not video carry: an Opus packet with copies of the
packets before it, or a cursor position.
-/

namespace Slopty.Media.Side

open Slopty.Lib
open Slopty.Media.Wire

def maxAudioCopies : Nat := 2

/-- An audio datagram's packets: the one it is numbered for, and the ones
before it carried again, nearest first. -/
structure AudioPackets where
  packet : Bytes
  earlier : List (Option Bytes)
  deriving DecidableEq, Repr

/-- Split `copies` length-prefixed packets off the front of a payload. -/
def splitCopies : Nat → Bytes → Option (List Bytes × Bytes)
  | 0, payload => some ([], payload)
  | copies + 1, hi :: lo :: rest =>
      let len := hi.toNat * 256 + lo.toNat
      if len = 0 ∨ rest.length < len then none
      else
        (splitCopies copies (rest.drop len)).map fun split =>
          (rest.take len :: split.1, split.2)
  | _ + 1, _ => none

def parseAudio (dataCount : UInt16) (payload : Bytes) : Option AudioPackets :=
  if dataCount.toNat = 0 ∨ maxAudioCopies < dataCount.toNat - 1 then none
  else
    match splitCopies (dataCount.toNat - 1) payload with
    | none => none
    | some (copies, rest) =>
        if rest.isEmpty then none
        else
          some
            { packet := rest
              earlier := copies.map some ++ List.replicate (maxAudioCopies - copies.length) none }

/-- Pointer position in stream pixels. -/
structure CursorUpdate where
  x : Int
  y : Int
  visible : UInt8
  deriving DecidableEq, Repr

/-- The signed reading of a 32-bit word. -/
def toInt32 (n : Nat) : Int := if n < 2 ^ 31 then n else (n : Int) - 2 ^ 32

def parseCursor : Bytes → Option CursorUpdate
  | x0 :: x1 :: x2 :: x3 :: y0 :: y1 :: y2 :: y3 :: v :: _ :: _ :: _ :: _ =>
      some
        { x := toInt32 (ofLe [x0, x1, x2, x3])
          y := toInt32 (ofLe [y0, y1, y2, y3])
          visible := v }
  | _ => none

end Slopty.Media.Side
