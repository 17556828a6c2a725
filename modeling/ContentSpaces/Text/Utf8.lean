/-!
# Reading UTF-8

Bytes are read into characters and malformed parts. A malformed part ends where it can no longer be
continued to a character, so a byte below 128 never belongs to one.
-/

namespace ContentSpaces.Text.Utf8

/-- The number of continuation bytes after a first byte, its share of the character, and the bounds
of the first continuation byte. -/
def lead? (b : UInt8) : Option (Nat × Nat × UInt8 × UInt8) :=
  if 0xc2 ≤ b && b < 0xe0 then some (1, b.toNat - 0xc0, 0x80, 0xbf)
  else if b == 0xe0 then some (2, 0, 0xa0, 0xbf)
  else if b == 0xed then some (2, 0xd, 0x80, 0x9f)
  else if 0xe1 ≤ b && b < 0xf0 then some (2, b.toNat - 0xe0, 0x80, 0xbf)
  else if b == 0xf0 then some (3, 0, 0x90, 0xbf)
  else if 0xf1 ≤ b && b < 0xf4 then some (3, b.toNat - 0xf0, 0x80, 0xbf)
  else if b == 0xf4 then some (3, 4, 0x80, 0x8f)
  else none

/-- A character that has begun: continuation bytes to come, its code so far, and the bounds of the
next byte. -/
structure Begun where
  missing : Nat
  code : Nat
  low : UInt8
  high : UInt8

/-- Goes on reading; a malformed part is `none`. -/
def decodeFrom (begun : Option Begun) : List UInt8 → List (Option Char)
  | [] => if begun.isSome then [none] else []
  | b :: bs =>
    match begun with
    | some s =>
      if s.low ≤ b && b ≤ s.high then
        let code := s.code * 64 + (b.toNat - 0x80)
        if s.missing ≤ 1 then some (Char.ofNat code) :: decodeFrom none bs
        else decodeFrom (some ⟨s.missing - 1, code, 0x80, 0xbf⟩) bs
      else if b < 0x80 then none :: some (Char.ofNat b.toNat) :: decodeFrom none bs
      else
        match lead? b with
        | some (n, code, low, high) => none :: decodeFrom (some ⟨n, code, low, high⟩) bs
        | none => none :: none :: decodeFrom none bs
    | none =>
      if b < 0x80 then some (Char.ofNat b.toNat) :: decodeFrom none bs
      else
        match lead? b with
        | some (n, code, low, high) => decodeFrom (some ⟨n, code, low, high⟩) bs
        | none => none :: decodeFrom none bs

def decode (bytes : List UInt8) : List (Option Char) := decodeFrom none bytes

end ContentSpaces.Text.Utf8
