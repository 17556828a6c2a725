/-!
# Numbers and marks in bytes

Records of an archive are made of numbers, whose lowest byte comes first, and each kind of record
starts with a mark of its own.
-/

namespace ContentSpaces.Archive.Bytes

def number (bytes : List UInt8) : Nat := bytes.foldr (fun b n => b.toNat + 256 * n) 0

def slice? (data : ByteArray) (offset size : Nat) : Option (List UInt8) :=
  if offset + size ≤ data.size then some (data.extract offset (offset + size)).toList else none

def number? (data : ByteArray) (offset size : Nat) : Option Nat :=
  (slice? data offset size).map number

def hasMark (data : ByteArray) (mark offset : Nat) : Bool := number? data offset 4 == some mark

/-- The first answer of so many offsets. -/
def first? {α : Type} (f : Nat → Option α) (offset : Nat) : Nat → Option α
  | 0 => none
  | n + 1 => (f offset).orElse fun _ => first? f (offset + 1) n

end ContentSpaces.Archive.Bytes
