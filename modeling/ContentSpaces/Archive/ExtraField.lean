import ContentSpaces.Archive.Entry

/-!
# Extra fields

Behind its name a directory header carries fields of a kind and a size. Some replace what the
header tells: sizes and an offset that are too large for their places, a name or a comment in
Unicode, how an entry is encrypted. Fields of time are checked, and other kinds are skipped.
Bytes that end inside a field end the reading, and what has been told until then stands; a field
that contradicts itself is refused. What a field reads need not be what its size says.
-/

namespace ContentSpaces.Archive.ExtraField

inductive Stop where
  | exhausted
  | refused

/-- The bytes still to be read, and the entry as far as it is known. -/
structure Scan where
  rest : List UInt8
  entry : Entry

abbrev ScanM := EStateM Stop Scan

def take (size : Nat) : ScanM (List UInt8) := do
  let s ← get
  if s.rest.length < size then throw .exhausted
  set { s with rest := s.rest.drop size }
  return s.rest.take size

def skip (size : Nat) : ScanM Unit := discard (take size)

def number (size : Nat) : ScanM Nat := return Bytes.number (← take size)

def require (p : Prop) [Decidable p] : ScanM Unit := if p then return else throw .refused

def update (f : Entry → Entry) : ScanM Unit := modify fun s => { s with entry := f s.entry }

/-- What stands in place of a number that is too large. -/
def tooLarge : Nat := 0xffffffff

/-- Reads the number that belongs in place of `n`, if any; also gives the bytes read. -/
def large (always : Bool) (n : Nat) : ScanM (Nat × Nat) := do
  if always || n == tooLarge then return (← number 8, 8) else return (n, 0)

/-- Large numbers stand only for those that are too large, unless there is room for all three. -/
def largeNumbers (size : Nat) : ScanM Unit := do
  let always : Bool := 24 ≤ size
  let (n, first) ← large always (← get).entry.size
  update ({ · with size := n })
  let (n, second) ← large always (← get).entry.compressedSize
  update ({ · with compressedSize := n })
  let (n, third) ← large always (← get).entry.header
  update ({ · with header := n })
  require (first + second + third ≤ size)
  skip (size - (first + second + third))

/-- A text in Unicode for an old one, of which it tells the checksum. -/
def unicode (old : ByteArray) (size : Nat) : ScanM String := do
  skip 1
  let checksum ← number 4
  require (5 ≤ size)
  let text ← take (size - 5)
  require ((Crc32.ofBytes old).toNat = checksum)
  match String.fromUTF8? text.toByteArray with
  | some text => return text
  | none => throw .refused

def unicodeName (size : Nat) : ScanM Unit := do
  let name ← unicode (← get).entry.storedName size
  update ({ · with name := name, storedName := name.toUTF8 })

def unicodeComment (size : Nat) : ScanM Unit := do
  let comment ← unicode (← get).entry.comment.toUTF8 size
  update ({ · with comment := comment })

/-- Version, vendor and strength of the cipher are known ones. -/
def cipher (size : Nat) : ScanM Unit := do
  require (size = 7)
  let version ← number 2
  let vendor ← number 2
  let strength ← number 1
  let method ← number 2
  require (vendor = 0x4541)
  require (version ∈ [1, 2])
  require (strength ∈ [1, 2, 3])
  update ({ · with method := method, hasCipher := true })

/-- Three times in a block that is the only one. -/
def fileTimes (size : Nat) : ScanM Unit := do
  require (size = 32)
  skip 4
  require ((← number 2) = 1)
  require ((← number 2) = 24)
  skip 24

/-- Times that flags announce. A lone time needs no flag; only the first three flags have one. -/
def flaggedTimes (size : Nat) : ScanM Unit := do
  let flags ← number 1
  let among (n : Nat) : Nat := (List.range n).countP flags.testBit
  require (size = 5 ∨ size = 1 + 4 * among 8)
  skip (4 * if size = 5 then 1 else among 3)

def field : ScanM Unit := do
  let kind ← number 2
  let size ← number 2
  match kind with
  | 0x0001 => largeNumbers size
  | 0x000a => fileTimes size
  | 0x5455 => flaggedTimes size
  | 0x6375 => unicodeComment size
  | 0x7075 => unicodeName size
  | 0x9901 => cipher size
  | _ => skip size

/-- Reads the fields; every one takes a byte at least. -/
def fields : Nat → ScanM Unit
  | 0 => return
  | rounds + 1 => do
    if (← get).rest.isEmpty then return
    field
    fields rounds

end ExtraField

/-- What an entry is with its extra fields, unless one is refused. -/
def Entry.extend? (extra : List UInt8) (e : Entry) : Option Entry :=
  match ExtraField.fields extra.length ⟨extra, e⟩ with
  | .ok _ s | .error .exhausted s => some s.entry
  | .error .refused _ => none

end ContentSpaces.Archive
