import ContentSpaces.Archive.Bytes

/-!
# The end of an archive

The record at the end tells where the directory starts and how many headers it has. If one of the
numbers may be too large for its place, a locator in front of the record may lead to a wide record,
which then counts alone. Data in front of the archive shift all offsets; how far is told by the
first header of the directory, or by the wide record, at or behind its place.
-/

namespace ContentSpaces.Archive

/-- Where a directory starts, how many headers it has, and how far offsets are shifted. -/
structure Location where
  start : Nat
  count : Nat
  shift : Nat

/-- The record at the end of an archive, with its own offset. -/
structure EndRecord where
  position : Nat
  disk : Nat
  directoryDisk : Nat
  filesHere : Nat
  files : Nat
  offset : Nat

structure Locator where
  position : Nat
  directoryDisk : Nat
  offset : Nat
  disks : Nat

structure WideRecord where
  position : Nat
  size : Nat
  madeBy : Nat
  needed : Nat
  disk : Nat
  directoryDisk : Nat
  filesHere : Nat
  files : Nat
  offset : Nat

namespace Location

def headerMark : Nat := 0x02014b50

def headerSize : Nat := 46

end Location

namespace WideRecord

def mark : Nat := 0x06064b50

/-- The wide record at an offset. It must reach to the locator and agree with it, and there must be
room for as many headers as it announces. -/
def ofLocator? (data : ByteArray) (l : Locator) (position : Nat) : Option WideRecord := do
  if !Bytes.hasMark data mark position then none
  let record : WideRecord := {
    position := position
    size := ← Bytes.number? data (position + 4) 8
    madeBy := ← Bytes.number? data (position + 12) 2
    needed := ← Bytes.number? data (position + 14) 2
    disk := ← Bytes.number? data (position + 16) 4
    directoryDisk := ← Bytes.number? data (position + 20) 4
    filesHere := ← Bytes.number? data (position + 24) 8
    files := ← Bytes.number? data (position + 32) 8
    offset := ← Bytes.number? data (position + 48) 8 }
  if record.size < 44 ∨ position + 12 + record.size ≠ l.position then none
  if record.directoryDisk ≠ l.directoryDisk then none
  if position < record.files * Location.headerSize + record.offset then none
  some record

def location? (l : Locator) (r : WideRecord) : Option Location := do
  if r.files < r.filesHere ∨ r.madeBy < r.needed ∨ r.disk ≠ r.directoryDisk then none
  let shift := r.position - l.offset
  some ⟨r.offset + shift, r.files, shift⟩

end WideRecord

namespace Locator

def mark : Nat := 0x07064b50

def size : Nat := 20

def before? (data : ByteArray) (finish : Nat) : Option Locator := do
  if finish < size then none
  let position := finish - size
  if !Bytes.hasMark data mark position then none
  some {
    position := position
    directoryDisk := ← Bytes.number? data (position + 4) 4
    offset := ← Bytes.number? data (position + 8) 8
    disks := ← Bytes.number? data (position + 16) 4 }

/-- The directory that the first fitting wide record tells of. -/
def location? (data : ByteArray) (l : Locator) : Option Location := do
  if l.position ≤ l.offset ∨ 1 < l.disks then none
  let record ← Bytes.first? (WideRecord.ofLocator? data l) l.offset (l.position - l.offset - 3)
  record.location? l

end Locator

namespace EndRecord

def mark : Nat := 0x06054b50

/-- The end record at an offset, which must lie inside the data with its comment. -/
def read? (data : ByteArray) (position : Nat) : Option EndRecord := do
  if !Bytes.hasMark data mark position then none
  let record : EndRecord := {
    position := position
    disk := ← Bytes.number? data (position + 4) 2
    directoryDisk := ← Bytes.number? data (position + 6) 2
    filesHere := ← Bytes.number? data (position + 8) 2
    files := ← Bytes.number? data (position + 10) 2
    offset := ← Bytes.number? data (position + 16) 4 }
  let comment ← Bytes.number? data (position + 20) 2
  if data.size < position + 22 + comment then none
  some record

def mayBeWide (r : EndRecord) : Bool := r.files == 0xffff || r.offset == 0xffffffff

/-- The first directory header between the offset that the record names and the record. -/
def firstHeader? (data : ByteArray) (r : EndRecord) : Option Nat :=
  Bytes.first? (fun i => if Bytes.hasMark data Location.headerMark i then some i else none)
    r.offset (r.position - r.offset - 3)

/-- How far the archive is shifted; one without files ends where its directory starts. -/
def shift? (data : ByteArray) (r : EndRecord) : Option Nat :=
  if r.files = 0 then some (r.position - r.offset)
  else (r.firstHeader? data).map (· - r.offset)

def narrowLocation? (data : ByteArray) (r : EndRecord) : Option Location := do
  let shift ← r.shift? data
  if r.disk ≠ r.directoryDisk then none
  some ⟨r.offset + shift, r.filesHere, shift⟩

def location? (data : ByteArray) (r : EndRecord) : Option Location :=
  match if r.mayBeWide then Locator.before? data r.position else none with
  | some l => l.location? data
  | none => r.narrowLocation? data

end EndRecord

end ContentSpaces.Archive
