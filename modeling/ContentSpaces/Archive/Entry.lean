import ContentSpaces.Archive.Bytes
import ContentSpaces.Archive.Crc32
import ContentSpaces.Archive.Inflate

/-!
# Entries of an archive

An entry is what the directory tells of it; its data stand behind a local header, of which only the
mark and the sizes of its two texts count.
-/

namespace ContentSpaces.Archive

/-- An entry, whose local header is at `header`. -/
structure Entry where
  storedName : ByteArray
  name : String
  comment : String
  method : Nat
  encrypted : Bool
  /-- Whether an extra field tells how the entry is encrypted. -/
  hasCipher : Bool
  checksum : UInt32
  size : Nat
  compressedSize : Nat
  header : Nat

namespace Entry

def mark : Nat := 0x04034b50

def start? (data : ByteArray) (e : Entry) : Option Nat := do
  if !Bytes.hasMark data mark e.header then none
  let nameSize ← Bytes.number? data (e.header + 26) 2
  let extraSize ← Bytes.number? data (e.header + 28) 2
  some (e.header + 30 + nameSize + extraSize)

/-- Entries are stored as they are or deflated, and not encrypted. -/
def isReadable (data : ByteArray) (e : Entry) : Bool :=
  (e.start? data).isSome && !e.encrypted && !e.hasCipher && (e.method == 0 || e.method == 8)

/-- The content of an entry, unless it is corrupt or does not match its checksum. -/
def content? (data : ByteArray) (e : Entry) : Option ByteArray := do
  let start ← e.start? data
  let compressed := data.extract start (min (start + e.compressedSize) data.size)
  let content ← if e.method = 8 then inflate? compressed else some compressed
  if Crc32.ofBytes content = e.checksum then some content else none

end Entry

end ContentSpaces.Archive
