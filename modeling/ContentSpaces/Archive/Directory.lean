import ContentSpaces.Archive.EndRecord
import ContentSpaces.Archive.EntryName
import ContentSpaces.Archive.ExtraField

/-!
# The directory of an archive

The directory is a run of headers, one for each entry. The last end record from which a whole
directory can be read counts. Of two entries with one name the later stands, in the place of the
first.
-/

namespace ContentSpaces.Archive.Directory

/-- The method of entries that must tell how they are encrypted. -/
def cipherMethod : Nat := 99

def text (isUtf8 : Bool) (bytes : List UInt8) : String :=
  if isUtf8 then EntryName.ofUtf8 bytes else EntryName.ofCodePage bytes

/-- Reads a header with its extra fields; also gives the offset behind it. -/
def entry? (data : ByteArray) (shift offset : Nat) : Option (Entry × Nat) := do
  if !Bytes.hasMark data Location.headerMark offset then none
  let number (i size : Nat) := Bytes.number? data (offset + i) size
  let flags ← number 8 2
  let nameSize ← number 28 2
  let extraSize ← number 30 2
  let commentSize ← number 32 2
  let name ← Bytes.slice? data (offset + 46) nameSize
  let extra ← Bytes.slice? data (offset + 46 + nameSize) extraSize
  let comment ← Bytes.slice? data (offset + 46 + nameSize + extraSize) commentSize
  let told : Entry := {
    storedName := name.toByteArray
    name := text (flags.testBit 11) name
    comment := text (flags.testBit 11) comment
    method := ← number 10 2
    encrypted := flags.testBit 0
    hasCipher := false
    checksum := (← number 16 4).toUInt32
    compressedSize := ← number 20 4
    size := ← number 24 4
    header := ← number 42 4 }
  let entry ← told.extend? extra
  if entry.method = cipherMethod ∧ !entry.hasCipher then none
  if 0xffffffffffffffff < entry.header + shift then none
  some ({ entry with header := entry.header + shift },
    offset + 46 + nameSize + extraSize + commentSize)

def entries? (data : ByteArray) (shift : Nat) : Nat → Nat → Option (List Entry)
  | 0, _ => some []
  | n + 1, offset => do
    let (entry, next) ← entry? data shift offset
    let entries ← entries? data shift n next
    some (entry :: entries)

/-- Puts an entry in the place of one with its name, or else at the end. -/
def put (entry : Entry) : List Entry → List Entry
  | [] => [entry]
  | e :: es => if e.name = entry.name then entry :: es else e :: put entry es

def ofRecord? (data : ByteArray) (record : EndRecord) : Option (List Entry) := do
  let place ← record.location? data
  let entries ← entries? data place.shift place.count place.start
  some (entries.foldl (fun es entry => put entry es) [])

/-- Tries the end records before an offset, the last one first. -/
def findLast? (data : ByteArray) : Nat → Option (List Entry)
  | 0 => none
  | offset + 1 =>
    ((EndRecord.read? data offset).bind (ofRecord? data)).orElse fun _ => findLast? data offset

def read? (data : ByteArray) : Option (List Entry) := findLast? data (data.size - 3)

end ContentSpaces.Archive.Directory
