import ContentSpaces.Sync.Snapshot

/-!
# Inspection of a snapshot

An archive is unpacked and its files are listed in path order. The lines of record files are
counted: blank lines do not count, and a line is invalid if it is not JSON or declares no type.
-/

namespace ContentSpaces.Snapshot

/-- The types that the lines of a file declare, one line after the other. -/
abbrev Declarations := List (Option String)

structure FileSummary where
  path : String
  size : Nat
  /-- What the lines declare, if the file holds records. -/
  records : Option Declarations

namespace FileSummary

def lines (f : FileSummary) : Option Nat := f.records.map List.length

def invalid (f : FileSummary) : Nat := (f.records.getD []).countP Option.isNone

end FileSummary

structure Inspection where
  archive : String
  size : Nat
  files : List FileSummary

def declaredType? (line : String) : Option String := do
  let payload ← (← Json.ofText? line).field? "payload"
  payload.stringField? "type"

/-- What the lines of a record file declare; `none` if it is not UTF-8. -/
def declarations? (file : SourceFile) : Option Declarations := do
  let lines ← (linesOf file).mapM fun line => String.fromUTF8? ⟨line.bytes.toArray⟩
  return (lines.filter fun line => !Text.isBlankText line).map declaredType?

def summary? (file : SourceFile) : Option FileSummary := do
  let records ←
    if file.path.extension? == some "json" then (declarations? file).map some else some none
  return ⟨file.path.text, file.content.size, records⟩

/-- Inspects an archive; `none` if it cannot be unpacked or a record file is not text. -/
def inspect? (name : String) (archive : ByteArray) : Option Inspection := do
  let files ← (unpack archive false).toOption
  let sorted := files.mergeSort fun a b => (compare a.path b.path).isLE
  return ⟨name, archive.size, ← sorted.mapM summary?⟩

namespace Inspection

def types (i : Inspection) : Table String Nat :=
  (i.files.flatMap fun f => (f.records.getD []).filterMap id).foldl
    (fun counts name => counts.insert name ((counts.get? name).getD 0 + 1)) .empty

def fileJson (f : FileSummary) : Json :=
  .object ([("path", .string f.path), ("size", .ofNat f.size)] ++
    (f.lines.map fun n => ("lines", Json.ofNat n)).toList ++
    [("invalid_lines", .ofNat f.invalid)])

def toJson (i : Inspection) : Json :=
  .object [("archive", .string i.archive), ("size", .ofNat i.size),
    ("files", .array (i.files.map fileJson)),
    ("records", .object (i.types.entries.map fun (name, n) => (name, .ofNat n)))]

def fileLine (f : FileSummary) : String :=
  match f.lines with
  | none => s!"  {f.path} ({f.size} bytes)"
  | some n => s!"  {f.path} ({f.size} bytes, {n} records, {f.invalid} invalid)"

def lines (i : Inspection) : List String :=
  ["Snapshot Archive", "================", s!"Path: {i.archive}", s!"Size: {i.size} bytes", "",
    s!"Files ({i.files.length}):"] ++ i.files.map fileLine ++
    ["", "Records:"] ++ i.types.entries.map fun (name, n) => s!"  {name}: {n}"

end Inspection

end ContentSpaces.Snapshot
