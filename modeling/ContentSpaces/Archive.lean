import ContentSpaces.Archive.Directory
import ContentSpaces.Archive.EntryPath
import ContentSpaces.Files
import ContentSpaces.Sync.Error

/-!
# Extraction

The names of all entries are checked before anything is made, so an archive with a refused entry
leaves no trace. Then the entries are written in turn: a later one overwrites an earlier one with
its path, and one that would turn a file into a directory, or a directory into a file, is an error.
-/

namespace ContentSpaces.Archive

/-- The destination, if it has been made. -/
abbrev ExtractM := EStateM SyncError (Option Files)

def current : ExtractM Files := do return (← get).getD .empty

/-- Does a step on the destination; if it goes wrong, what it did stays. -/
def making (step : Files → Files × Bool) : ExtractM Unit := do
  let (files, ok) := step (← current)
  set (some files)
  if !ok then throw .io

/-- Where an entry goes, unless its name is the destination itself. -/
def target (data : ByteArray) (e : Entry) : ExtractM (Option EntryPath) := do
  if !e.isReadable data then throw .archive
  match EntryPath.ofName? e.name with
  | none => throw (.pathTraversal e.name)
  | some [] => return none
  | some path => return some path

def write (data : ByteArray) (e : Entry) (path : EntryPath) : ExtractM (Option EntryPath) := do
  if EntryPath.isDirectoryName e.name then
    making (·.makeDirectory path)
    return none
  making (·.makeDirectory path.dropLast)
  making (·.makeFile path)
  match e.content? data with
  | none => throw .io
  | some content =>
    making fun files => (files.insert path (.file content), true)
    return some path

/-- Extracts an archive; gives the paths of the files in the order in which they were written. -/
def extract (data : ByteArray) (expired : Bool) : ExtractM (List EntryPath) := do
  match Directory.read? data with
  | none => throw .archive
  | some entries =>
    let targets ← entries.mapM fun e => do return (← target data e).map fun path => (e, path)
    if expired then throw .timeout
    set (some Table.empty : Option Files)
    let written ← (targets.filterMap id).mapM fun (e, path) => write data e path
    return written.filterMap id

end ContentSpaces.Archive
