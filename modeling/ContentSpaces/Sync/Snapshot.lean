import ContentSpaces.Archive
import ContentSpaces.Sync.Replica
import ContentSpaces.Wire.Record

/-!
# Snapshots

A snapshot is an archive of files with one record a line. Loading it replaces all content of the
space and moves the cursor to the offset of the snapshot. If the archive cannot be fetched or
unpacked, nothing changes; if a record cannot be read or written after that, the space is left
empty.
-/

namespace ContentSpaces.Snapshot

open Replica

structure Report where
  url : String
  offset : Nat
  loaded : Table Kind Nat
  skippedLines : Nat
  files : Nat

def Report.none : Report := ⟨"", 0, .empty, 0, 0⟩

def Report.total (r : Report) : Nat := r.loaded.values.foldr (· + ·) 0

structure SourceFile where
  path : Archive.EntryPath
  content : ByteArray

/-- A line of a file, numbered from one. -/
structure Line where
  file : Archive.EntryPath
  number : Nat
  bytes : List UInt8

/-- The lines of a text; the last one need not end with a line break. -/
def splitLines : List UInt8 → List (List UInt8)
  | [] => []
  | b :: bs =>
    if b = 10 then [] :: splitLines bs
    else
      match splitLines bs with
      | [] => [[b]]
      | line :: lines => (b :: line) :: lines

def linesOf (file : SourceFile) : List Line :=
  (splitLines file.content.toList).zipIdx.map fun (bytes, i) => ⟨file.path, i + 1, bytes⟩

/-- The files that hold records, in path order. -/
def recordFiles (files : List SourceFile) : List SourceFile :=
  (files.filter fun f => f.path.extension? == some "json").mergeSort fun a b =>
    (compare a.path b.path).isLE

inductive Entry where
  | blank
  | skipped
  | resource (r : Resource)

/-- The resource of a record; an incomplete record or an invalid document has none. -/
def ofRecord (space : Space) (record : Json) : Option Resource := do
  let payload ← record.field? "payload"
  let kind ← Kind.parse? (← payload.stringField? "type")
  (Resource.ingest kind space (← payload.field? "document")).toOption

def readLine (space : Space) (line : Line) : Except SyncError Entry :=
  match String.fromUTF8? ⟨line.bytes.toArray⟩ with
  | none => .error .io
  | some text =>
    let text := Text.trim text
    if text = "" then .ok .blank
    else
      match Json.ofText? text with
      | none => .error (.protocol (.badRecord line.file.text line.number))
      | some record => .ok ((ofRecord space record).elim .skipped .resource)

/-- The resources that wait to be written, the latest first, and what has been read so far. -/
structure Loading where
  waiting : List Resource
  loaded : Table Kind Nat
  skipped : Nat

def Loading.none : Loading := ⟨[], .empty, 0⟩

def Loading.add (l : Loading) (r : Resource) : Loading :=
  { l with
    waiting := r :: l.waiting
    loaded := l.loaded.insert r.kind ((l.loaded.get? r.kind).getD 0 + 1) }

def Loading.flush (l : Loading) : ReplicaM Loading := do
  onStore (Store.createAll l.waiting.reverse)
  return { l with waiting := [] }

/-- Reads lines in turn and writes whenever a batch is full. -/
def load (cfg : Config) : List Line → Loading → ReplicaM Loading
  | [], l => if l.waiting.isEmpty then return l else l.flush
  | line :: lines, l => do
    match ← ofExcept (readLine cfg.space line) with
    | .blank => load cfg lines l
    | .skipped => load cfg lines { l with skipped := l.skipped + 1 }
    | .resource r =>
      let l := l.add r
      let l ← if cfg.batchSize ≤ l.waiting.length then l.flush else pure l
      load cfg lines l

/-- Replaces the content of the space by that of the files; an error empties the space. -/
def replaceContent (cfg : Config) (files : List SourceFile) : ReplicaM Loading := do
  let _ ← onStore (Store.clearSpace cfg.space)
  try
    if Config.batchLimit ≤ cfg.batchSize then throw .io
    load cfg (files.flatMap linesOf) .none
  catch e =>
    attempt (onStore (Store.clearSpace cfg.space))
    throw e

def install (cfg : Config) (url : String) (offset : Nat) (files : List SourceFile) :
    ReplicaM Report := do
  let records := recordFiles files
  let l ← replaceContent cfg records
  onCursors (CursorStore.revise cfg.owner fun c =>
    { c with localOffset := offset, remoteOffset := offset, snapshotLink := url })
  return ⟨url, offset, l.loaded, l.skipped, records.length⟩

/-- Unpacks an archive; of a path that was written twice the last content stands for both. -/
def unpack (archive : ByteArray) (expired : Bool) : Except SyncError (List SourceFile) :=
  match Archive.extract archive expired none with
  | .error e _ => .error e
  | .ok paths files =>
    .ok (paths.filterMap fun path =>
      (files.bind fun fs => fs.content? path).map fun content => ⟨path, content⟩)

def fetch (cfg : Config) (remote : Remote) (url : String) : ReplicaM (List SourceFile) := do
  if cfg.snapshotDeadline = some 0 then throw .timeout
  let answer ← ask (.snapshot url) (remote.snapshot url)
  let download ← ofExcept answer
  ofExcept (unpack download.archive (cfg.snapshotDeadline.any (· ≤ download.took)))

/-- Loads the snapshot at a URL as the state at an offset; a blank URL is no snapshot. -/
def bootstrap (cfg : Config) (remote : Remote) (url : String) (offset : Nat) : ReplicaM Report := do
  if Text.isBlankText url then return .none
  if !cfg.workDirectory.all (← get).scratch then throw .io
  install cfg url offset (← fetch cfg remote url)

end ContentSpaces.Snapshot
