import ContentSpaces.Command
import ContentSpaces.DataDirectory
import ContentSpaces.Sync
import ContentSpaces.Sync.Inspection

/-!
# Running a command

A command reads files and may ask a remote. Its outcome is an exit status, the lines to print, and
the files to write. A synchronisation writes its files whether or not it succeeds.
-/

namespace ContentSpaces.Command

inductive Exit where
  | success
  | failure
  | misuse
  deriving DecidableEq, Repr

def Exit.code : Exit → Nat
  | .success => 0
  | .failure => 1
  | .misuse => 2

/-- What a run comes to; the files are written in their order. -/
structure Outcome where
  exit : Exit
  printed : List String
  written : List (String × String)

namespace Outcome

def failed : Outcome := ⟨.failure, [], []⟩

def misused : Outcome := ⟨.misuse, [], []⟩

def printing (lines : List String) : Outcome := ⟨.success, lines, []⟩

def ofLines? (lines : Option (List String)) : Outcome := lines.elim failed printing

end Outcome

/-- The directory that a command works in, made if it is missing. -/
def directory? : Command → Option String
  | .sync _ directory => some directory
  | _ => none

def sources : Command → List String
  | .hash path _ _ => [path]
  | .inspect archive _ => [archive]
  | .sync _ directory =>
    [DataDirectory.Item.content.path directory, DataDirectory.Item.cursors.path directory]
  | .print _ => []

def hashLines? (node : Option Node) (path : String) (canonical sanitize : Bool) :
    Option (List String) := do
  let document ← Json.ofText? (← (← node).text?)
  let document := if sanitize then Sanitize.document document else document
  return [s!"{Digest.ofDocument document}  {path}"] ++
    if canonical then [document.canonical] else []

def inspectLines? (node : Option Node) (archive : String) (asJson : Bool) :
    Option (List String) := do
  match ← node with
  | .directory => none
  | .file content =>
    let inspection ← Snapshot.inspect? archive content
    return if asJson then [inspection.toJson.indented] else inspection.lines

/-- A run of the synchronisation on what is kept; whatever it comes to, the state is kept. -/
def synchronize (cfg : Config) (remote : Remote) (s : DataDirectory.State) :
    Option Sync.Outcome × DataDirectory.State :=
  match Sync.synchronize cfg remote (.of s.content s.cursors) with
  | .ok outcome m => (some outcome, ⟨m.store.content, m.cursors.cursors⟩)
  | .error _ m => (none, ⟨m.store.content, m.cursors.cursors⟩)

def snapshotLines (r : Snapshot.Report) : List String :=
  ["", s!"Snapshot: {r.url} ({r.files} files)"] ++
    r.loaded.entries.map (fun (kind, n) => s!"  {kind.plural}: {n}") ++
    if r.skippedLines = 0 then [] else [s!"  skipped lines: {r.skippedLines}"]

def updateLines (r : Cycle.Report) : List String :=
  ["", s!"Update: offsets {r.lower}..{r.upper} ({r.applied} applied, {r.skipped} skipped)"]

def syncLines (o : Sync.Outcome) : List String :=
  let after := o.aftermath
  let spaces := ", ".intercalate (after.initialized.map Space.name)
  let r := after.registrations
  ["Sync Cycle", "==========", s!"Local offset:  {o.advance.offset}",
    s!"Remote offset: {o.remoteOffset}"] ++
    o.advance.snapshot.elim [] snapshotLines ++
    o.advance.update.elim [] updateLines ++
    (if after.initialized.isEmpty then [] else ["Initialized spaces: " ++ spaces]) ++
    (if r.total = 0 then []
      else [s!"Registrations: {r.succeeded} ok, {r.failed} failed, {r.timedOut} timed out"]) ++
    after.recalculated.elim [] fun c =>
      [s!"Recalculated: {c.policies} policies, {c.integrations} integrations"]

def run (remote : Config → Remote) (files : String → Option Node) : Command → Outcome
  | .hash path canonical sanitize => .ofLines? (hashLines? (files path) path canonical sanitize)
  | .inspect archive asJson => .ofLines? (inspectLines? (files archive) archive asJson)
  | .sync cfg directory =>
    match DataDirectory.load? fun item => files (item.path directory) with
    | none => .failed
    | some state =>
      let (outcome, kept) := synchronize cfg (remote cfg) state
      { Outcome.ofLines? (outcome.map syncLines) with
        written := (DataDirectory.save kept).map fun (item, text) => (item.path directory, text) }
  | .print lines => .printing lines

def runIn (remote : Config → Remote) (files : Files) (command : Command) : Outcome × Files :=
  let (files, ok) := command.directory?.elim (files, true) files.makeDirectories
  if !ok then (.failed, files)
  else
    let outcome := command.run remote files.find?
    let (files, ok) := files.writeAll outcome.written
    (if ok then outcome else .failed, files)

def execute (remote : Config → Remote) (files : Files) (args : List String) : Outcome × Files :=
  match ofArguments? args with
  | none => (.misused, files)
  | some command => command.runIn remote files

end ContentSpaces.Command
