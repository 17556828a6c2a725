import ContentSpaces.Command.Run

/-!
# The program

Reads the files that a command asks for, runs it, and does what its outcome says. It knows no
network, so a synchronisation finds its remote out of reach.
-/

namespace ContentSpaces.Command

/-- What stands at a path; what is there and cannot be read counts as a directory. -/
def readNode (path : String) : IO (Option Node) := do
  try
    return some (.file (← IO.FS.readBinFile path))
  catch
    | .noFileOrDirectory .. => return none
    | _ => return some .directory

def Outcome.perform (o : Outcome) : IO UInt32 := do
  for (path, text) in o.written do
    IO.FS.writeFile path text
  for line in o.printed do
    IO.println line
  return o.exit.code.toUInt32

def runHere (command : Command) : IO UInt32 := do
  if let some directory := command.directory? then
    IO.FS.createDirAll directory
  let found ← command.sources.mapM fun path => do return (path, ← readNode path)
  let files (path : String) : Option Node := (Entries.get? path found).join
  (command.run (fun _ => .unreachable "no network") files).perform

end ContentSpaces.Command

def main (args : List String) : IO UInt32 := do
  match ContentSpaces.Command.ofArguments? args with
  | none =>
    IO.eprintln ContentSpaces.Command.topUsage
    return ContentSpaces.Command.Exit.misuse.code.toUInt32
  | some command =>
    try
      command.runHere
    catch e =>
      IO.eprintln s!"Error: {e}"
      return ContentSpaces.Command.Exit.failure.code.toUInt32
