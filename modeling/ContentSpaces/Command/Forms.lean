import ContentSpaces.Command.Form

/-!
# The forms of the commands

What each command takes, and the help that is printed about it.
-/

namespace ContentSpaces.Command

def program : String := "catalogctl"

def release : String := "0.3.0"

def verbose : Flag := ⟨some 'v', "verbose", .switch, "Enable verbose output"⟩

def helpFlag : Flag := ⟨some 'h', "help", .help, "Print help"⟩

def topForm : Form where
  name := "<COMMAND>"
  about := "CLI tools for the catalog sync engine"
  words := []
  flags := [verbose, helpFlag, ⟨some 'V', "version", .version, "Print version"⟩]

def hashForm : Form where
  name := "hash"
  about := "Print the canonical hash of a JSON document"
  words := [⟨"FILE", .path, "Path to the document"⟩]
  flags := [
    ⟨some 'c', "canonical", .switch, "Also print the canonical serialization"⟩,
    verbose,
    ⟨some 's', "sanitize", .switch, "Sanitize the document the way ingested content is"⟩,
    helpFlag]

def inspectForm : Form where
  name := "inspect"
  about := "List and check the record files of a snapshot archive"
  words := [⟨"ARCHIVE", .path, "Path to the zip archive"⟩]
  flags := [
    ⟨some 'f', "format", .value ⟨"FORMAT", .text, .withDefault "text"⟩,
      "Output format (text, json)"⟩,
    verbose, helpFlag]

def syncForm : Form where
  name := "sync"
  about := "Run one synchronization cycle against a catalog API"
  words := []
  flags := [
    ⟨none, "api-url", .value ⟨"API_URL", .text, .required⟩, "Catalog API base URL"⟩,
    verbose,
    ⟨none, "context", .value ⟨"CONTEXT", .text, .required⟩, "Catalog context"⟩,
    ⟨none, "consumer", .value ⟨"CONSUMER", .text, .required⟩, "Consumer name"⟩,
    ⟨some 'd', "data-dir", .value ⟨"DATA_DIR", .path, .required⟩,
      "Directory holding consumer state and content between runs"⟩,
    ⟨none, "space", .value ⟨"SPACE", .space, .withDefault "standard"⟩,
      "Space the catalog content is written to"⟩,
    ⟨none, "batch-size", .value ⟨"BATCH_SIZE", .count, .withDefault "999"⟩,
      "Documents per bulk write"⟩,
    ⟨none, "timeout", .value ⟨"TIMEOUT", .count, .withDefault "30"⟩,
      "Request timeout in seconds"⟩,
    ⟨none, "snapshot-deadline", .value ⟨"SNAPSHOT_DEADLINE", .count, .optional⟩,
      "Overall snapshot deadline in seconds"⟩,
    ⟨none, "concurrency", .value ⟨"CONCURRENCY", .count, .withDefault "8"⟩,
      "Concurrent registration requests"⟩,
    helpFlag]

def versionForm : Form where
  name := "version"
  about := "Show version information"
  words := []
  flags := [verbose, helpFlag]

def forms : List Form := [hashForm, inspectForm, syncForm, versionForm]

/-! ## Help -/

def helpAbout : String := "Print this message or the help of the given subcommand(s)"

def topUsage : String := s!"Usage: {program} [OPTIONS] {topForm.name}"

def topHelp : List String :=
  [topForm.about, "", topUsage] ++
    Help.group "Commands" (forms.map (fun f => (f.name, f.about)) ++ [("help", helpAbout)]) ++
    Help.flags topForm.flags

def helpHelp : List String :=
  [helpAbout, "", s!"Usage: {program} help [COMMAND]..."] ++
    Help.group "Arguments" [("[COMMAND]...", "Print help for the subcommand(s)")]

/-- The help on a command, named by the words after `help`. -/
def helpOn? : List String → Option (List String)
  | [] => some topHelp
  | [name] =>
    if name = "help" then some helpHelp
    else (forms.find? (·.name == name)).map (Form.help program)
  | _ => none

end ContentSpaces.Command
