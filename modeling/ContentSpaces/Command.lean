import ContentSpaces.Command.Forms
import ContentSpaces.Command.Reading
import ContentSpaces.Sync.Config

/-!
# Commands

What the command line can ask for. Help and the version are texts to print.
-/

namespace ContentSpaces

inductive Command where
  | hash (path : String) (canonical sanitize : Bool)
  | inspect (archive : String) (asJson : Bool)
  | sync (config : Config) (directory : String)
  | print (lines : List String)

namespace Command

def configOf? (g : Given) : Option Config := do
  let text (long : String) : Option String := g.value? syncForm long
  let number (long : String) : Option Nat := (text long).bind count?
  let new := Config.new (← text "context") (← text "consumer") (← text "api-url")
  let new := new.withBatchSize (← number "batch-size")
  return { new with
    space := ← (Space.parse (← text "space")).toOption
    requestTimeout := 1000 * (← number "timeout")
    snapshotDeadline := (number "snapshot-deadline").map (1000 * ·)
    limits := new.limits.withConcurrency (← number "concurrency") }

def ofGiven? (g : Given) : String → Option Command
  | "hash" => g.words.head?.map fun path => .hash path (g.has "canonical") (g.has "sanitize")
  | "inspect" =>
    g.words.head?.map fun path => .inspect path (g.value? inspectForm "format" == some "json")
  | "sync" => do return .sync (← configOf? g) (← g.value? syncForm "data-dir")
  | "version" => some (.print [s!"{program} v{release}"])
  | _ => none

/-- Asks for help or for the version end the reading; a misuse is no command. -/
def ofStop? (help : List String) : Stop → Option Command
  | .misuse => none
  | .help => some (.print help)
  | .version => some (.print [s!"{program} {release}"])

def ofNamed? (name : String) (args : List String) : Option Command :=
  if name = "help" then (helpOn? args).map .print
  else
    match forms.find? (·.name == name) with
    | none => none
    | some form =>
      match form.read .none args with
      | .error stop => ofStop? (form.help program) stop
      | .ok g => ofGiven? g name

/-- The command that the arguments spell; `none` if they are misused. -/
def ofArguments? (args : List String) : Option Command :=
  match topForm.readCommand .none args with
  | .error stop => ofStop? topHelp stop
  | .ok (name, rest) => ofNamed? name rest

end Command

end ContentSpaces
