import ContentSpaces.Command.Form

/-!
# Reading arguments

Arguments are read from left to right. An option is long (`--name`, `--name=value`) or stands in a
cluster of short ones (`-ab`, `-avalue`, `-a=value`), and each may be given once. A value never
starts with a dash, unless it is a dash alone or joined to its option. Two dashes end the options.
The first misuse, request for help or request for the version met decides.
-/

namespace ContentSpaces.Command

inductive Stop where
  | misuse
  | help
  | version
  deriving DecidableEq, Repr

/-- The options read so far with their values, and the words. -/
structure Given where
  options : List (String × String)
  words : List String
  deriving DecidableEq, Repr

namespace Given

def none : Given := ⟨[], []⟩

def has (g : Given) (long : String) : Bool := Entries.contains long g.options

end Given

/-- What an argument did: it is done with, or its option waits for a value. -/
inductive Met where
  | done (g : Given)
  | waiting (f : Flag) (g : Given)

def isOption (arg : String) : Bool := arg.startsWith "-" && arg != "-"

namespace Form

def note (f : Flag) (value : String) (g : Given) : Except Stop Given :=
  if g.has f.long then .error .misuse
  else if f.value?.all fun v => v.shape.admits value then
    .ok { g with options := (f.long, value) :: g.options }
  else .error .misuse

def meetLong (form : Form) (g : Given) (cs : List Char) : Except Stop Met :=
  let name := String.ofList (cs.takeWhile (· != '='))
  match form.flags.find? (·.long == name), cs.dropWhile (· != '=') with
  | none, _ => .error .misuse
  | some f, [] =>
    match f.role with
    | .help => .error .help
    | .version => .error .version
    | .switch => (note f "" g).map .done
    | .value _ => .ok (.waiting f g)
  | some f, _ :: value =>
    match f.role with
    | .value _ => (note f (String.ofList value) g).map .done
    | _ => .error .misuse

def meetShort (form : Form) (g : Given) : List Char → Except Stop Met
  | [] => .ok (.done g)
  | c :: cs =>
    match form.flags.find? (·.short == some c) with
    | none => .error .misuse
    | some f =>
      match f.role with
      | .help => .error .help
      | .version => .error .version
      | .switch => (note f "" g).bind fun g => meetShort form g cs
      | .value _ =>
        match cs with
        | [] => .ok (.waiting f g)
        | '=' :: value => (note f (String.ofList value) g).map .done
        | value => (note f (String.ofList value) g).map .done

def meet (form : Form) (g : Given) (arg : String) : Except Stop Met :=
  match arg.toList with
  | '-' :: '-' :: cs => form.meetLong g cs
  | cs => form.meetShort g cs.tail

def meetWord (form : Form) (g : Given) (word : String) : Except Stop Given :=
  match form.words[g.words.length]? with
  | none => .error .misuse
  | some w =>
    if w.shape.admits word then .ok { g with words := g.words ++ [word] } else .error .misuse

def isComplete (form : Form) (g : Given) : Bool :=
  g.words.length == form.words.length &&
    form.flags.all fun f => !f.isRequired || g.has f.long

def readWords (form : Form) (g : Given) : List String → Except Stop Given
  | [] => if form.isComplete g then .ok g else .error .misuse
  | arg :: args => (form.meetWord g arg).bind fun g => readWords form g args

def read (form : Form) (g : Given) : List String → Except Stop Given
  | [] => if form.isComplete g then .ok g else .error .misuse
  | arg :: args =>
    if arg = "--" then form.readWords g args
    else if isOption arg then
      (form.meet g arg).bind fun
        | .done g => read form g args
        | .waiting f g =>
          match args with
          | [] => .error .misuse
          | value :: rest =>
            if isOption value then .error .misuse
            else (note f value g).bind fun g => read form g rest
    else (form.meetWord g arg).bind fun g => read form g args

/-- Reads options up to the first word; gives that and the arguments after it. -/
def readCommand (form : Form) (g : Given) : List String → Except Stop (String × List String)
  | [] => .error .misuse
  | arg :: args =>
    if isOption arg then
      (form.meet g arg).bind fun
        | .done g => readCommand form g args
        | .waiting .. => .error .misuse
    else .ok (arg, args)

end Form

def Given.value? (g : Given) (form : Form) (long : String) : Option String :=
  (Entries.get? long g.options).or <| do
    let f ← form.flags.find? (·.long == long)
    match (← f.value?).presence with
    | .withDefault value => some value
    | _ => Option.none

end ContentSpaces.Command
