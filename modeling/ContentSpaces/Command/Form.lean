import ContentSpaces.Resource

/-!
# Forms of command lines

A form lists the words and options that a command takes. Help is written from the form alone: it
lists the options in their order in the form and sets their explanations in a column, or on lines
of their own when the column would leave too little room.
-/

namespace ContentSpaces.Command

inductive Shape where
  | text
  | path
  | count
  | space
  deriving DecidableEq, Repr

inductive Presence where
  | required
  | optional
  | withDefault (value : String)
  deriving DecidableEq, Repr

structure Value where
  name : String
  shape : Shape
  presence : Presence
  deriving DecidableEq, Repr

/-- What an option does: turn something on, take a value, or end the reading of arguments. -/
inductive Role where
  | switch
  | value (v : Value)
  | help
  | version
  deriving DecidableEq, Repr

structure Flag where
  short : Option Char
  long : String
  role : Role
  about : String
  deriving DecidableEq, Repr

structure Word where
  name : String
  shape : Shape
  about : String
  deriving DecidableEq, Repr

structure Form where
  name : String
  about : String
  words : List Word
  flags : List Flag
  deriving DecidableEq, Repr

/-- A whole number below `2 ^ 64`, with or without a plus sign. -/
def count? (text : String) : Option Nat :=
  let digits := match text.toList with
    | '+' :: cs => cs
    | cs => cs
  if digits.isEmpty || !digits.all Char.isDigit then none
  else
    let n := digits.foldl (fun n c => 10 * n + (c.toNat - '0'.toNat)) 0
    if n < Nat.pow 2 64 then some n else none

def Shape.admits : Shape → String → Bool
  | .text, _ => true
  | .path, value => value != ""
  | .count, value => (count? value).isSome
  | .space, value => (Space.parse value).toOption.isSome

namespace Flag

def value? (f : Flag) : Option Value :=
  match f.role with
  | .value v => some v
  | _ => none

def isRequired (f : Flag) : Bool := f.value?.any (·.presence == .required)

def signature (f : Flag) : String :=
  "--" ++ f.long ++ f.value?.elim "" fun v => " <" ++ v.name ++ ">"

def label (f : Flag) : String :=
  f.short.elim "    " (fun c => String.ofList ['-', c, ',', ' ']) ++ f.signature

def explanation (f : Flag) : String :=
  match f.value?.map Value.presence with
  | some (.withDefault value) => s!"{f.about} [default: {value}]"
  | _ => f.about

end Flag

/-! ## Help -/

namespace Help

def width : Nat := 100

abbrev Entry := String × String

def longest (entries : List Entry) : Nat := (entries.map fun e => e.1.length).foldl max 0

/-- Explanations go below their labels if the labels take over two fifths of the width and some
explanation does not fit beside them. -/
def isTall (entries : List Entry) : Bool :=
  let taken := longest entries + 4
  taken ≤ width && 2 * width < 5 * taken && entries.any fun e => width - taken < e.2.length

def pad (width : Nat) (text : String) : String :=
  text ++ String.ofList (List.replicate (width - text.length) ' ')

def entryLines (tall : Bool) (column : Nat) : Entry → List String
  | (label, about) =>
    if tall then ["  " ++ label, "          " ++ about]
    else ["  " ++ pad column label ++ "  " ++ about]

/-- A titled list of entries, after a blank line; nothing if it has no entries. -/
def group (title : String) (entries : List Entry) : List String :=
  if entries.isEmpty then []
  else
    ["", title ++ ":"] ++ entries.flatMap (entryLines (isTall entries) (longest entries))

def flags (fs : List Flag) : List String :=
  group "Options" (fs.map fun f => (f.label, f.explanation))

end Help

namespace Form

/-- The names of the program and the command, then what must be given. -/
def usage (program : String) (form : Form) : String :=
  " ".intercalate (["Usage:", program, form.name, "[OPTIONS]"] ++
    (form.flags.filter Flag.isRequired).map Flag.signature ++
    form.words.map fun w => "<" ++ w.name ++ ">")

def help (program : String) (form : Form) : List String :=
  [form.about, "", form.usage program] ++
    Help.group "Arguments" (form.words.map fun w => ("<" ++ w.name ++ ">", w.about)) ++
    Help.flags form.flags

end Form

end ContentSpaces.Command
