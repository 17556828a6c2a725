import ContentSpaces.Json.Pointer

/-!
# Patches

A patch is a list of operations on a document, applied in order; the first failing one fails the
patch. Additions and removals act on the parent of the addressed position, so they also take the
positions at and after the end of an array.
-/

namespace ContentSpaces.Patch

inductive Verb where
  | add
  | remove
  | replace
  | move
  | copy
  | test
  deriving DecidableEq, Repr

def Verb.name : Verb → String
  | .add => "add"
  | .remove => "remove"
  | .replace => "replace"
  | .move => "move"
  | .copy => "copy"
  | .test => "test"

def Verb.all : List Verb := [.add, .remove, .replace, .move, .copy, .test]

/-- An operation; `source` is a pointer that `move` and `copy` take their value from. -/
structure Operation where
  verb : Verb
  path : String
  source : Option String
  value : Option Json

namespace Operation

def withValue (verb : Verb) (path : String) (value : Json) : Operation :=
  ⟨verb, path, none, some value⟩

def withSource (verb : Verb) (source path : String) : Operation :=
  ⟨verb, path, some source, none⟩

def removal (path : String) : Operation := ⟨.remove, path, none, none⟩

end Operation

inductive Error where
  | invalidPath (path : String)
  | pathNotFound (path : String)
  | notAContainer (path : String)
  | indexOutOfBounds (path : String) (index len : Nat)
  | missingValue (verb : Verb)
  | missingSource (verb : Verb)
  | testFailed (path : String)
  deriving DecidableEq

def Error.message : Error → String
  | .invalidPath path => s!"invalid path '{path}'"
  | .pathNotFound path => s!"path '{path}' does not exist"
  | .notAContainer path => s!"path '{path}' is not an object or array"
  | .indexOutOfBounds path index len => s!"index {index} out of bounds at '{path}' (len {len})"
  | .missingValue verb => s!"'{verb.name}' operation requires a value"
  | .missingSource verb => s!"'{verb.name}' operation requires a from path"
  | .testFailed path => s!"test failed at '{path}'"

def lookup (root : Json) (path : String) : Except Error Json :=
  match Json.Pointer.tokens? path with
  | none => .error (.invalidPath path)
  | some tokens => ((root.get? tokens).elim (.error (.pathNotFound path)) .ok)

/-- The tokens of the parent and the last token of a path that is not empty. -/
def position (path : String) : Except Error (List String × String) :=
  match Json.Pointer.tokens? path with
  | none => .error (.invalidPath path)
  | some tokens =>
    match tokens.getLast? with
    | none => .error (.invalidPath path)
    | some last => .ok (tokens.dropLast, last)

def addChild (path token : String) (value : Json) : Json → Except Error (Unit × Json)
  | .object fs => .ok ((), .object (Entries.insert token value fs))
  | .array xs =>
    if token = "-" then .ok ((), .array (xs ++ [value]))
    else
      match Json.Pointer.looseIndex? token with
      | none => .error (.invalidPath path)
      | some i =>
        if xs.length < i then .error (.indexOutOfBounds path i xs.length)
        else .ok ((), .array (xs.insertIdx i value))
  | _ => .error (.notAContainer (Json.Pointer.parentText path))

def removeChild (path token : String) : Json → Except Error (Json × Json)
  | .object fs =>
    match Entries.get? token fs with
    | none => .error (.pathNotFound path)
    | some v => .ok (v, .object (Entries.erase token fs))
  | .array xs =>
    match Json.Pointer.looseIndex? token with
    | none => .error (.invalidPath path)
    | some i =>
      match xs[i]? with
      | none => .error (.indexOutOfBounds path i xs.length)
      | some v => .ok (v, .array (xs.eraseIdx i))
  | _ => .error (.notAContainer (Json.Pointer.parentText path))

def add (root : Json) (path : String) (value : Json) : Except Error Json :=
  if path.isEmpty then .ok value
  else do
    let (parent, last) ← position path
    let (_, root) ← root.editAt (.pathNotFound path) (addChild path last value) parent
    .ok root

def remove (root : Json) (path : String) : Except Error (Json × Json) := do
  let (parent, last) ← position path
  root.editAt (.pathNotFound path) (removeChild path last) parent

def replace (root : Json) (path : String) (value : Json) : Except Error Json :=
  if path.isEmpty then .ok value
  else do
    let (_, root) ← remove root path
    add root path value

def Operation.requiredValue (op : Operation) : Except Error Json :=
  op.value.elim (.error (.missingValue op.verb)) .ok

def Operation.requiredSource (op : Operation) : Except Error String :=
  op.source.elim (.error (.missingSource op.verb)) .ok

def Operation.apply (op : Operation) (root : Json) : Except Error Json :=
  match op.verb with
  | .add => do add root op.path (← op.requiredValue)
  | .remove => do
    let (_, root) ← Patch.remove root op.path
    .ok root
  | .replace => do replace root op.path (← op.requiredValue)
  | .move => do
    let (value, root) ← Patch.remove root (← op.requiredSource)
    add root op.path value
  | .copy => do add root op.path (← lookup root (← op.requiredSource))
  | .test => do
    let expected ← op.requiredValue
    if (← lookup root op.path).equal expected then .ok root else .error (.testFailed op.path)

def applyAll (root : Json) : List Operation → Except Error Json
  | [] => .ok root
  | op :: ops => do applyAll (← op.apply root) ops

end ContentSpaces.Patch
