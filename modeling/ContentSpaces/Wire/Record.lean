import ContentSpaces.Json.Tree

/-!
# Reading records

A record is read from an object, where unknown fields are skipped and a known field may stand only
once, or from an array that lists the fields in their declared order and may leave out the last
ones. A name is read from a string or from an object with that one key and the value null.
-/

namespace ContentSpaces.Wire

open Json (Tree)
open Quoted (Unit16)

/-- Reads a tree inside which at most the given number of containers may still open. -/
abbrev Decoder (α : Type) := Nat → Tree → Option α

def text : Decoder String := fun _ t =>
  match t with
  | .string us => Quoted.decodeString us
  | _ => none

def natural : Decoder Nat := fun _ t =>
  match t with
  | .number (some n) => n.toNat?
  | _ => none

def json : Decoder Json := Tree.value?

/-- Null reads as absent. -/
def optional {α : Type} (read : Decoder α) : Decoder (Option α) := fun depth t =>
  match t with
  | .null => some none
  | t => (read depth t).map some

def list {α : Type} (read : Decoder α) : Decoder (List α) := fun depth t =>
  match depth, t with
  | depth + 1, .array xs => xs.mapM (read depth)
  | _, _ => none

/-- One of a set of names, given by what it stands for. -/
def oneOf {α : Type} (named : String → Option α) : Decoder α := fun depth t =>
  match depth, t with
  | _, .string us => (Quoted.decodeString us).bind named
  | _ + 1, .object [(us, .null)] => (Quoted.decodeString us).bind named
  | _, _ => none

/-- The fields that were present, and the containers that may still open inside them. -/
structure Record where
  depth : Nat
  fields : List (String × Tree)

namespace Record

def known? (names : List String) :
    List (List Unit16 × Tree) → List (String × Tree) → Option (List (String × Tree))
  | [], found => some found
  | (us, t) :: rest, found => do
    let name ← Quoted.decodeString us
    if names.contains name then
      if Entries.contains name found then none else known? names rest ((name, t) :: found)
    else known? names rest found

def read? (names : List String) (depth : Nat) (t : Tree) : Option Record :=
  match depth, t with
  | depth + 1, .object fs => (known? names fs []).map fun found => ⟨depth, found⟩
  | depth + 1, .array xs =>
    if xs.length ≤ names.length then some ⟨depth, names.zip xs⟩ else none
  | _, _ => none

def required {α : Type} (r : Record) (name : String) (read : Decoder α) : Option α :=
  (Entries.get? name r.fields).bind (read r.depth)

def withDefault {α : Type} (r : Record) (name : String) (default : α) (read : Decoder α) :
    Option α :=
  match Entries.get? name r.fields with
  | none => some default
  | some t => read r.depth t

end Record

def ofText? {α : Type} (read : Decoder α) (text : String) : Option α :=
  (Tree.scan? text.toList).bind (read Tree.maxDepth)

def ofBytes? {α : Type} (read : Decoder α) (bytes : ByteArray) : Option α :=
  (Tree.scanBytes? bytes).bind (read Tree.maxDepth)

def ofJson? {α : Type} (read : Decoder α) (v : Json) : Option α :=
  read Tree.maxDepth (.ofJson v)

end ContentSpaces.Wire
