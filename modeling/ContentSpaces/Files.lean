import ContentSpaces.Table

/-!
# Directories and files

A tree of files tells what stands at each path below a top directory; a path is the list of its
components. A path may also be given as a text with slashes, where a dot stays in place, two dots
go up, and nothing but a directory leads on. The top has nothing above it.

A write fails only where its path leads to no file that could be made, and then nothing has changed.
Errors of the disk, after which a file may be left empty or cut short, are left out.
-/

namespace ContentSpaces

inductive Node where
  | directory
  | file (content : ByteArray)

def Node.text? : Node → Option String
  | .directory => none
  | .file content => String.fromUTF8? content

/-- What stands at each path; the top itself is not listed. -/
abbrev Files := Table (List String) Node

namespace Files

/-- A name that a file system takes. -/
def isComponent (name : String) : Bool := name.utf8ByteSize ≤ 255

/-- The most bytes that a path may have as a text. -/
def pathLimit : Nat := 4095

def isPath (path : List String) : Bool :=
  path.all (fun part => !part.toList.contains '\x00') &&
    path.foldr (fun part n => 1 + part.utf8ByteSize + n) 0 ≤ pathLimit

def isDirectory (files : Files) (path : List String) : Bool :=
  path.isEmpty || (files.get? path).any fun | .directory => true | .file _ => false

/-- Makes the directory `made` and those below it that `path` leads through. -/
def makeFrom (made : List String) (files : Files) : List String → Files × Bool
  | [] => (files, true)
  | part :: path =>
    let here := made ++ [part]
    match files.get? here with
    | some .directory => makeFrom here files path
    | some (.file _) => (files, false)
    | none =>
      if isComponent part then makeFrom here (files.insert here .directory) path
      else (files, false)

def makeDirectory (files : Files) (path : List String) : Files × Bool :=
  if isPath path then makeFrom [] files path else (files, false)

/-- Makes an empty file in an existing directory, or empties one. -/
def makeFile (files : Files) (path : List String) : Files × Bool :=
  match files.get? path with
  | some .directory => (files, false)
  | some (.file _) => (files.insert path (.file .empty), true)
  | none =>
    if isPath path && isComponent (path.getLast?.getD "") then
      (files.insert path (.file .empty), true)
    else (files, false)

def content? (files : Files) (path : List String) : Option ByteArray :=
  match files.get? path with
  | some (.file content) => some content
  | _ => none

/-- The texts between slashes; none if the path is too long or does not start at the top. -/
def parts? (path : String) : Option (List String) :=
  if path.startsWith "/" ∨ pathLimit < path.utf8ByteSize then none
  else some ((path.toList.splitOnP (· == '/')).map String.ofList)

/-- Follows the parts of a path from `here`, whether or not anything stands at its end. -/
def follow (files : Files) : List String → List String → Option (List String)
  | here, [] => some here
  | here, part :: parts =>
    if !files.isDirectory here then none
    else if part = "" ∨ part = "." then follow files here parts
    else if part = ".." then
      if here.isEmpty then none else follow files here.dropLast parts
    else follow files (here ++ [part]) parts

def resolve? (files : Files) (path : String) : Option (List String) :=
  (parts? path).bind (files.follow [])

def find? (files : Files) (path : String) : Option Node :=
  match files.resolve? path with
  | none => none
  | some [] => some .directory
  | some path => files.get? path

/-- Follows the parts of a path from `here` and makes the directories that are missing. -/
def makeAlong (files : Files) : List String → List String → Files × Bool
  | _, [] => (files, true)
  | here, part :: parts =>
    if part = "" ∨ part = "." then makeAlong files here parts
    else if part = ".." then
      if here.isEmpty then (files, false) else makeAlong files here.dropLast parts
    else
      let (files, ok) := makeFrom here files [part]
      if ok then makeAlong files (here ++ [part]) parts else (files, false)

def makeDirectories (files : Files) (path : String) : Files × Bool :=
  (parts? path).elim (files, false) (makeAlong files [])

def write (files : Files) (path : String) (text : String) : Files × Bool :=
  match files.resolve? path with
  | none | some [] => (files, false)
  | some path =>
    let (files, ok) := files.makeFile path
    if ok then (files.insert path (.file text.toUTF8), true) else (files, false)

def writeAll (files : Files) : List (String × String) → Files × Bool
  | [] => (files, true)
  | (path, text) :: rest =>
    let (files, ok) := files.write path text
    if ok then writeAll files rest else (files, false)

end Files

end ContentSpaces
