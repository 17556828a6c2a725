/-!
# Paths of archive entries

An entry name is read as a path with slashes or backslashes between its components. Empty
components and single dots are dropped, two dots take the component before them back. A name that
is absolute or climbs above its start is refused.
-/

namespace ContentSpaces.Archive

abbrev EntryPath := List String

namespace EntryPath

def isSeparator (c : Char) : Bool := c == '/' || c == '\\'

def split (cs : List Char) : List (List Char) := cs.splitOnP isSeparator

/-- Walks over the remaining components; those walked down are kept in reverse. -/
def resolve (walked : List String) : List String → Option EntryPath
  | [] => some walked.reverse
  | part :: parts =>
    if part = "" ∨ part = "." then resolve walked parts
    else if part = ".." then
      match walked with
      | [] => none
      | _ :: walked => resolve walked parts
    else resolve (part :: walked) parts

/-- The path of an entry name; `none` if it leads outside. -/
def ofName? (name : String) : Option EntryPath :=
  let cs := name.toList
  if cs.head?.any isSeparator then none
  else resolve [] ((split cs).map String.ofList)

def text (path : EntryPath) : String := String.intercalate "/" path

def below (directory : String) (path : EntryPath) : String :=
  if directory = "" ∨ directory.endsWith "/" then directory ++ path.text
  else directory ++ "/" ++ path.text

def isDirectoryName (name : String) : Bool := name.toList.getLast?.any isSeparator

/-- What follows the last dot of the last component, unless the dot comes first. -/
def extension? (path : EntryPath) : Option String := do
  let reversed := (← path.getLast?).toList.reverse
  let stem := reversed.dropWhile (· != '.')
  if stem.length ≤ 1 then none
  else some (String.ofList (reversed.takeWhile (· != '.')).reverse)

end EntryPath

end ContentSpaces.Archive
