import ContentSpaces.Files
import ContentSpaces.Store
import ContentSpaces.Wire.Shapes

/-!
# The data directory

Content and cursors outlive a run in two files of a directory. A missing file stands for an empty
table. The cursors are written before the content, each file as a whole.
-/

namespace ContentSpaces

namespace Content

def text (c : Content) : String := (Json.array (c.values.map Resource.toJson)).compact

/-- Reads stored resources; `none` if the text is no list of them. -/
def ofText? (stored : String) : Option Content :=
  (Wire.ofText? (Wire.list Resource.decode) stored).map (fileAll .empty)

end Content

namespace DataDirectory

structure State where
  content : Content
  cursors : Cursors

inductive Item where
  | cursors
  | content
  deriving DecidableEq, Repr

namespace Item

def fileName : Item → String
  | .cursors => "consumers.json"
  | .content => "content.json"

def path (directory : String) (item : Item) : String := directory ++ "/" ++ item.fileName

end Item

def loadContent? : Option Node → Option Content
  | none => some .empty
  | some node => node.text?.bind Content.ofText?

def loadCursors? : Option Node → Option Cursors
  | none => some .empty
  | some node => do
    let (_, cursors) ← Cursors.import? .empty (← node.text?)
    return cursors

/-- Reads back what is kept; `none` if a file is there but cannot be read. -/
def load? (stored : Item → Option Node) : Option State := do
  let content ← loadContent? (stored .content)
  let cursors ← loadCursors? (stored .cursors)
  return ⟨content, cursors⟩

def save (s : State) : List (Item × String) :=
  [(.cursors, s.cursors.exportText), (.content, s.content.text)]

end DataDirectory

end ContentSpaces
