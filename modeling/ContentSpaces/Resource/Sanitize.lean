import ContentSpaces.Json

/-!
# Sanitised documents

Documents from outside lose the fields `custom_fields` and `dataset` of their metadata, and every
related entry names its target by `id` instead of `sigma_id`.
-/

namespace ContentSpaces.Sanitize

def strippedMetadata : List String := ["custom_fields", "dataset"]

def stripMetadata : Json → Json
  | .object fs => .object (strippedMetadata.foldl (fun fs key => Entries.erase key fs) fs)
  | v => v

/-- Renames `sigma_id` in an entry; an `id` it had is overwritten. -/
def renameTarget : Json → Json
  | .object fs =>
    match Entries.get? "sigma_id" fs with
    | some target => .object (Entries.insert "id" target (Entries.erase "sigma_id" fs))
    | none => .object fs
  | v => v

def renameTargets : Json → Json
  | .array entries => .array (entries.map renameTarget)
  | entry => renameTarget entry

def mapField (key : String) (f : Json → Json) (fs : Json.Fields) : Json.Fields :=
  match Entries.get? key fs with
  | some v => Entries.insert key (f v) fs
  | none => fs

def document : Json → Json
  | .object fs => .object (mapField "related" renameTargets (mapField "metadata" stripMetadata fs))
  | v => v

end ContentSpaces.Sanitize
