import ContentSpaces.Proofs.Json.Indented
import ContentSpaces.Proofs.Persistence
import ContentSpaces.Proofs.Wire.Shapes

/-!
# Cursors carried to another store

The exported text of a store holds every cursor. A store that imports it answers for their owners as
the first store does, and for all others as before. An import works through the whole text before it
puts the first cursor, so it has changed nothing when the text turns out to be none.
-/

namespace ContentSpaces

open Wire

namespace Cursor

/-- Both offsets are words of 64 bits. -/
structure Fits (c : Cursor) : Prop where
  localOffset : c.localOffset < 2 ^ 64
  remoteOffset : c.remoteOffset < 2 ^ 64

instance (c : Cursor) : Decidable c.Fits :=
  decidable_of_iff (c.localOffset < 2 ^ 64 ∧ c.remoteOffset < 2 ^ 64)
    ⟨fun h => ⟨h.1, h.2⟩, fun h => ⟨h.localOffset, h.remoteOffset⟩⟩

theorem integral_ofNat {n : Nat} (hn : n < 2 ^ 64) : (Json.ofNat n).Integral := by
  show -2 ^ 63 ≤ (n : Int) ∧ (n : Int) < 2 ^ 64
  omega

theorem Fits.integral_toJson {c : Cursor} (h : c.Fits) : c.toJson.Integral := by
  have hlocal := integral_ofNat h.localOffset
  have hremote := integral_ofNat h.remoteOffset
  exact ⟨trivial, trivial, hlocal, hremote, trivial, trivial⟩

theorem depth_toJson (c : Cursor) : c.toJson.depth = 1 := by
  simp [toJson, Json.depth, Json.depthFields]

end Cursor

namespace Cursors

variable {a b : Cursors}

theorem get?_putAll (b : Cursors) (added : List Cursor) (owner : Consumer) :
    (b.putAll added).get? owner =
      (added.reverse.find? fun c => c.owner = owner).or (b.get? owner) := by
  have hlast := Table.get?_foldl_insert Cursor.owner (fun c => c) added b owner
  rwa [Option.map_id'] at hlast

theorem Owned.get?_putAll_values (h : a.Owned) (b : Cursors) (owner : Consumer) :
    (b.putAll a.values).get? owner = (a.get? owner).or (b.get? owner) := by
  rw [get?_putAll, Table.find?_values h]

theorem length_values (a : Cursors) : a.values.length = a.size := List.length_map ..

/-- The exported text is read as the cursors that it was written for. -/
theorem ofText?_exportText (h : ∀ c ∈ a.values, c.Fits) :
    ofText? (list Cursor.decode) a.exportText = some a.values := by
  have hintegral : (Json.array (a.values.map Cursor.toJson)).Integral :=
    Json.integralItems_iff.mpr (List.forall_mem_map.mpr fun c hc => (h c hc).integral_toJson)
  have hdepth : (Json.array (a.values.map Cursor.toJson)).depth ≤ Json.Tree.maxDepth := by
    have hitems : Json.depthItems (a.values.map Cursor.toJson) ≤ 1 :=
      Json.depthItems_map_le.mpr fun c _ => c.depth_toJson.le
    rw [Json.depth, Json.Tree.maxDepth]
    omega
  have hread : ReadsAs (list Cursor.decode) (.array (a.values.map Cursor.toJson)) a.values :=
    readsAs_list fun c _ => c.readsAs_toJson
  rw [exportText, ofText?_indented hintegral, ofJson?, hread, if_pos hdepth]

theorem import?_exportText (h : ∀ c ∈ a.values, c.Fits) (b : Cursors) :
    b.import? a.exportText = some (a.size, b.putAll a.values) := by
  rw [import?, ofText?_exportText h, ← length_values]
  rfl

/-! ## In place -/

def importing (exported : String) : EStateM Unit Cursors Nat := do
  match ofText? (list Cursor.decode) exported with
  | none => throw ()
  | some added =>
    added.forM fun c => modify (·.put c)
    return added.length

theorem forM_put (added : List Cursor) (b : Cursors) :
    (added.forM fun c => modify (·.put c) : EStateM Unit Cursors PUnit) b =
      .ok ⟨⟩ (b.putAll added) := by
  induction added generalizing b with
  | nil => rfl
  | cons c added ih => exact ih (b.put c)

theorem importing_eq (exported : String) (b : Cursors) :
    importing exported b = match b.import? exported with
      | some (n, merged) => .ok n merged
      | none => .error () b := by
  unfold importing import?
  cases ofText? (list Cursor.decode) exported with
  | none => rfl
  | some added => exact bind_eq_ok_iff.mpr ⟨⟨⟩, b.putAll added, forM_put added b, rfl⟩

theorem eq_of_importing_error {exported : String} {e : Unit}
    (h : importing exported a = .error e b) : b = a := by
  rw [importing_eq] at h
  split at h
  · cases h
  · cases h
    rfl

/-- What one store exports another imports: every cursor of the first, beside its own for other
owners. A failing import changes nothing. -/
theorem importing_exportText (howned : a.Owned) (hfits : ∀ c ∈ a.values, c.Fits) :
    (∀ b, ∃ merged, importing a.exportText b = .ok a.size merged ∧
      ∀ owner, merged.get? owner = (a.get? owner).or (b.get? owner)) ∧
    importing a.exportText .empty = .ok a.size a ∧
    ∀ exported b b', importing exported b = .error () b' → b' = b := by
  have himported (b : Cursors) :
      importing a.exportText b = .ok a.size (b.putAll a.values) := by
    rw [importing_eq, import?_exportText hfits]
  refine ⟨fun b => ⟨_, himported b, howned.get?_putAll_values b⟩, ?_, ?_⟩
  · have hsame : putAll .empty a.values = a := by
      apply Table.ext_get?
      intro owner
      rw [howned.get?_putAll_values, Table.get?_empty, Option.or_none]
    rw [himported, hsame]
  · intro exported b b' h
    exact eq_of_importing_error h

section Trial

def escapedCursor : Cursor :=
  ⟨"a\"b\\", "c\n\x01\x7f😀", 18446744073709551615, 18446744073709551615, "\t\r/ü"⟩

def trialCursor : Cursor := ⟨"c1", "rules", 7, 9, "https://s/1.zip"⟩

/-- A store that imports the two cursors has one for an owner of them, and one of its own. -/
theorem trial_imported :
    Owned (putAll .empty [trialCursor, escapedCursor]) ∧
    (∀ c ∈ Table.values (putAll .empty [trialCursor, escapedCursor]), c.Fits) ∧
    ∃ merged, importing (exportText (putAll .empty [trialCursor, escapedCursor]))
        (putAll .empty [.fresh "rules" "c1", .fresh "rules" "c2"]) = .ok 2 merged ∧
      merged.get? escapedCursor.owner = some escapedCursor ∧
      merged.get? trialCursor.owner = some trialCursor ∧
      merged.get? ⟨"rules", "c2"⟩ = some (.fresh "rules" "c2") := by
  have howned : Owned (putAll .empty [trialCursor, escapedCursor]) :=
    Owned.empty.putAll _
  have hfits : ∀ c ∈ Table.values (putAll .empty [trialCursor, escapedCursor]), c.Fits := by
    decide +kernel
  obtain ⟨merged, himported, hmerged⟩ := (importing_exportText howned hfits).1
    (putAll .empty [.fresh "rules" "c1", .fresh "rules" "c2"])
  refine ⟨howned, hfits, merged, himported, ?_, ?_, ?_⟩
  · rw [hmerged]
    decide +kernel
  · rw [hmerged]
    decide +kernel
  · rw [hmerged]
    decide +kernel

end Trial

end Cursors

end ContentSpaces
