import ContentSpaces.Proofs.Patch

/-!
# What an edit changes

An edit is an exchange in the container above its path. It shows on the way to this container and in
it, and nowhere else. A replacement is a removal and an addition at one position, so it fails as the
removal does, and elements keep their places.
-/

namespace ContentSpaces.Patch

variable {root root' root'' value removed : Json} {path token : String} {parent : List String}
  {taken mid put : Option Json}

/-- At the path `put` has come into the place of `taken`, and what lies neither above nor below the
parent is as it was. -/
inductive Edited (path : String) (taken put : Option Json) (root root' : Json) : Prop
  | intro {parent : List String} {token : String} {w w' : Json}
      (hposition : position path = .ok (parent, token)) (hbefore : root.get? parent = some w)
      (hafter : root'.get? parent = some w') (hexchanged : Exchanged token taken put w w')
      (helsewhere : ∀ q, ¬ parent <+: q → ¬ q <+: parent → root'.get? q = root.get? q)

theorem edited_setAt {w w' : Json} (hposition : position path = .ok (parent, token))
    (hw : root.get? parent = some w) (hexchanged : Exchanged token taken put w w') :
    Edited path taken put root (root.setAt parent w') :=
  .intro hposition hw (Json.get?_setAt_self hw w') hexchanged
    fun _ hbelow habove => Json.get?_setAt_of_apart hbelow habove root w'

theorem edited_add (hpath : path ≠ "") (h : add root path value = .ok root') :
    Edited path none (some value) root root' := by
  obtain ⟨parent, token, hposition⟩ := exists_position_of_add hpath h
  obtain ⟨w, w', hw, hadd, rfl⟩ := (add_eq_ok_iff hposition).mp h
  exact edited_setAt hposition hw (exchanged_addChild hadd)

theorem edited_remove (hroot : root.Ordered) (h : remove root path = .ok (removed, root')) :
    Edited path (some removed) none root root' := by
  obtain ⟨parent, token, hposition⟩ := exists_position_of_remove h
  obtain ⟨w, w', hw, hremove, rfl⟩ := (remove_eq_ok_iff hposition).mp h
  exact edited_setAt hposition hw (exchanged_removeChild (hroot.get? hw) hremove)

theorem Edited.trans (h : Edited path taken mid root root')
    (h' : Edited path mid put root' root'') : Edited path taken put root root'' := by
  obtain ⟨hposition, hbefore, hafter, hexchanged, helsewhere⟩ := h
  obtain ⟨hposition', hbefore', hafter', hexchanged', helsewhere'⟩ := h'
  cases hposition.symm.trans hposition'
  cases hafter.symm.trans hbefore'
  exact .intro hposition hbefore hafter' (hexchanged.trans hexchanged')
    fun q hbelow habove => (helsewhere' q hbelow habove).trans (helsewhere q hbelow habove)

/-- What has been removed can be followed by an addition. -/
theorem Edited.exists_add (h : Edited path taken none root root') (value : Json) :
    ∃ root'', add root' path value = .ok root'' := by
  obtain ⟨hposition, -, hafter, hexchanged, -⟩ := h
  obtain ⟨w'', hadd⟩ := hexchanged.exists_addChild path value
  exact ⟨_, (add_eq_ok_iff hposition).mpr ⟨_, w'', hafter, hadd, rfl⟩⟩

theorem replace_eq (hpath : path ≠ "") :
    replace root path value = remove root path >>= fun r => add r.2 path value := by
  have hempty : path.isEmpty = false := by simpa using hpath
  rw [replace, hempty]
  rfl

theorem replace_eq_error_iff (hroot : root.Ordered) (hpath : path ≠ "") (value : Json) (e : Error) :
    replace root path value = .error e ↔ remove root path = .error e := by
  rw [replace_eq hpath]
  cases hremove : remove root path with
  | error e' =>
    show (Except.error e' : Except Error Json) = .error e ↔ _
    simp
  | ok r =>
    obtain ⟨removed, rest⟩ := r
    obtain ⟨root', hadd⟩ := (edited_remove hroot hremove).exists_add value
    show add rest path value = .error e ↔ _
    simp [hadd]

/-- Additions, removals and replacements change one position. A replacement succeeds where a removal
does, and fails in the same way. -/
theorem edits_local (hroot : root.Ordered) (hpath : path ≠ "") (value : Json) :
    (∀ root', add root path value = .ok root' → Edited path none (some value) root root') ∧
      (∀ removed rest, remove root path = .ok (removed, rest) →
        Edited path (some removed) none root rest) ∧
      (∀ root', replace root path value = .ok root' →
        ∃ removed rest, remove root path = .ok (removed, rest) ∧
          Edited path (some removed) (some value) root root') ∧
      ∀ e, replace root path value = .error e ↔ remove root path = .error e := by
  refine ⟨fun root' => edited_add hpath, fun removed rest => edited_remove hroot, ?_,
    replace_eq_error_iff hroot hpath value⟩
  intro root' h
  rw [replace_eq hpath] at h
  obtain ⟨⟨removed, rest⟩, hremove, hadd⟩ := except_bind_eq_ok.mp h
  exact ⟨removed, rest, hremove, (edited_remove hroot hremove).trans (edited_add hpath hadd)⟩

section Trial

def tagged : Json := .object [("id", .string "r"), ("tags", .ofStrings ["a", "b"])]

theorem ordered_tagged : tagged.Ordered :=
  ⟨by decide, trivial, ⟨trivial, trivial, trivial⟩, trivial⟩

theorem tagged_edits_local :
    (∃ root', add tagged "/tags/1" (.string "c") = .ok root' ∧
      Edited "/tags/1" none (some (.string "c")) tagged root') ∧
    (∃ root', remove tagged "/tags/1" = .ok (.string "b", root') ∧
      Edited "/tags/1" (some (.string "b")) none tagged root') ∧
    ∃ root', replace tagged "/tags/1" (.string "c") = .ok root' ∧
      ∃ removed, Edited "/tags/1" (some removed) (some (.string "c")) tagged root' := by
  have hpath : "/tags/1" ≠ "" := by decide
  obtain ⟨hadd, hremove, hreplace, -⟩ := edits_local ordered_tagged hpath (.string "c")
  have hadded : add tagged "/tags/1" (.string "c") = .ok _ := rfl
  have hremoved : remove tagged "/tags/1" = .ok (.string "b", _) := rfl
  have hreplaced : replace tagged "/tags/1" (.string "c") = .ok _ := rfl
  obtain ⟨removed, -, -, hedited⟩ := hreplace _ hreplaced
  exact ⟨⟨_, hadded, hadd _ hadded⟩, ⟨_, hremoved, hremove _ _ hremoved⟩,
    _, hreplaced, removed, hedited⟩

end Trial

end ContentSpaces.Patch
