import ContentSpaces.Proofs.Patch.Locality

/-!
# Adding and removing undo each other

What is added at a new place can be removed again, and what is removed can be put back. A dash names
the end of an array, which an addition moves on; the added element is found under the old length.
-/

namespace ContentSpaces

namespace Json.Pointer

variable {path token : String} {parent : List String} {as bs cs : List Char}

theorem split_append (as bs : List Char) : split (as ++ '/' :: bs) = split as ++ split bs := by
  induction as with
  | nil => rfl
  | cons a as ih =>
    by_cases ha : a = '/'
    · simp [split, ha, ih]
    · obtain ⟨token, tokens, htokens⟩ := List.exists_cons_of_ne_nil (split_ne_nil as)
      simp [split, ih, htokens]

theorem split_of_not_mem (h : '/' ∉ cs) : split cs = [cs] := by
  induction cs with
  | nil => rfl
  | cons c cs ih =>
    obtain ⟨hc, hcs⟩ := List.ne_and_not_mem_of_not_mem_cons h
    simp [split, ih hcs, hc.symm]

theorem unescape_of_not_mem (h : '~' ∉ cs) : unescape cs = cs := by
  induction cs with
  | nil => rfl
  | cons c cs ih =>
    obtain ⟨hc, hcs⟩ := List.ne_and_not_mem_of_not_mem_cons h
    simp [unescape, ih hcs, hc.symm]

theorem tokens?_append (h : tokens? path = some parent) (hbs : '/' ∉ bs) :
    tokens? (path ++ String.ofList ('/' :: bs)) =
      some (parent ++ [String.ofList (unescape bs)]) := by
  unfold tokens? at h ⊢
  rw [String.toList_append, String.toList_ofList]
  split at h
  · rename_i hpath
    cases h
    simp [hpath, split_of_not_mem hbs]
  · rename_i cs hpath
    cases h
    simp [hpath, split_append, split_of_not_mem hbs]
  · cases h

theorem exists_last_slash (h : '/' ∈ cs) : ∃ as bs, cs = as ++ '/' :: bs ∧ '/' ∉ bs := by
  obtain ⟨bs, as, hcs, hbs⟩ := List.eq_append_cons_of_mem (List.mem_reverse.mpr h)
  refine ⟨as.reverse, bs.reverse, ?_, by simpa using hbs⟩
  rw [← List.reverse_reverse cs, hcs]
  simp

theorem parentText_eq (hpath : path.toList = as ++ '/' :: bs) (hbs : '/' ∉ bs) :
    parentText path = String.ofList as := by
  have hdrop : (bs.reverse ++ '/' :: as.reverse).dropWhile (· != '/') = '/' :: as.reverse := by
    rw [List.dropWhile_append_of_pos]
    · rfl
    · intro b hb
      have hne : b ≠ '/' := by
        rintro rfl
        exact hbs (List.mem_reverse.mp hb)
      simp [hne]
  have hreverse : path.toList.reverse = bs.reverse ++ '/' :: as.reverse := by
    rw [hpath]
    simp
  rw [parentText, hreverse, hdrop]
  simp

/-- The text before the last slash is the pointer to the parent. -/
theorem tokens?_parentText (h : tokens? path = some (parent ++ [token])) :
    tokens? (parentText path) = some parent := by
  obtain ⟨cs, hpath⟩ : ∃ cs, path.toList = '/' :: cs := by
    unfold tokens? at h
    split at h
    · simp at h
    · exact ⟨_, ‹_›⟩
    · cases h
  obtain ⟨as, bs, hlast, hbs⟩ := exists_last_slash (hpath ▸ List.mem_cons_self : '/' ∈ path.toList)
  obtain ⟨above, habove⟩ : ∃ above, tokens? (String.ofList as) = some above := by
    cases as with
    | nil => exact ⟨[], rfl⟩
    | cons a as =>
      obtain ⟨rfl, -⟩ := List.cons.inj (hpath.symm.trans hlast)
      exact ⟨(split as).map fun token => String.ofList (unescape token), by simp [tokens?]⟩
  have htext : path = String.ofList as ++ String.ofList ('/' :: bs) := by
    rw [← String.ofList_append, ← hlast, String.ofList_toList]
  have hsame := h.symm.trans (htext ▸ tokens?_append habove hbs)
  rw [parentText_eq hlast hbs, habove, (List.append_inj' (Option.some.inj hsame) rfl).1]

end Json.Pointer

namespace Patch

open Json.Pointer (parentText looseIndex?_dash looseIndex?_toString)

variable {root root' rest value removed w w' : Json} {path token : String} {parent : List String}

def atIndex (path : String) (i : Nat) : String :=
  parentText path ++ "/" ++ toString i

theorem position_atIndex (h : position path = .ok (parent, token)) (i : Nat) :
    position (atIndex path i) = .ok (parent, toString i) := by
  have hdigits := Numeral.isDigit_toDigits i
  have hslash : '/' ∉ Nat.toDigits 10 i := fun hmem => by simpa using hdigits _ hmem
  have htilde : '~' ∉ Nat.toDigits 10 i := fun hmem => by simpa using hdigits _ hmem
  have hparent := Json.Pointer.tokens?_parentText (position_eq_ok_iff.mp h)
  have htext : atIndex path i = parentText path ++ String.ofList ('/' :: Nat.toDigits 10 i) := by
    simp [atIndex, ← String.toList_inj]
  rw [position_eq_ok_iff, htext, Json.Pointer.tokens?_append hparent hslash,
    Json.Pointer.unescape_of_not_mem htilde, Nat.toString_eq_ofList_toDigits]

/-- Where a value stands once it is added: a dash has become the old length of the array. -/
def addedPath (root : Json) (path : String) : String :=
  match position path with
  | .error _ => path
  | .ok (parent, token) =>
    match root.get? parent with
    | some (.array xs) => if token = "-" then atIndex path xs.length else path
    | _ => path

/-- An addition at the path makes a new place: a key that the object has not got, or an element. The
end of an array has an index if the length is a word, as it is for every array that fits into
memory. -/
inductive Inserts (root : Json) (path : String) : Prop
  | key {parent : List String} {token : String} {fs : Json.Fields}
      (hposition : position path = .ok (parent, token))
      (hparent : root.get? parent = some (.object fs)) (hnew : Entries.get? token fs = none)
  | element {parent : List String} {token : String} {xs : List Json}
      (hposition : position path = .ok (parent, token))
      (hparent : root.get? parent = some (.array xs)) (hcount : token = "-" → xs.length < 2 ^ 64)

theorem Exchanged.ne_array {taken put : Option Json} {fs : Json.Fields}
    (h : Exchanged token taken put (.object fs) w) (xs : List Json) : w ≠ .array xs := by
  cases h
  nofun

theorem remove_setAt (hroot : root.Ordered) (hposition : position path = .ok (parent, token))
    (hw : root.get? parent = some w) (hw' : w'.Ordered)
    (hexchanged : Exchanged token none (some value) w w')
    (hend : token = "-" → ∀ xs, w' ≠ .array xs)
    (hnew : ∀ fs, w = .object fs → Entries.get? token fs = none) :
    remove (root.setAt parent w') path = .ok (value, root) := by
  obtain ⟨w'', hremove⟩ := hexchanged.exists_removeChild hend path
  have hback : Exchanged token (some value) none w' w'' := exchanged_removeChild hw' hremove
  have hsame : w'' = w := (hexchanged.trans hback).eq_self (hroot.get? hw)
    (ordered_removeChild hw' hremove).2 hnew
  refine (remove_eq_ok_iff hposition).mpr ⟨w', w'', Json.get?_setAt_self hw w', hremove, ?_⟩
  rw [hsame, hroot.setAt_setAt_eq_self hw]

theorem remove_of_add (hroot : root.Ordered) (hvalue : value.Ordered) (hinserts : Inserts root path)
    (h : add root path value = .ok root') :
    remove root' (addedPath root path) = .ok (value, root) := by
  cases hinserts with
  | key hposition hparent hnew =>
    obtain ⟨w, w', hw, hadd, rfl⟩ := (add_eq_ok_iff hposition).mp h
    cases hparent.symm.trans hw
    have hexchanged := exchanged_addChild hadd
    have hpath : addedPath root path = path := by simp [addedPath, hposition, hparent]
    rw [hpath]
    refine remove_setAt hroot hposition hw (ordered_addChild hvalue (hroot.get? hw) hadd) hexchanged
      (fun _ => hexchanged.ne_array) ?_
    intro fs hfs
    cases hfs
    exact hnew
  | @element parent token xs hposition hparent hcount =>
    obtain ⟨w, w', hw, hadd, rfl⟩ := (add_eq_ok_iff hposition).mp h
    cases hparent.symm.trans hw
    have hordered := ordered_addChild hvalue (hroot.get? hw) hadd
    have hnew (key : String) (fs : Json.Fields) (hfs : Json.array xs = .object fs) :
        Entries.get? key fs = none := by cases hfs
    by_cases hdash : token = "-"
    -- The addition has moved the end, so the removal is one at the index that the end had before.
    · have hpath : addedPath root path = atIndex path xs.length := by
        simp [addedPath, hposition, hparent, hdash]
      have hindex := looseIndex?_toString (hcount hdash)
      have happended : w' = .array (xs ++ [value]) := by
        simp only [addChild, hdash, if_true] at hadd
        cases hadd
        rfl
      have hxs : xs = xs ++ ((none : Option Json).toList ++ []) := by simp
      have hexchanged : Exchanged (toString xs.length) none (some value) (.array xs) w' :=
        happended ▸ .element (.inl hindex) hxs rfl
      rw [hpath]
      refine remove_setAt hroot (position_atIndex hposition _) hw hordered hexchanged ?_ (hnew _)
      intro hend
      rw [hend, looseIndex?_dash] at hindex
      cases hindex
    · have hpath : addedPath root path = path := by simp [addedPath, hposition, hparent, hdash]
      rw [hpath]
      exact remove_setAt hroot hposition hw hordered (exchanged_addChild hadd)
        (fun hend => absurd hend hdash) (hnew token)

theorem add_of_remove (hroot : root.Ordered) (h : remove root path = .ok (removed, rest)) :
    add rest path removed = .ok root := by
  obtain ⟨parent, token, hposition⟩ := exists_position_of_remove h
  obtain ⟨w, w', hw, hremove, rfl⟩ := (remove_eq_ok_iff hposition).mp h
  obtain ⟨hremoved, hw'⟩ := ordered_removeChild (hroot.get? hw) hremove
  have hexchanged := exchanged_removeChild (hroot.get? hw) hremove
  obtain ⟨w'', hadd⟩ := hexchanged.exists_addChild path removed
  have hsame : w'' = w := by
    refine (hexchanged.trans (exchanged_addChild hadd)).eq_self (hroot.get? hw)
      (ordered_addChild hremoved hw' hadd) fun fs hfs => ?_
    subst hfs
    cases hexchanged with
    | field htaken _ _ => exact htaken removed rfl
  refine (add_eq_ok_iff hposition).mpr ⟨w', w'', Json.get?_setAt_self hw w', hadd, ?_⟩
  rw [hsame, hroot.setAt_setAt_eq_self hw]

/-- An addition that makes a new place is undone by a removal, and a removal by an addition. -/
theorem add_remove_inverse (hroot : root.Ordered) (hvalue : value.Ordered) (path : String) :
    (∀ root', Inserts root path → add root path value = .ok root' →
      remove root' (addedPath root path) = .ok (value, root)) ∧
    ∀ removed rest, remove root path = .ok (removed, rest) → add rest path removed = .ok root :=
  ⟨fun _ => remove_of_add hroot hvalue, fun _ _ => add_of_remove hroot⟩

/-- A third tag is appended and taken from its place; the first tag is taken and put back. -/
theorem tagged_add_remove :
    (∃ root', add tagged "/tags/-" (.string "c") = .ok root' ∧
      remove root' "/tags/2" = .ok (.string "c", tagged)) ∧
    ∃ rest, remove tagged "/tags/0" = .ok (.string "a", rest) ∧
      add rest "/tags/0" (.string "a") = .ok tagged := by
  have hvalue : (Json.string "c").Ordered := trivial
  have hadded : add tagged "/tags/-" (.string "c") = .ok _ := rfl
  have hposition : position "/tags/-" = .ok (["tags"], "-") := rfl
  have hinserts : Inserts tagged "/tags/-" := .element hposition rfl fun _ => by decide
  have hremoved : remove tagged "/tags/0" = .ok (.string "a", _) := rfl
  constructor
  · exact ⟨_, hadded, (add_remove_inverse ordered_tagged hvalue "/tags/-").1 _ hinserts hadded⟩
  · exact ⟨_, hremoved, (add_remove_inverse ordered_tagged hvalue "/tags/0").2 _ _ hremoved⟩

end Patch

end ContentSpaces
