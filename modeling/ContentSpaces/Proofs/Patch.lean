import ContentSpaces.Proofs.Json.Pointer

/-!
# Exchanging what stands at a position

An addition puts something where nothing stood and a removal takes something away; in an array the
elements behind move accordingly. Exchanges at one position can be joined, so a replacement is one
exchange, and what is taken and put back leaves the container as it was.
-/

namespace ContentSpaces.Patch

open Json.Pointer (looseIndex? looseIndex?_dash)

variable {root root' value removed w w' w'' : Json} {path token : String} {parent : List String}
  {taken mid put : Option Json}

theorem position_eq_ok_iff : position path = .ok (parent, token) ↔
    Json.Pointer.tokens? path = some (parent ++ [token]) := by
  unfold position
  cases Json.Pointer.tokens? path with
  | none => simp
  | some tokens =>
    obtain rfl | ⟨tokens, last, rfl⟩ := tokens.eq_nil_or_concat
    · simp
    · simp

theorem ne_empty_of_position (h : position path = .ok (parent, token)) : path ≠ "" := by
  rintro rfl
  cases h

theorem add_eq_ok_iff (hposition : position path = .ok (parent, token)) :
    add root path value = .ok root' ↔ ∃ w w', root.get? parent = some w ∧
      addChild path token value w = .ok ((), w') ∧ root' = root.setAt parent w' := by
  have hpath : path.isEmpty = false := by simpa using ne_empty_of_position hposition
  have hadd : add root path value =
      (root.editAt (.pathNotFound path) (addChild path token value) parent >>=
        fun r => .ok r.2) := by
    simp only [add, hpath, hposition]
    rfl
  rw [hadd]
  constructor
  · intro h
    obtain ⟨⟨u, edited⟩, hedited, h⟩ := except_bind_eq_ok.mp h
    cases h
    exact Json.editAt_eq_ok_iff.mp hedited
  · intro h
    exact except_bind_eq_ok.mpr ⟨((), root'), Json.editAt_eq_ok_iff.mpr h, rfl⟩

theorem remove_eq_ok_iff (hposition : position path = .ok (parent, token)) :
    remove root path = .ok (removed, root') ↔ ∃ w w', root.get? parent = some w ∧
      removeChild path token w = .ok (removed, w') ∧ root' = root.setAt parent w' := by
  unfold remove
  rw [hposition]
  exact Json.editAt_eq_ok_iff

theorem exists_position_of_add (hpath : path ≠ "") (h : add root path value = .ok root') :
    ∃ parent token, position path = .ok (parent, token) := by
  have hempty : path.isEmpty = false := by simpa using hpath
  unfold add at h
  rw [hempty] at h
  obtain ⟨⟨parent, token⟩, hposition, -⟩ := except_bind_eq_ok.mp h
  exact ⟨parent, token, hposition⟩

theorem exists_position_of_remove (h : remove root path = .ok (removed, root')) :
    ∃ parent token, position path = .ok (parent, token) := by
  obtain ⟨⟨parent, token⟩, hposition, -⟩ := except_bind_eq_ok.mp h
  exact ⟨parent, token, hposition⟩

/-- In a container `put` has come into the place of `taken`, and all else has stayed. Only in an
object something may stand already where nothing is taken. -/
inductive Exchanged (token : String) (taken put : Option Json) : Json → Json → Prop
  | field {fs fs' : Json.Fields} (htaken : ∀ v ∈ taken, Entries.get? token fs = some v)
      (hput : Entries.get? token fs' = put)
      (hsiblings : ∀ key, key ≠ token → Entries.get? key fs' = Entries.get? key fs) :
      Exchanged token taken put (.object fs) (.object fs')
  | element {before after xs ys : List Json}
      (hindex : looseIndex? token = some before.length ∨
        token = "-" ∧ taken = none ∧ after = [])
      (hxs : xs = before ++ (taken.toList ++ after)) (hys : ys = before ++ (put.toList ++ after)) :
      Exchanged token taken put (.array xs) (.array ys)

theorem exchanged_addChild (h : addChild path token value w = .ok ((), w')) :
    Exchanged token none (some value) w w' := by
  cases w with
  | object fs =>
    cases h
    exact .field nofun (Entries.get?_insert_self token value fs)
      fun key hkey => Entries.get?_insert_of_ne hkey value fs
  | array xs =>
    simp only [addChild] at h
    split at h
    · rename_i hdash
      have hxs : xs = xs ++ ((none : Option Json).toList ++ []) := by simp
      cases h
      exact .element (.inr ⟨hdash, rfl, rfl⟩) hxs rfl
    · split at h
      · cases h
      · rename_i i hi
        split at h
        · cases h
        · rename_i hroom
          obtain ⟨before, after, hxs, hlength, hinsert⟩ :=
            List.exists_of_modifyTailIdx (List.cons value) (Nat.le_of_not_lt hroom)
          cases h
          exact .element (.inl (hlength ▸ hi)) hxs hinsert
  | _ => cases h

theorem exchanged_removeChild (hw : w.Ordered)
    (h : removeChild path token w = .ok (removed, w')) :
    Exchanged token (some removed) none w w' := by
  cases w with
  | object fs =>
    simp only [removeChild] at h
    split at h
    · cases h
    · rename_i v hv
      cases h
      refine .field (fun _ hmem => hmem ▸ hv) ?_ fun key hkey => Entries.get?_erase_of_ne hkey fs
      exact Entries.get?_erase_self (Json.ordered_object_iff.mp hw).1 token
  | array xs =>
    simp only [removeChild] at h
    split at h
    · cases h
    · rename_i i hi
      split at h
      · cases h
      · rename_i v hv
        obtain ⟨hlt, rfl⟩ := List.getElem?_eq_some_iff.mp hv
        have hlength : (xs.take i).length = i := by simp [Nat.le_of_lt hlt]
        have hxs : xs = xs.take i ++ ((some xs[i]).toList ++ xs.drop (i + 1)) := by simp
        cases h
        exact .element (.inl (hlength.symm ▸ hi)) hxs (List.eraseIdx_eq_take_drop_succ xs i)
  | _ => cases h

/-- Where something has been put, it can be taken, unless the token names the end of an array. -/
theorem Exchanged.exists_removeChild (h : Exchanged token taken (some value) w w')
    (hend : token = "-" → ∀ xs, w' ≠ .array xs) (path : String) :
    ∃ w'', removeChild path token w' = .ok (value, w'') := by
  cases h with
  | field _ hput _ =>
    simp only [removeChild, hput]
    exact ⟨_, rfl⟩
  | @element before after xs ys hindex _ hys =>
    obtain hindex | ⟨hdash, -⟩ := hindex
    · have hfound : ys[before.length]? = some value := by simp [hys]
      simp only [removeChild, hindex, hfound]
      exact ⟨_, rfl⟩
    · exact absurd rfl (hend hdash ys)

theorem Exchanged.exists_addChild (h : Exchanged token taken none w w') (path : String)
    (value : Json) : ∃ w'', addChild path token value w' = .ok ((), w'') := by
  cases h with
  | field _ _ _ => exact ⟨_, rfl⟩
  | @element before after xs ys hindex _ hys =>
    by_cases hdash : token = "-"
    · simp only [addChild, hdash, if_true]
      exact ⟨_, rfl⟩
    · obtain hindex | ⟨hend, -⟩ := hindex
      · have hroom : ¬ ys.length < before.length := by simp [hys]
        simp only [addChild, if_neg hdash, hindex, if_neg hroom]
        exact ⟨_, rfl⟩
      · exact absurd hend hdash

/-- Two exchanges at one position are one. -/
theorem Exchanged.trans (h : Exchanged token taken mid w w') (h' : Exchanged token mid put w' w'') :
    Exchanged token taken put w w'' := by
  cases h with
  | field htaken _ hsiblings =>
    cases h' with
    | field _ hput hsiblings' =>
      exact .field htaken hput fun key hkey => (hsiblings' key hkey).trans (hsiblings key hkey)
  | @element before after xs ys hindex hxs hys =>
    cases h' with
    | @element before' after' _ zs hindex' hys' hzs =>
      have hjoint : before ++ (mid.toList ++ after) = before' ++ (mid.toList ++ after') :=
        hys.symm.trans hys'
      -- A token that is the name of the end is no index, so both exchanges name the place alike.
      have hsame : before = before' ∧ after = after' := by
        rcases hindex with hindex | ⟨hdash, -, rfl⟩
        · rcases hindex' with hindex' | ⟨hdash, -⟩
          · have hlength := Option.some.inj (hindex.symm.trans hindex')
            obtain ⟨hbefore, hrest⟩ := List.append_inj hjoint hlength
            exact ⟨hbefore, List.append_cancel_left hrest⟩
          · rw [hdash, looseIndex?_dash] at hindex
            cases hindex
        · rcases hindex' with hindex' | ⟨-, hmid, rfl⟩
          · rw [hdash, looseIndex?_dash] at hindex'
            cases hindex'
          · simpa [hmid] using hjoint
      obtain ⟨rfl, rfl⟩ := hsame
      exact .element hindex hxs hzs

/-- What is taken and put back leaves a container as it was. -/
theorem Exchanged.eq_self (h : Exchanged token taken taken w w') (hw : w.Ordered) (hw' : w'.Ordered)
    (hfield : ∀ fs, w = .object fs → Entries.get? token fs = taken) : w' = w := by
  cases h with
  | @field fs fs' _ hput hsiblings =>
    have hascending := (Json.ordered_object_iff.mp hw).1
    have hascending' := (Json.ordered_object_iff.mp hw').1
    refine congrArg Json.object (Entries.eq_of_get?_eq hascending' hascending fun key => ?_)
    by_cases hkey : key = token
    · rw [hkey, hput, hfield fs rfl]
    · exact hsiblings key hkey
  | element _ hxs hys => rw [hxs, hys]

end ContentSpaces.Patch
