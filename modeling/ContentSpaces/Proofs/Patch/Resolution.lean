import ContentSpaces.Proofs.Patch.Locality

/-!
# Which paths edits and lookups resolve

Edits read the last token of a path more freely than lookups do: the index of an element may have
leading zeros or a plus sign. Apart from such a token, both find the same value.
-/

namespace ContentSpaces.Patch

open Json.Pointer (index? index?_eq_some_iff looseIndex? looseIndex?_of_index? lt_of_looseIndex?)

variable {root value removed w : Json} {path token : String} {parent : List String}

def found? (token : String) : Json → Option Json
  | .object fs => Entries.get? token fs
  | .array xs => (looseIndex? token).bind fun i => xs[i]?
  | _ => none

theorem exists_removeChild_iff (path : String) :
    (∃ w', removeChild path token w = .ok (removed, w')) ↔ found? token w = some removed := by
  cases w with
  | object fs =>
    simp only [removeChild, found?]
    cases Entries.get? token fs <;> simp
  | array xs =>
    simp only [removeChild, found?]
    cases looseIndex? token with
    | none => simp
    | some i =>
      simp only [Option.bind_some]
      cases xs[i]? <;> simp
  | _ => simp [removeChild, found?]

theorem exists_remove_iff (hposition : position path = .ok (parent, token)) :
    (∃ rest, remove root path = .ok (removed, rest)) ↔
      (root.get? parent).bind (found? token) = some removed := by
  rw [Option.bind_eq_some_iff]
  constructor
  · rintro ⟨rest, h⟩
    obtain ⟨w, w', hw, hremove, -⟩ := (remove_eq_ok_iff hposition).mp h
    exact ⟨w, hw, (exists_removeChild_iff path).mp ⟨w', hremove⟩⟩
  · rintro ⟨w, hw, hfound⟩
    obtain ⟨w', hremove⟩ := (exists_removeChild_iff path).mpr hfound
    exact ⟨_, (remove_eq_ok_iff hposition).mpr ⟨w, w', hw, hremove, rfl⟩⟩

theorem lookup_eq_ok_iff (hposition : position path = .ok (parent, token)) :
    lookup root path = .ok value ↔
      (root.get? parent).bind (fun w => w.child? token) = some value := by
  simp only [lookup, position_eq_ok_iff.mp hposition, ← Json.get?_concat]
  cases root.get? (parent ++ [token]) <;> simp

theorem exists_position_of_lookup (hpath : path ≠ "") (h : lookup root path = .ok value) :
    ∃ parent token, position path = .ok (parent, token) := by
  unfold lookup at h
  split at h
  · cases h
  · rename_i tokens htokens
    obtain rfl | ⟨parent, token, rfl⟩ := tokens.eq_nil_or_concat
    · exact absurd htokens (Json.Pointer.tokens?_ne_nil hpath)
    · rw [List.concat_eq_append] at htokens
      exact ⟨parent, token, position_eq_ok_iff.mpr htokens⟩

theorem found?_of_child? (h : w.child? token = some value) : found? token w = some value := by
  cases w with
  | object fs => exact h
  | array xs =>
    obtain ⟨i, hi, hvalue⟩ := Option.bind_eq_some_iff.mp h
    simp [found?, looseIndex?_of_index? hi, hvalue]
  | _ => cases h

theorem exists_remove_of_lookup (hpath : path ≠ "") (h : lookup root path = .ok value) :
    ∃ rest, remove root path = .ok (value, rest) := by
  obtain ⟨parent, token, hposition⟩ := exists_position_of_lookup hpath h
  obtain ⟨w, hw, hchild⟩ := Option.bind_eq_some_iff.mp ((lookup_eq_ok_iff hposition).mp h)
  exact (exists_remove_iff hposition).mpr
    (Option.bind_eq_some_iff.mpr ⟨w, hw, found?_of_child? hchild⟩)

/-- The path ends with the index of an element that is there, but not in its canonical spelling. -/
inductive Respelled (root : Json) (path : String) : Prop
  | intro {parent : List String} {token : String} {xs : List Json} {i : Nat}
      (hposition : position path = .ok (parent, token))
      (hparent : root.get? parent = some (.array xs)) (hindex : looseIndex? token = some i)
      (hinside : i < xs.length) (hspelling : token ≠ toString i)

/-- What is removed, replaced or moved from the path is what a lookup finds there, and if a lookup
finds nothing, these fail. -/
structure Alike (root : Json) (path : String) : Prop where
  removal : ∀ v, (∃ rest, remove root path = .ok (v, rest)) ↔ lookup root path = .ok v
  replacement : ∀ value,
    (∃ root', replace root path value = .ok root') ↔ ∃ v, lookup root path = .ok v
  source : ∀ target root', (Operation.withSource .move path target).apply root = .ok root' ↔
    ∃ v rest, lookup root path = .ok v ∧ remove root path = .ok (v, rest) ∧
      add rest target v = .ok root'

theorem lookup_of_remove (hspelled : ¬ Respelled root path) {rest : Json}
    (h : remove root path = .ok (removed, rest)) : lookup root path = .ok removed := by
  obtain ⟨parent, token, hposition⟩ := exists_position_of_remove h
  obtain ⟨w, hw, hfound⟩ := Option.bind_eq_some_iff.mp ((exists_remove_iff hposition).mp ⟨rest, h⟩)
  refine (lookup_eq_ok_iff hposition).mpr (Option.bind_eq_some_iff.mpr ⟨w, hw, ?_⟩)
  cases w with
  | object fs => exact hfound
  | array xs =>
    obtain ⟨i, hi, hremoved⟩ := Option.bind_eq_some_iff.mp hfound
    have hinside : i < xs.length := (List.getElem?_eq_some_iff.mp hremoved).1
    have htoken : token = toString i :=
      Classical.byContradiction fun hne => hspelled (.intro hposition hw hi hinside hne)
    have hindex : index? token = some i := index?_eq_some_iff.mpr ⟨htoken, lt_of_looseIndex? hi⟩
    simp [Json.child?, hindex, hremoved]
  | _ => cases hfound

theorem Alike.not_respelled (h : Alike root path) : ¬ Respelled root path := by
  rintro ⟨hposition, hparent, hindex, hinside, hspelling⟩
  rename_i parent token xs i
  have hremove : ∃ rest, remove root path = .ok (xs[i], rest) := by
    refine (exists_remove_iff hposition).mpr ?_
    simp [hparent, found?, hindex, hinside]
  have hlookup := (lookup_eq_ok_iff hposition).mp ((h.removal xs[i]).mp hremove)
  rw [hparent, Option.bind_some] at hlookup
  obtain ⟨j, hj, -⟩ := Option.bind_eq_some_iff.mp hlookup
  have hsame : i = j := Option.some.inj (hindex.symm.trans (looseIndex?_of_index? hj))
  exact hspelling (hsame ▸ (index?_eq_some_iff.mp hj).1)

theorem exists_replace_iff (hroot : root.Ordered) (hpath : path ≠ "") (value : Json) :
    (∃ root', replace root path value = .ok root') ↔
      ∃ removed rest, remove root path = .ok (removed, rest) := by
  have herror := replace_eq_error_iff hroot hpath value
  cases hreplace : replace root path value with
  | error e => simp [(herror e).mp hreplace]
  | ok root' =>
    cases hremove : remove root path with
    | error e =>
      rw [(herror e).mpr hremove] at hreplace
      cases hreplace
    | ok r => exact ⟨fun _ => ⟨r.1, r.2, rfl⟩, fun _ => ⟨root', rfl⟩⟩

/-- Whatever a lookup finds can be removed, and edits resolve a path as lookups do exactly if it
does not end with a respelled index. -/
theorem alike_iff (hroot : root.Ordered) (hpath : path ≠ "") :
    (∀ v, lookup root path = .ok v → ∃ rest, remove root path = .ok (v, rest)) ∧
      (Alike root path ↔ ¬ Respelled root path) := by
  refine ⟨fun v => exists_remove_of_lookup hpath, Alike.not_respelled, fun hspelled => ?_⟩
  have hremoval (v : Json) :
      (∃ rest, remove root path = .ok (v, rest)) ↔ lookup root path = .ok v := by
    refine ⟨?_, exists_remove_of_lookup hpath⟩
    rintro ⟨rest, h⟩
    exact lookup_of_remove hspelled h
  constructor
  · exact hremoval
  · intro value
    rw [exists_replace_iff hroot hpath]
    exact exists_congr hremoval
  · intro target root'
    have hmove : (Operation.withSource .move path target).apply root =
        remove root path >>= fun r => add r.2 target r.1 := rfl
    rw [hmove, except_bind_eq_ok]
    constructor
    · rintro ⟨⟨v, rest⟩, hremove, hadd⟩
      exact ⟨v, rest, (hremoval v).mp ⟨rest, hremove⟩, hremove, hadd⟩
    · rintro ⟨v, rest, -, hremove, hadd⟩
      exact ⟨(v, rest), hremove, hadd⟩

theorem tagged_alike : Alike tagged "/tags/1" := by
  refine ((alike_iff ordered_tagged (by decide)).2).mpr ?_
  rintro ⟨hposition, -, hindex, -, hspelling⟩
  have hpath : position "/tags/1" = .ok (["tags"], "1") := rfl
  cases hpath.symm.trans hposition
  have hone : looseIndex? "1" = some 1 := by decide
  cases hone.symm.trans hindex
  exact hspelling rfl

/-- A leading zero is passed over by a removal, but not by a lookup. -/
theorem leadingZero_not_alike :
    (∃ rest, remove tagged "/tags/01" = .ok (.string "b", rest)) ∧
      lookup tagged "/tags/01" = .error (.pathNotFound "/tags/01") ∧ ¬ Alike tagged "/tags/01" := by
  have hremove : ∃ rest, remove tagged "/tags/01" = .ok (.string "b", rest) := ⟨_, rfl⟩
  have hlookup : lookup tagged "/tags/01" = .error (.pathNotFound "/tags/01") := rfl
  refine ⟨hremove, hlookup, fun halike => ?_⟩
  cases hlookup.symm.trans ((halike.removal _).mp hremove)

end ContentSpaces.Patch
