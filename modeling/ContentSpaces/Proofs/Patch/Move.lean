import ContentSpaces.Proofs.Patch.Locality

/-!
# Moves below the moved place

A move takes its value away before it looks for its target, so a target below the place of the value
is gone with it. Only an array closes the gap: the element behind slides into the place, and the path
leads on into that element.
-/

namespace ContentSpaces

namespace Json

variable {v c : Json} {p : List String}

theorem setAt_append (h : v.get? p = some c) (q : List String) (w : Json) :
    v.setAt (p ++ q) w = v.setAt p (c.setAt q w) := by
  induction p generalizing v with
  | nil =>
    cases h
    rfl
  | cons token p ih =>
    obtain ⟨d, hd, hc⟩ := Option.bind_eq_some_iff.mp h
    rw [List.cons_append, setAt_of_child? hd, setAt_of_child? hd, ih hc]

theorem get?_setAt_append (h : v.get? p = some c) (w : Json) (q : List String) :
    (v.setAt p w).get? (p ++ q) = w.get? q := by
  rw [get?_append, get?_setAt_self h, Option.bind_some]

theorem setAt_setAt_append (h : v.get? p = some c) (w : Json) (q : List String) (u : Json) :
    (v.setAt p w).setAt (p ++ q) u = v.setAt p (w.setAt q u) := by
  rw [setAt_append (get?_setAt_self h w), setAt_setAt]

theorem child?_array_append {token : String} {before after : List Json} {next : Json}
    (h : Pointer.index? token = some before.length) :
    (array (before ++ next :: after)).child? token = some next := by
  simp [child?, h]

theorem setChild_array_append {token : String} {before after : List Json} {next : Json}
    (h : Pointer.index? token = some before.length) (w : Json) :
    (array (before ++ next :: after)).setChild token w = .array (before ++ w :: after) := by
  simp [setChild, h]

end Json

namespace Patch

open Json.Pointer (index? looseIndex? looseIndex?_of_index?)

variable {root root' removed next w w' : Json} {path source token : String}
  {moved below : List String} {op : Operation}

theorem removeChild_array_append {before after : List Json} (path : String)
    (h : looseIndex? token = some before.length) :
    removeChild path token (.array (before ++ removed :: after)) =
      .ok (removed, .array (before ++ after)) := by
  simp [removeChild, h, List.eraseIdx_append_of_length_le]

/-- Where a removal has been made, a token leads on only to the element that has followed. -/
theorem child?_of_removeChild (hw : w.Ordered) (h : removeChild path token w = .ok (removed, w'))
    (hnext : w'.child? token = some next) : ∃ before after, index? token = some before.length ∧
      w = .array (before ++ removed :: next :: after) ∧ w' = .array (before ++ next :: after) := by
  cases exchanged_removeChild hw h with
  | @field fs fs' _ hput _ =>
    have hgone : (Json.object fs').child? token = none := hput
    cases hgone.symm.trans hnext
  | @element before after xs ys hindex hxs hys =>
    obtain ⟨i, hi, hfound⟩ := Option.bind_eq_some_iff.mp hnext
    have hplace : i = before.length := by
      obtain hloose | ⟨-, hnone, -⟩ := hindex
      · exact Option.some.inj ((looseIndex?_of_index? hi).symm.trans hloose)
      · cases hnone
    subst hplace
    have hafter : after.head? = some next := by
      rw [hys, List.getElem?_append_right (Nat.le_refl _), Nat.sub_self] at hfound
      exact List.head?_eq_getElem?.trans hfound
    obtain ⟨rest, rfl⟩ := List.head?_eq_some_iff.mp hafter
    exact ⟨before, rest, hi, congrArg Json.array hxs, congrArg Json.array hys⟩

/-- The moved value stood in an array before another element; this one has slid into its place, and
the value has been added to it at the rest of the path. -/
inductive Overtaken (path : String) (moved below : List String) (root root' : Json) : Prop
  | intro {parent mid : List String} {token last : String} {before after : List Json}
      {value next w w' : Json} (hmoved : moved = parent ++ [token]) (hbelow : below = mid ++ [last])
      (hindex : index? token = some before.length)
      (hparent : root.get? parent = some (.array (before ++ value :: next :: after)))
      (hinside : next.get? mid = some w) (hadd : addChild path last value w = .ok ((), w'))
      (hroot' : root' = root.setAt parent (.array (before ++ next.setAt mid w' :: after)))

theorem move_eq_ok_iff (hverb : op.verb = .move) (hsource : op.source = some source) :
    op.apply root = .ok root' ↔
      ∃ value rest, remove root source = .ok (value, rest) ∧ add rest op.path value = .ok root' := by
  have hmove : op.apply root = remove root source >>= fun r => add r.2 op.path r.1 := by
    simp only [Operation.apply, hverb, Operation.requiredSource, hsource]
    rfl
  rw [hmove, except_bind_eq_ok]
  exact Prod.exists

/-- A value is not moved into itself: a move whose target lies below its source fails, unless the next
element of an array comes into the place of the value and can take it. -/
theorem move_below_eq_ok_iff (hroot : root.Ordered) (hverb : op.verb = .move)
    (hsource : op.source = some source) (hmoved : Json.Pointer.tokens? source = some moved)
    (hpath : Json.Pointer.tokens? op.path = some (moved ++ below)) (hbelow : below ≠ []) :
    op.apply root = .ok root' ↔ Overtaken op.path moved below root root' := by
  rw [move_eq_ok_iff hverb hsource]
  have htarget {parent mid : List String} {token last : String} (hparent : moved = parent ++ [token])
      (hmid : below = mid ++ [last]) :
      position source = .ok (parent, token) ∧
        position op.path = .ok (parent ++ token :: mid, last) := by
    refine ⟨position_eq_ok_iff.mpr (hparent ▸ hmoved), position_eq_ok_iff.mpr ?_⟩
    rw [hpath, hparent, hmid]
    simp
  constructor
  · rintro ⟨value, rest, hremove, hadd⟩
    obtain ⟨parent, token, hposition⟩ := exists_position_of_remove hremove
    have hparent : moved = parent ++ [token] :=
      Option.some.inj (hmoved.symm.trans (position_eq_ok_iff.mp hposition))
    obtain ⟨mid, last, hmid⟩ := below.eq_nil_or_concat.resolve_left hbelow
    rw [List.concat_eq_append] at hmid
    obtain ⟨hfrom, hto⟩ := htarget hparent hmid
    obtain ⟨w, w', hw, hremoved, rfl⟩ := (remove_eq_ok_iff hfrom).mp hremove
    obtain ⟨u, u', hu, hadded, rfl⟩ := (add_eq_ok_iff hto).mp hadd
    rw [Json.get?_setAt_append hw] at hu
    obtain ⟨next, hnext, hinside⟩ := Option.bind_eq_some_iff.mp hu
    obtain ⟨before, after, hindex, rfl, rfl⟩ := child?_of_removeChild (hroot.get? hw) hremoved hnext
    refine .intro hparent hmid hindex hw hinside hadded ?_
    rw [Json.setAt_setAt_append hw, Json.setAt_of_child? hnext, Json.setChild_array_append hindex]
  · rintro ⟨hparent, hmid, hindex, hw, hinside, hadded, hroot'⟩
    rename_i parent mid token last before after value next u u'
    obtain ⟨hfrom, hto⟩ := htarget hparent hmid
    have hnext : (Json.array (before ++ next :: after)).child? token = some next :=
      Json.child?_array_append hindex
    have hremoved : removeChild source token (.array (before ++ value :: next :: after)) =
        .ok (value, .array (before ++ next :: after)) :=
      removeChild_array_append source (looseIndex?_of_index? hindex)
    refine ⟨value, _, (remove_eq_ok_iff hfrom).mpr ⟨_, _, hw, hremoved, rfl⟩, ?_⟩
    refine (add_eq_ok_iff hto).mpr ⟨u, u', ?_, hadded, ?_⟩
    · rw [Json.get?_setAt_append hw, Json.get?, hnext]
      exact hinside
    · rw [hroot', Json.setAt_setAt_append hw, Json.setAt_of_child? hnext,
        Json.setChild_array_append hindex]

section Trial

def queued : Json :=
  .object [("steps", .array [.object [("id", .string "a")], .object [("id", .string "b")]])]

theorem ordered_queued : queued.Ordered :=
  ⟨by decide, ⟨⟨⟨by decide, trivial, trivial⟩, ⟨by decide, trivial, trivial⟩, trivial⟩, trivial⟩⟩

def delve : Operation := .withSource .move "/steps/0" "/steps/0/first"

/-- The first step ends up inside the second one, which has become the first. -/
theorem delve_overtaken : ∃ root', delve.apply queued = .ok root' ∧
    Overtaken delve.path ["steps", "0"] ["first"] queued root' := by
  have hsource : Json.Pointer.tokens? "/steps/0" = some ["steps", "0"] := rfl
  have hpath : Json.Pointer.tokens? delve.path = some (["steps", "0"] ++ ["first"]) := rfl
  have happlied : delve.apply queued = .ok _ := rfl
  exact ⟨_, happlied,
    (move_below_eq_ok_iff ordered_queued rfl rfl hsource hpath (by decide)).mp happlied⟩

theorem delve_succeeds : ∃ moved below, Json.Pointer.tokens? "/steps/0" = some moved ∧
    Json.Pointer.tokens? "/steps/0/first" = some (moved ++ below) ∧ below ≠ [] ∧
    ∃ root', (Operation.withSource .move "/steps/0" "/steps/0/first").apply queued = .ok root' :=
  ⟨["steps", "0"], ["first"], rfl, rfl, by decide, _, rfl⟩

end Trial

end Patch

end ContentSpaces
