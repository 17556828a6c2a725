import ContentSpaces.Json.Tree
import ContentSpaces.Patch
import ContentSpaces.Resource.Sanitize

/-!
# Values with their keys in order

A value that is read from text lists the keys of every object in order. Patches and sanitising take
values apart and put them together again by entry operations, which keep the order.
-/

namespace ContentSpaces

theorem except_bind_eq_ok {ε α β : Type} {x : Except ε α} {f : α → Except ε β} {b : β} :
    (x >>= f) = .ok b ↔ ∃ a, x = .ok a ∧ f a = .ok b := by
  cases x with
  | error e => exact ⟨fun h => (nomatch h), fun h => (nomatch h.choose_spec.1)⟩
  | ok a =>
    refine ⟨fun h => ⟨a, rfl, h⟩, ?_⟩
    rintro ⟨_, ha, h⟩
    cases ha
    exact h

namespace Entries

variable {κ ν : Type} [DecidableEq κ] {p : ν → Prop} {k : κ} {v : ν} {es : List (κ × ν)}

theorem forall_mem_erase (h : ∀ e ∈ es, p e.2) : ∀ e ∈ erase k es, p e.2 :=
  fun e he => h e (mem_of_mem_erase he)

theorem forall_mem_insert [Ord κ] (h : ∀ e ∈ es, p e.2) (hv : p v) :
    ∀ e ∈ insert k v es, p e.2 := by
  intro e he
  obtain rfl | he := mem_insert he
  · exact hv
  · exact h e he

end Entries

namespace Json

variable {v v' w : Json} {xs : List Json} {fs : Fields} {token : String}

mutual

def decideOrdered : (v : Json) → Decidable v.Ordered
  | .array xs => decideOrderedItems xs
  | .object fs => @instDecidableAnd _ _ inferInstance (decideOrderedFields fs)
  | .null | .bool _ | .number _ | .string _ => .isTrue trivial

def decideOrderedItems : (vs : List Json) → Decidable (OrderedItems vs)
  | [] => .isTrue trivial
  | v :: vs => @instDecidableAnd _ _ (decideOrdered v) (decideOrderedItems vs)

def decideOrderedFields : (fs : List (String × Json)) → Decidable (OrderedFields fs)
  | [] => .isTrue trivial
  | (_, v) :: fs => @instDecidableAnd _ _ (decideOrdered v) (decideOrderedFields fs)

end

instance : DecidablePred Ordered := decideOrdered

theorem orderedItems_iff : OrderedItems xs ↔ ∀ v ∈ xs, v.Ordered := by
  induction xs with
  | nil => simp [OrderedItems]
  | cons v xs ih => rw [OrderedItems, ih, List.forall_mem_cons]

theorem orderedFields_iff : OrderedFields fs ↔ ∀ e ∈ fs, e.2.Ordered := by
  induction fs with
  | nil => simp [OrderedFields]
  | cons e fs ih => rw [OrderedFields, ih, List.forall_mem_cons]

theorem ordered_array_iff : (Json.array xs).Ordered ↔ ∀ v ∈ xs, v.Ordered := orderedItems_iff

theorem ordered_object_iff :
    (Json.object fs).Ordered ↔ Entries.Ascending fs ∧ ∀ e ∈ fs, e.2.Ordered :=
  and_congr_right fun _ => orderedFields_iff

theorem Ordered.insert (h : (Json.object fs).Ordered) (hv : v.Ordered) (k : String) :
    (Json.object (Entries.insert k v fs)).Ordered := by
  obtain ⟨hascending, hfields⟩ := ordered_object_iff.mp h
  exact ordered_object_iff.mpr
    ⟨hascending.insert k v, Entries.forall_mem_insert (p := Json.Ordered) hfields hv⟩

theorem Ordered.erase (h : (Json.object fs).Ordered) (k : String) :
    (Json.object (Entries.erase k fs)).Ordered := by
  obtain ⟨hascending, hfields⟩ := ordered_object_iff.mp h
  exact ordered_object_iff.mpr
    ⟨hascending.erase k, Entries.forall_mem_erase (p := Json.Ordered) hfields⟩

theorem Ordered.of_get? (h : (Json.object fs).Ordered) {k : String}
    (hv : Entries.get? k fs = some v) : v.Ordered :=
  (ordered_object_iff.mp h).2 _ (Entries.mem_of_get? hv)

theorem Ordered.field? (h : v.Ordered) {key : String} (hw : v.field? key = some w) : w.Ordered := by
  obtain ⟨fs, hfs, hw⟩ := Option.bind_eq_some_iff.mp hw
  cases v with
  | object fs' =>
    cases hfs
    exact h.of_get? hw
  | _ => cases hfs

/-! ## Reading -/

namespace Tree

mutual

theorem ordered_of_value? : ∀ (t : Tree) {d : Nat} {v : Json}, value? d t = some v → v.Ordered
  | .null, _, _, h => by
    cases h
    trivial
  | .bool _, _, _, h => by
    cases h
    trivial
  | .number n, _, _, h => by
    obtain ⟨m, -, rfl⟩ := Option.map_eq_some_iff.mp h
    trivial
  | .string us, _, _, h => by
    obtain ⟨s, -, rfl⟩ := Option.map_eq_some_iff.mp h
    trivial
  | .array xs, d, _, h => by
    rw [value?] at h
    split at h
    · cases h
    · obtain ⟨vs, hvs, rfl⟩ := Option.map_eq_some_iff.mp h
      exact ordered_of_items? xs hvs
  | .object fs, d, _, h => by
    rw [value?] at h
    split at h
    · cases h
    · obtain ⟨read, hread, rfl⟩ := Option.map_eq_some_iff.mp h
      exact ordered_of_fields? fs hread ⟨List.Pairwise.nil, trivial⟩

theorem ordered_of_items? : ∀ (ts : List Tree) {d : Nat} {vs : List Json},
    items? d ts = some vs → OrderedItems vs
  | [], _, _, h => by
    cases h
    trivial
  | t :: ts, d, _, h => by
    rw [items?] at h
    obtain ⟨v, hv, h⟩ := Option.bind_eq_some_iff.mp h
    obtain ⟨vs, hvs, h⟩ := Option.bind_eq_some_iff.mp h
    cases h
    exact ⟨ordered_of_value? t hv, ordered_of_items? ts hvs⟩

theorem ordered_of_fields? : ∀ (ts : List (List Quoted.Unit16 × Tree)) {d : Nat}
    {read fs : Fields}, fields? d ts read = some fs → (Json.object read).Ordered →
    (Json.object fs).Ordered
  | [], _, _, _, h, hread => by
    cases h
    exact hread
  | (us, t) :: ts, d, read, _, h, hread => by
    rw [fields?] at h
    obtain ⟨k, -, h⟩ := Option.bind_eq_some_iff.mp h
    obtain ⟨v, hv, h⟩ := Option.bind_eq_some_iff.mp h
    exact ordered_of_fields? ts h (hread.insert (ordered_of_value? t hv) k)

end

end Tree

theorem ordered_of_ofText? {text : String} (h : ofText? text = some v) : v.Ordered := by
  obtain ⟨t, -, h⟩ := Option.bind_eq_some_iff.mp h
  exact Tree.ordered_of_value? t h

/-! ## Pointers -/

theorem Ordered.child? (h : v.Ordered) (hw : v.child? token = some w) : w.Ordered := by
  cases v with
  | object fs => exact h.of_get? hw
  | array xs =>
    obtain ⟨i, -, hi⟩ := Option.bind_eq_some_iff.mp hw
    exact ordered_array_iff.mp h w (List.mem_of_getElem? hi)
  | _ => cases hw

theorem Ordered.get? {tokens : List String} (h : v.Ordered) (hw : v.get? tokens = some w) :
    w.Ordered := by
  induction tokens generalizing v with
  | nil =>
    cases hw
    exact h
  | cons token tokens ih =>
    obtain ⟨child, hchild, hw⟩ := Option.bind_eq_some_iff.mp hw
    exact ih (h.child? hchild) hw

theorem Ordered.setChild (h : v.Ordered) (hw : w.Ordered) (token : String) :
    (v.setChild token w).Ordered := by
  cases v with
  | object fs => exact h.insert hw token
  | array xs =>
    unfold Json.setChild
    cases Pointer.index? token with
    | none => exact h
    | some i =>
      refine ordered_array_iff.mpr fun x hx => ?_
      obtain hx | rfl := List.mem_or_eq_of_mem_set hx
      · exact ordered_array_iff.mp h x hx
      · exact hw
  | _ => exact h

/-- An edit below a value keeps it in order if it keeps what it edits in order. -/
theorem Ordered.editAt {ε α : Type} {missing : ε} {edit : Json → Except ε (α × Json)}
    (good : α → Prop)
    (hedit : ∀ v a v', v.Ordered → edit v = .ok (a, v') → good a ∧ v'.Ordered)
    {tokens : List String} {a : α} (hv : v.Ordered)
    (h : v.editAt missing edit tokens = .ok (a, v')) : good a ∧ v'.Ordered := by
  induction tokens generalizing v v' with
  | nil => exact hedit v a v' hv h
  | cons token tokens ih =>
    rw [Json.editAt] at h
    cases hchild : v.child? token with
    | none =>
      rw [hchild] at h
      cases h
    | some w =>
      rw [hchild] at h
      cases hinner : w.editAt missing edit tokens with
      | error e =>
        simp only [hinner] at h
        cases h
      | ok edited =>
        simp only [hinner] at h
        cases h
        obtain ⟨hgood, hw⟩ := ih (hv.child? hchild) hinner
        exact ⟨hgood, hv.setChild hw token⟩

end Json

/-! ## Patches -/

namespace Patch

variable {root root' value : Json} {path token : String}

theorem ordered_addChild (hvalue : value.Ordered) {u : Unit} {v v' : Json} (hv : v.Ordered)
    (h : addChild path token value v = .ok (u, v')) : v'.Ordered := by
  cases v with
  | object fs =>
    cases h
    exact hv.insert hvalue token
  | array xs =>
    have hitems := Json.ordered_array_iff.mp hv
    simp only [addChild] at h
    split at h
    · cases h
      refine Json.ordered_array_iff.mpr fun x hx => ?_
      obtain hx | hx := List.mem_append.mp hx
      · exact hitems x hx
      · exact List.mem_singleton.mp hx ▸ hvalue
    · split at h
      · cases h
      · split at h
        · cases h
        · rename_i hroom
          cases h
          refine Json.ordered_array_iff.mpr fun x hx => ?_
          obtain rfl | hx := (List.mem_insertIdx (Nat.le_of_not_lt hroom)).mp hx
          · exact hvalue
          · exact hitems x hx
  | _ => cases h

theorem ordered_removeChild {v removed v' : Json} (hv : v.Ordered)
    (h : removeChild path token v = .ok (removed, v')) : removed.Ordered ∧ v'.Ordered := by
  cases v with
  | object fs =>
    simp only [removeChild] at h
    split at h
    · cases h
    · rename_i hfound
      cases h
      exact ⟨hv.of_get? hfound, hv.erase token⟩
  | array xs =>
    have hitems := Json.ordered_array_iff.mp hv
    simp only [removeChild] at h
    split at h
    · cases h
    · split at h
      · cases h
      · rename_i hfound
        cases h
        refine ⟨hitems _ (List.mem_of_getElem? hfound), Json.ordered_array_iff.mpr fun x hx => ?_⟩
        exact hitems x (List.mem_of_mem_eraseIdx hx)
  | _ => cases h

theorem ordered_lookup (hroot : root.Ordered) (h : lookup root path = .ok value) :
    value.Ordered := by
  unfold lookup at h
  split at h
  · cases h
  · rename_i tokens _
    cases hfound : root.get? tokens with
    | none =>
      rw [hfound] at h
      cases h
    | some found =>
      rw [hfound] at h
      cases h
      exact hroot.get? hfound

theorem ordered_add (hroot : root.Ordered) (hvalue : value.Ordered)
    (h : add root path value = .ok root') : root'.Ordered := by
  unfold add at h
  split at h
  · cases h
    exact hvalue
  · obtain ⟨⟨parent, last⟩, -, h⟩ := except_bind_eq_ok.mp h
    obtain ⟨⟨u, edited⟩, hedited, h⟩ := except_bind_eq_ok.mp h
    cases h
    exact (hroot.editAt (fun _ => True)
      (fun _ _ _ hv h => ⟨trivial, ordered_addChild hvalue hv h⟩) hedited).2

theorem ordered_remove (hroot : root.Ordered) (h : remove root path = .ok (value, root')) :
    value.Ordered ∧ root'.Ordered := by
  obtain ⟨⟨parent, last⟩, -, h⟩ := except_bind_eq_ok.mp h
  exact hroot.editAt Json.Ordered (fun _ _ _ hv h => ordered_removeChild hv h) h

theorem ordered_replace (hroot : root.Ordered) (hvalue : value.Ordered)
    (h : replace root path value = .ok root') : root'.Ordered := by
  unfold replace at h
  split at h
  · cases h
    exact hvalue
  · obtain ⟨⟨removed, rest⟩, hremoved, h⟩ := except_bind_eq_ok.mp h
    exact ordered_add (ordered_remove hroot hremoved).2 hvalue h

def Operation.Ordered (op : Operation) : Prop := ∀ value, op.value = some value → value.Ordered

instance (op : Operation) : Decidable op.Ordered :=
  decidable_of_iff (∀ value ∈ op.value.toList, value.Ordered) (by simp [Operation.Ordered])

theorem Operation.Ordered.requiredValue {op : Operation} (hop : op.Ordered)
    (h : op.requiredValue = .ok value) : value.Ordered := by
  unfold Operation.requiredValue at h
  cases hvalue : op.value with
  | none =>
    rw [hvalue] at h
    cases h
  | some given =>
    rw [hvalue] at h
    cases h
    exact hop _ hvalue

theorem Operation.Ordered.apply {op : Operation} (hop : op.Ordered) (hroot : root.Ordered)
    (h : op.apply root = .ok root') : root'.Ordered := by
  unfold Operation.apply at h
  split at h
  · obtain ⟨value, hvalue, h⟩ := except_bind_eq_ok.mp h
    exact ordered_add hroot (hop.requiredValue hvalue) h
  · obtain ⟨⟨removed, rest⟩, hremoved, h⟩ := except_bind_eq_ok.mp h
    cases h
    exact (ordered_remove hroot hremoved).2
  · obtain ⟨value, hvalue, h⟩ := except_bind_eq_ok.mp h
    exact ordered_replace hroot (hop.requiredValue hvalue) h
  · obtain ⟨source, -, h⟩ := except_bind_eq_ok.mp h
    obtain ⟨⟨moved, rest⟩, hmoved, h⟩ := except_bind_eq_ok.mp h
    obtain ⟨hvalue, hrest⟩ := ordered_remove hroot hmoved
    exact ordered_add hrest hvalue h
  · obtain ⟨source, -, h⟩ := except_bind_eq_ok.mp h
    obtain ⟨copied, hcopied, h⟩ := except_bind_eq_ok.mp h
    exact ordered_add hroot (ordered_lookup hroot hcopied) h
  · obtain ⟨expected, -, h⟩ := except_bind_eq_ok.mp h
    obtain ⟨found, -, h⟩ := except_bind_eq_ok.mp h
    split at h
    · cases h
      exact hroot
    · cases h

/-- A patch keeps a document in order. -/
theorem ordered_applyAll {ops : List Operation} (hops : ∀ op ∈ ops, op.Ordered)
    (hroot : root.Ordered) (h : applyAll root ops = .ok root') : root'.Ordered := by
  induction ops generalizing root with
  | nil =>
    cases h
    exact hroot
  | cons op ops ih =>
    obtain ⟨hop, hops⟩ := List.forall_mem_cons.mp hops
    obtain ⟨next, hnext, h⟩ := except_bind_eq_ok.mp h
    exact ih hops (hop.apply hroot hnext) h

end Patch

/-! ## Sanitising -/

namespace Sanitize

open Json (Ordered)

variable {v : Json} {fs : Json.Fields}

theorem ordered_stripMetadata (h : v.Ordered) : (stripMetadata v).Ordered := by
  cases v with
  | object fs => exact (h.erase "custom_fields").erase "dataset"
  | _ => exact h

theorem ordered_renameTarget (h : v.Ordered) : (renameTarget v).Ordered := by
  cases v with
  | object fs =>
    simp only [renameTarget]
    split
    · rename_i htarget
      exact (h.erase "sigma_id").insert (h.of_get? htarget) "id"
    · exact h
  | _ => exact h

theorem ordered_renameTargets (h : v.Ordered) : (renameTargets v).Ordered := by
  cases v with
  | array xs =>
    refine Json.ordered_array_iff.mpr fun x hx => ?_
    obtain ⟨entry, hentry, rfl⟩ := List.mem_map.mp hx
    exact ordered_renameTarget (Json.ordered_array_iff.mp h entry hentry)
  | _ => exact ordered_renameTarget h

theorem ordered_mapField {f : Json → Json} (hf : ∀ v : Json, v.Ordered → (f v).Ordered)
    (h : (Json.object fs).Ordered) (key : String) :
    (Json.object (mapField key f fs)).Ordered := by
  unfold mapField
  split
  · rename_i v hv
    exact h.insert (hf v (h.of_get? hv)) key
  · exact h

theorem ordered_document (h : v.Ordered) : (document v).Ordered := by
  cases v with
  | object fs =>
    exact ordered_mapField (fun _ => ordered_renameTargets)
      (ordered_mapField (fun _ => ordered_stripMetadata) h "metadata") "related"
  | _ => exact h

end Sanitize

end ContentSpaces
