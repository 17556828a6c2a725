import ContentSpaces.Proofs.Draft.Sessions

/-!
# What draft containers list

Which drafts there are and what their containers list, after each write that a call makes.
-/

namespace ContentSpaces

def Json.listing (document : Json) (list : RefList) : List String :=
  (((document.field? list.key).bind Json.items?).getD []).filterMap Json.string?

namespace Content

variable {c c' : Content}

def Drafted (c : Content) (kind : Kind) (id : String) : Prop := (c.get? ⟨kind, .draft, id⟩).isSome

instance (c : Content) (kind : Kind) (id : String) : Decidable (c.Drafted kind id) :=
  inferInstanceAs (Decidable (_ = true))

def listed (c : Content) (list : RefList) (container : String) : List String :=
  ((c.get? ⟨list.containerKind, .draft, container⟩).map (·.references list)).getD []

theorem SameBare.drafted_iff (h : SameBare c c') (kind : Kind) (id : String) :
    c'.Drafted kind id ↔ c.Drafted kind id := by
  have hbare := congrArg Option.isSome (h ⟨kind, .draft, id⟩)
  rw [Option.isSome_map, Option.isSome_map] at hbare
  rw [Drafted, Drafted, hbare]

theorem SameBare.listed_eq (h : SameBare c c') : c'.listed = c.listed := by
  funext list container
  rw [listed, listed, h.map_get? fun _ => rfl]

theorem listed_of_get? {r : Resource} {list : RefList} {container : String}
    (h : c.get? ⟨list.containerKind, .draft, container⟩ = some r) :
    c.listed list container = r.references list := by
  rw [listed, h]
  rfl

theorem listed_eq_nil_of_not_drafted {list : RefList} {container : String}
    (h : ¬ c.Drafted list.containerKind container) : c.listed list container = [] := by
  rw [listed, Option.not_isSome_iff_eq_none.mp h]
  rfl

theorem drafted_of_mem_listed {list : RefList} {container child : String}
    (h : child ∈ c.listed list container) : c.Drafted list.containerKind container := by
  apply Classical.byContradiction
  intro hnot
  rw [listed_eq_nil_of_not_drafted hnot] at h
  cases h

end Content

namespace Draft

open Content

variable {c : Content} {r : Resource} {list : RefList} {id : String} {kind : Kind} {fs : Json.Fields}

section Kinds

theorem mem_hashOrder_iff : list ∈ RefList.hashOrder ↔ list.containerKind = .integration := by
  cases list <;> decide

theorem mem_deleteOrder_iff : list ∈ RefList.deleteOrder ↔ list.containerKind = .integration := by
  cases list <;> decide

theorem containerKind_eq (list : RefList) :
    list.containerKind = .integration ∨ list.containerKind = .policy := by
  cases list <;> decide

end Kinds

section Documents

theorem get?_withDefault (key : String) (v : Json) (fs : Json.Fields) (k : String) :
    Entries.get? k (withDefault key v fs) =
      if k = key then some ((Entries.get? key fs).getD v) else Entries.get? k fs := by
  unfold withDefault Entries.contains
  cases h : Entries.get? key fs with
  | some stored =>
    by_cases hk : k = key
    · simp [hk, h]
    · simp [hk]
  | none =>
    by_cases hk : k = key
    · simp [hk, Entries.get?_insert_self]
    · simp [hk, Entries.get?_insert_of_ne]

theorem get?_id_foldl_withDefault (lists : List RefList) (fs : Json.Fields) :
    Entries.get? "id" (lists.foldl (fun fs list => withDefault list.key (.array []) fs) fs) =
      Entries.get? "id" fs := by
  induction lists generalizing fs with
  | nil => rfl
  | cons list lists ih =>
    rw [List.foldl_cons, ih, get?_withDefault, if_neg list.key_ne_id]

theorem listing_foldl_withDefault (lists : List RefList) (fs : Json.Fields) (list : RefList) :
    (Json.object (lists.foldl (fun fs list => withDefault list.key (.array []) fs) fs)).listing list =
      (Json.object fs).listing list := by
  induction lists generalizing fs with
  | nil => rfl
  | cons other lists ih =>
    rw [List.foldl_cons, ih]
    show (((Entries.get? list.key (withDefault other.key (.array []) fs)).bind _).getD []).filterMap
      _ = (((Entries.get? list.key fs).bind _).getD []).filterMap _
    rw [get?_withDefault]
    split
    · rename_i hkey
      rw [hkey]
      cases Entries.get? other.key fs <;> rfl
    · rfl

theorem listing_insert_id (v : Json) (fs : Json.Fields) (list : RefList) :
    (Json.object (Entries.insert "id" v fs)).listing list = (Json.object fs).listing list := by
  show (((Entries.get? list.key (Entries.insert "id" v fs)).bind _).getD []).filterMap _ =
    (((Entries.get? list.key fs).bind _).getD []).filterMap _
  rw [Entries.get?_insert_of_ne list.key_ne_id.symm]

/-- A new draft lists what the submitted document lists. -/
theorem listing_newDocument (kind : Kind) (id : String) (fs : Json.Fields) (list : RefList) :
    (newDocument kind id fs).listing list = (Json.object fs).listing list := by
  unfold newDocument
  dsimp only
  split
  · rw [listing_foldl_withDefault, listing_insert_id]
  · exact listing_insert_id _ _ _

theorem documentId_object (fs : Json.Fields) :
    documentId (.object fs) = ((Entries.get? "id" fs).bind Json.string?).getD "" := rfl

theorem documentId_newDocument (kind : Kind) (id : String) (fs : Json.Fields) :
    documentId (newDocument kind id fs) = id := by
  unfold newDocument
  dsimp only
  split
  · rw [documentId_object, get?_id_foldl_withDefault, Entries.get?_insert_self]
    rfl
  · rw [documentId_object, Entries.get?_insert_self]
    rfl

theorem created (hr : Resource.create kind .draft (newDocument kind id fs) = .ok r) :
    r.Intact ∧ r.kind = kind ∧ r.space = .draft ∧ r.id = id ∧
      ∀ list, r.references list = (Json.object fs).listing list := by
  have hintact := Resource.create_intact hr
  obtain ⟨-, rfl⟩ := Resource.create_eq_ok_iff.mp hr
  exact ⟨hintact, rfl, rfl, documentId_newDocument kind id fs, listing_newDocument kind id fs⟩

variable {lists : List RefList} {v : RefList → Json}

theorem get?_foldl_insert_of_forall_ne {k : String} (h : ∀ list ∈ lists, k ≠ list.key)
    (fs : Json.Fields) :
    Entries.get? k (lists.foldl (fun fs list => Entries.insert list.key (v list) fs) fs) =
      Entries.get? k fs := by
  induction lists generalizing fs with
  | nil => rfl
  | cons list lists ih =>
    obtain ⟨hfirst, hrest⟩ := List.forall_mem_cons.mp h
    rw [List.foldl_cons, ih hrest, Entries.get?_insert_of_ne hfirst]

theorem get?_foldl_insert (hlist : list ∈ lists) (fs : Json.Fields) :
    Entries.get? list.key (lists.foldl (fun fs list => Entries.insert list.key (v list) fs) fs) =
      some (v list) := by
  induction lists generalizing fs with
  | nil => cases hlist
  | cons other lists ih =>
    by_cases hrest : list ∈ lists
    · exact ih hrest _
    · obtain rfl : list = other := (List.mem_cons.mp hlist).resolve_right hrest
      rw [List.foldl_cons, get?_foldl_insert_of_forall_ne, Entries.get?_insert_self]
      intro other hother hkey
      exact hrest (RefList.key_injective hkey ▸ hother)

theorem field?_keep_list (hlist : list ∈ RefList.ofContainer kind) (id : String) (stored : Json)
    (fs : Json.Fields) : (keep kind id stored fs).field? list.key =
      some ((stored.field? list.key).getD (.array [])) := by
  unfold keep
  extract_lets fs₁ fs₂ fs₃
  exact get?_foldl_insert hlist fs₃

/-- An updated container lists what it has listed before. -/
theorem listing_keep (hlist : list ∈ RefList.ofContainer kind) (id : String) (stored : Json)
    (fs : Json.Fields) : (keep kind id stored fs).listing list = stored.listing list := by
  rw [Json.listing, field?_keep_list hlist]
  unfold Json.listing
  cases stored.field? list.key <;> rfl

/-- Neither the lists nor the default touch another field. -/
theorem field?_keep_of_ne {key : String} (hlists : ∀ list ∈ RefList.ofContainer kind, key ≠ list.key)
    (henabled : key ≠ "enabled") (id : String) (stored : Json) (fs : Json.Fields) :
    (keep kind id stored fs).field? key =
      Entries.get? key ((stored.field? "date").elim (Entries.insert "id" (.string id) fs)
        fun date => Entries.insert "date" date (Entries.insert "id" (.string id) fs)) := by
  unfold keep
  extract_lets fs₁ fs₂ fs₃
  refine (get?_foldl_insert_of_forall_ne hlists fs₃).trans ?_
  rw [get?_withDefault, if_neg henabled]

theorem field?_keep_id (kind : Kind) (id : String) (stored : Json) (fs : Json.Fields) :
    (keep kind id stored fs).field? "id" = some (.string id) := by
  rw [field?_keep_of_ne (fun list _ => list.key_ne_id) (by decide)]
  cases stored.field? "date" with
  | none => exact Entries.get?_insert_self ..
  | some date =>
    exact (Entries.get?_insert_of_ne (by decide) _ _).trans (Entries.get?_insert_self ..)

theorem field?_keep_date {stored date : Json} (hdate : stored.field? "date" = some date)
    (kind : Kind) (id : String) (fs : Json.Fields) :
    (keep kind id stored fs).field? "date" = some date := by
  rw [field?_keep_of_ne (fun list _ => list.key_ne_date) (by decide), hdate]
  exact Entries.get?_insert_self ..

/-- A field that is not managed is the submitted one. -/
theorem field?_keep_submitted {key : String}
    (hlists : ∀ list ∈ RefList.ofContainer kind, key ≠ list.key)
    (hmanaged : key ∉ ["id", "date", "enabled"]) (id : String) (stored : Json) (fs : Json.Fields) :
    (keep kind id stored fs).field? key = Entries.get? key fs := by
  simp only [List.mem_cons, List.not_mem_nil, or_false, not_or] at hmanaged
  obtain ⟨hid, hdate, henabled⟩ := hmanaged
  rw [field?_keep_of_ne hlists henabled]
  cases stored.field? "date" with
  | none => exact Entries.get?_insert_of_ne hid ..
  | some date =>
    exact (Entries.get?_insert_of_ne hdate ..).trans (Entries.get?_insert_of_ne hid ..)

theorem documentId_keep (kind : Kind) (id : String) (stored : Json) (fs : Json.Fields) :
    documentId (keep kind id stored fs) = id := by
  rw [documentId, Json.stringField?, field?_keep_id]
  rfl

theorem updated {stored : Resource} (haddress : stored.address = ⟨kind, .draft, id⟩)
    (hr : stored.withDocument (keep kind id stored.document fs) = .ok r) :
    r.Intact ∧ r.kind = kind ∧ r.space = .draft ∧ r.id = id ∧
      ∀ list : RefList, list.containerKind = kind → r.references list = stored.references list := by
  obtain ⟨hdocument, rfl⟩ := Resource.withDocument_eq_ok_iff.mp hr
  refine ⟨⟨hdocument, rfl⟩, congrArg Address.kind haddress, congrArg Address.space haddress,
    documentId_keep kind id stored.document fs, fun list hlist => ?_⟩
  exact listing_keep (RefList.mem_ofContainer_iff.mpr hlist) id stored.document fs

end Documents

section Effects

theorem drafted_file (hspace : r.space = .draft) (kind' : Kind) (i : String) :
    (c.file r).Drafted kind' i ↔ kind' = r.kind ∧ i = r.id ∨ c.Drafted kind' i := by
  have haddress : (⟨kind', .draft, i⟩ : Address) = r.address ↔ kind' = r.kind ∧ i = r.id := by
    simp [Resource.address, hspace]
  rw [Drafted, Drafted, get?_file]
  by_cases h : kind' = r.kind ∧ i = r.id
  · rw [if_pos (haddress.mpr h)]
    simp [h]
  · rw [if_neg (mt haddress.mp h)]
    simp [h]

theorem listed_file (hspace : r.space = .draft) (list : RefList) (j : String) :
    (c.file r).listed list j =
      if list.containerKind = r.kind ∧ j = r.id then r.references list else c.listed list j := by
  have haddress : (⟨list.containerKind, .draft, j⟩ : Address) = r.address ↔
      list.containerKind = r.kind ∧ j = r.id := by
    simp [Resource.address, hspace]
  rw [listed, listed, get?_file]
  by_cases h : list.containerKind = r.kind ∧ j = r.id
  · rw [if_pos (haddress.mpr h), if_pos h]
    rfl
  · rw [if_neg (mt haddress.mp h), if_neg h]

/-- What may be deleted lists nothing: an integration has no children, and the policy stays. -/
theorem listed_eq_nil_of_childless {stored : Resource}
    (hstored : c.get? ⟨kind, .draft, id⟩ = some stored) (hkind : kind ≠ .policy)
    (hchildless : kind = .integration → ∀ list ∈ RefList.deleteOrder, stored.references list = [])
    (hlist : list.containerKind = kind) : c.listed list id = [] := by
  have hintegration : list.containerKind = .integration :=
    (containerKind_eq list).resolve_right fun hpolicy => hkind (hlist.symm.trans hpolicy)
  rw [listed, hlist, hstored]
  exact hchildless (hlist.symm.trans hintegration) list (mem_deleteOrder_iff.mpr hintegration)

/-- A draft written with the lists that it had changes no list. -/
theorem listed_file_of_kept {stored : Resource}
    (hstored : c.get? ⟨r.kind, .draft, r.id⟩ = some stored) (hspace : r.space = .draft)
    (hkept : ∀ list : RefList, list.containerKind = r.kind →
      r.references list = stored.references list) : (c.file r).listed = c.listed := by
  funext list j
  rw [listed_file hspace]
  split
  · rename_i hself
    rw [hkept list hself.1, listed, hself.1, hself.2, hstored]
    rfl
  · rfl

theorem drafted_linked (parent child : String) (list : RefList) (kind' : Kind) (i : String) :
    (c.linked parent child list).Drafted kind' i ↔ c.Drafted kind' i := by
  rw [Drafted, Drafted, linked, Table.get?_mapValues, Option.isSome_map]

theorem listed_linked (hc : c.Filed) (hstorable : c.Storable) {parent : String}
    (hparent : c.Drafted list.containerKind parent) (child : String) (list' : RefList) (j : String) :
    (c.linked parent child list).listed list' j =
      if list' = list ∧ j = parent ∧ child ∉ c.listed list parent then c.listed list parent ++ [child]
      else c.listed list' j := by
  obtain ⟨container, hcontainer⟩ := Option.isSome_iff_exists.mp hparent
  have hlisted (list' : RefList) (h : list'.containerKind = list.containerKind) :
      c.listed list' parent = container.references list' := by
    rw [listed, h, hcontainer]
    rfl
  rw [listed, hc.get?_linked]
  by_cases ha : list'.containerKind = list.containerKind ∧ j = parent
  · obtain ⟨hkind, rfl⟩ := ha
    rw [hkind, hcontainer, hlisted list' hkind, hlisted list rfl]
    simp only [if_true, Option.map_some, Option.getD_some, true_and]
    exact container.references_enlist (hstorable _ _ hcontainer) list child list'
  · have hne : ¬ (⟨list'.containerKind, .draft, j⟩ : Address) = ⟨list.containerKind, .draft, parent⟩ := by
      intro h
      exact ha ⟨congrArg Address.kind h, congrArg Address.id h⟩
    rw [if_neg]
    · simp only [hne, if_false, Option.map_id']
      rfl
    · rintro ⟨rfl, rfl, -⟩
      exact ha ⟨rfl, rfl⟩

theorem drafted_delisted (c : Content) (kind : Kind) (id : String) (kind' : Kind) (i : String) :
    (delisted c kind id).Drafted kind' i ↔ c.Drafted kind' i := by
  unfold delisted
  split
  · rw [Drafted, Drafted, unlinked, Table.get?_mapValues, Option.isSome_map]
  · rfl

theorem listed_unlinked (hc : c.Filed) (hstorable : c.Storable) (child : String) (other : RefList)
    (list : RefList) (j : String) : (c.unlinked child other).listed list j =
      if list = other then (c.listed list j).filter (· ≠ child) else c.listed list j := by
  rw [listed, hc.get?_unlinked]
  unfold listed
  cases hr : c.get? ⟨list.containerKind, .draft, j⟩ with
  | none => simp
  | some r =>
    simp only [Option.map_some, Option.getD_some]
    by_cases hcontainer : list.containerKind = other.containerKind
    · rw [if_pos ⟨hcontainer, trivial⟩, Resource.references_delist (hstorable _ _ hr)]
      split
      · rename_i hlist
        rw [hlist]
      · rfl
    · rw [if_neg fun h => hcontainer h.1, if_neg]
      rintro rfl
      exact hcontainer rfl

theorem listed_delisted (hc : c.Filed) (hstorable : c.Storable) (kind : Kind) (id : String)
    (list : RefList) (j : String) : (delisted c kind id).listed list j =
      if list.childKind = kind then (c.listed list j).filter (· ≠ id) else c.listed list j := by
  unfold delisted
  split
  · rename_i other hother
    have hsame : list = other ↔ list.childKind = kind := by
      rw [← RefList.ofChild?_eq_some_iff.mp hother]
      exact ⟨congrArg _, RefList.childKind_injective⟩
    rw [listed_unlinked hc hstorable]
    simp only [hsame]
  · rename_i hnone
    rw [if_neg]
    intro hkind
    rw [RefList.ofChild?_eq_some_iff.mpr hkind] at hnone
    cases hnone

theorem drafted_removed (c : Content) (kind : Kind) (id : String) (kind' : Kind) (i : String) :
    (removed c kind id).Drafted kind' i ↔ ¬ (kind' = kind ∧ i = id) ∧ c.Drafted kind' i := by
  have haddress : (⟨kind', .draft, i⟩ : Address) = ⟨kind, .draft, id⟩ ↔ kind' = kind ∧ i = id := by
    simp
  rw [← drafted_delisted c kind id, Drafted, removed, Table.get?_erase]
  by_cases h : kind' = kind ∧ i = id
  · rw [if_pos (haddress.mpr h)]
    simp [h]
  · rw [if_neg (mt haddress.mp h)]
    exact ⟨fun hkept => ⟨h, hkept⟩, And.right⟩

theorem listed_removed (hc : c.Filed) (hstorable : c.Storable) (kind : Kind) (id : String)
    (list : RefList) (j : String) :
    (removed c kind id).listed list j =
      if list.containerKind = kind ∧ j = id then []
      else if list.childKind = kind then (c.listed list j).filter (· ≠ id)
      else c.listed list j := by
  have haddress : (⟨list.containerKind, .draft, j⟩ : Address) = ⟨kind, .draft, id⟩ ↔
      list.containerKind = kind ∧ j = id := by
    simp
  rw [← listed_delisted hc hstorable, listed, removed, Table.get?_erase]
  by_cases h : list.containerKind = kind ∧ j = id
  · rw [if_pos (haddress.mpr h), if_pos h]
    rfl
  · rw [if_neg (mt haddress.mp h), if_neg h]
    rfl

variable {parent : String}

theorem drafted_placed (hspace : r.space = .draft) (kind' : Kind) (i : String) :
    (placed c r (some (parent, list))).Drafted kind' i ↔
      kind' = r.kind ∧ i = r.id ∨ c.Drafted kind' i := by
  rw [placed, drafted_linked, drafted_file hspace]

/-- A new draft brings its own lists and is added to one other. -/
theorem listed_placed (hc : c.Filed) (hstorable : c.Storable) (hr : r.Storable)
    (hspace : r.space = .draft) (hlist : list.childKind = r.kind)
    (hparent : c.Drafted list.containerKind parent) (list' : RefList) (j : String) :
    (placed c r (some (parent, list))).listed list' j =
      if list'.containerKind = r.kind ∧ j = r.id then r.references list'
      else if list' = list ∧ j = parent ∧ r.id ∉ c.listed list parent then
        c.listed list parent ++ [r.id]
      else c.listed list' j := by
  have hparent' : (c.file r).Drafted list.containerKind parent :=
    (drafted_file hspace _ _).mpr (.inr hparent)
  have hother : ¬ (list.containerKind = r.kind ∧ parent = r.id) :=
    fun h => list.childKind_ne_containerKind (hlist.trans h.1.symm)
  rw [placed, listed_linked (hc.file r) (hstorable.file hr) hparent', listed_file hspace,
    listed_file hspace, if_neg hother]
  by_cases hself : list'.containerKind = r.kind ∧ j = r.id
  · have helsewhere : ¬ (list' = list ∧ j = parent ∧ r.id ∉ c.listed list parent) := by
      rintro ⟨rfl, rfl, -⟩
      exact hother hself
    rw [if_neg helsewhere, if_pos hself, if_pos hself]
  · rw [if_neg hself, if_neg hself]

end Effects

end Draft

end ContentSpaces
