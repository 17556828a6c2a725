import ContentSpaces.Proofs.Snapshot.Replacement

/-!
# Looking after content again

Default policies go into spaces that have none, and aggregates depend on nothing that recalculating
writes. A space that is replaced by the same resources a second time therefore comes out the same,
and so do the spaces around it.
-/

namespace ContentSpaces

/-- The policy that a user space gets if it has none. -/
def Store.defaultPolicy (space : Space) : Resource :=
  let hash := Digest.ofDocument defaultPolicyDocument
  ⟨.policy, defaultPolicyDocument, space, some hash, hash⟩

namespace Content

variable {c c' d d' : Content} {space : Space}

/-- The contents differ in aggregates of containers only. -/
structure SameBasis (c c' : Content) : Prop where
  bare : SameBare c c'
  others : ∀ a, a.kind.isContainer = false → c'.get? a = c.get? a

theorem Refreshed.sameBasis (h : Refreshed (fun a => a.kind.isContainer) c c') :
    SameBasis c c' := by
  refine ⟨h.sameBare, fun a ha => ?_⟩
  rw [h a]
  simp [ha]

/-- Recalculating overwrites all that two such contents differ in. -/
theorem Refreshed.eq_of_sameBasis (h : Refreshed (fun a => a.kind.isContainer) c d)
    (h' : Refreshed (fun a => a.kind.isContainer) c' d') (hsame : SameBasis c c') : d' = d := by
  apply Table.ext_get?
  intro a
  rw [h a, h' a]
  cases ha : a.kind.isContainer with
  | false => simp [ha, hsame.others a ha]
  | true =>
    refine Resource.map_eq_map (hsame.bare a) fun r r' _ _ hbare => ?_
    rw [if_pos ha, if_pos ha, hsame.bare.aggregate hbare]
    exact Resource.withAggregate_eq_of_bare hbare

section Policies

/-- The content when a space without policy has got the default one. -/
def withPolicy (c : Content) (space : Space) : Content :=
  if (c.collection .policy space).isEmpty then c.file (Store.defaultPolicy space) else c

def initialized (c : Content) : Content := Space.ofUsers.foldl withPolicy c

theorem address_defaultPolicy (space : Space) :
    (Store.defaultPolicy space).address = ⟨.policy, space, Store.defaultPolicyId⟩ := by rfl

theorem collection_congr {kind : Kind} (h : ∀ id, c'.get? ⟨kind, space, id⟩ =
    c.get? ⟨kind, space, id⟩) : c'.collection kind space = c.collection kind space := by
  have hmapped := collection_map_congr (f := fun r => r) fun id => congrArg (Option.map _) (h id)
  simpa using hmapped

theorem get?_withPolicy (c : Content) (space : Space) (a : Address) :
    (c.withPolicy space).get? a =
      if (c.collection .policy space).isEmpty ∧ a = ⟨.policy, space, Store.defaultPolicyId⟩ then
        some (Store.defaultPolicy space)
      else c.get? a := by
  unfold withPolicy
  split
  · rename_i hempty
    rw [get?_file, address_defaultPolicy]
    simp only [hempty, true_and]
  · rename_i hpolicy
    rw [if_neg fun h => hpolicy h.1]

theorem get?_foldl_withPolicy {spaces : List Space} (hspaces : spaces.Nodup) (c : Content)
    (a : Address) :
    (spaces.foldl withPolicy c).get? a =
      if a.space ∈ spaces ∧ (c.collection .policy a.space).isEmpty ∧
          a = ⟨.policy, a.space, Store.defaultPolicyId⟩ then
        some (Store.defaultPolicy a.space)
      else c.get? a := by
  induction spaces generalizing c with
  | nil => simp
  | cons space spaces ih =>
    obtain ⟨hfresh, hrest⟩ := List.nodup_cons.mp hspaces
    rw [List.foldl_cons, ih hrest, get?_withPolicy]
    by_cases hspace : a.space = space
    · subst hspace
      simp [hfresh]
    · have hother : a ≠ ⟨.policy, space, Store.defaultPolicyId⟩ := by
        rintro rfl
        exact hspace rfl
      have hkept : (c.withPolicy space).collection .policy a.space =
          c.collection .policy a.space := by
        refine collection_congr fun id => ?_
        rw [get?_withPolicy, if_neg]
        rintro ⟨-, haddress⟩
        exact hspace (congrArg Address.space haddress)
      simp [hspace, hother, hkept]

/-- Only a user space without policy is given one. -/
theorem get?_initialized (c : Content) (a : Address) :
    c.initialized.get? a =
      if a.space ∈ Space.ofUsers ∧ (c.collection .policy a.space).isEmpty ∧
          a = ⟨.policy, a.space, Store.defaultPolicyId⟩ then
        some (Store.defaultPolicy a.space)
      else c.get? a :=
  get?_foldl_withPolicy (by decide) c a

theorem collection_initialized_ne_nil (c : Content) (hspace : space ∈ Space.ofUsers) :
    c.initialized.collection .policy space ≠ [] := by
  rw [collection_ne_nil_iff]
  by_cases hempty : (c.collection .policy space).isEmpty
  · refine ⟨Store.defaultPolicyId, ?_⟩
    rw [get?_initialized, if_pos ⟨hspace, hempty, rfl⟩]
    rfl
  · obtain ⟨id, hid⟩ := collection_ne_nil_iff.mp fun hnil => hempty (List.isEmpty_iff.mpr hnil)
    refine ⟨id, ?_⟩
    rw [get?_initialized, if_neg fun h => hempty h.2.1]
    exact hid

theorem Filed.withPolicy (hc : c.Filed) (space : Space) : (c.withPolicy space).Filed := by
  unfold Content.withPolicy
  split
  · exact hc.file _
  · exact hc

theorem Filed.initialized (hc : c.Filed) : c.initialized.Filed :=
  ((hc.withPolicy .draft).withPolicy .test).withPolicy .custom

end Policies

section Replacing

def replaced (c : Content) (space : Space) (rs : List Resource) : Content :=
  (c.withoutSpace space).fileAll rs

variable {rs : List Resource}

theorem Filed.replaced (hc : c.Filed) (space : Space) (rs : List Resource) :
    (c.replaced space rs).Filed := by
  intro a r hr
  unfold Content.replaced at hr
  rw [get?_fileAll, Option.or_eq_some_iff] at hr
  obtain hfound | ⟨-, hkept⟩ := hr
  · simpa using List.find?_some hfound
  · rw [get?_withoutSpace] at hkept
    split at hkept
    · cases hkept
    · exact hc a r hkept

theorem get?_replaced_of_space_eq (c c' : Content) (rs : List Resource) {a : Address}
    (ha : a.space = space) : (c'.replaced space rs).get? a = (c.replaced space rs).get? a := by
  unfold replaced
  rw [get?_fileAll, get?_fileAll, get?_withoutSpace, get?_withoutSpace, if_pos ha, if_pos ha]

theorem get?_replaced_of_space_ne (c : Content) (hrs : ∀ r ∈ rs, r.space = space) {a : Address}
    (ha : a.space ≠ space) : (c.replaced space rs).get? a = c.get? a := by
  have hnone : (rs.reverse.find? fun r => r.address = a) = none := by
    refine List.find?_eq_none.mpr fun r hr haddress => ha ?_
    rw [← of_decide_eq_true haddress]
    exact hrs r (List.mem_reverse.mp hr)
  unfold replaced
  rw [get?_fileAll, get?_withoutSpace, hnone, if_neg ha]
  rfl

/-- What user spaces get does not depend on when the other spaces were last seen to. -/
theorem sameBasis_initialized (hrs : ∀ r ∈ rs, r.space = space)
    (h : SameBasis (c.replaced space rs).initialized d) :
    SameBasis (c.replaced space rs).initialized (d.replaced space rs).initialized := by
  have hinside (a : Address) (ha : a.space = space) :
      (d.replaced space rs).initialized.get? a = (c.replaced space rs).initialized.get? a := by
    have hget (b : Address) (hb : b.space = space) :
        (d.replaced space rs).get? b = (c.replaced space rs).get? b :=
      get?_replaced_of_space_eq c d rs hb
    have hcollection : (d.replaced space rs).collection .policy a.space =
        (c.replaced space rs).collection .policy a.space :=
      collection_congr fun id => hget _ ha
    rw [get?_initialized, get?_initialized, hcollection, hget a ha]
  have houtside (a : Address) (ha : a.space ≠ space) :
      (d.replaced space rs).initialized.get? a = d.get? a := by
    have hcollection : (d.replaced space rs).collection .policy a.space =
        d.collection .policy a.space :=
      collection_congr fun id => get?_replaced_of_space_ne d hrs ha
    rw [get?_initialized, hcollection, if_neg, get?_replaced_of_space_ne d hrs ha]
    rintro ⟨huser, hempty, -⟩
    -- The first time round the space has been given a policy.
    refine (c.replaced space rs).collection_initialized_ne_nil huser ?_
    have hmapped : (d.collection .policy a.space).map Resource.bare =
        ((c.replaced space rs).initialized.collection .policy a.space).map Resource.bare :=
      collection_map_congr fun id => h.bare _
    rw [List.isEmpty_iff.mp hempty] at hmapped
    exact List.map_eq_nil_iff.mp hmapped.symm
  constructor
  · intro a
    by_cases ha : a.space = space
    · rw [hinside a ha]
    · rw [houtside a ha]
      exact h.bare a
  · intro a hkind
    by_cases ha : a.space = space
    · exact hinside a ha
    · rw [houtside a ha]
      exact h.others a hkind

/-- The content is what looking after all spaces makes of another. -/
def Tends (c c' : Content) : Prop := Refreshed (fun a => a.kind.isContainer) c.initialized c'

/-- Replacing a space by the same resources and looking after all spaces once more changes
nothing. -/
theorem Tends.again (hrs : ∀ r ∈ rs, r.space = space) (h : Tends (c.replaced space rs) d)
    (h' : Tends (d.replaced space rs) d') : d' = d :=
  h.eq_of_sameBasis h' (sameBasis_initialized hrs h.sameBasis)

end Replacing

end Content

namespace Store

theorem ensures_withPolicy (space : Space) (c : Content) :
    Ensures (·.content = c) (ensurePolicy space) (fun _ s => s.content = c.withPolicy space)
      (fun _ _ => True) := by
  refine (ensures_provided space c).mono (fun _ h => h) ?_ fun _ _ _ => trivial
  intro created s hs
  unfold Content.withPolicy
  generalize s.content = c' at hs ⊢
  cases hs with
  | kept hsome => rw [if_neg fun hempty => hsome (List.isEmpty_iff.mp hempty)]
  | created hnone hr =>
    obtain ⟨-, rfl⟩ := Resource.create_eq_ok_iff.mp hr
    rw [if_pos (List.isEmpty_iff.mpr hnone)]
    rfl

theorem ensures_initialized (c : Content) :
    Ensures (·.content = c) initializeSpaces (fun _ s => s.content = c.initialized)
      (fun _ _ => True) := by
  have hamong (spaces done : List Space) (c : Content) :
      Ensures (·.content = c) (List.filterAuxM ensurePolicy spaces done)
        (fun _ s => s.content = spaces.foldl Content.withPolicy c) (fun _ _ => True) := by
    induction spaces generalizing done c with
    | nil => exact .pure fun _ h => h
    | cons space spaces ih =>
      exact (ensures_withPolicy space c).bind fun created => ih _ (c.withPolicy space)
  exact (hamong Space.ofUsers [] c).bind fun _ => .pure fun _ h => h

end Store

end ContentSpaces
