import ContentSpaces.Proofs.Representation

/-!
# One policy per space

The store does not see to it that a space has one policy only. Edits of drafts leave the policies
there are, initialising adds none to a space that has one, and a promotion that brings a policy
removes all others, whatever their IDs.
-/

namespace ContentSpaces

namespace Content

variable {c c' : Content} {space : Space}

def OnePolicy (c : Content) (space : Space) : Prop := (c.collection .policy space).length = 1

theorem OnePolicy.congr (h : c.OnePolicy space)
    (hsame : ∀ id, (c'.get? ⟨.policy, space, id⟩).isSome = (c.get? ⟨.policy, space, id⟩).isSome) :
    c'.OnePolicy space := by
  have hmapped : (c'.collection .policy space).map (fun _ => ()) =
      (c.collection .policy space).map fun _ => () := by
    refine collection_map_congr fun id => ?_
    have hid := hsame id
    revert hid
    cases c'.get? ⟨.policy, space, id⟩ <;> cases c.get? ⟨.policy, space, id⟩ <;> simp
  have hlength := congrArg List.length hmapped
  rw [List.length_map, List.length_map] at hlength
  exact hlength.trans h

theorem OnePolicy.ne_nil (h : c.OnePolicy space) : c.collection .policy space ≠ [] := by
  intro hnil
  rw [OnePolicy, hnil] at h
  cases h

/-- The same policies by their addresses; what they say may differ. -/
structure SamePolicies (c c' : Content) : Prop where
  filed : c'.Filed
  policies : ∀ space id,
    (c'.get? ⟨.policy, space, id⟩).isSome = (c.get? ⟨.policy, space, id⟩).isSome

def Allows (c : Content) (r : Resource) : Prop := r.kind = .policy → (c.get? r.address).isSome

namespace SamePolicies

theorem refl (hc : c.Filed) : SamePolicies c c := ⟨hc, fun _ _ => rfl⟩

theorem allows (h : SamePolicies c c') {a : Address} {r : Resource} (hr : c'.get? a = some r) :
    c.Allows r := by
  intro hkind
  have haddress := h.filed a r hr
  have ha : (⟨.policy, a.space, a.id⟩ : Address) = a := by
    rw [← hkind, show r.kind = a.kind from congrArg Address.kind haddress]
  have hsome := h.policies a.space a.id
  rw [ha, hr] at hsome
  rw [haddress, ← hsome]
  rfl

theorem file (h : SamePolicies c c') {r : Resource} (hr : c.Allows r) :
    SamePolicies c (c'.file r) := by
  refine ⟨h.filed.file r, fun space id => ?_⟩
  rw [get?_file]
  split
  · rename_i ha
    rw [ha]
    exact (hr (congrArg Address.kind ha).symm).symm
  · exact h.policies space id

theorem erase (h : SamePolicies c c') {a : Address} (ha : a.kind ≠ .policy) :
    SamePolicies c (c'.erase a) := by
  refine ⟨forall_get?_of_imp h.filed fun _ _ => get?_of_get?_erase, fun space id => ?_⟩
  rw [Table.get?_erase, if_neg, h.policies]
  rintro rfl
  exact ha rfl

theorem onePolicy (h : SamePolicies c c') (hone : c.OnePolicy space) : c'.OnePolicy space :=
  hone.congr (h.policies space)

end SamePolicies

/-- Every user space has a policy. -/
def Provided (c : Content) : Prop := ∀ space ∈ Space.ofUsers, c.collection .policy space ≠ []

/-- Looking after spaces that have a policy adds none. -/
theorem SamePolicies.upkeeps {mid : Content} (h : SamePolicies c mid) (hc : c.Provided)
    (hkept : Upkeeps mid c') : SamePolicies c c' := by
  induction hkept with
  | refl => exact h
  | @tail before after _ hlast ih =>
    cases hlast with
    | @policy space r hspace hnone _ =>
      obtain ⟨id, hid⟩ := collection_ne_nil_iff.mp (hc space hspace)
      rw [← ih.policies space id] at hid
      exact absurd hnone (collection_ne_nil_iff.mpr ⟨id, hid⟩)
    | @aggregate a r hstored digest =>
      have hallowed : c.Allows r := ih.allows hstored
      exact ih.file hallowed

end Content

namespace Store

variable {α : Type} {c : Content}

/-- However it ends, the work leaves the policies there are. -/
abbrev Retains (c : Content) (act : StoreM α) (Q : α → Prop) : Prop :=
  Keeps (fun s => c.SamePolicies s.content) act Q

theorem retains_create {r : Resource} (hr : c.Allows r) : Retains c (create r) fun _ => True :=
  keeps_create fun _ hc' => hc'.file hr

theorem retains_delete {a : Address} (ha : a.kind ≠ .policy) :
    Retains c (delete a) fun _ => True := keeps_delete fun _ hc' => hc'.erase ha

theorem retains_recalculate (hc : c.Provided) (spaces : List Space) :
    Retains c (recalculate spaces) fun _ => True :=
  keeps_recalculate spaces (fun _ hc' => hc'.filed) fun _ _ hc' hkept => hc'.upkeeps hc hkept

theorem retains_initializeSpaces (hc : c.Provided) :
    Retains c initializeSpaces fun _ => True :=
  keeps_initializeSpaces fun _ _ hc' hkept => hc'.upkeeps hc hkept

end Store

/-- A policy is created nowhere, deleted nowhere, and otherwise written back where it was read. -/
theorem Draft.upheld_policies {c : Content} (hc : c.Provided) :
    Upheld (fun s => c.SamePolicies s.content) c.Allows where
  get? a := (Store.reads_get? a).keeps fun _ hc' r hr => ⟨hc'.allows hr, hc'.filed a r hr⟩
  search kind space := (Store.reads_search kind space).keeps fun c' hc' r hr => by
    obtain ⟨id, hid⟩ := Content.mem_collection_iff.mp hr
    exact ⟨hc'.allows hid, congrArg Address.space (hc'.filed _ r hid)⟩
  create hr _ := Store.retains_create hr
  delete hkind _ := Store.retains_delete hkind
  recalculate := Store.retains_recalculate hc [.draft]
  made hkind hr := by
    obtain ⟨-, rfl⟩ := Resource.create_eq_ok_iff.mp hr
    exact fun hpolicy => absurd hpolicy hkind
  rewritten := by
    intro r r' document hr hid hr' hpolicy
    obtain ⟨-, rfl⟩ := Resource.withDocument_eq_ok_iff.mp hr'
    have haddress : (⟨r.kind, r.space, documentId document⟩ : Address) = r.address := by
      rw [hid]
      rfl
    show (c.get? ⟨r.kind, r.space, documentId document⟩).isSome
    rw [haddress]
    exact hr hpolicy

namespace Desk

inductive Move where
  | draft (call : Draft.Call)
  | link (parent child : String) (list : RefList)
  | unlink (child : String) (list : RefList)
  | recalculate (spaces : List Space)
  | initializeSpaces
  | execute (excluded : List Space) (request : Promotion.Request)

def Move.after : Move → Desk → Desk
  | .draft call => ContentSpaces.after call.run
  | .link parent child list => ContentSpaces.after (Draft.link parent child list)
  | .unlink child list => ContentSpaces.after (Draft.unlink child list)
  | .recalculate spaces => ContentSpaces.after (onStore (Store.recalculate spaces))
  | .initializeSpaces => ContentSpaces.after (onStore Store.initializeSpaces)
  | .execute excluded request => ContentSpaces.after (Promotion.execute excluded request)

/-- The content after calls in turn, on a store that answers. Each call may meet another validator
and another registration service. -/
inductive Moved (c : Content) : Content → Prop
  | refl : Moved c c
  | move {d : Desk} (h : Moved c d.store.content) (hup : d.store.Up) (move : Move) :
      Moved c (move.after d).store.content

end Desk

namespace Promotion

open Desk

variable {d : Desk} {space : Space}

/-- A promotion leaves one policy in its target, if it brings one, and otherwise those there are. -/
theorem onePolicy_execute (hup : d.store.Up) (hfiled : d.store.content.Filed)
    (excluded : List Space) (request : Request) (hone : d.store.content.OnePolicy space) :
    (after (execute excluded request) d).store.content.OnePolicy space := by
  have hspec := ensures_execute (w := d.worktop) hfiled excluded request
  have hat : At d.worktop d := ⟨rfl, hup⟩
  unfold after
  cases hrun : execute excluded request d with
  | error e d' =>
    have hcontent : d'.store.content = d.store.content := (hspec.of_error hat hrun).2
    exact hcontent ▸ hone
  | ok report d' =>
    obtain ⟨target, hexecutable, -, -, hrefreshed, -⟩ := hspec.of_ok hat hrun
    have hcarried := hexecutable.admissible.carriedOut hfiled hrefreshed
    by_cases hspace : space = target
    · subst hspace
      by_cases hpolicy : request.changes.policy = []
      · refine hone.congr fun id => ?_
        have hid := congrArg Option.isSome (hcarried.policies hpolicy id)
        rwa [Option.isSome_map, Option.isSome_map] at hid
      · obtain ⟨p, p', -, halone, -⟩ := hcarried.policy hpolicy
        exact congrArg List.length halone
    · exact hone.congr fun id => congrArg Option.isSome
        (hcarried.elsewhere ⟨.policy, space, id⟩ (.inl hspace))

end Promotion

namespace Desk

variable {c c' : Content}

theorem Move.filed (move : Move) {d : Desk} (hd : d.store.content.Filed) :
    (move.after d).store.content.Filed := by
  have hfiled (op : Operation) : (op.after d).store.content.Filed := (op.confined hd).filed
  have hstore {α : Type} {act : StoreM α} {Q : α → Prop}
      (h : Store.Confines Anywhere d.store.content act Q) :
      (ContentSpaces.after (onStore act) d).store.content.Filed :=
    (Confines.after (confines_onStore h) hd).filed
  cases move with
  | draft call => exact hfiled (.draft call)
  | link parent child list => exact hfiled (.link parent child list)
  | unlink child list => exact hfiled (.unlink child list)
  | recalculate spaces => exact hstore (Store.confines_recalculate fun _ _ _ => trivial)
  | initializeSpaces => exact hstore (Store.confines_initializeSpaces fun _ => trivial)
  | execute excluded request => exact hfiled (.execute excluded request)

theorem Move.onePolicy (move : Move) {d : Desk} (hup : d.store.Up) (hd : d.store.content.Filed)
    (hall : ∀ space ∈ Space.ofUsers, d.store.content.OnePolicy space) :
    ∀ space ∈ Space.ofUsers, (move.after d).store.content.OnePolicy space := by
  have hprovided : d.store.content.Provided := fun space hspace => (hall space hspace).ne_nil
  have hedits := Draft.upheld_policies hprovided
  -- All calls but a promotion leave the policies there are.
  have hkept {α : Type} {act : EditM α} {Q : α → Prop}
      (h : Keeps (fun d' => d.store.content.SamePolicies d'.store.content) act Q) :
      ∀ space ∈ Space.ofUsers, (ContentSpaces.after act d).store.content.OnePolicy space :=
    fun space hspace => (Keeps.after h (.refl hd)).onePolicy (hall space hspace)
  cases move with
  | draft call => exact hkept (hedits.run call)
  | link parent child list => exact hkept (hedits.link parent child list)
  | unlink child list => exact hkept (hedits.unlink child list)
  | recalculate spaces => exact hkept (keeps_onStore (Store.retains_recalculate hprovided spaces))
  | initializeSpaces => exact hkept (keeps_onStore (Store.retains_initializeSpaces hprovided))
  | execute excluded request =>
    exact fun space hspace =>
      Promotion.onePolicy_execute hup hd excluded request (hall space hspace)

/-- Whatever calls are made, and whether or not they succeed, each user space keeps exactly one
policy. -/
theorem Moved.one_policy_per_space (h : Moved c c') (hc : c.Filed)
    (hall : ∀ space ∈ Space.ofUsers, c.OnePolicy space) :
    ∀ space ∈ Space.ofUsers, c'.OnePolicy space := by
  have hboth : c'.Filed ∧ ∀ space ∈ Space.ofUsers, c'.OnePolicy space := by
    induction h with
    | refl => exact ⟨hc, hall⟩
    | move _ hup move ih => exact ⟨move.filed ih.1, move.onePolicy hup ih.1 ih.2⟩
  exact hboth.2

section Trial

def trialPolicies : Content :=
  ((Content.file .empty (Promotion.trialResource .policy .draft "p")).file
    (Promotion.trialResource .policy .test "q")).file (Promotion.trialResource .policy .custom "s")

/-- A desk with the content, whose validator and registration service accept everything. -/
def ofContent (c : Content) : Desk :=
  ⟨.ofContent c, ⟨Validator.acceptAll, 0⟩, .empty Registry.accepting⟩

theorem Moved.again (h : Moved c c') (move : Move) :
    Moved c (move.after (ofContent c')).store.content :=
  .move (d := Desk.ofContent c') h (fun _ _ => rfl) move

def trialPromotion (source : Space) : Move :=
  .execute [] ⟨source, { Promotion.Changes.empty with policy := [⟨.update, "p"⟩] }⟩

def trialPromoted : Content :=
  ((trialPromotion .draft).after (ofContent trialPolicies)).store.content

def trialPromotedTwice : Content :=
  ((trialPromotion .test).after (ofContent trialPromoted)).store.content

theorem moved_trialPromoted : Moved trialPolicies trialPromoted := by
  unfold trialPromoted
  exact Moved.refl.again _

theorem moved_trialPromotedTwice : Moved trialPolicies trialPromotedTwice := by
  unfold trialPromotedTwice
  exact moved_trialPromoted.again _

/-- The policy of draft replaces those of test and custom, which have other IDs. -/
theorem trial_one_policy : trialPromotedTwice.contains ⟨.policy, .custom, "p"⟩ = true ∧
    ∀ space ∈ Space.ofUsers, trialPromotedTwice.OnePolicy space := by
  refine ⟨by decide +kernel, moved_trialPromotedTwice.one_policy_per_space ?_ ?_⟩
  · exact ((Content.Filed.empty.file _).file _).file _
  · unfold Content.OnePolicy
    decide +kernel

end Trial

end Desk

end ContentSpaces
