import ContentSpaces.Proofs.Draft.Lists
import Mathlib.Data.List.Induction

/-!
# References among drafts

Containers refer to drafts by ID. Creating, updating and deleting drafts keeps the references sound
with one exception: the document of a new integration may come with references of its own, which
nothing backs.
-/

namespace ContentSpaces.Draft

open Content

variable {c c' : Content} {r : Resource} {list : RefList} {id parent : String} {kind : Kind}
  {d : Desk} {call : Call}

/-- The children of integrations exist and have one parent each, and the policy lists every
integration and filter. -/
structure Integral (c : Content) : Prop where
  present : ∀ list ∈ RefList.hashOrder, ∀ i child, child ∈ c.listed list i →
    c.Drafted list.childKind child
  owned : ∀ list ∈ RefList.hashOrder, ∀ child, c.Drafted list.childKind child →
    ∃ i, ∀ j, (c.listed list j).count child = if j = i then 1 else 0
  policy : ∀ list ∈ [RefList.integrations, RefList.filters], ∀ child,
    c.Drafted list.childKind child → ∃ p, c.policy? .draft = some p ∧
      (p.references list).count child = 1

/-- Draft has one policy, and on every list each draft stands once in all. -/
structure Sound (c : Content) : Prop where
  policy : ∃ p, ∀ id, c.Drafted .policy id ↔ id = p
  present : ∀ list i child, child ∈ c.listed list i → c.Drafted list.childKind child
  owned : ∀ list child, c.Drafted list.childKind child →
    ∃ i, ∀ j, (c.listed list j).count child = if j = i then 1 else 0

theorem mem_listed_of_count {i child : String} (h : (c.listed list i).count child = 1) :
    child ∈ c.listed list i := by
  apply List.count_pos_iff.mp
  omega

theorem Integral.listed_once (h : Integral c) (hlist : list ∈ RefList.hashOrder) {child i j : String}
    (hi : child ∈ c.listed list i) (hj : child ∈ c.listed list j) : i = j := by
  obtain ⟨owner, howner⟩ := h.owned list hlist child (h.present list hlist i child hi)
  have howned (k : String) (hk : child ∈ c.listed list k) : k = owner := by
    have hcount := howner k
    have hpositive := List.count_pos_iff.mpr hk
    apply Classical.byContradiction
    intro hne
    rw [if_neg hne] at hcount
    omega
  rw [howned i hi, howned j hj]

section Invariant

theorem Sound.congr (h : Sound c) (hbare : SameBare c c') : Sound c' := by
  obtain ⟨⟨p, hp⟩, hpresent, howned⟩ := h
  refine ⟨⟨p, fun id => (hbare.drafted_iff _ _).trans (hp id)⟩, ?_, ?_⟩
  · intro list i child hchild
    rw [hbare.listed_eq] at hchild
    exact (hbare.drafted_iff _ _).mpr (hpresent list i child hchild)
  · intro list child hchild
    rw [hbare.listed_eq]
    exact howned list child ((hbare.drafted_iff _ _).mp hchild)

theorem Sound.policy?_ne_none (h : Sound c) : c.policy? .draft ≠ none := by
  obtain ⟨p, hp⟩ := h.policy
  have hne : c.collection .policy .draft ≠ [] :=
    collection_ne_nil_iff.mpr ⟨p, (hp p).mpr rfl⟩
  rw [policy?, ne_eq, List.head?_eq_none_iff]
  exact hne

theorem Sound.integral (h : Sound c) (hc : c.Filed) : Integral c := by
  refine ⟨fun list _ => h.present list, fun list _ => h.owned list, ?_⟩
  intro list hlist child hchild
  obtain ⟨p, hp⟩ := h.policy
  have hcontainer : list.containerKind = .policy := by
    rcases List.mem_cons.mp hlist with rfl | hlist
    · rfl
    · rw [List.mem_singleton.mp hlist]
      rfl
  obtain ⟨i, hi⟩ := h.owned list child hchild
  have hcount : (c.listed list i).count child = 1 := by rw [hi i, if_pos rfl]
  have hdrafted := drafted_of_mem_listed (mem_listed_of_count hcount)
  rw [hcontainer] at hdrafted
  obtain rfl := (hp i).mp hdrafted
  obtain ⟨policy, hpolicy⟩ := Option.ne_none_iff_exists'.mp h.policy?_ne_none
  have hstored := hc.get?_of_policy? hpolicy
  have hid : policy.id = i := (hp _).mp (by rw [Drafted, hstored]; rfl)
  refine ⟨policy, hpolicy, ?_⟩
  rw [listed, hcontainer, ← hid, hstored] at hcount
  exact hcount

/-- A new draft without references of its own is listed by its parent alone. -/
theorem Sound.placed (h : Sound c) (hc : c.Filed) (hintact : c.Intact) (hr : r.Intact)
    (hspace : r.space = .draft) (hpolicy : r.kind ≠ .policy) (hlist : list.childKind = r.kind)
    (hparent : c.Drafted list.containerKind parent) (hfresh : ¬ c.Drafted r.kind r.id)
    (hbare : ∀ list' : RefList, list'.containerKind = r.kind → r.references list' = []) :
    Sound (Draft.placed c r (some (parent, list))) := by
  have hdrafted (k : Kind) (i : String) : (Draft.placed c r (some (parent, list))).Drafted k i ↔
      k = r.kind ∧ i = r.id ∨ c.Drafted k i := drafted_placed hspace k i
  have hunlisted (j : String) : r.id ∉ c.listed list j := fun hmem =>
    hfresh (hlist ▸ h.present list j r.id hmem)
  -- The draft is new, so its parent cannot have listed it before.
  have hlisted (list' : RefList) (j : String) :
      (Draft.placed c r (some (parent, list))).listed list' j =
        if list' = list ∧ j = parent then c.listed list' j ++ [r.id] else c.listed list' j := by
    rw [listed_placed hc hintact.storable hr.storable hspace hlist hparent]
    by_cases hself : list'.containerKind = r.kind ∧ j = r.id
    · have hnone : c.listed list' j = [] := by
        apply listed_eq_nil_of_not_drafted
        rwa [hself.1, hself.2]
      have hother : ¬ (list' = list ∧ j = parent) := by
        rintro ⟨rfl, -⟩
        exact list'.childKind_ne_containerKind (hlist.trans hself.1.symm)
      rw [if_pos hself, if_neg hother, hnone, hbare list' hself.1]
    · rw [if_neg hself]
      by_cases hplace : list' = list ∧ j = parent
      · obtain ⟨rfl, rfl⟩ := hplace
        simp [hunlisted]
      · rw [if_neg hplace, if_neg fun h => hplace ⟨h.1, h.2.1⟩]
  refine ⟨?_, ?_, ?_⟩
  · obtain ⟨p, hp⟩ := h.policy
    refine ⟨p, fun id => ?_⟩
    rw [hdrafted, ← hp id]
    simp [Ne.symm hpolicy]
  · intro list' j child hchild
    rw [hdrafted]
    rw [hlisted] at hchild
    split at hchild
    · rename_i hplace
      obtain hold | hnew := List.mem_append.mp hchild
      · exact .inr (h.present list' j child hold)
      · rw [hplace.1]
        exact .inl ⟨hlist, List.mem_singleton.mp hnew⟩
    · exact .inr (h.present list' j child hchild)
  · intro list' child hchild
    by_cases hnew : list'.childKind = r.kind ∧ child = r.id
    · obtain ⟨hkind, rfl⟩ := hnew
      obtain rfl : list' = list := RefList.childKind_injective (hkind.trans hlist.symm)
      refine ⟨parent, fun j => ?_⟩
      rw [hlisted]
      have hzero := List.count_eq_zero.mpr (hunlisted j)
      by_cases hj : j = parent
      · rw [if_pos ⟨rfl, hj⟩, if_pos hj, List.count_append, hzero, List.count_singleton_self]
      · rw [if_neg fun h => hj h.2, if_neg hj, hzero]
    · obtain ⟨i, hi⟩ := h.owned list' child (((hdrafted _ _).mp hchild).resolve_left hnew)
      refine ⟨i, fun j => ?_⟩
      rw [hlisted, ← hi j]
      split
      · rename_i hplace
        have hne : r.id ≠ child := by
          rintro rfl
          exact hnew ⟨hplace.1 ▸ hlist, rfl⟩
        rw [List.count_append, List.count_singleton, beq_false_of_ne hne]
        simp
      · rfl

theorem Sound.rewritten (h : Sound c) {stored : Resource}
    (hstored : c.get? ⟨r.kind, .draft, r.id⟩ = some stored) (hspace : r.space = .draft)
    (hkept : ∀ list : RefList, list.containerKind = r.kind →
      r.references list = stored.references list) : Sound (c.file r) := by
  have hdrafted (k : Kind) (i : String) : (c.file r).Drafted k i ↔ c.Drafted k i := by
    rw [drafted_file hspace]
    refine ⟨?_, .inr⟩
    rintro (⟨rfl, rfl⟩ | hold)
    · rw [Drafted, hstored]
      rfl
    · exact hold
  have hlisted := listed_file_of_kept hstored hspace hkept
  obtain ⟨⟨p, hp⟩, hpresent, howned⟩ := h
  refine ⟨⟨p, fun id => (hdrafted _ _).trans (hp id)⟩, ?_, ?_⟩
  · intro list i child hchild
    rw [hlisted] at hchild
    exact (hdrafted _ _).mpr (hpresent list i child hchild)
  · intro list child hchild
    rw [hlisted]
    exact howned list child ((hdrafted _ _).mp hchild)

theorem Sound.removed (h : Sound c) (hc : c.Filed) (hintact : c.Intact) (hpolicy : kind ≠ .policy)
    (hchildless : ∀ list : RefList, list.containerKind = kind → c.listed list id = []) :
    Sound (Draft.removed c kind id) := by
  have hdrafted (k : Kind) (i : String) := drafted_removed c kind id k i
  have hlisted (list : RefList) (j : String) := listed_removed hc hintact.storable kind id list j
  refine ⟨?_, ?_, ?_⟩
  · obtain ⟨p, hp⟩ := h.policy
    refine ⟨p, fun id' => ?_⟩
    rw [hdrafted, ← hp id']
    simp [Ne.symm hpolicy]
  · intro list j child hchild
    rw [hlisted] at hchild
    rw [hdrafted]
    split at hchild
    · cases hchild
    · split at hchild
      · obtain ⟨hold, hne⟩ := List.mem_filter.mp hchild
        refine ⟨?_, h.present list j child hold⟩
        rintro ⟨-, rfl⟩
        simp at hne
      · rename_i hkind
        exact ⟨fun hgone => hkind hgone.1, h.present list j child hchild⟩
  · intro list child hchild
    obtain ⟨hkept, hold⟩ := (hdrafted _ _).mp hchild
    obtain ⟨i, hi⟩ := h.owned list child hold
    refine ⟨i, fun j => ?_⟩
    rw [hlisted, ← hi j]
    split
    · rename_i hself
      rw [hself.2, hchildless list hself.1]
    · split
      · rename_i hkind
        have hne : child ≠ id := fun hid => hkept ⟨hkind, hid⟩
        exact List.count_filter (by simpa using hne)
      · rfl

end Invariant

section Step

/-- The ID of a new draft is one that no draft of its kind has. -/
def Call.Fresh (call : Call) (d : Desk) : Prop :=
  ∀ id kind document parent, call = .create id kind document parent →
    ¬ d.store.content.Drafted kind id

/-- The call creates an integration from a document that refers to children. -/
def Call.BringsChildren (call : Call) (d : Desk) : Prop :=
  call.Succeeds d ∧ ∃ id document parent, call = .create id .integration document parent ∧
    ∃ list ∈ RefList.hashOrder, document.listing list ≠ []

/-- While draft has a policy, every draft has a place to be linked to. -/
theorem Sound.exists_position (h : Sound c) (hkind : kind ≠ .policy ∧ kind ≠ .ioc)
    {parent : Option String} {position : Option (String × RefList)} (hposition : Placed c kind parent position) :
    ∃ container list, position = some (container, list) := by
  cases position with
  | some position => exact ⟨position.1, position.2, rfl⟩
  | none =>
    exfalso
    obtain ⟨hpolicy, hioc⟩ := hkind
    have hlisted : ∃ list : RefList, list.childKind = kind := by
      cases kind <;> first
        | exact absurd rfl hpolicy
        | exact absurd rfl hioc
        | exact ⟨.integrations, rfl⟩
        | exact ⟨.decoders, rfl⟩
        | exact ⟨.kvdbs, rfl⟩
        | exact ⟨.rules, rfl⟩
        | exact ⟨.filters, rfl⟩
    obtain ⟨list, hlist⟩ := hlisted
    exact h.policy?_ne_none (hposition list hlist).2

/-- References stay sound unless a new integration brings children. -/
theorem Sound.after (h : Sound d.store.content) (hd : Ready d) (hfresh : call.Fresh d)
    (hbare : ¬ call.BringsChildren d) : Sound (call.after d).store.content := by
  obtain ⟨-, hvoid⟩ | ⟨hsucceeds, c, g, hworked, hrefreshed, -⟩ := hd.void_or_done call
  · have hcontent : (call.after d).store.content = d.store.content := hvoid.content
    exact hcontent ▸ h
  refine Sound.congr ?_ hrefreshed.sameBare
  cases hworked with
  | create hkind hposition hr =>
    rename_i id kind fs parent position r
    obtain ⟨hintact, rfl, hspace, rfl, hreferences⟩ := created hr
    obtain ⟨parent, list, rfl⟩ := h.exists_position hkind hposition
    refine h.placed hd.filed hd.intact hintact hspace hkind.1 hposition.1 hposition.2.1
      (hfresh _ _ _ _ rfl) fun list hlist => ?_
    rw [hreferences]
    apply Classical.byContradiction
    intro hbrings
    have hintegration : list.containerKind = .integration :=
      (containerKind_eq list).resolve_right fun hpolicy => hkind.1 (hlist.symm.trans hpolicy)
    rw [← hlist, hintegration] at hsucceeds hbare
    exact hbare ⟨hsucceeds, _, _, _, rfl, list, mem_hashOrder_iff.mpr hintegration, hbrings⟩
  | update hstored hr =>
    obtain ⟨-, rfl, hspace, rfl, hlists⟩ := updated (hd.filed _ _ hstored) hr
    exact h.rewritten hstored hspace hlists
  | delete hstored hkind hchildless =>
    rename_i kind id stored
    replace hstored : d.store.content.get? ⟨kind, .draft, id⟩ = some stored := hstored
    exact h.removed hd.filed hd.intact hkind fun list =>
      listed_eq_nil_of_childless hstored hkind hchildless

/-- A new integration that brings children makes the references unsound. -/
theorem Sound.not_integral_after (h : Sound d.store.content) (hd : Ready d) (hfresh : call.Fresh d)
    (hbrings : call.BringsChildren d) : ¬ Integral (call.after d).store.content := by
  intro hintegral
  obtain ⟨hsucceeds, id, document, parent, rfl, list, hlist, hne⟩ := hbrings
  obtain ⟨hfails, -⟩ | ⟨-, c, g, hworked, hrefreshed, -⟩ :=
    hd.void_or_done (.create id .integration document parent)
  · exact hfails hsucceeds
  have hbare := hrefreshed.sameBare
  cases hworked with
  | create hkind hposition hr =>
    rename_i fs position r
    obtain ⟨hintact, hintegration, hspace, rfl, hreferences⟩ := created hr
    obtain ⟨above, list', rfl⟩ := h.exists_position hkind hposition
    rw [← hintegration] at hposition
    have hcontainer := mem_hashOrder_iff.mp hlist
    have hchildKind : list.childKind ≠ r.kind := by
      rw [hintegration, ← hcontainer]
      exact list.childKind_ne_containerKind
    have hlisted (j : String) : ((Call.create r.id .integration (.object fs) parent).after
        d).store.content.listed list j =
          if j = r.id then r.references list else d.store.content.listed list j := by
      rw [hbare.listed_eq]
      refine (listed_placed hd.filed hd.intact.storable hintact.storable hspace hposition.1
        hposition.2.1 _ _).trans ?_
      by_cases hj : j = r.id
      · rw [if_pos ⟨hcontainer.trans hintegration.symm, hj⟩, if_pos hj]
      · rw [if_neg fun h => hj h.2, if_neg hj, if_neg]
        rintro ⟨rfl, -⟩
        exact hchildKind hposition.1
    obtain ⟨child, hchild⟩ := List.exists_mem_of_ne_nil _ hne
    rw [← hreferences] at hchild
    have hnew : child ∈ ((Call.create r.id .integration (.object fs) parent).after
        d).store.content.listed list r.id := by
      rwa [hlisted, if_pos rfl]
    -- If the child exists, its parent lists it as well, and has done so before.
    have hdrafted : d.store.content.Drafted list.childKind child := by
      have hpresent := hintegral.present list hlist r.id child hnew
      rw [hbare.drafted_iff, drafted_placed hspace] at hpresent
      exact hpresent.resolve_left fun h => hchildKind h.1
    obtain ⟨i, hi⟩ := h.owned list child hdrafted
    have hold : child ∈ d.store.content.listed list i :=
      mem_listed_of_count (by rw [hi i, if_pos rfl])
    have hother : i ≠ r.id := by
      rintro rfl
      have hparent := drafted_of_mem_listed hold
      rw [hcontainer] at hparent
      exact hfresh _ _ _ _ rfl hparent
    have hkept : child ∈ ((Call.create r.id .integration (.object fs) parent).after
        d).store.content.listed list i := by
      rwa [hlisted, if_neg hother]
    exact hother (hintegral.listed_once hlist hkept hnew)

end Step

section Session

theorem Begun.sound (h : Begun d) : Sound d.store.content := by
  have hdefault := h.ofDefaults
  have hfiled := h.ready.filed
  have hpolicy {k : Kind} {i : String} {r : Resource}
      (hr : d.store.content.get? ⟨k, .draft, i⟩ = some r) :
      k = .policy ∧ i = Store.defaultPolicyId ∧ r.document = Store.defaultPolicyDocument := by
    have haddress := hfiled _ _ hr
    obtain ⟨hkind, hdocument⟩ := hdefault _ _ hr
    have hid : r.id = Store.defaultPolicyId := by
      rw [Resource.id, hdocument]
      rfl
    exact ⟨(congrArg Address.kind haddress).symm.trans hkind,
      (congrArg Address.id haddress).symm.trans hid, hdocument⟩
  have hunlisted (list : RefList) (i : String) : d.store.content.listed list i = [] := by
    rw [listed]
    cases hr : d.store.content.get? ⟨list.containerKind, .draft, i⟩ with
    | none => rfl
    | some r =>
      show r.references list = []
      rw [Resource.references, (hpolicy hr).2.2]
      cases list <;> rfl
  refine ⟨⟨Store.defaultPolicyId, fun id => ⟨?_, ?_⟩⟩, ?_, ?_⟩
  · intro hid
    obtain ⟨r, hr⟩ := Option.isSome_iff_exists.mp hid
    exact (hpolicy hr).2.1
  · rintro rfl
    obtain ⟨i, hi⟩ := collection_ne_nil_iff.mp h.upkeeps.2
    obtain ⟨r, hr⟩ := Option.isSome_iff_exists.mp hi
    rwa [(hpolicy hr).2.1] at hi
  · intro list i child hchild
    rw [hunlisted] at hchild
    cases hchild
  · intro list child hchild
    obtain ⟨r, hr⟩ := Option.isSome_iff_exists.mp hchild
    have hkind := (hpolicy hr).1
    cases list <;> cases hkind

variable {calls : List Call}

theorem sound_afterAll (hd : Begun d)
    (hfresh : ∀ part call, part ++ [call] <+: calls → call.Fresh (afterAll part d))
    (hbare : ∀ part call, part ++ [call] <+: calls → Sound (afterAll part d).store.content →
      ¬ call.BringsChildren (afterAll part d)) (part : List Call) (hpart : part <+: calls) :
    Sound (afterAll part d).store.content := by
  -- From the end: the last call finds the references that the calls before it have left.
  induction part using List.reverseRecOn with
  | nil => exact hd.sound
  | append_singleton part call ih =>
    have hsound := ih ((List.prefix_append part [call]).trans hpart)
    rw [afterAll_concat]
    exact hsound.after (hd.ready.afterAll part) (hfresh part call hpart)
      (hbare part call hpart hsound)

/-- The references are sound in every state of a session exactly if no new integration brings
children. -/
theorem integral_iff (hd : Begun d)
    (hfresh : ∀ part call, part ++ [call] <+: calls → call.Fresh (afterAll part d)) :
    (∀ part, part <+: calls → Integral (afterAll part d).store.content) ↔
      ∀ part call, part ++ [call] <+: calls → ¬ call.BringsChildren (afterAll part d) := by
  have hready (part : List Call) : Ready (afterAll part d) := hd.ready.afterAll part
  constructor
  · intro hintegral
    have hbare (part : List Call) (call : Call) (hpart : part ++ [call] <+: calls)
        (hsound : Sound (afterAll part d).store.content) :
        ¬ call.BringsChildren (afterAll part d) := by
      intro hbrings
      refine hsound.not_integral_after (hready part) (hfresh part call hpart) hbrings ?_
      rw [← afterAll_concat]
      exact hintegral _ hpart
    intro part call hpart
    have hbefore : part <+: calls := (List.prefix_append part [call]).trans hpart
    exact hbare part call hpart (sound_afterAll hd hfresh hbare part hbefore)
  · intro hbare part hpart
    have hsound := sound_afterAll hd hfresh (fun part call hcall _ => hbare part call hcall) part hpart
    exact hsound.integral (hready part).filed

end Session

section Trial

theorem prefix_pair {part : List Call} {call a b : Call} (h : part ++ [call] <+: [a, b]) :
    part = [] ∧ call = a ∨ part = [a] ∧ call = b := by
  cases part with
  | nil =>
    obtain ⟨rest, hrest⟩ := h
    exact .inl ⟨rfl, (List.cons.inj hrest).1⟩
  | cons first part =>
    obtain ⟨rest, hrest⟩ := h
    obtain ⟨hfirst, hsecond⟩ := List.cons.inj hrest
    subst hfirst
    cases part with
    | nil => exact .inr ⟨rfl, (List.cons.inj hsecond).1⟩
    | cons second part =>
      have hnil := (List.cons.inj hsecond).2
      cases part <;> cases hnil

theorem fresh_trial (part : List Call) (call : Call)
    (h : part ++ [call] <+: [trialIntegration, trialRule]) :
    call.Fresh (afterAll part trialDesk) := by
  have hfirst : ¬ trialDesk.store.content.Drafted .integration "i" := by decide +kernel
  have hsecond : ¬ (trialIntegration.after trialDesk).store.content.Drafted .rule "r" := by
    decide +kernel
  rintro id kind document parent rfl
  obtain ⟨rfl, hcall⟩ | ⟨rfl, hcall⟩ := prefix_pair h
  · cases hcall
    exact hfirst
  · cases hcall
    rw [afterAll_singleton]
    exact hsecond

theorem trial_integral : Begun trialDesk ∧
    (∀ part call, part ++ [call] <+: [trialIntegration, trialRule] →
      call.Fresh (afterAll part trialDesk)) ∧
    ∀ part, part <+: [trialIntegration, trialRule] →
      Integral (afterAll part trialDesk).store.content := by
  refine ⟨begun_trialDesk, fresh_trial, (integral_iff begun_trialDesk fresh_trial).mpr ?_⟩
  rintro part call hpart ⟨-, id, document, parent, rfl, list, hlist, hne⟩
  obtain ⟨-, hcall⟩ | ⟨-, hcall⟩ := prefix_pair hpart
  · cases hcall
    apply hne
    cases list <;> rfl
  · cases hcall

def trialGhost : Call :=
  .create "i" .integration
    (.object [("decoders", .array [.string "ghost"]), ("title", .string "I")]) none

theorem ghost_not_integral : Begun trialDesk ∧ trialGhost.Fresh trialDesk ∧
    ¬ Integral (afterAll [trialGhost] trialDesk).store.content := by
  have hfresh : trialGhost.Fresh trialDesk := by
    have hnone : ¬ trialDesk.store.content.Drafted .integration "i" := by decide +kernel
    rintro id kind document parent hcall
    cases hcall
    exact hnone
  have hsucceeds : trialGhost.Succeeds trialDesk := by decide +kernel
  refine ⟨begun_trialDesk, hfresh, ?_⟩
  rw [afterAll_singleton]
  exact begun_trialDesk.sound.not_integral_after begun_trialDesk.ready hfresh
    ⟨hsucceeds, _, _, _, rfl, .decoders, by decide, by decide⟩

end Trial

end ContentSpaces.Draft
