import ContentSpaces.Proofs.Promotion.Execution

/-!
# What a promotion leaves in the target

Of the items for one ID the last decides, and a policy item makes the policy of the source the only
one. A request that cannot be carried out as a whole is not begun.
-/

namespace ContentSpaces.Promotion

variable {c : Content} {source target : Space} {kind : Kind} {id : String} {item : Item}
  {step : Step} {request : Request}

def Changes.last? (changes : Changes) (kind : Kind) (id : String) : Option Item :=
  ((changes.of kind).filter fun item => item.id == id).getLast?

def Item.outcome? (item : Item) (c : Content) (source target : Space) (kind : Kind) :
    Option Resource :=
  if item.operation = .delete then none
  else (c.get? ⟨kind, source, item.id⟩).map (·.inSpace target)

section Effects

theorem typed_of_mem_steps (hc : c.Filed) (hstep : step ∈ request.steps c) : step.Typed := by
  rintro p rfl
  rw [Request.steps, List.mem_append, List.mem_filterMap, List.mem_flatMap] at hstep
  obtain ⟨item, -, hpolicy⟩ | ⟨kind, -, hitem⟩ := hstep
  · obtain ⟨p', hp', hstep⟩ := Option.map_eq_some_iff.mp hpolicy
    cases hstep
    obtain ⟨id, hid⟩ := Content.mem_collection_iff.mp (List.mem_of_mem_head? hp')
    exact congrArg Address.kind (hc _ _ hid)
  · obtain ⟨item, -, hitem⟩ := List.mem_filterMap.mp hitem
    unfold step? at hitem
    split at hitem
    · cases hitem
    · obtain ⟨r, -, hstep⟩ := Option.map_eq_some_iff.mp hitem
      cases hstep

theorem effect?_of_step? (hc : c.Filed) (target : Space) (kind' : Kind) (id : String)
    (hstep : step? c source kind item = some step) :
    step.effect? target ⟨kind', target, id⟩ =
      if kind' = kind ∧ id = item.id then some (item.outcome? c source target kind) else none := by
  unfold step? at hstep
  unfold Item.outcome?
  split at hstep
  · rename_i hdelete
    cases hstep
    simp only [Step.effect?, Address.mk.injEq, true_and, hdelete, if_true]
  · rename_i hnot
    obtain ⟨r, hr, rfl⟩ := Option.map_eq_some_iff.mp hstep
    have haddress : (r.inSpace target).address = ⟨kind, target, item.id⟩ := by
      have hfiled := hc _ _ hr
      exact Address.mk.injEq .. ▸ ⟨congrArg Address.kind hfiled, rfl, congrArg Address.id hfiled⟩
    rw [Step.effect?, haddress, hr, if_neg hnot]
    simp only [Address.mk.injEq, true_and, Option.map_some]

theorem filterMap_effect?_items (hc : c.Filed) {items : List Item}
    (hsteps : ∀ item ∈ items, (step? c source kind item).isSome) :
    (items.filterMap (step? c source kind)).filterMap (Step.effect? target ⟨kind, target, id⟩) =
      (items.filter fun item => item.id == id).map (·.outcome? c source target kind) := by
  induction items with
  | nil => rfl
  | cons item items ih =>
    obtain ⟨hfirst, hrest⟩ := List.forall_mem_cons.mp hsteps
    obtain ⟨step, hstep⟩ := Option.isSome_iff_exists.mp hfirst
    rw [List.filterMap_cons_some hstep, List.filterMap_cons, effect?_of_step? hc _ _ _ hstep,
      ih hrest]
    by_cases hid : id = item.id
    · simp [hid]
    · simp [hid, Ne.symm hid]

theorem flatMap_eq_of_forall_ne {α β : Type} {l : List α} {f : α → List β} {a : α}
    (hnodup : l.Nodup) (ha : a ∈ l) (h : ∀ b ∈ l, b ≠ a → f b = []) : l.flatMap f = f a := by
  obtain ⟨front, back, rfl⟩ := List.append_of_mem ha
  have hfront (b : α) (hb : b ∈ front) : f b = [] := by
    refine h b (by simp [hb]) ?_
    rintro rfl
    exact (List.nodup_append.mp hnodup).2.2 b hb b List.mem_cons_self rfl
  have hback (b : α) (hb : b ∈ back) : f b = [] := by
    refine h b (by simp [hb]) ?_
    rintro rfl
    exact (List.nodup_cons.mp (List.nodup_append.mp hnodup).2.1).1 hb
  rw [List.flatMap_append, List.flatMap_cons, List.flatMap_eq_nil_iff.mpr hfront,
    List.flatMap_eq_nil_iff.mpr hback, List.nil_append, List.append_nil]

theorem filterMap_effect?_items_of_ne (hc : c.Filed) {kind' : Kind} (hkind : kind ≠ kind')
    (items : List Item) : (items.filterMap (step? c source kind')).filterMap
      (Step.effect? target ⟨kind, target, id⟩) = [] := by
  refine List.filterMap_eq_nil_iff.mpr fun step hstep => ?_
  obtain ⟨item, -, hitem⟩ := List.mem_filterMap.mp hstep
  rw [effect?_of_step? hc _ _ _ hitem, if_neg fun h => hkind h.1]

theorem filterMap_effect?_itemised (hc : c.Filed) (hkind : kind ∉ itemised) :
    (itemised.flatMap fun kind =>
      (request.changes.of kind).filterMap (step? c source kind)).filterMap
        (Step.effect? target ⟨kind, target, id⟩) = [] := by
  rw [List.filterMap_flatMap]
  refine List.flatMap_eq_nil_iff.mpr fun kind' hkind' => ?_
  refine filterMap_effect?_items_of_ne hc (fun h => hkind ?_) _
  rwa [h]

theorem filterMap_effect?_policies (hkind : kind ≠ .policy) (items : List Item) :
    (items.filterMap fun _ => policyStep? c source).filterMap
      (Step.effect? target ⟨kind, target, id⟩) = [] := by
  refine List.filterMap_eq_nil_iff.mpr fun step hstep => ?_
  obtain ⟨item, -, hitem⟩ := List.mem_filterMap.mp hstep
  obtain ⟨p, -, rfl⟩ := Option.map_eq_some_iff.mp hitem
  rw [Step.effect?, if_neg fun h => hkind h.1]

theorem Step.effect?_of_space_ne {a : Address} (h : a.space ≠ target) (step : Step) :
    step.effect? target a = none := by
  cases step with
  | write _ r =>
    refine if_neg ?_
    rintro rfl
    exact h rfl
  | remove kind id =>
    refine if_neg ?_
    rintro rfl
    exact h rfl
  | policy p => exact if_neg fun ha => h ha.2

end Effects

section Outcome

theorem Resolvable.isSome_step? (h : Resolvable c source target kind item) :
    (step? c source kind item).isSome := by
  unfold step?
  split
  · rfl
  · rename_i hnot
    rw [Option.isSome_map]
    exact h.source hnot

theorem PolicyFound.policyStep? (h : PolicyFound c source item) :
    (policyStep? c source).isSome := by
  obtain ⟨policy, hpolicy, -⟩ := h
  rw [Promotion.policyStep?, hpolicy]
  rfl

theorem Request.Admissible.isSome_step? (h : request.Admissible c target) (hkind : kind ∈ itemised) :
    ∀ item ∈ request.changes.of kind, (step? c request.space kind item).isSome := by
  obtain ⟨hpromotable, hne⟩ := mem_itemised_iff.mp hkind
  exact fun item hitem => (h.items kind hpromotable hne item hitem).isSome_step?

theorem Request.Admissible.length_steps (h : request.Admissible c target) :
    (request.steps c).length = request.changes.size := by
  have hpolicies : (request.changes.policy.filterMap fun _ => policyStep? c request.space).length =
      request.changes.policy.length :=
    List.filterMap_length_eq_length.mpr fun item hitem => (h.policies item hitem).policyStep?
  have hitems : (itemised.flatMap fun kind =>
      (request.changes.of kind).filterMap (step? c request.space kind)).length =
        (itemised.flatMap request.changes.of).length := by
    rw [List.length_flatMap, List.length_flatMap]
    refine congrArg List.sum (List.map_congr_left fun kind hkind => ?_)
    exact List.filterMap_length_eq_length.mpr (h.isSome_step? hkind)
  have hsize : request.changes.size =
      request.changes.policy.length + (itemised.flatMap request.changes.of).length := by
    have hpromotable : Kind.promotable = .policy :: itemised := rfl
    rw [Changes.size, hpromotable, List.flatMap_cons, List.length_append]
    rfl
  rw [steps, List.length_append, hpolicies, hitems, hsize]

/-- The last item for an ID decides what the steps leave there. -/
theorem Request.Admissible.get?_applied (h : request.Admissible c target) (hc : c.Filed)
    (hkind : kind ∈ itemised) (id : String) :
    ((request.steps c).foldl (Step.applied target) c).get? ⟨kind, target, id⟩ =
      match request.changes.last? kind id with
      | some item => item.outcome? c request.space target kind
      | none => c.get? ⟨kind, target, id⟩ := by
  have hne := (mem_itemised_iff.mp hkind).2
  have heffects : (request.steps c).filterMap (Step.effect? target ⟨kind, target, id⟩) =
      ((request.changes.of kind).filter fun item => item.id == id).map
        (·.outcome? c request.space target kind) := by
    rw [steps, List.filterMap_append, filterMap_effect?_policies hne, List.nil_append,
      List.filterMap_flatMap, flatMap_eq_of_forall_ne (by decide) hkind, filterMap_effect?_items hc (h.isSome_step? hkind)]
    exact fun kind' _ hkind' => filterMap_effect?_items_of_ne hc hkind'.symm _
  rw [get?_foldl_applied (fun step => typed_of_mem_steps hc), heffects, List.getLast?_map,
    ← Changes.last?]
  cases request.changes.last? kind id <;> rfl

/-- A policy item leaves one policy. -/
theorem Request.get?_applied_policy (hc : c.Filed) (hitems : request.changes.policy ≠ [])
    {p : Resource} (hp : c.policy? request.space = some p) (id : String) :
    ((request.steps c).foldl (Step.applied target) c).get? ⟨.policy, target, id⟩ =
      if id = p.id then some (p.inSpace target) else none := by
  have hpolicies (items : List Item) : (items.filterMap fun _ =>
      policyStep? c request.space).filterMap (Step.effect? target ⟨.policy, target, id⟩) =
        items.map fun _ => if id = p.id then some (p.inSpace target) else none := by
    rw [policyStep?, hp]
    induction items with
    | nil => rfl
    | cons item items ih =>
      rw [List.map_cons, ← ih]
      simp [Step.effect?]
  rw [get?_foldl_applied (fun step => typed_of_mem_steps hc), steps, List.filterMap_append,
    filterMap_effect?_itemised hc (by decide), List.append_nil, hpolicies, List.getLast?_map,
    List.getLast?_eq_some_getLast hitems]
  rfl

/-- Other spaces and the kinds without item stay as they are. -/
theorem Request.get?_applied_of_untouched (hc : c.Filed) {a : Address}
    (ha : a.space ≠ target ∨ a.kind = .policy ∧ request.changes.policy = [] ∨ a.kind = .ioc) :
    ((request.steps c).foldl (Step.applied target) c).get? a = c.get? a := by
  have heffects : (request.steps c).filterMap (Step.effect? target a) = [] := by
    by_cases hspace : a.space = target
    · obtain ⟨kind, space, id⟩ := a
      obtain rfl : space = target := hspace
      obtain hne | ⟨rfl, hnil⟩ | rfl := ha
      · exact absurd rfl hne
      · rw [steps, List.filterMap_append, filterMap_effect?_itemised hc (by decide), hnil]
        rfl
      · rw [steps, List.filterMap_append, filterMap_effect?_itemised hc (by decide),
          filterMap_effect?_policies (by decide)]
        rfl
    · exact List.filterMap_eq_nil_iff.mpr fun step _ => step.effect?_of_space_ne hspace
  rw [get?_foldl_applied (fun step => typed_of_mem_steps hc), heffects]
  rfl

end Outcome

section CarriedOut

open Desk

/-- What carrying out a request makes of the content, up to aggregates in the target. -/
structure Request.CarriedOut (request : Request) (target : Space) (c c' : Content) : Prop where
  items : ∀ kind ∈ Kind.promotable, kind ≠ .policy → ∀ id,
    (c'.get? ⟨kind, target, id⟩).map Resource.bare =
      match request.changes.last? kind id with
      | some item => item.outcome? c request.space target kind
      | none => (c.get? ⟨kind, target, id⟩).map Resource.bare
  policy : request.changes.policy ≠ [] → ∃ p p', c.policy? request.space = some p ∧
    c'.collection .policy target = [p'] ∧ p'.bare = p.inSpace target
  policies : request.changes.policy = [] → ∀ id,
    (c'.get? ⟨.policy, target, id⟩).map Resource.bare =
      (c.get? ⟨.policy, target, id⟩).map Resource.bare
  elsewhere : ∀ a, a.space ≠ target ∨ a.kind = .ioc → c'.get? a = c.get? a

theorem Item.outcome?_map_bare (item : Item) (c : Content) (source target : Space) (kind : Kind) :
    (item.outcome? c source target kind).map Resource.bare =
      item.outcome? c source target kind := by
  unfold outcome?
  split
  · rfl
  · rw [Option.map_map]
    rfl

theorem Request.Admissible.carriedOut (h : request.Admissible c target) (hc : c.Filed)
    {excluded : List Space} {c' : Content} (hrefreshed : Content.Refreshed
      (refreshes excluded target) ((request.steps c).foldl (Step.applied target) c) c') :
    request.CarriedOut target c c' := by
  constructor
  · intro kind hpromotable hne id
    rw [hrefreshed.sameBare, h.get?_applied hc (mem_itemised_iff.mpr ⟨hpromotable, hne⟩)]
    cases request.changes.last? kind id with
    | none => rfl
    | some item => exact item.outcome?_map_bare c request.space target kind
  · -- The steps leave one policy at the ID of the source's, which may then have been refreshed.
    intro hitems
    obtain ⟨item, hitem⟩ := List.exists_mem_of_ne_nil _ hitems
    obtain ⟨p, hp, -⟩ := h.policies item hitem
    have hlookup (id : String) : ∃ r : Resource, r.bare = p.inSpace target ∧
        c'.get? ⟨.policy, target, id⟩ = if id = p.id then some r else none := by
      rw [hrefreshed, Request.get?_applied_policy hc hitems hp]
      by_cases hid : id = p.id
      · simp only [hid, if_true, Option.map_some]
        refine ⟨_, ?_, rfl⟩
        split <;> rfl
      · simp only [hid, if_false, Option.map_none]
        exact ⟨p.inSpace target, rfl, trivial⟩
    obtain ⟨p', hbare, hp'⟩ := hlookup p.id
    have halone (id : String) : c'.get? ⟨.policy, target, id⟩ = if id = p.id then some p' else none := by
      by_cases hid : id = p.id
      · rw [hid, hp']
      · obtain ⟨r, -, hr⟩ := hlookup id
        rw [hr, if_neg hid, if_neg hid]
    exact ⟨p, p', hp, Content.collection_eq_singleton halone, hbare⟩
  · intro hnil id
    rw [hrefreshed.sameBare, Request.get?_applied_of_untouched hc (.inr (.inl ⟨rfl, hnil⟩))]
  · intro a ha
    have huntouched : a.space ≠ target ∨ a.kind = .policy ∧ request.changes.policy = [] ∨
        a.kind = .ioc := ha.imp id .inr
    have hkept : refreshes excluded target a = false := by
      obtain hspace | hkind := ha
      · simp [refreshes, hspace]
      · simp [refreshes, hkind, Kind.isContainer]
    rw [hrefreshed, hkept, Request.get?_applied_of_untouched hc huntouched]
    simp

variable {d : Desk}

/-- An execution succeeds exactly if the request can be carried out, and then carries it out and
counts every item; otherwise it leaves the content as it was. -/
theorem execute_all_or_nothing (hup : d.store.Up) (hfiled : d.store.content.Filed)
    (excluded : List Space) (request : Request) :
    ((∃ report d', execute excluded request d = .ok report d') ↔
      ∃ target, request.Executable d.worktop target) ∧
    (∀ report d', execute excluded request d = .ok report d' →
      request.space.target? = some report.target ∧
      request.CarriedOut report.target d.store.content d'.store.content ∧
      report.tally.added + report.tally.updated + report.tally.removed +
        report.tally.missingRemovals = request.changes.size) ∧
    ∀ e d', execute excluded request d = .error e d' → d'.store.content = d.store.content := by
  have hspec := ensures_execute (w := d.worktop) hfiled excluded request
  have hat : At d.worktop d := ⟨rfl, hup⟩
  refine ⟨⟨?_, ?_⟩, ?_, ?_⟩
  · rintro ⟨report, d', hrun⟩
    obtain ⟨target, hexecutable, -⟩ := hspec.of_ok hat hrun
    exact ⟨target, hexecutable⟩
  · intro hexecutable
    cases hrun : execute excluded request d with
    | ok report d' => exact ⟨report, d', rfl⟩
    | error e d' => exact absurd hexecutable (hspec.of_error hat hrun).1
  · intro report d' hrun
    obtain ⟨target, hexecutable, rfl, htotal, hrefreshed, -⟩ := hspec.of_ok hat hrun
    have hadmissible := hexecutable.admissible
    refine ⟨hexecutable.promotes, hadmissible.carriedOut hfiled hrefreshed, ?_⟩
    exact htotal.trans hadmissible.length_steps
  · intro e d' hrun
    exact (hspec.of_error hat hrun).2

end CarriedOut

section Trial

def trialResource (kind : Kind) (space : Space) (id : String) : Resource :=
  ⟨kind, .object [("id", .string id)], space, none, id⟩

/-- A draft with a policy and a rule, and a test space with a policy and a rule of its own. -/
def trialDesk : Desk where
  store := .ofContent ((((Content.file .empty (trialResource .policy .draft "p")).file
    (trialResource .rule .draft "r")).file (trialResource .policy .test "q")).file
    (trialResource .rule .test "s"))
  validator := ⟨Validator.acceptAll, 0⟩
  registry := .empty Registry.accepting

def trialRequest : Request :=
  ⟨.draft, { Changes.empty with
    policy := [⟨.update, "p"⟩], rules := [⟨.add, "r"⟩, ⟨.delete, "s"⟩, ⟨.delete, "s"⟩] }⟩

theorem up_trialDesk : trialDesk.store.Up := fun _ _ => rfl

theorem filed_trialDesk : trialDesk.store.content.Filed :=
  (((Content.Filed.empty.file _).file _).file _).file _

theorem trial_all_or_nothing : trialDesk.store.Up ∧ trialDesk.store.content.Filed ∧
    ∃ report d', execute [] trialRequest trialDesk = .ok report d' ∧
      trialRequest.CarriedOut report.target trialDesk.store.content d'.store.content ∧
      report.tally.added + report.tally.updated + report.tally.removed +
        report.tally.missingRemovals = 4 := by
  refine ⟨up_trialDesk, filed_trialDesk, ?_⟩
  have hends : (match execute [] trialRequest trialDesk with
      | .ok _ _ => true
      | .error _ _ => false) = true := by
    decide +kernel
  cases hrun : execute [] trialRequest trialDesk with
  | error e d' =>
    rw [hrun] at hends
    cases hends
  | ok report d' =>
    obtain ⟨-, hok, -⟩ := execute_all_or_nothing up_trialDesk filed_trialDesk [] trialRequest
    obtain ⟨-, hcarried, hcounted⟩ := hok report d' hrun
    exact ⟨report, d', rfl, hcarried, hcounted⟩

end Trial

end ContentSpaces.Promotion
