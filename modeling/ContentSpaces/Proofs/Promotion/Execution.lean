import ContentSpaces.Proofs.Promotion.Steps

/-!
# When a promotion succeeds and what it does
-/

namespace ContentSpaces.Promotion

open Desk

variable {w : Worktop} {source target : Space} {request : Request}

theorem ensures_requireTarget (source : Space) :
    Ensures (At w) (requireTarget source) (fun target d => source.target? = some target ∧ At w d)
      (fun _ d => source.target? = none ∧ At w d) := by
  unfold requireTarget
  cases h : source.target? with
  | some target => exact .pure fun d hd => ⟨rfl, hd⟩
  | none => exact .throw fun d hd => ⟨rfl, hd⟩

/-- The request can be carried out, and the validator has no objection. -/
structure Request.Executable (request : Request) (w : Worktop) (target : Space) : Prop where
  promotes : request.space.target? = some target
  admissible : request.Admissible w.content target
  accepted : w.validator.Accepts (request.written w.content)

theorem Request.admissible_iff {c : Content} : request.Admissible c target ↔
    (∀ item ∈ request.changes.policy, item.operation = .update) ∧ request.Planned c target := by
  constructor
  · intro h
    refine ⟨h.updates, h.policies, fun kind hkind => ?_⟩
    obtain ⟨hpromotable, hne⟩ := mem_itemised_iff.mp hkind
    exact h.items kind hpromotable hne
  · rintro ⟨hupdates, hpolicies, hitems⟩
    exact ⟨hupdates, hpolicies, fun kind hkind hne => hitems kind (mem_itemised_iff.mpr ⟨hkind, hne⟩)⟩

/-- The containers whose aggregates an execution brings up to date. -/
def refreshes (excluded : List Space) (target : Space) (a : Address) : Bool :=
  !excluded.contains target && (a.space == target && a.kind.isContainer)

theorem ensures_refresh (hfiled : w.content.Filed) (excluded : List Space) (target : Space)
    {E : EditError → Desk → Prop} :
    Ensures (At w)
      (if excluded.contains target then pure none
        else some <$> onStore (Store.recalculate [target]))
      (fun _ d => Content.Refreshed (refreshes excluded target) w.content d.store.content ∧
        d.store.Up) E := by
  split
  · rename_i hexcluded
    refine .pure fun d hd => ⟨?_, hd.up⟩
    rw [hd.content]
    refine (Content.Refreshed.refl _).congr fun a r hr => ?_
    rw [refreshes, hexcluded]
    rfl
  · rename_i hincluded
    rw [map_eq_pure_bind]
    refine Ensures.bind (ensures_onStore (Q := fun _ c => Content.Refreshed
      (refreshes excluded target) w.content c) (R := fun _ _ => True) ?_
      (Store.answers_recalculate [target])) fun report => .of_exists fun c => .of_and fun hc => ?_
    · refine Ensures.bind ((Store.ensures_recalculateAmong [target] hfiled).mono_error
        fun _ _ _ => trivial) fun _ => .pure ?_
      rintro s ⟨hrefreshed, -⟩
      refine hrefreshed.congr fun a r hr => ?_
      rw [Bool.not_eq_true] at hincluded
      rw [refreshes, hincluded, List.contains_cons, List.contains_nil, Bool.or_false]
      rfl
    · refine .pure fun d hd => ⟨?_, hd.up⟩
      rw [hd.content]
      exact hc

/-- An execution either carries out all steps of an executable request or leaves the content alone
because the request is not executable. -/
theorem ensures_execute (hfiled : w.content.Filed) (excluded : List Space) (request : Request) :
    Ensures (At w) (execute excluded request)
      (fun report d => ∃ target, request.Executable w target ∧ report.target = target ∧
        report.tally.total = (request.steps w.content).length ∧
        Content.Refreshed (refreshes excluded target)
          ((request.steps w.content).foldl (Step.applied target) w.content) d.store.content ∧
        d.store.Up)
      (fun _ d => (¬ ∃ target, request.Executable w target) ∧ d.store.content = w.content) := by
  refine Ensures.bind ((ensures_requireTarget request.space).mono_error ?_) fun target =>
    .of_and fun htarget => ?_
  · rintro _ d ⟨hnone, hd⟩
    refine ⟨?_, hd.content⟩
    rintro ⟨target, h⟩
    cases hnone.symm.trans h.promotes
  have hunique {target' : Space} (h : request.Executable w target') : target' = target :=
    Option.some.inj (h.promotes.symm.trans htarget)
  extract_lets run
  have hrun (hupdates : ∀ item ∈ request.changes.policy, item.operation = .update) :
      Ensures (At w) (run ())
        (fun report d => ∃ target, request.Executable w target ∧ report.target = target ∧
          report.tally.total = (request.steps w.content).length ∧
          Content.Refreshed (refreshes excluded target)
            ((request.steps w.content).foldl (Step.applied target) w.content) d.store.content ∧
          d.store.Up)
        (fun _ d => (¬ ∃ target, request.Executable w target) ∧ d.store.content = w.content) := by
    refine Ensures.bind ((ensures_plan request target).mono_error ?_) fun steps =>
      .of_and fun hplan => ?_
    · rintro _ d ⟨hnot, hd⟩
      refine ⟨?_, hd.content⟩
      rintro ⟨target', h⟩
      obtain rfl := hunique h
      exact hnot (Request.admissible_iff.mp h.admissible).2
    obtain ⟨hplanned, rfl⟩ := hplan
    refine Ensures.bind ((ensures_validateAll _).mono_error ?_) fun _ => .of_and fun haccepted => ?_
    · rintro _ d ⟨hnot, v, hd⟩
      refine ⟨?_, hd.content⟩
      rintro ⟨target', h⟩
      exact hnot h.accepted
    have hexecutable : request.Executable w target :=
      ⟨htarget, Request.admissible_iff.mpr ⟨hupdates, hplanned⟩, haccepted⟩
    refine Ensures.bind (ensures_onStore (Q := fun ts c =>
      ((∀ t ∈ ts, t.total = 1) ∧ ts.length = (request.steps w.content).length) ∧
        c = (request.steps w.content).foldl (Step.applied target) w.content)
      (ensures_applyAll hfiled target _) (.mapM (answers_apply target) _)) fun ts =>
        .of_exists fun c => .of_and fun hts => ?_
    obtain ⟨⟨hones, hlength⟩, rfl⟩ := hts
    have htotal : (ts.foldl Tally.add .empty).total = (request.steps w.content).length := by
      rw [Tally.total_foldl hones, hlength]
      exact Nat.zero_add _
    extract_lets conclude
    rw [← apply_ite (· >>= conclude)]
    refine Ensures.bind (ensures_refresh (filed_foldl_applied hfiled target _) excluded target)
      fun report => .pure ?_
    rintro d ⟨hrefreshed, hup⟩
    exact ⟨target, hexecutable, rfl, htotal, hrefreshed, hup⟩
  split
  · rename_i item hitem
    refine .throw_bind fun d hd => ⟨?_, hd.content⟩
    rintro ⟨target', h⟩
    have hupdate := h.admissible.updates item (List.mem_of_find?_eq_some hitem)
    have hnot := List.find?_some hitem
    simp [hupdate] at hnot
  · rename_i hnone
    refine hrun fun item hitem => ?_
    simpa using List.find?_eq_none.mp hnone item hitem

end ContentSpaces.Promotion
