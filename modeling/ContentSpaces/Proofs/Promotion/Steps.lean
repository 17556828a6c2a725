import ContentSpaces.Promotion.Execution
import ContentSpaces.Proofs.Aggregate
import ContentSpaces.Proofs.Desk

/-!
# Executing a promotion

A request is resolved against the content before its first write, so what it will do is a list of
steps that depends on the content alone. The last step about an address decides what stands there.
-/

namespace ContentSpaces

namespace Promotion

def itemised : List Kind := Kind.promotable.filter (· != .policy)

theorem mem_itemised_iff {kind : Kind} :
    kind ∈ itemised ↔ kind ∈ Kind.promotable ∧ kind ≠ .policy := by
  rw [itemised, List.mem_filter, bne_iff_ne]

def step? (c : Content) (source : Space) (kind : Kind) (item : Item) : Option Step :=
  if item.operation = .delete then some (.remove kind item.id)
  else (c.get? ⟨kind, source, item.id⟩).map (.write item.operation)

def policyStep? (c : Content) (source : Space) : Option Step := (c.policy? source).map .policy

namespace Request

def steps (request : Request) (c : Content) : List Step :=
  (request.changes.policy.filterMap fun _ => policyStep? c request.space) ++
    itemised.flatMap fun kind => (request.changes.of kind).filterMap (step? c request.space kind)

/-- The resources that the request copies, in the order in which it does. -/
def written (request : Request) (c : Content) : List Resource :=
  (request.steps c).filterMap Step.written?

end Request

def PolicyFound (c : Content) (source : Space) (item : Item) : Prop :=
  ∃ policy, c.policy? source = some policy ∧ policy.id = item.id

structure Resolvable (c : Content) (source target : Space) (kind : Kind) (item : Item) : Prop where
  source : item.operation ≠ .delete → (c.get? ⟨kind, source, item.id⟩).isSome
  target : item.operation = .add → c.get? ⟨kind, target, item.id⟩ = none

/-- The request can be carried out, apart from what the validator says. -/
structure Request.Admissible (request : Request) (c : Content) (target : Space) : Prop where
  updates : ∀ item ∈ request.changes.policy, item.operation = .update
  policies : ∀ item ∈ request.changes.policy, PolicyFound c request.space item
  items : ∀ kind ∈ Kind.promotable, kind ≠ .policy → ∀ item ∈ request.changes.of kind,
    Resolvable c request.space target kind item

section Plan

open Desk

variable {w : Worktop} {source target : Space} {kind : Kind}

theorem ensures_planPolicy (source : Space) (item : Item) :
    Ensures (At w) (planPolicy source item)
      (fun step d => (PolicyFound w.content source item ∧
        policyStep? w.content source = some step) ∧ At w d)
      (fun _ d => ¬ PolicyFound w.content source item ∧ At w d) := by
  refine Ensures.bind (ensures_onStore_of_reads (Store.reads_policy? source)
    (Store.answers_policy? source)) fun found => .of_and fun hfound => ?_
  replace hfound : w.content.policy? source = found := hfound.symm
  cases found with
  | none =>
    refine .throw fun d hd => ⟨?_, hd⟩
    rintro ⟨policy, hpolicy, -⟩
    cases hfound.symm.trans hpolicy
  | some policy =>
    dsimp only
    split
    · rename_i hid
      refine .pure fun d hd => ⟨⟨⟨policy, hfound, hid⟩, ?_⟩, hd⟩
      rw [policyStep?, hfound]
      rfl
    · rename_i hid
      refine .throw fun d hd => ⟨?_, hd⟩
      rintro ⟨policy', hpolicy', hid'⟩
      cases hfound.symm.trans hpolicy'
      exact hid hid'

theorem ensures_planItem (source target : Space) (kind : Kind) (item : Item) :
    Ensures (At w) (planItem source target kind item)
      (fun step d => (Resolvable w.content source target kind item ∧
        step? w.content source kind item = some step) ∧ At w d)
      (fun _ d => ¬ Resolvable w.content source target kind item ∧ At w d) := by
  unfold planItem step?
  split
  · rename_i hdelete
    refine .pure fun d hd => ⟨⟨⟨fun hnot => absurd hdelete hnot, fun hadd => ?_⟩, rfl⟩, hd⟩
    rw [hdelete] at hadd
    cases hadd
  · rename_i hnot
    refine Ensures.bind ((ensures_require ⟨kind, source, item.id⟩).mono_error ?_) fun r =>
      .of_and fun hr => ?_
    · rintro _ d ⟨hnone, hd⟩
      refine ⟨fun h => ?_, hd⟩
      have hsome := h.source hnot
      rw [hnone] at hsome
      cases hsome
    have hsource : item.operation ≠ .delete → (w.content.get? ⟨kind, source, item.id⟩).isSome := by
      intro _
      rw [hr]
      rfl
    have hstep : (w.content.get? ⟨kind, source, item.id⟩).map (Step.write item.operation) =
        some (Step.write item.operation r) := by
      rw [hr]
      rfl
    extract_lets conclude
    split
    · refine Ensures.bind (ensures_onStore_of_reads (Store.reads_exists? _)
        (Store.Answers.bind (.call _ _) fun _ => .pure _)) fun there => .of_and fun hthere => ?_
      split
      · rename_i hadd htrue
        refine .throw_bind fun d hd => ⟨fun h => ?_, hd⟩
        rw [htrue, h.target hadd] at hthere
        cases hthere
      · rename_i hfalse
        refine .pure fun d hd => ⟨⟨⟨hsource, fun _ => ?_⟩, hstep⟩, hd⟩
        rw [Bool.not_eq_true] at hfalse
        rw [hfalse] at hthere
        exact Option.not_isSome_iff_eq_none.mp (hthere ▸ Bool.false_ne_true)
    · rename_i hadd
      exact .pure fun d hd => ⟨⟨⟨hsource, fun h => absurd h hadd⟩, hstep⟩, hd⟩

theorem ensures_planItems (source target : Space) (kind : Kind) (items : List Item) :
    Ensures (At w) (items.mapM (planItem source target kind))
      (fun steps d => ((∀ item ∈ items, Resolvable w.content source target kind item) ∧
        some (items.filterMap (step? w.content source kind)) = some steps) ∧ At w d)
      (fun _ d => (¬ ∀ item ∈ items, Resolvable w.content source target kind item) ∧ At w d) := by
  refine (Ensures.mapM_filterMap fun item _ => ensures_planItem source target kind item).mono_ok ?_
  rintro steps d ⟨⟨hall, rfl⟩, hd⟩
  exact ⟨⟨hall, rfl⟩, hd⟩

def Request.Planned (request : Request) (c : Content) (target : Space) : Prop :=
  (∀ item ∈ request.changes.policy, PolicyFound c request.space item) ∧
    ∀ kind ∈ itemised, ∀ item ∈ request.changes.of kind,
      Resolvable c request.space target kind item

theorem ensures_plan (request : Request) (target : Space) :
    Ensures (At w) (plan request target)
      (fun steps d => (request.Planned w.content target ∧ steps = request.steps w.content) ∧ At w d)
      (fun _ d => ¬ request.Planned w.content target ∧ At w d) := by
  refine Ensures.bind ((Ensures.mapM_filterMap fun item _ =>
    ensures_planPolicy request.space item).mono_error ?_) fun policies => .of_and fun hpolicies => ?_
  · rintro _ d ⟨hnot, hd⟩
    exact ⟨fun h => hnot h.1, hd⟩
  refine Ensures.bind ((Ensures.mapM_filterMap fun kind _ => ensures_planItems request.space target
    kind (request.changes.of kind)).mono_error ?_) fun others => .of_and fun hothers => .pure ?_
  · rintro _ d ⟨hnot, hd⟩
    exact ⟨fun h => hnot h.2, hd⟩
  intro d hd
  refine ⟨⟨⟨hpolicies.1, hothers.1⟩, ?_⟩, hd⟩
  rw [hpolicies.2, hothers.2, Request.steps, List.flatMap_def, ← List.filterMap_eq_map]
  rfl

end Plan

section Steps

variable {c : Content} {target : Space} {a : Address} {step : Step} {steps : List Step}

/-- What a step puts at an address of the target, if it is about the address. -/
def Step.effect? (target : Space) (a : Address) : Step → Option (Option Resource)
  | .write _ r => if a = (r.inSpace target).address then some (some (r.inSpace target)) else none
  | .remove kind id => if a = ⟨kind, target, id⟩ then some none else none
  | .policy p =>
    if a.kind = .policy ∧ a.space = target then
      some (if a.id = p.id then some (p.inSpace target) else none)
    else none

def withoutOtherPolicies (c : Content) (target : Space) (id : String) : Content :=
  c.filterKeys fun a => !(a.kind == .policy && a.space == target && a.id != id)

def Step.applied (target : Space) (c : Content) : Step → Content
  | .write _ r => c.file (r.inSpace target)
  | .remove kind id => c.erase ⟨kind, target, id⟩
  | .policy p => (withoutOtherPolicies c target p.id).file (p.inSpace target)

def Step.Typed (step : Step) : Prop := ∀ p, step = .policy p → p.kind = .policy

theorem get?_withoutOtherPolicies (c : Content) (target : Space) (id : String) (a : Address) :
    (withoutOtherPolicies c target id).get? a =
      if a.kind = .policy ∧ a.space = target ∧ a.id ≠ id then none else c.get? a := by
  unfold withoutOtherPolicies
  rw [Table.get?_filterKeys]
  by_cases h : a.kind = .policy ∧ a.space = target ∧ a.id ≠ id
  · simp [h]
  · have hkept : (!(a.kind == .policy && a.space == target && a.id != id)) = true := by
      simpa [Decidable.imp_iff_not_or, or_assoc] using h
    rw [if_neg h, if_pos hkept]

theorem Step.get?_applied (htyped : step.Typed) (target : Space) (c : Content) (a : Address) :
    (step.applied target c).get? a = (step.effect? target a).getD (c.get? a) := by
  cases step with
  | write operation r =>
    rw [applied, effect?, Content.get?_file]
    split <;> rfl
  | remove kind id =>
    rw [applied, effect?, Table.get?_erase]
    split <;> rfl
  | policy p =>
    have haddress : (p.inSpace target).address = ⟨.policy, target, p.id⟩ := by
      rw [Resource.address, Resource.inSpace, htyped p rfl]
      rfl
    rw [applied, effect?, Content.get?_file, get?_withoutOtherPolicies, haddress]
    obtain ⟨kind, space, id⟩ := a
    by_cases hpolicy : kind = .policy ∧ space = target
    · obtain ⟨rfl, rfl⟩ := hpolicy
      by_cases hid : id = p.id <;> simp [hid]
    · have hne : ¬ (⟨kind, space, id⟩ : Address) = ⟨.policy, target, p.id⟩ := by
        rintro ⟨⟩
        exact hpolicy ⟨rfl, rfl⟩
      rw [if_neg hne, if_neg fun h => hpolicy ⟨h.1, h.2.1⟩, if_neg hpolicy]
      rfl

theorem Step.filed_applied (hc : c.Filed) (target : Space) (step : Step) :
    (step.applied target c).Filed := by
  cases step with
  | write _ r => exact hc.file _
  | remove kind id => exact Content.forall_get?_of_imp hc fun _ _ => Content.get?_of_get?_erase
  | policy p =>
    refine Content.Filed.file (Content.forall_get?_of_imp hc fun a r hr => ?_) _
    rw [get?_withoutOtherPolicies] at hr
    split at hr
    · cases hr
    · exact hr

theorem filed_foldl_applied (hc : c.Filed) (target : Space) (steps : List Step) :
    (steps.foldl (Step.applied target) c).Filed := by
  induction steps generalizing c with
  | nil => exact hc
  | cons step steps ih => exact ih (step.filed_applied hc target)

/-- The last step about an address decides what stands there. -/
theorem get?_foldl_applied (htyped : ∀ step ∈ steps, step.Typed) (target : Space) (c : Content)
    (a : Address) : (steps.foldl (Step.applied target) c).get? a =
      (steps.filterMap (Step.effect? target a)).getLast?.getD (c.get? a) := by
  -- The later steps start from what the first has left, so the content is any.
  induction steps generalizing c with
  | nil => rfl
  | cons step steps ih =>
    obtain ⟨hfirst, hrest⟩ := List.forall_mem_cons.mp htyped
    rw [List.foldl_cons, ih hrest, Step.get?_applied hfirst, List.filterMap_cons]
    cases step.effect? target a with
    | none => rfl
    | some effect =>
      simp only [Option.getD_some, List.getLast?_cons]

end Steps

section Apply

open Store

variable {c : Content} {target : Space} {step : Step} {steps : List Step}

def Tally.total (t : Tally) : Nat := t.added + t.updated + t.removed + t.missingRemovals

theorem Tally.total_foldl {ts : List Tally} (h : ∀ t ∈ ts, t.total = 1) (start : Tally) :
    (ts.foldl add start).total = start.total + ts.length := by
  induction ts generalizing start with
  | nil => rfl
  | cons t ts ih =>
    obtain ⟨hfirst, hrest⟩ := List.forall_mem_cons.mp h
    have hadd : (start.add t).total = start.total + t.total := by
      simp only [total, add]
      omega
    rw [List.foldl_cons, ih hrest, hadd, hfirst, List.length_cons]
    omega

theorem ensures_dropAmong (target : Space) (id : String) (stales : List Resource) (c : Content) :
    Ensures (·.content = c)
      (stales.forM fun stale => do
        if stale.id ≠ id then
          let _ ← Store.delete ⟨.policy, target, stale.id⟩)
      (fun _ s => ∀ a, s.content.get? a =
        if ∃ stale ∈ stales, stale.id ≠ id ∧ a = ⟨.policy, target, stale.id⟩ then none
        else c.get? a)
      (fun _ _ => True) := by
  induction stales generalizing c with
  | nil =>
    refine .pure fun s hs a => ?_
    rw [if_neg (by simp), hs]
  | cons stale stales ih =>
    refine Ensures.bind (R := fun _ s => s.content =
      if stale.id ≠ id then c.erase ⟨.policy, target, stale.id⟩ else c) ?_ fun _ => ?_
    · dsimp only
      split
      · exact Ensures.bind ((ensures_delete _ c).mono_error fun _ _ _ => trivial) fun _ =>
          .pure fun _ hs => hs
      · exact .pure fun _ hs => hs
    refine (ih _).mono_ok fun _ s hs a => ?_
    rw [hs a]
    simp only [List.mem_cons, exists_eq_or_imp]
    by_cases hlater : ∃ stale ∈ stales, stale.id ≠ id ∧ a = ⟨.policy, target, stale.id⟩
    · rw [if_pos hlater, if_pos (.inr hlater)]
    · rw [if_neg hlater]
      by_cases hid : stale.id = id
      · simp [hid, hlater]
      · by_cases ha : a = ⟨.policy, target, stale.id⟩
        · simp [hid, ha, Table.get?_erase]
        · simp [hid, ha, hlater, Table.get?_erase]

theorem ensures_dropOtherPolicies (hc : c.Filed) (target : Space) (id : String) :
    Ensures (·.content = c) (dropOtherPolicies target id)
      (fun _ s => s.content = withoutOtherPolicies c target id) (fun _ _ => True) := by
  refine Ensures.bind ((reads_search .policy target c).mono_error fun _ _ _ => trivial)
    fun stales => .of_and fun hstales => ?_
  subst hstales
  refine (ensures_dropAmong target id _ c).mono_ok fun _ s hs => Table.ext_get? fun a => ?_
  rw [hs a, get?_withoutOtherPolicies]
  by_cases hstale : a.kind = .policy ∧ a.space = target ∧ a.id ≠ id
  · rw [if_pos hstale]
    obtain ⟨hkind, hspace, hid⟩ := hstale
    split
    · rfl
    · rename_i hnone
      -- A policy that the search has not found is not there.
      cases hr : c.get? a with
      | none => rfl
      | some r =>
        have haddress : (⟨.policy, target, a.id⟩ : Address) = a := by rw [← hkind, ← hspace]
        have hrid : r.id = a.id := congrArg Address.id (hc a r hr)
        refine absurd ⟨r, Content.mem_collection_iff.mpr ⟨a.id, ?_⟩, ?_, ?_⟩ hnone
        · rw [haddress, hr]
        · rwa [hrid]
        · rw [hrid, haddress]
  · rw [if_neg hstale, if_neg]
    rintro ⟨stale, -, hid, rfl⟩
    exact hstale ⟨rfl, rfl, hid⟩

theorem ensures_apply (hc : c.Filed) (target : Space) (step : Step) :
    Ensures (·.content = c) (apply target step)
      (fun t s => t.total = 1 ∧ s.content = step.applied target c) (fun _ _ => True) := by
  cases step with
  | write operation r =>
    refine Ensures.bind ((ensures_create _ c).mono_error fun _ _ _ => trivial) fun _ =>
      .pure fun s hs => ⟨?_, hs⟩
    split <;> rfl
  | remove kind id =>
    refine Ensures.bind ((ensures_delete _ c).mono_error fun _ _ _ => trivial) fun _ =>
      .pure fun s hs => ⟨?_, hs⟩
    split <;> rfl
  | policy p =>
    refine Ensures.bind (ensures_dropOtherPolicies hc target p.id) fun _ =>
      Ensures.bind ((ensures_create _ _).mono_error fun _ _ _ => trivial) fun _ =>
        .pure fun s hs => ⟨rfl, hs⟩

theorem ensures_applyAll (hc : c.Filed) (target : Space) (steps : List Step) :
    Ensures (·.content = c) (steps.mapM (apply target))
      (fun ts s => ((∀ t ∈ ts, t.total = 1) ∧ ts.length = steps.length) ∧
        s.content = steps.foldl (Step.applied target) c)
      (fun _ _ => True) := by
  induction steps generalizing c with
  | nil => exact .mapM_nil fun s hs => ⟨⟨List.forall_mem_nil _, rfl⟩, hs⟩
  | cons step steps ih =>
    refine .mapM_cons (ensures_apply hc target step) fun t => .of_and fun ht => ?_
    refine (ih (step.filed_applied hc target)).mono_ok ?_
    rintro ts s ⟨⟨hts, hlength⟩, hs⟩
    exact ⟨⟨List.forall_mem_cons.mpr ⟨ht, hts⟩, congrArg (· + 1) hlength⟩, hs⟩

theorem answers_dropOtherPolicies (target : Space) (id : String) :
    Answers (dropOtherPolicies target id) := by
  refine Answers.bind (.call _ _) fun stales => ?_
  induction stales with
  | nil => exact .pure _
  | cons stale stales ih =>
    refine Answers.bind ?_ fun _ => ih
    dsimp only
    split
    · exact Answers.bind (.call _ _) fun _ => .pure _
    · exact .pure _

theorem answers_apply (target : Space) (step : Step) : Answers (apply target step) := by
  cases step with
  | write operation r => exact Answers.bind (.call _ _) fun _ => .pure _
  | remove kind id => exact Answers.bind (.call _ _) fun _ => .pure _
  | policy p =>
    exact (answers_dropOtherPolicies target p.id).bind fun _ =>
      Answers.bind (.call _ _) fun _ => .pure _

end Apply

end Promotion

end ContentSpaces
