import ContentSpaces.Proofs.Draft.Upheld
import ContentSpaces.Proofs.Promotion.Preview

/-!
# Edits are confined

Links and drafts are written in draft only, a promotion writes its target only, and never an
indicator of compromise. This holds whatever the store refuses, the validator objects to and the
registration service answers.
-/

namespace ContentSpaces

namespace Desk

variable {α : Type} {p : Address → Prop} {c : Content}

abbrev Confines (p : Address → Prop) (c : Content) (act : EditM α) (Q : α → Prop) : Prop :=
  Keeps (fun d => c.Confined p d.store.content) act Q

theorem confines_onStore {act : StoreM α} {Q : α → Prop} (h : Store.Confines p c act Q) :
    Confines p c (onStore act) Q := keeps_onStore h

theorem confines_validate (kind : Kind) (document : Json) :
    Confines p c (validate kind document) fun _ => True :=
  keeps_validate (I := fun s => c.Confined p s.content) kind document

theorem confines_require (a : Address) :
    Confines p c (require a) fun r => c.Vouched a.kind a.space r := by
  refine (confines_onStore (Store.confines_get? a)).bind fun found hfound => ?_
  cases found with
  | none => exact .throw
  | some r => exact .pure (hfound r rfl)

end Desk

namespace Draft

open Desk

variable {p : Address → Prop} {c : Content}

variable (hp : ∀ a, a.space = .draft → p a)
include hp

theorem upheld_confined : Upheld (fun s => c.Confined p s.content) fun r => c.Intact → r.Intact where
  get? a := (Store.reads_get? a).confines fun _ hc' r hr =>
    ⟨fun hc => hc'.intact hc a r hr, hc'.filed a r hr⟩
  search kind space := (Store.confines_search kind space).mono fun _ hrs r hr =>
    ⟨(hrs r hr).intact, (hrs r hr).space⟩
  create hr hspace := Store.confines_create (hp _ hspace) hr
  delete _ _ := Store.confines_delete (hp _ rfl)
  recalculate := Store.confines_recalculate fun a _ ha => hp a (List.mem_singleton.mp ha)
  made _ hr := fun _ => Resource.create_intact hr
  rewritten _ _ hr' := fun _ => (Resource.withDocument_keeps hr').2.2

theorem confines_link (parent child : String) (list : RefList) :
    Confines p c (link parent child list) fun _ => True :=
  (upheld_confined hp).link parent child list

theorem confines_unlink (child : String) (list : RefList) :
    Confines p c (unlink child list) fun _ => True := (upheld_confined hp).unlink child list

theorem confines_createLinked {child : Resource} (hown : p child.address)
    (hchild : c.Intact → child.Intact) (parent : String) (list : RefList) :
    Confines p c (createLinked child parent list) fun _ => True :=
  (upheld_confined hp).createLinked (Store.confines_create hown hchild)
    (Store.confines_delete hown) parent list

theorem confines_run (call : Call) : Confines p c call.run fun _ => True :=
  (upheld_confined hp).run call

end Draft

namespace Promotion

open Desk

variable {p : Address → Prop} {c : Content} {target : Space}

/-- The addresses that a promotion into a space may write. -/
def Promotable (target : Space) (a : Address) : Prop := a.space = target ∧ a.kind ≠ .ioc

theorem promotable_of_isContainer {a : Address} (hkind : a.kind.isContainer)
    (hspace : a.space = target) : Promotable target a := by
  refine ⟨hspace, ?_⟩
  intro hioc
  rw [hioc] at hkind
  cases hkind

/-- A step about something else than an indicator of compromise, with a resource from the store. -/
def Step.Vouched (c : Content) : Step → Prop
  | .write _ r => r.kind ≠ .ioc ∧ (c.Intact → r.Intact)
  | .remove kind _ => kind ≠ .ioc
  | .policy r => r.kind ≠ .ioc ∧ (c.Intact → r.Intact)

theorem confines_requireTarget (source : Space) :
    Confines p c (requireTarget source) fun target => source.target? = some target := by
  unfold requireTarget
  split
  · rename_i target htarget
    exact .pure htarget
  · exact .throw

theorem confines_preview (source : Space) : Confines p c (preview source) fun _ => True := by
  refine (confines_requireTarget source).bind fun target _ => ?_
  refine Keeps.mono (Keeps.mapM (Q := fun _ => True) fun kind _ => ?_) fun _ _ => trivial
  refine (confines_onStore ((reads_rowsOf source target kind).confines (Q := fun _ => True)
    fun _ _ => trivial)).bind fun _ _ => .pure trivial

theorem confines_planPolicy (source : Space) (item : Item) :
    Confines p c (planPolicy source item) (Step.Vouched c) := by
  refine (confines_onStore (Store.confines_policy? source)).bind fun found hfound => ?_
  cases found with
  | none => exact .throw
  | some policy =>
    dsimp only
    split
    · refine .pure ⟨?_, (hfound policy rfl).intact⟩
      rw [(hfound policy rfl).kind]
      nofun
    · exact .throw

theorem confines_planItem (source target : Space) {kind : Kind} (hkind : kind ≠ .ioc)
    (item : Item) :
    Confines p c (planItem source target kind item) (Step.Vouched c) := by
  unfold planItem
  split
  · exact .pure hkind
  refine (confines_require _).bind fun r hr => ?_
  have hwrite : Step.Vouched c (.write item.operation r) := by
    refine ⟨?_, hr.intact⟩
    rwa [hr.kind]
  extract_lets conclude
  split
  · refine (confines_onStore ((Store.reads_exists? _).confines (Q := fun _ => True)
      fun _ _ => trivial)).bind fun there _ => ?_
    split
    · exact .throw_bind
    · exact .pure hwrite
  · exact .pure hwrite

theorem confines_plan (request : Request) (target : Space) :
    Confines p c (plan request target) fun steps => ∀ step ∈ steps, step.Vouched c := by
  refine (Keeps.mapM fun item _ => confines_planPolicy request.space item).bind
    fun policies hpolicies => ?_
  refine (Keeps.mapM (Q := fun steps => ∀ step ∈ steps, step.Vouched c) fun kind hkind => ?_).bind
    fun others hothers => .pure fun step hstep => ?_
  · refine Keeps.mapM fun item _ => confines_planItem request.space target ?_ item
    rintro rfl
    revert hkind
    decide
  · obtain hstep | hstep := List.mem_append.mp hstep
    · exact hpolicies step hstep
    · obtain ⟨steps, hsteps, hstep⟩ := List.mem_flatten.mp hstep
      exact hothers steps hsteps step hstep

section Apply

variable (hp : ∀ a, Promotable target a → p a)
include hp

theorem confines_dropOtherPolicies (id : String) :
    Store.Confines p c (dropOtherPolicies target id) fun _ => True := by
  refine (Store.confines_search .policy target).bind fun stales _ => ?_
  refine Keeps.forM fun stale _ => ?_
  split
  · have hstale : Promotable target ⟨.policy, target, stale.id⟩ := ⟨rfl, nofun⟩
    exact (Store.confines_delete (hp _ hstale)).bind fun _ _ => .pure trivial
  · exact .pure trivial

theorem confines_apply {step : Step} (hstep : step.Vouched c) :
    Store.Confines p c (apply target step) fun _ => True := by
  have hcopied {r : Resource} (hr : r.kind ≠ .ioc ∧ (c.Intact → r.Intact)) :
      Store.Confines p c (Store.create (r.inSpace target)) fun _ => True :=
    Store.confines_create (hp _ ⟨rfl, hr.1⟩) fun hc => ⟨(hr.2 hc).document, (hr.2 hc).hash⟩
  cases step with
  | write operation r => exact (hcopied hstep).bind fun _ _ => .pure trivial
  | remove kind id =>
    have hremoved : Promotable target ⟨kind, target, id⟩ := ⟨rfl, hstep⟩
    exact (Store.confines_delete (hp _ hremoved)).bind fun _ _ => .pure trivial
  | policy r =>
    refine (confines_dropOtherPolicies hp r.id).bind fun _ _ => ?_
    exact (hcopied hstep).bind fun _ _ => .pure trivial

end Apply

/-- Without a target nothing is written. -/
theorem confines_execute (excluded : List Space) (request : Request)
    (hp : ∀ target, request.space.target? = some target → ∀ a, Promotable target a → p a) :
    Confines p c (execute excluded request) fun _ => True := by
  refine (confines_requireTarget request.space).bind fun target htarget => ?_
  extract_lets run
  have hrun (u : Unit) : Confines p c (run u) fun _ => True := by
    refine (confines_plan request target).bind fun steps hsteps => ?_
    refine (Keeps.forM fun r _ => confines_validate r.kind r.document).bind fun _ _ => ?_
    refine (confines_onStore (Keeps.mapM (Q := fun _ => True) fun step hstep =>
      confines_apply (hp target htarget) (hsteps step hstep))).bind fun tallies _ => ?_
    extract_lets conclude
    split
    · exact .pure trivial
    · refine Keeps.bind (R := fun _ => True) ?_ fun _ _ => .pure trivial
      rw [map_eq_pure_bind]
      refine (confines_onStore (Store.confines_recalculate fun a hkind ha => ?_)).bind
        fun _ _ => .pure trivial
      exact hp target htarget a (promotable_of_isContainer hkind (List.mem_singleton.mp ha))
  split
  · exact .throw_bind
  · exact hrun ()

end Promotion

end ContentSpaces
