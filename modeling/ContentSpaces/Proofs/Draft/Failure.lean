import ContentSpaces.Proofs.Draft.Sessions
import ContentSpaces.Proofs.Registration

/-!
# Draft calls that fail

Whatever a call can object to it objects to before its first write, and of its requests only the
deletion of a registration can fail it. So a failed call leaves the content and what is registered as
they were.
-/

namespace ContentSpaces

namespace Registry

variable {g g' : Registry} {task : Task}

theorem registered_answer_of_error {refusal : Option RegistrationError} {e : RegistrationError}
    (h : g.answer task refusal = (.error e, g')) : g'.registered = g.registered := by
  unfold answer at h
  extract_lets counted at h
  have hcounted : counted.registered = g.registered := by
    unfold counted
    split <;> rfl
  cases refusal with
  | some e' => exact (Prod.mk.inj h).2 ▸ hcounted
  | none =>
    dsimp only at h
    split at h
    · cases (Prod.mk.inj h).1
    · exact (Prod.mk.inj h).2 ▸ hcounted

/-- A request that is refused leaves what is registered alone. -/
theorem registered_request_of_error {e : RegistrationError}
    (h : request task g = (.error e, g')) : g'.registered = g.registered :=
  (registered_answer_of_error h).trans (took_start g task).registered

end Registry

namespace Draft

open Desk

theorem Declined.registered {g g' : Registry} (h : Declined g g') :
    g'.registered = g.registered := by
  obtain rfl | ⟨kind, id, e, hrefused, -⟩ := h
  · rfl
  · exact Registry.registered_request_of_error hrefused

/-- A call that fails changes neither the content nor what is registered, and it has made no request
but for a deletion that was refused. -/
theorem run_error_changes_nothing {d d' : Desk} {e : EditError} {call : Call} (hup : d.store.Up)
    (hfiled : d.store.content.Filed) (hstorable : d.store.content.Storable)
    (hrun : call.run d = .error e d') :
    d'.store.content = d.store.content ∧ Declined d.registry d'.registry ∧
      d'.registry.registered = d.registry.registered := by
  have hvoid : Void d.worktop d' :=
    (ensures_run (w := d.worktop) hfiled hstorable call).of_error ⟨rfl, hup⟩ hrun
  exact ⟨hvoid.content, hvoid.registry, hvoid.registry.registered⟩

section Trial

def refusingDesk : Desk :=
  { trialDesk with registry := .empty (Registry.conductsOf ["r"] [] 0) }

theorem ready_refusingDesk : Ready refusingDesk :=
  ⟨begun_trialDesk.ready.up, begun_trialDesk.ready.filed, begun_trialDesk.ready.intact⟩

def refusedDeletion : Call := .delete .rule "r"

/-- The deletion of a rule whose registration cannot be removed: the rule stays. -/
theorem refused_changes_nothing : ∃ e d',
    refusedDeletion.run (afterAll [trialIntegration, trialRule] refusingDesk) = .error e d' ∧
    d'.store.content.contains ⟨.rule, .draft, "r"⟩ = true ∧
    d'.registry.registered =
      (afterAll [trialIntegration, trialRule] refusingDesk).registry.registered := by
  have hready := ready_refusingDesk.afterAll [trialIntegration, trialRule]
  have hfails : failed (fun _ => true)
      (refusedDeletion.run (afterAll [trialIntegration, trialRule] refusingDesk)) = true := by
    decide +kernel
  obtain ⟨e, d', hrun, -⟩ := eq_error_of_failed hfails
  obtain ⟨hcontent, -, hregistered⟩ :=
    run_error_changes_nothing hready.up hready.filed hready.intact.storable hrun
  refine ⟨e, d', hrun, ?_, hregistered⟩
  rw [hcontent]
  decide +kernel

end Trial

end Draft

end ContentSpaces
