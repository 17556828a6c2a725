import ContentSpaces.Proofs.Draft.Calls

/-!
# Sessions of draft calls

A session begins on an empty store whose spaces have been initialised, and makes one call after the
other, whether they succeed or not.
-/

namespace ContentSpaces.Draft

open Desk

variable {d : Desk} {call : Call}

/-- The store answers, and it holds resources that can be stored, each under its own address. -/
structure Ready (d : Desk) : Prop where
  up : d.store.Up
  filed : d.store.content.Filed
  intact : d.store.content.Intact

def Call.Succeeds (call : Call) (d : Desk) : Prop := ∃ d', call.run d = .ok () d'

instance (call : Call) (d : Desk) : Decidable (call.Succeeds d) :=
  match h : call.run d with
  | .ok _ d' => .isTrue ⟨d', h⟩
  | .error _ _ => .isFalse fun hsucceeds => by
    obtain ⟨d', hok⟩ := hsucceeds
    rw [h] at hok
    cases hok

theorem Ready.void_or_done (h : Ready d) (call : Call) :
    ¬ call.Succeeds d ∧ Void d.worktop (call.after d) ∨
      call.Succeeds d ∧ Done d.worktop call (call.after d) := by
  have hspec := ensures_run (w := d.worktop) h.filed h.intact.storable call
  have hat : At d.worktop d := ⟨rfl, h.up⟩
  unfold Call.after
  cases hrun : call.run d with
  | ok _ d' => exact .inr ⟨⟨d', hrun⟩, hspec.of_ok hat hrun⟩
  | error e d' =>
    refine .inl ⟨?_, hspec.of_error hat hrun⟩
    rintro ⟨d'', hok⟩
    rw [hrun] at hok
    cases hok

theorem Ready.after (h : Ready d) (call : Call) : Ready (call.after d) := by
  obtain ⟨-, hvoid⟩ | ⟨-, c, g, hworked, hrefreshed, -, hup⟩ := h.void_or_done call
  · have hcontent : (call.after d).store.content = d.store.content := hvoid.content
    exact ⟨hvoid.up, hcontent ▸ h.filed, hcontent ▸ h.intact⟩
  · exact ⟨hup, hrefreshed.filed (hworked.filed h.filed), hrefreshed.intact (hworked.intact h.intact)⟩

def afterAll (calls : List Call) (d : Desk) : Desk := calls.foldl (fun d call => call.after d) d

theorem afterAll_concat (calls : List Call) (call : Call) (d : Desk) :
    afterAll (calls ++ [call]) d = call.after (afterAll calls d) := by
  rw [afterAll, List.foldl_append]
  rfl

theorem afterAll_singleton (call : Call) (d : Desk) : afterAll [call] d = call.after d := rfl

theorem Ready.afterAll (h : Ready d) (calls : List Call) : Ready (afterAll calls d) := by
  induction calls generalizing d with
  | nil => exact h
  | cons call calls ih => exact ih (h.after call)

/-- The store was empty, and then its spaces have been initialised. -/
def Begun (d : Desk) : Prop :=
  ∃ s spaces, s.Up ∧ s.content = .empty ∧ Store.initializeSpaces s = .ok spaces d.store

section Begun

/-- There is nothing but default policies. -/
def OfDefaults (c : Content) : Prop :=
  ∀ a r, c.get? a = some r → r.kind = .policy ∧ r.document = Store.defaultPolicyDocument

theorem ofDefaults_upkeep {c c' : Content} (h : Content.Upkeep c c') (hc : OfDefaults c) :
    OfDefaults c' := by
  intro a r hr
  cases h with
  | policy _ _ hcreated =>
    obtain ⟨-, rfl⟩ := Resource.create_eq_ok_iff.mp hcreated
    rw [Content.get?_file] at hr
    split at hr
    · cases hr
      exact ⟨rfl, rfl⟩
    · exact hc a r hr
  | aggregate hstored digest =>
    have hdefault := hc _ _ hstored
    rw [Content.get?_file] at hr
    split at hr
    · cases hr
      exact hdefault
    · exact hc a r hr

theorem ofDefaults_upkeeps {c : Content} (h : Content.Upkeeps .empty c) : OfDefaults c := by
  induction h with
  | refl =>
    intro a r hr
    cases hr
  | tail _ hlast ih => exact ofDefaults_upkeep hlast ih

theorem Begun.upkeeps (h : Begun d) : Content.Upkeeps .empty d.store.content ∧
    d.store.content.collection .policy .draft ≠ [] := by
  obtain ⟨s, spaces, -, hempty, hrun⟩ := h
  have hspec := (Store.ensures_initializeSpaces .empty).of_ok hempty hrun
  exact ⟨hspec.1, hspec.2 .draft (by decide)⟩

theorem Begun.ready (h : Begun d) : Ready d := by
  have hupkeeps := h.upkeeps.1
  obtain ⟨s, spaces, hup, -, hrun⟩ := h
  exact ⟨Store.answers_initializeSpaces.of_ok hup hrun, Content.Upkeeps.filed hupkeeps .empty,
    Content.Upkeeps.intact hupkeeps .empty⟩

theorem Begun.ofDefaults (h : Begun d) : OfDefaults d.store.content :=
  ofDefaults_upkeeps h.upkeeps.1

end Begun

section Trial

/-- A desk over a store that has just been initialised, with a service that accepts everything. -/
def trialDesk : Desk where
  store := match Store.initializeSpaces (.ofContent .empty) with
    | .ok _ s => s
    | .error _ s => s
  validator := ⟨Validator.acceptAll, 0⟩
  registry := .empty Registry.accepting

theorem begun_trialDesk : Begun trialDesk := by
  cases h : Store.initializeSpaces (.ofContent .empty) with
  | error e s => exact (Store.answers_initializeSpaces.of_error (fun _ _ => rfl) h).elim
  | ok spaces s =>
    refine ⟨.ofContent .empty, spaces, fun _ _ => rfl, rfl, ?_⟩
    rw [trialDesk, h]

def trialIntegration : Call := .create "i" .integration (.object [("title", .string "I")]) none

def trialRule : Call := .create "r" .rule (.object [("title", .string "R")]) (some "i")

end Trial

end ContentSpaces.Draft
