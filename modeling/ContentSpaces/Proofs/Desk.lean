import ContentSpaces.Edit
import ContentSpaces.Proofs.Store

/-!
# Calls at a desk

An edit works on the content, asks the validator and makes requests of the registry. While the store
answers every call, an edit fails only for reasons of its own, and what it leaves behind can be said
without counting calls.
-/

namespace ContentSpaces

structure Worktop where
  content : Content
  validator : Validator
  registry : Registry

namespace Validator

def after (v : Validator) (n : Nat) : Validator := { v with questions := v.questions + n }

/-- No objection to any of the resources, asked about one after the other. -/
def Accepts (v : Validator) (rs : List Resource) : Prop :=
  ∀ n r, rs[n]? = some r → v.objects (v.questions + n) r.kind r.document = none

variable {v : Validator} {r : Resource} {rs : List Resource}

theorem after_after (v : Validator) (m n : Nat) : (v.after m).after n = v.after (m + n) := by
  simp only [after, Nat.add_assoc]

theorem accepts_nil (v : Validator) : v.Accepts [] := by
  intro n r h
  simp at h

theorem accepts_cons : v.Accepts (r :: rs) ↔
    v.objects v.questions r.kind r.document = none ∧ (v.after 1).Accepts rs := by
  constructor
  · intro h
    refine ⟨h 0 r rfl, fun n r' hr' => ?_⟩
    have hnext := h (n + 1) r' hr'
    rwa [Nat.add_comm n 1, ← Nat.add_assoc] at hnext
  · rintro ⟨hfirst, hrest⟩ n r' hr'
    cases n with
    | zero =>
      cases hr'
      exact hfirst
    | succ n =>
      have hnext := hrest n r' hr'
      rwa [after, Nat.add_assoc, Nat.add_comm 1 n] at hnext

end Validator

namespace Desk

def worktop (d : Desk) : Worktop := ⟨d.store.content, d.validator, d.registry⟩

/-- The desk is laid out as given, and its store answers every call. -/
structure At (w : Worktop) (d : Desk) : Prop where
  worktop : d.worktop = w
  up : d.store.Up

variable {α : Type} {w : Worktop} {d : Desk}

theorem At.content (h : At w d) : d.store.content = w.content := congrArg Worktop.content h.worktop

theorem At.registry (h : At w d) : d.registry = w.registry := congrArg Worktop.registry h.worktop

theorem ensures_onStore_of_ensures {P : Store → Prop} {act : StoreM α} {Q : α → Store → Prop}
    {E : Store → Prop} (h : Ensures P act Q fun _ => E) :
    Ensures (fun d => P d.store) (onStore act) (fun a d => Q a d.store) (fun _ d => E d.store) := by
  intro d hd
  unfold onStore
  cases hr : act d.store with
  | ok a s => exact h.of_ok hd hr
  | error e s => exact h.of_error hd hr

section Calls

variable {E : EditError → Desk → Prop}

theorem ensures_onStore_of_up {act : StoreM α} {Q : α → Content → Prop}
    (h : Ensures (fun s => s.content = w.content ∧ s.Up) act (fun a s => Q a s.content ∧ s.Up)
      fun _ _ => False) :
    Ensures (At w) (onStore act) (fun a d => ∃ c, Q a c ∧ At { w with content := c } d) E := by
  rintro d ⟨rfl, hd⟩
  unfold onStore
  cases hr : act d.store with
  | ok a s =>
    obtain ⟨ha, hs⟩ := h.of_ok ⟨rfl, hd⟩ hr
    exact ⟨s.content, ha, rfl, hs⟩
  | error e s => exact (h.of_error ⟨rfl, hd⟩ hr).elim

theorem ensures_onStore {act : StoreM α} {Q : α → Content → Prop} {R : ContentError → Store → Prop}
    (h : Ensures (·.content = w.content) act (fun a s => Q a s.content) R)
    (hup : Store.Answers act) :
    Ensures (At w) (onStore act) (fun a d => ∃ c, Q a c ∧ At { w with content := c } d) E :=
  ensures_onStore_of_up ((h.and hup).mono_error fun _ _ h => h.2)

theorem ensures_onStore_of_reads {act : StoreM α} {f : Content → α} (h : Store.Reads act f)
    (hup : Store.Answers act) :
    Ensures (At w) (onStore act) (fun a d => a = f w.content ∧ At w d) E := by
  refine (ensures_onStore (Q := fun a c => a = f w.content ∧ c = w.content)
    (h w.content) hup).mono_ok ?_
  rintro a d ⟨c, ⟨ha, rfl⟩, hd⟩
  exact ⟨ha, hd⟩

theorem ensures_onStore_create (r : Resource) :
    Ensures (At w) (onStore (Store.create r))
      (fun _ => At { w with content := w.content.file r }) E := by
  refine (ensures_onStore (Q := fun _ c => c = w.content.file r)
    (Store.ensures_create r w.content) (.call _ _)).mono_ok ?_
  rintro _ d ⟨c, rfl, hd⟩
  exact hd

theorem ensures_onStore_delete (a : Address) :
    Ensures (At w) (onStore (Store.delete a))
      (fun _ => At { w with content := w.content.erase a }) E := by
  refine (ensures_onStore (Q := fun _ c => c = w.content.erase a)
    (Store.ensures_delete a w.content) (.call _ _)).mono_ok ?_
  rintro _ d ⟨c, rfl, hd⟩
  exact hd

theorem ensures_require (a : Address) :
    Ensures (At w) (require a) (fun r d => w.content.get? a = some r ∧ At w d)
      (fun _ d => w.content.get? a = none ∧ At w d) := by
  refine Ensures.bind (ensures_onStore_of_reads (Store.reads_get? a) (.call _ _)) fun found =>
    .of_and fun hfound => ?_
  cases found with
  | some r => exact .pure fun _ hd => ⟨hfound.symm, hd⟩
  | none => exact .throw fun _ hd => ⟨hfound.symm, hd⟩

theorem ensures_validate (kind : Kind) (document : Json) :
    Ensures (At w) (validate kind document)
      (fun _ d => w.validator.objects w.validator.questions kind document = none ∧
        At { w with validator := w.validator.after 1 } d)
      (fun _ d => w.validator.objects w.validator.questions kind document ≠ none ∧
        At { w with validator := w.validator.after 1 } d) := by
  rintro d ⟨rfl, hd⟩
  unfold validate
  dsimp only
  cases h : d.validator.objects d.validator.questions kind document with
  | none => exact ⟨h, rfl, hd⟩
  | some text =>
    refine ⟨?_, rfl, hd⟩
    rw [worktop, h]
    nofun

theorem ensures_validateAll (rs : List Resource) :
    Ensures (At w) (rs.forM fun r => validate r.kind r.document)
      (fun _ d => w.validator.Accepts rs ∧
        At { w with validator := w.validator.after rs.length } d)
      (fun _ d => ¬ w.validator.Accepts rs ∧ ∃ v, At { w with validator := v } d) := by
  induction rs generalizing w with
  | nil => exact .pure fun d hd => ⟨w.validator.accepts_nil, hd⟩
  | cons r rs ih =>
    refine Ensures.bind ((ensures_validate r.kind r.document).mono_error ?_) fun _ =>
      .of_and fun haccepted => ?_
    · rintro _ d ⟨hobjects, hd⟩
      exact ⟨fun h => hobjects (Validator.accepts_cons.mp h).1, _, hd⟩
    refine (ih (w := { w with validator := w.validator.after 1 })).mono (fun _ hd => hd) ?_ ?_
    · rintro _ d ⟨hrest, hd⟩
      rw [Validator.after_after, Nat.add_comm] at hd
      exact ⟨Validator.accepts_cons.mpr ⟨haccepted, hrest⟩, hd⟩
    · rintro _ d ⟨hrest, hd⟩
      exact ⟨fun h => hrest (Validator.accepts_cons.mp h).2, hd⟩

theorem ensures_request (task : Task) :
    Ensures (At w) (request task)
      (fun answer d => answer = (Registry.request task w.registry).1 ∧
        At { w with registry := (Registry.request task w.registry).2 } d) E := by
  rintro d ⟨rfl, hd⟩
  exact ⟨rfl, rfl, hd⟩

end Calls

end Desk

end ContentSpaces
