import ContentSpaces.Proofs.Confinement.Edits
import ContentSpaces.Proofs.Draft.Sessions
import ContentSpaces.Proofs.Synchronisation

/-!
# Spaces are isolated

All spaces share one store, yet an operation changes its own space only. Synchronisation alone looks
after the containers of other spaces: it gives a user space without policy the default one, and it
writes aggregates.
-/

namespace ContentSpaces

namespace Content

variable {c mid c' : Content} {a : Address} {found found' : Option Resource}

/-- What may be found at an address outside the space that is synchronised: what was there, up to
its aggregate, or the default policy of a user space that had no policy. -/
inductive Tended (c : Content) (a : Address) : Option Resource → Prop
  | kept {found : Option Resource}
      (h : found.map Resource.bare = (c.get? a).map Resource.bare) : Tended c a found
  | policy {space : Space} {r : Resource} (haddress : a = ⟨.policy, space, Store.defaultPolicyId⟩)
      (hspace : space ∈ Space.ofUsers) (hnone : c.collection .policy space = [])
      (hr : Resource.create .policy space Store.defaultPolicyDocument = .ok r.bare) :
      Tended c a (some r)

theorem Tended.of_bare (h : Tended c a found)
    (hbare : found'.map Resource.bare = found.map Resource.bare) : Tended c a found' := by
  cases h with
  | kept h => exact .kept (hbare.trans h)
  | policy haddress hspace hnone hr =>
    obtain ⟨r, rfl, hsame⟩ := Option.map_eq_some_iff.mp hbare
    exact .policy haddress hspace hnone (hsame ▸ hr)

theorem Tended.congr (h : Tended mid a found) (hsame : ∀ b, b.space = a.space →
    mid.get? b = c.get? b) : Tended c a found := by
  cases h with
  | kept h => exact .kept (h.trans (congrArg (Option.map Resource.bare) (hsame a rfl)))
  | policy haddress hspace hnone hr =>
    subst haddress
    refine .policy rfl hspace ?_ hr
    have hcollection := collection_map_congr (f := fun r => r) fun id =>
      congrArg (Option.map _) (hsame ⟨.policy, _, id⟩ rfl)
    rw [hnone] at hcollection
    simpa using hcollection.symm

theorem Upkeeps.tended (h : Upkeeps c c') (hc : c.Filed) (a : Address) :
    Tended c a (c'.get? a) := by
  induction h with
  | refl => exact .kept rfl
  | @tail mid c' hfirst hlast ih =>
    cases hlast with
    | @policy space r hspace hnone hr =>
      rw [get?_file]
      split
      · rename_i ha
        obtain ⟨hdocument, rfl⟩ := Resource.create_eq_ok_iff.mp hr
        refine .policy (ha.trans rfl) hspace ?_ hr
        -- A policy that had been there at first would still be there.
        apply Classical.byContradiction
        intro hsome
        exact Upkeeps.collection_ne_nil hfirst hsome hnone
      · exact ih
    | @aggregate b r hstored digest =>
      rw [get?_file]
      split
      · rename_i ha
        have hb : r.address = b := Upkeeps.filed hfirst hc b r hstored
        refine ih.of_bare ?_
        rw [ha, show (r.withAggregate digest).address = b from hb, hstored]
        rfl
      · exact ih

end Content

section Operations

/-- What edits at a desk leave alone, however they end. -/
structure Desk.Isolated (d : Desk) : Prop where
  draft : ∀ (call : Draft.Call) (a : Address), a.space ≠ .draft →
    (after call.run d).store.content.get? a = d.store.content.get? a
  link : ∀ (parent child : String) (list : RefList) (a : Address), a.space ≠ .draft →
    (after (Draft.link parent child list) d).store.content.get? a = d.store.content.get? a
  unlink : ∀ (child : String) (list : RefList) (a : Address), a.space ≠ .draft →
    (after (Draft.unlink child list) d).store.content.get? a = d.store.content.get? a
  execute : ∀ (excluded : List Space) (request : Promotion.Request) (a : Address),
    request.space.target? ≠ some a.space ∨ a.kind = .ioc →
    (after (Promotion.execute excluded request) d).store.content.get? a = d.store.content.get? a

/-- What following a remote catalog leaves alone, however it ends. -/
structure Replica.Isolated (cfg : Config) (remote : Remote) (m : Replica) : Prop where
  bootstrap : ∀ (url : String) (offset : Nat) (a : Address), a.space ≠ cfg.space →
    (after (Snapshot.bootstrap cfg remote url offset) m).store.content.get? a =
      m.store.content.get? a
  update : ∀ (lower upper : Nat) (a : Address), a.space ≠ cfg.space →
    (after (Cycle.update cfg remote lower upper) m).store.content.get? a = m.store.content.get? a
  synchronize : ∀ a : Address, a.space ≠ cfg.space →
    m.store.content.Tended a ((after (Sync.synchronize cfg remote) m).store.content.get? a)

theorem Desk.Confines.after {α : Type} {p : Address → Prop} {d : Desk} {act : EditM α}
    {Q : α → Prop}
    (h : Desk.Confines p d.store.content act Q) (hd : d.store.content.Filed) :
    d.store.content.Confined p (after act d).store.content := Keeps.after h (.refl hd)

theorem Desk.isolated {d : Desk} (hd : d.store.content.Filed) : d.Isolated := by
  constructor
  · intro call a ha
    exact (Confines.after (Draft.confines_run (fun _ h => h) call) hd).outside a ha
  · intro parent child list a ha
    exact (Confines.after (Draft.confines_link (fun _ h => h) parent child list) hd).outside a ha
  · intro child list a ha
    exact (Confines.after (Draft.confines_unlink (fun _ h => h) child list) hd).outside a ha
  · intro excluded request a ha
    have hconfined := Confines.after (Promotion.confines_execute
      (p := fun a => ∃ target, request.space.target? = some target ∧ Promotion.Promotable target a)
      excluded request fun target htarget a ha => ⟨target, htarget, ha⟩) hd
    refine hconfined.outside a ?_
    rintro ⟨target, htarget, rfl, hkind⟩
    obtain hspace | hioc := ha
    · exact hspace htarget
    · exact hkind hioc

theorem Snapshot.edits_bootstrap (cfg : Config) (remote : Remote) (url : String) (offset : Nat)
    (m : Replica) : Content.Edits cfg.space m.store.content
      (after (bootstrap cfg remote url offset) m).store.content := by
  cases hurl : Text.isBlankText url with
  | true =>
    have hnone : bootstrap cfg remote url offset = pure Report.none := by
      rw [bootstrap, if_pos hurl]
    rw [hnone]
    exact .refl
  | false =>
    refine Ensures.after (P := (·.world = m.world)) (R := fun m' =>
      Content.Edits cfg.space m.store.content m'.store.content)
      ((ensures_bootstrap remote hurl offset).mono (fun _ h => h) ?_ fun _ _ h => h.edits) rfl
    rintro _ m' ⟨files, -, h⟩
    exact h.edits

theorem Cycle.edits_update (cfg : Config) (remote : Remote) (lower upper : Nat) (m : Replica) :
    Content.Edits cfg.space m.store.content
      (after (update cfg remote lower upper) m).store.content := by
  refine Ensures.after (P := (·.world = m.world)) (R := fun m' =>
    Content.Edits cfg.space m.store.content m'.store.content)
    ((ensures_update remote lower upper).mono (fun _ h => h) ?_ fun _ _ h => h.edits) rfl
  rintro report m' ⟨changes, -, h⟩
  obtain ⟨effects, happlied, -⟩ := h.applied
  exact happlied.edits

theorem Sync.call_after (cfg : Config) (remote : Remote) (m : Replica) :
    Call cfg remote m (after (synchronize cfg remote) m) := by
  unfold after
  cases h : synchronize cfg remote m with
  | ok outcome m' => exact .returned h
  | error e m' => exact .failed h

theorem Replica.isolated {m : Replica} (hm : m.store.content.Filed) (cfg : Config)
    (remote : Remote) : m.Isolated cfg remote := by
  constructor
  · intro url offset a ha
    have hedits := Snapshot.edits_bootstrap cfg remote url offset m
    exact (Content.Edits.confined hedits hm).outside a ha
  · intro lower upper a ha
    have hedits := Cycle.edits_update cfg remote lower upper m
    exact (Content.Edits.confined hedits hm).outside a ha
  · intro a ha
    obtain ⟨c, hedits, hupkeeps⟩ := ((Sync.call_after cfg remote m).wrote hm).content
    have hconfined := Content.Edits.confined hedits hm
    refine (Content.Upkeeps.tended hupkeeps hconfined.filed a).congr fun b hb => ?_
    exact hconfined.outside b (hb ▸ ha)

/-- Whatever is refused, an operation stays within its space. -/
theorem operations_isolated {d : Desk} {m : Replica} (hd : d.store.content.Filed)
    (hm : m.store.content.Filed) (cfg : Config) (remote : Remote) :
    d.Isolated ∧ m.Isolated cfg remote :=
  ⟨Desk.isolated hd, Replica.isolated hm cfg remote⟩

theorem trial_isolated :
    Draft.trialDesk.store.content.Filed ∧
      (Replica.of Draft.trialDesk.store.content .empty).store.content.Filed ∧
      Draft.trialDesk.Isolated ∧
      (Replica.of Draft.trialDesk.store.content .empty).Isolated Sync.trialConfig
        (Sync.announcing (.ok [])) := by
  have hfiled : Draft.trialDesk.store.content.Filed := Draft.begun_trialDesk.ready.filed
  exact ⟨hfiled, hfiled, operations_isolated hfiled hfiled _ _⟩

end Operations

end ContentSpaces
