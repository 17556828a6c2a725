import ContentSpaces.Proofs.Synchronisation

/-!
# The work after a change

A call that sees a change gives every user space its policy and brings all aggregates up to date. A
call that sees none does not look, so what an earlier call has written before it failed stays
unsettled until there is a further change.
-/

namespace ContentSpaces.Sync

variable {cfg : Config} {remote : Remote} {consumer : RemoteConsumer} {w w' : World}
  {a : Advance} {m₀ m m' : Replica} {outcome : Outcome}

theorem Aftercare.settled (hfiled : w.content.Filed) (h : Aftercare cfg a w w')
    (hchanges : a.hasChanges = true) : w'.content.Settled := by
  cases h with
  | none hidle =>
    rw [hchanges] at hidle
    cases hidle
  | done _ hinitialized hpolicies hrefreshed hupkeeps =>
    have hfiled' := Content.Upkeeps.filed hupkeeps (Content.Upkeeps.filed hinitialized hfiled)
    exact Content.Refreshed.settled hrefreshed hfiled' fun space hspace =>
      Content.Upkeeps.collection_ne_nil hupkeeps (hpolicies space hspace)

/-- A call that returns has settled the content or has not touched it. -/
theorem Completed.settled_or_eq (hfiled : w.content.Filed)
    (h : Completed cfg remote w outcome w') :
    (outcome.advance.hasChanges = true ∧ w'.content.Settled) ∨
      (outcome.advance.hasChanges = false ∧ w'.content = w.content) := by
  obtain ⟨consumer, mid, settled, hadvanced, haftercare, rfl⟩ := h
  cases hchanges : outcome.advance.hasChanges with
  | true =>
    have hsettled : settled.content.Settled :=
      haftercare.settled (Content.Edits.filed hadvanced.edits hfiled) hchanges
    exact .inl ⟨rfl, hsettled⟩
  | false =>
    refine .inr ⟨rfl, ?_⟩
    cases haftercare with
    | none _ => exact (hadvanced.idle hchanges).2.2
    | done htrue _ _ _ _ => cases hchanges.symm.trans htrue

/-- After a call that returns, every user space has a policy and every container the aggregate that
recalculating would write, exactly if the call has seen a change or all this was so before it. -/
theorem settled_iff_of_calls (hblank : Blank m₀) (hcalls : Calls cfg m₀ m)
    (h : synchronize cfg remote m = .ok outcome m') :
    m'.store.content.Settled ↔
      outcome.advance.hasChanges = true ∨ m.store.content.Settled := by
  have hfiled := hcalls.filed hblank.filed
  have hcompleted : Completed cfg remote m.world outcome m'.world :=
    (ensures_synchronize hfiled).of_ok rfl h
  obtain ⟨hchanges, hsettled⟩ | ⟨hidle, hsame⟩ := hcompleted.settled_or_eq hfiled
  · exact iff_of_true hsettled (.inl hchanges)
  · have hcontent : m'.store.content = m.store.content := hsame
    rw [hcontent, hidle]
    simp

/-- Where no failing call has left anything undone, all content is settled. -/
theorem settled_of_lossless (hblank : Blank m₀)
    (h : Relation.ReflTransGen (Lossless cfg) m₀ m) :
    m.store.content = .empty ∨ m.store.content.Settled := by
  induction h with
  | refl => exact .inl hblank.content
  | @tail mid last hfirst hlast ih =>
    cases hlast with
    | failed _ hcontent _ => exact hcontent ▸ ih
    | returned h =>
      have hfiled := (Lossless.calls hfirst).filed hblank.filed
      have hcompleted := (ensures_synchronize hfiled).of_ok rfl h
      obtain ⟨-, hsettled⟩ | ⟨-, hsame⟩ := hcompleted.settled_or_eq hfiled
      · exact .inr hsettled
      · have hcontent : last.store.content = mid.store.content := hsame
        exact hcontent ▸ ih

section Trial

theorem lapse_settled_iff : ∃ m outcome m', Calls trialConfig (.of .empty .empty) m ∧
    synchronize trialConfig (announcing (.ok [])) m = .ok outcome m' ∧
    (m'.store.content.Settled ↔
      outcome.advance.hasChanges = true ∨ m.store.content.Settled) := by
  obtain ⟨e, m, outcome, m', hfirst, hsecond, -⟩ := lapse
  have hcalls : Calls trialConfig (.of .empty .empty) m := .single ⟨_, .failed hfirst⟩
  exact ⟨m, outcome, m', hcalls, hsecond, settled_iff_of_calls ⟨rfl, rfl, rfl⟩ hcalls hsecond⟩

theorem lapse_not_settled : ∃ m outcome m', Blank (.of .empty .empty) ∧
    Calls trialConfig (.of .empty .empty) m ∧
    synchronize trialConfig (announcing (.ok [])) m = .ok outcome m' ∧
    m'.store.content.catalog .standard ≠ .empty ∧ ¬ m'.store.content.Settled := by
  obtain ⟨e, m, outcome, m', hfirst, hsecond, hstored, -, hpolicies⟩ := lapse
  refine ⟨m, outcome, m', ⟨rfl, rfl, rfl⟩, .single ⟨_, .failed hfirst⟩, hsecond,
    fun hempty => ?_, fun hsettled => hsettled.policies .draft (by decide) hpolicies⟩
  have hnone : (m'.store.content.catalog .standard).get? ⟨.rule, "r"⟩ = none := by
    rw [hempty]
    rfl
  rw [Content.get?_catalog, Option.map_eq_none_iff] at hnone
  rw [hnone] at hstored
  cases hstored

end Trial

end ContentSpaces.Sync
