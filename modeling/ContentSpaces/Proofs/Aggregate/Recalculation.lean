import ContentSpaces.Proofs.Aggregate.Sensitivity

/-!
# What a recalculation leaves

A recalculation writes containers while it still reads others, and it may meet a space twice. As no
aggregate depends on another one, the aggregates it has written are right for the content it leaves,
and doing it again writes them once more.
-/

namespace ContentSpaces

namespace Content

variable {c c' c'' : Content} {p : Address → Bool} {spaces : List Space}

def childDigests (c : Content) (container : Resource) (list : RefList) : List String :=
  (container.references list).filterMap fun id =>
    (c.get? ⟨list.childKind, container.space, id⟩).map Resource.hash

def integrationBlock (c : Content) (i : Resource) : List String :=
  i.hash :: (c.childDigests i .decoders ++ c.childDigests i .kvdbs ++ c.childDigests i .rules)

def policyBlock (c : Content) (policy : Resource) : List String :=
  policy.hash :: ((policy.references .integrations).filterMap fun id =>
    c.get? ⟨.integration, policy.space, id⟩).flatMap c.integrationBlock

theorem digests_coverIntegration_eq_block (c : Content) (i : Resource) :
    (c.coverIntegration i).digests = c.integrationBlock i := by
  have hlist (list : RefList) : ((i.references list).flatMap fun id =>
      c.digestAt ⟨list.childKind, i.space, id⟩) = c.childDigests i list := by
    rw [childDigests, List.filterMap_eq_flatMap_toList]
    rfl
  simp only [digests_coverIntegration, integrationBlock, hlist, RefList.hashOrder,
    List.flatMap_cons, List.flatMap_nil, List.append_nil, List.append_assoc]

theorem digests_coverPolicy_eq_block (c : Content) (policy : Resource) :
    (c.coverPolicy policy).digests = c.policyBlock policy := by
  rw [digests_coverPolicy, policyBlock, List.filterMap_eq_flatMap_toList, List.flatMap_assoc]
  congr 2
  funext id
  rw [memberAt]
  cases c.get? ⟨.integration, policy.space, id⟩ with
  | none => rfl
  | some i => simp [digests_coverIntegration_eq_block]

theorem aggregate_of_integration {i : Resource} (h : i.kind = .integration) :
    c.aggregate i = Digest.aggregate (c.integrationBlock i) := by
  have hkind : i.kind ≠ .policy := by simp [h]
  rw [aggregate, cover, if_neg hkind, digests_coverIntegration_eq_block]

theorem aggregate_of_policy {policy : Resource} (h : policy.kind = .policy) :
    c.aggregate policy = Digest.aggregate (c.policyBlock policy) := by
  rw [aggregate, cover, if_pos h, digests_coverPolicy_eq_block]

/-- The containers of the spaces carry the aggregates that the new content gives; nothing else sets
it apart from the old. -/
structure Recalculated (spaces : List Space) (c c' : Content) : Prop where
  integrations : ∀ space ∈ spaces, ∀ id i, c'.get? ⟨.integration, space, id⟩ = some i →
    i.aggregate = some (Digest.aggregate (c'.integrationBlock i))
  policies : ∀ space ∈ spaces, ∀ id policy, c'.get? ⟨.policy, space, id⟩ = some policy →
    policy.aggregate = some (Digest.aggregate (c'.policyBlock policy))
  bare : ∀ a, (c'.get? a).map Resource.bare = (c.get? a).map Resource.bare
  others : ∀ a, a.space ∉ spaces ∨ a.kind ≠ .integration ∧ a.kind ≠ .policy →
    c'.get? a = c.get? a

theorem Refreshed.recalculated
    (h : Refreshed (fun a => spaces.contains a.space && a.kind.isContainer) c c') (hc : c.Filed) :
    c.Recalculated spaces c' := by
  have hkind {a : Address} {r : Resource} (hr : c'.get? a = some r) : r.kind = a.kind :=
    congrArg Address.kind (h.filed hc a r hr)
  constructor
  · intro space hspace id i hi
    rw [← aggregate_of_integration (hkind hi)]
    exact h.aggregate_eq (by simp [hspace, Kind.isContainer]) hi
  · intro space hspace id policy hpolicy
    rw [← aggregate_of_policy (hkind hpolicy)]
    exact h.aggregate_eq (by simp [hspace, Kind.isContainer]) hpolicy
  · exact h.sameBare
  · intro a ha
    have hspared : (spaces.contains a.space && a.kind.isContainer) = false := by
      rcases ha with hspace | ⟨hintegration, hpolicy⟩
      · simp [hspace]
      · simp [Kind.isContainer, hintegration, hpolicy]
    rw [h a]
    simp only [hspared, Bool.false_eq_true, if_false, Option.map_id']

theorem Refreshed.eq_of_refreshed (h : Refreshed p c c') (hagain : Refreshed p c' c'') :
    c'' = c' := by
  refine Table.ext_get? fun a => ?_
  rw [hagain a]
  cases hr : c'.get? a with
  | none => rfl
  | some r =>
    by_cases hp : p a
    · have hsame : r.withAggregate (c'.aggregate r) = r := by
        rw [Resource.withAggregate, ← h.aggregate_eq hp hr]
      simp [hp, hsame]
    · simp [hp]

end Content

namespace Store

variable {s : Store}

theorem refreshed_of_recalculate (hup : s.Up) (hfiled : s.content.Filed) (spaces : List Space) :
    ∃ report s', recalculate spaces s = .ok report s' ∧ s'.Up ∧ Content.Refreshed
      (fun a => spaces.contains a.space && a.kind.isContainer) s.content s'.content := by
  have hrefreshed : Ensures (·.content = s.content) (recalculate spaces)
      (fun _ s' => Content.Refreshed (fun a => spaces.contains a.space && a.kind.isContainer)
        s.content s'.content) fun _ _ => True :=
    ((ensures_recalculateAmong spaces hfiled).mono_error fun _ _ _ => trivial).bind
      fun _ => .pure fun _ h => h.1
  cases hrun : recalculate spaces s with
  | error e s' => exact ((answers_recalculate spaces).of_error hup hrun).elim
  | ok report s' =>
    exact ⟨report, s', rfl, (answers_recalculate spaces).of_ok hup hrun, hrefreshed.of_ok rfl hrun⟩

theorem integrationHash?_of_up (hup : s.Up) {space : Space} {id : String} {i : Resource}
    (hi : s.content.get? ⟨.integration, space, id⟩ = some i) :
    ∃ s', integrationHash? space id s =
      .ok (some (Digest.aggregate (s.content.integrationBlock i))) s' ∧
      s'.content = s.content := by
  have hanswers : Answers (integrationHash? space id) := by
    refine Answers.bind (.call _ _) fun found => ?_
    cases found with
    | none => exact .pure _
    | some integration => exact (answers_coverIntegration integration).bind fun _ => .pure _
  have hreads : Ensures (·.content = s.content) (integrationHash? space id)
      (fun digest s' => digest = some (Digest.aggregate (s.content.integrationBlock i)) ∧
        s'.content = s.content) fun _ _ => True := by
    refine ((reads_get? _ s.content).mono_error fun _ _ _ => trivial).bind fun found =>
      .of_and fun hfound => ?_
    obtain rfl : found = some i := hfound.trans hi
    refine ((reads_coverIntegration i s.content).mono_error fun _ _ _ => trivial).bind
      fun coverage => .of_and fun hcoverage => .pure fun s' hs => ⟨?_, hs⟩
    rw [hcoverage, Content.digests_coverIntegration_eq_block]
  cases hrun : integrationHash? space id s with
  | error e s' => exact (hanswers.of_error hup hrun).elim
  | ok digest s' =>
    obtain ⟨rfl, hsame⟩ := hreads.of_ok rfl hrun
    exact ⟨s', rfl, hsame⟩

/-- A recalculation gives each container of the spaces the aggregate over what the resulting content
holds, and touches nothing else. Asking for the aggregate of an integration then gives the stored
one, and a second recalculation changes nothing. -/
theorem recalculate_settles (hup : s.Up) (hfiled : s.content.Filed) (spaces : List Space) :
    ∃ report s', recalculate spaces s = .ok report s' ∧
      s.content.Recalculated spaces s'.content ∧
      (∀ space ∈ spaces, ∀ id i, s'.content.get? ⟨.integration, space, id⟩ = some i →
        ∃ s'', integrationHash? space id s' = .ok i.aggregate s'' ∧ s''.content = s'.content) ∧
      ∃ report' s'', recalculate spaces s' = .ok report' s'' ∧ s''.content = s'.content := by
  obtain ⟨report, s', hrun, hup', hrefreshed⟩ := refreshed_of_recalculate hup hfiled spaces
  have hrecalculated := hrefreshed.recalculated hfiled
  refine ⟨report, s', hrun, hrecalculated, ?_, ?_⟩
  · intro space hspace id i hi
    rw [hrecalculated.integrations space hspace id i hi]
    exact integrationHash?_of_up hup' hi
  · obtain ⟨report', s'', hrun', -, hrefreshed'⟩ :=
      refreshed_of_recalculate hup' (hrefreshed.filed hfiled) spaces
    exact ⟨report', s'', hrun', hrefreshed.eq_of_refreshed hrefreshed'⟩

section Trial

/-- An integration with children of every kind and a rule that is not there. -/
def familyIntegration : Resource :=
  ⟨.integration, .object [("id", .string "i"), ("decoders", .ofStrings ["d"]),
    ("kvdbs", .ofStrings ["k"]), ("rules", .ofStrings ["ghost", "r"])], .draft, none, "hash i"⟩

def familyPolicy : Resource :=
  ⟨.policy, .object [("id", .string "p"), ("integrations", .ofStrings ["i"])], .draft, none, "hash p"⟩

def family : Content :=
  Content.fileAll .empty [⟨.decoder, .object [("id", .string "d")], .draft, none, "hash d"⟩,
    ⟨.kvdb, .object [("id", .string "k")], .draft, none, "hash k"⟩,
    ⟨.rule, .object [("id", .string "r")], .draft, none, "hash r"⟩, familyIntegration, familyPolicy]

/-- The draft space is listed twice. -/
theorem trial_recalculate_settles : ∃ report s' i policy,
    recalculate [.draft, .draft] (.ofContent family) = .ok report s' ∧
      s'.content.get? ⟨.integration, .draft, "i"⟩ = some i ∧
      i.aggregate = some (Digest.aggregate ["hash i", "hash d", "hash k", "hash r"]) ∧
      s'.content.get? ⟨.policy, .draft, "p"⟩ = some policy ∧
      policy.aggregate = some (Digest.aggregate ["hash p", "hash i", "hash d", "hash k", "hash r"]) ∧
      (∃ s'', integrationHash? .draft "i" s' = .ok i.aggregate s'' ∧ s''.content = s'.content) ∧
      ∃ report' s'', recalculate [.draft, .draft] s' = .ok report' s'' ∧
        s''.content = s'.content := by
  have hblocks : returned (fun _ s =>
      ((s.content.get? ⟨.integration, .draft, "i"⟩).map s.content.integrationBlock ==
          some ["hash i", "hash d", "hash k", "hash r"]) &&
        (s.content.get? ⟨.policy, .draft, "p"⟩).map s.content.policyBlock ==
          some ["hash p", "hash i", "hash d", "hash k", "hash r"])
      (recalculate [.draft, .draft] (.ofContent family)) = true := by
    decide +kernel
  obtain ⟨report, s', hrun, hrecalculated, hasked, hagain⟩ :=
    recalculate_settles (s := .ofContent family) (fun _ _ => rfl) (Content.Filed.empty.fileAll _)
      [.draft, .draft]
  rw [hrun] at hblocks
  obtain ⟨hintegration, hpolicy⟩ := (Bool.and_eq_true ..).mp hblocks
  obtain ⟨i, hi, hiblock⟩ := Option.map_eq_some_iff.mp (beq_iff_eq.mp hintegration)
  obtain ⟨policy, hp, hpblock⟩ := Option.map_eq_some_iff.mp (beq_iff_eq.mp hpolicy)
  have hdraft : Space.draft ∈ [Space.draft, .draft] := List.mem_cons_self
  refine ⟨report, s', i, policy, hrun, hi, ?_, hp, ?_, hasked .draft hdraft "i" i hi, hagain⟩
  · rw [hrecalculated.integrations .draft hdraft "i" i hi, hiblock]
  · rw [hrecalculated.policies .draft hdraft "p" policy hp, hpblock]

end Trial

end Store

end ContentSpaces
