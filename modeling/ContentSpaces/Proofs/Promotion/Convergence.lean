import ContentSpaces.Proofs.Promotion.Preview

/-!
# Promotions converge

Carrying out what a preview lists brings the target in line with the source, so that a second
preview lists nothing. The aggregates follow if digests tell documents apart.
-/

namespace ContentSpaces

namespace Content

variable {c c' : Content} {source target : Space}

/-- Equal digests mean equal documents. -/
def Faithful (c : Content) : Prop :=
  ∀ a b r r', c.get? a = some r → c.get? b = some r' → r.hash = r'.hash → r.document = r'.document

section Coverage

/-- Every collection but that of policies has the same digests in both spaces. -/
def Aligned (c : Content) (source target : Space) : Prop :=
  ∀ kind ∈ Promotion.itemised, ∀ id, (c.get? ⟨kind, target, id⟩).map Resource.hash =
    (c.get? ⟨kind, source, id⟩).map Resource.hash

variable {r r' : Resource}

theorem Aligned.sameBodies (h : c.Aligned source target) (hfaithful : c.Faithful) :
    SameBodies c source c target := by
  intro kind hkind id
  have hitemised : kind ∈ Promotion.itemised := by
    revert hkind
    cases kind <;> decide
  refine Resource.map_eq_map (h kind hitemised id) fun r r' hr hr' hhash => ?_
  exact Prod.ext (hfaithful _ _ _ _ hr' hr hhash) hhash

theorem Aligned.coverPolicy (h : c.Aligned source target) (hc : c.Filed) (hfaithful : c.Faithful)
    (hr : r.space = source) (hr' : r'.space = target) (hhash : r'.hash = r.hash)
    (hdocument : r'.document = r.document) : c.coverPolicy r' = c.coverPolicy r :=
  (h.sameBodies hfaithful).coverPolicy hc hc hr hr' (Prod.ext hdocument hhash)

end Coverage

end Content

namespace Promotion

open Desk

variable {c c' : Content} {source target : Space} {kind : Kind} {id : String} {item : Item} {row : Row}

section Convergence

theorem CallsFor.isSome {s t : Option String} {operation : Promotion} (h : CallsFor s t operation)
    (hoperation : operation ≠ .delete) : s.isSome := by
  cases operation with
  | add => exact h.1
  | update =>
    obtain ⟨digest, -, rfl, -⟩ := h
    rfl
  | delete => exact absurd rfl hoperation

theorem mem_rowsAt_iff (hc : c.Filed) (hkind : kind ≠ .policy) :
    row ∈ rowsAt c source target kind ↔ row.kind = kind ∧
      CallsFor ((c.get? ⟨kind, source, row.id⟩).map Resource.hash)
        ((c.get? ⟨kind, target, row.id⟩).map Resource.hash) row.operation := by
  rw [rowsAt, if_neg hkind, mem_rows_iff, hc.get?_hashesOf, hc.get?_hashesOf]

theorem last?_previewed_eq_some (hc : c.Filed) (hkind : kind ∈ itemised)
    (h : (previewed c source target).changes.last? kind id = some item) :
    CallsFor ((c.get? ⟨kind, source, id⟩).map Resource.hash)
      ((c.get? ⟨kind, target, id⟩).map Resource.hash) item.operation ∧ item.id = id := by
  obtain ⟨hpromotable, hne⟩ := mem_itemised_iff.mp hkind
  obtain ⟨hitem, hid⟩ := List.mem_filter.mp (List.mem_of_getLast? h)
  rw [of_previewed hpromotable] at hitem
  obtain ⟨row, hrow, rfl⟩ := List.mem_map.mp hitem
  have hid : row.id = id := beq_iff_eq.mp hid
  exact ⟨hid ▸ ((mem_rowsAt_iff hc hne).mp hrow).2, hid⟩

theorem last?_previewed_eq_none (hc : c.Filed) (hkind : kind ∈ itemised)
    (h : (previewed c source target).changes.last? kind id = none) :
    (c.get? ⟨kind, source, id⟩).map Resource.hash =
      (c.get? ⟨kind, target, id⟩).map Resource.hash := by
  obtain ⟨hpromotable, hne⟩ := mem_itemised_iff.mp hkind
  apply Classical.byContradiction
  intro hdiffer
  obtain ⟨operation, hcalls⟩ := exists_callsFor_of_ne hdiffer
  have hrow : ⟨kind, id, operation⟩ ∈ rowsAt c source target kind :=
    (mem_rowsAt_iff hc hne).mpr ⟨rfl, hcalls⟩
  have hnone := List.filter_eq_nil_iff.mp (List.getLast?_eq_none_iff.mp h) ⟨operation, id⟩
  rw [of_previewed hpromotable] at hnone
  exact hnone (List.mem_map.mpr ⟨_, hrow, rfl⟩) (beq_self_eq_true id)

theorem Request.admissible_previewed (hc : c.Filed) (source target : Space) :
    (previewed c source target).Admissible c target := by
  have hpolicy (item : Item) (hitem : item ∈
      (previewed c source target).changes.policy) :
      item.operation = .update ∧ PolicyFound c source item := by
    rw [policy_previewed] at hitem
    obtain ⟨row, hrow, rfl⟩ := List.mem_map.mp hitem
    obtain ⟨policy, hp, rfl⟩ := eq_of_mem_policyRowsAt hrow
    exact ⟨rfl, policy, hp, rfl⟩
  refine ⟨fun item hitem => (hpolicy item hitem).1, fun item hitem => (hpolicy item hitem).2, ?_⟩
  intro kind hpromotable hne item hitem
  rw [of_previewed hpromotable] at hitem
  obtain ⟨row, hrow, rfl⟩ := List.mem_map.mp hitem
  have hcalls := ((mem_rowsAt_iff hc hne).mp hrow).2
  constructor
  · intro hoperation
    have hsome := hcalls.isSome hoperation
    rwa [Option.isSome_map] at hsome
  · intro hadd
    have hadd : row.operation = .add := hadd
    rw [hadd] at hcalls
    exact Option.map_eq_none_iff.mp hcalls.2

/-- The digests of the target become those of the source. -/
theorem Request.CarriedOut.map_hash (hc : c.Filed)
    (h : (previewed c source target).CarriedOut target c c')
    (hkind : kind ∈ itemised) (id : String) :
    (c'.get? ⟨kind, target, id⟩).map Resource.hash =
      (c.get? ⟨kind, source, id⟩).map Resource.hash := by
  obtain ⟨hpromotable, hne⟩ := mem_itemised_iff.mp hkind
  have hbare := h.items kind hpromotable hne id
  have hhash (x : Option Resource) : (x.map Resource.bare).map Resource.hash =
      x.map Resource.hash := Resource.map_map_bare (fun _ => rfl) x
  rw [← hhash, hbare]
  cases hlast : (previewed c source target).changes.last? kind id with
  | none =>
    rw [last?_previewed_eq_none hc hkind hlast]
    exact hhash _
  | some item =>
    obtain ⟨hcalls, rfl⟩ := last?_previewed_eq_some hc hkind hlast
    dsimp only
    unfold Item.outcome?
    split
    · rename_i hdelete
      rw [hdelete] at hcalls
      exact hcalls.1.symm
    · rw [Option.map_map]
      rfl

theorem Request.CarriedOut.get?_source
    (h : (previewed c source target).CarriedOut target c c')
    (htarget : source ≠ target) (kind : Kind) (id : String) :
    c'.get? ⟨kind, source, id⟩ = c.get? ⟨kind, source, id⟩ := h.elsewhere _ (.inl htarget)

theorem Request.CarriedOut.aligned (hc : c.Filed)
    (h : (previewed c source target).CarriedOut target c c')
    (htarget : source ≠ target) : c'.Aligned source target := by
  intro kind hkind id
  rw [h.map_hash hc hkind, h.get?_source htarget]

/-- What is added or updated holds the document of the source. -/
theorem Request.CarriedOut.copied (hc : c.Filed) (hc' : c'.Filed)
    (h : (previewed c source target).CarriedOut target c c')
    (hkind : kind ∈ Kind.promotable) (hrow : row ∈ rowsAt c source target kind)
    (hoperation : row.operation ≠ .delete) :
    ∃ r r', c.get? ⟨kind, source, row.id⟩ = some r ∧ c'.get? ⟨kind, target, row.id⟩ = some r' ∧
      r'.document = r.document := by
  have hitem : row.item ∈ (previewed c source target).changes.of kind := by
    rw [of_previewed hkind]
    exact List.mem_map.mpr ⟨row, hrow, rfl⟩
  by_cases hpolicy : kind = .policy
  · subst hpolicy
    obtain ⟨p, p', hp, hcollection, hbare⟩ := h.policy (List.ne_nil_of_mem hitem)
    obtain ⟨policy, hpolicy, rfl⟩ := eq_of_mem_policyRowsAt hrow
    obtain rfl := Option.some.inj (hp.symm.trans hpolicy)
    have hdocument : p'.document = p.document := (Resource.bare_eq_iff (r := p.inSpace target)).mp
      hbare |>.2.1
    have hid : p'.id = p.id := congrArg documentId hdocument
    have hp' : c'.policy? target = some p' := by
      rw [Content.policy?, hcollection]
      rfl
    exact ⟨p, p', hc.get?_of_policy? hp, hid ▸ hc'.get?_of_policy? hp', hdocument⟩
  · have hitemised := mem_itemised_iff.mpr ⟨hkind, hpolicy⟩
    have hsource := ((mem_rowsAt_iff hc hpolicy).mp hrow).2.isSome hoperation
    obtain ⟨r, hr⟩ := Option.isSome_iff_exists.mp (Option.isSome_map ▸ hsource)
    have hbare := h.items kind hkind hpolicy row.id
    cases hlast : (previewed c source target).changes.last? kind row.id with
    | none =>
      have hnone := List.filter_eq_nil_iff.mp (List.getLast?_eq_none_iff.mp hlast) row.item hitem
      exact absurd (beq_self_eq_true row.id) hnone
    | some item =>
      obtain ⟨hcalls, hid⟩ := last?_previewed_eq_some hc hitemised hlast
      have hwritten : item.operation ≠ .delete := by
        intro hdelete
        rw [hdelete] at hcalls
        rw [hcalls.1] at hsource
        cases hsource
      rw [hlast] at hbare
      dsimp only at hbare
      rw [Item.outcome?, if_neg hwritten, hid] at hbare
      have hcopy : (c.get? ⟨kind, source, row.id⟩).map (·.inSpace target) =
          some (r.inSpace target) := congrArg _ hr
      obtain ⟨r', hr', hsame⟩ := Option.map_eq_some_iff.mp (hbare.trans hcopy)
      exact ⟨r, r', hr, hr',
        ((Resource.bare_eq_iff (r := r.inSpace target)).mp hsame).2.1⟩

/-- Afterwards nothing is left to be listed. -/
theorem Request.CarriedOut.rowsAt_eq_nil (hc : c.Filed) (hc' : c'.Filed)
    (h : (previewed c source target).CarriedOut target c c')
    (htarget : source ≠ target) (hkind : kind ∈ Kind.promotable) :
    rowsAt c' source target kind = [] := by
  by_cases hpolicy : kind = .policy
  · subst hpolicy
    have hsource : c'.policy? source = c.policy? source :=
      Content.policy?_congr (h.get?_source htarget .policy)
    show policyRowsAt c' source target = []
    unfold policyRowsAt
    rw [hsource]
    cases hp : c.policy? source with
    | none => rfl
    | some p =>
      dsimp only
      by_cases hnone : (previewed c source target).changes.policy = []
      · -- The policies agreed before, and the target has kept its own.
        have hkept : (c'.policy? target).map Resource.bare = (c.policy? target).map Resource.bare :=
          Content.policy?_map_congr (h.policies hnone)
        rw [policy_previewed, List.map_eq_nil_iff, policyRowsAt, hp] at hnone
        cases hold : c.policy? target with
        | none =>
          rw [hold] at hnone
          cases hnone
        | some old =>
          rw [hold] at hnone hkept
          obtain ⟨old', hold', hbare⟩ := Option.map_eq_some_iff.mp hkept
          rw [hold']
          dsimp only at hnone ⊢
          rw [(Resource.bare_eq_iff.mp hbare).2.1]
          exact hnone
      · obtain ⟨p₁, p', hp₁, hcollection, hbare⟩ := h.policy hnone
        obtain rfl := Option.some.inj (hp.symm.trans hp₁)
        have hp' : c'.policy? target = some p' := by
          rw [Content.policy?, hcollection]
          rfl
        have hdocument : p'.document = p.document :=
          ((Resource.bare_eq_iff (r := p.inSpace target)).mp hbare).2.1
        rw [hp']
        dsimp only
        rw [hdocument, if_pos (Json.equal_refl _)]
  · refine List.eq_nil_iff_forall_not_mem.mpr fun row hrow => ?_
    have hcalls := ((mem_rowsAt_iff hc' hpolicy).mp hrow).2
    exact hcalls.ne (h.aligned hc htarget _ (mem_itemised_iff.mpr ⟨hkind, hpolicy⟩) row.id).symm

end Convergence

section Promotion

/-- The target has come in line with the source, whose content and its preview were as given. -/
structure Converged (excluded : List Space) (source target : Space) (c : Content) (p : Preview)
    (d : Desk) : Prop where
  hashes : ∀ kind ∈ Kind.promotable, kind ≠ .policy →
    d.store.content.hashesOf kind target = d.store.content.hashesOf kind source
  copied : ∀ e ∈ p, ∀ row ∈ e.2, row.operation ≠ .delete → ∃ r r',
    c.get? ⟨row.kind, source, row.id⟩ = some r ∧
    d.store.content.get? ⟨row.kind, target, row.id⟩ = some r' ∧ r'.document = r.document
  unchanged : ∀ a, a.space = source → d.store.content.get? a = c.get? a
  settled : ∃ d', preview source d = .ok (Kind.promotable.map fun kind => (kind, [])) d'
  aggregate : target ∉ excluded → d.store.content.Faithful → ∀ policy policy',
    d.store.content.policy? source = some policy → d.store.content.policy? target = some policy' →
    policy'.hash = policy.hash → ∃ coverage s, Store.coverPolicy policy d.store = .ok coverage s ∧
      policy'.aggregate = some (Digest.aggregate coverage.digests)

/-- A refreshed policy that equals that of an aligned space carries the aggregate of the latter. -/
theorem aggregate_of_aligned {cm c : Content} {excluded : List Space} (hc : c.Filed)
    (hrefreshed : Content.Refreshed (refreshes excluded target) cm c) (htarget : target ∉ excluded)
    (haligned : c.Aligned source target) (hfaithful : c.Faithful) {policy policy' : Resource}
    (hpolicy : c.policy? source = some policy) (hpolicy' : c.policy? target = some policy')
    (hhash : policy'.hash = policy.hash) :
    policy'.aggregate = some (Digest.aggregate (c.coverPolicy policy).digests) := by
  have hstored := hc.get?_of_policy? hpolicy
  have hstored' := hc.get?_of_policy? hpolicy'
  have haddress := hc _ _ hstored
  have haddress' := hc _ _ hstored'
  have hcover : c.coverPolicy policy' = c.coverPolicy policy :=
    haligned.coverPolicy hc hfaithful (congrArg Address.space haddress)
      (congrArg Address.space haddress') hhash (hfaithful _ _ _ _ hstored' hstored hhash)
  have hincluded : refreshes excluded target ⟨.policy, target, policy'.id⟩ = true := by
    simp [refreshes, htarget, Kind.isContainer]
  have hkind : policy'.kind = .policy := congrArg Address.kind haddress'
  rw [hrefreshed.aggregate_eq hincluded hstored', Content.aggregate, Content.cover, if_pos hkind,
    hcover]

theorem Request.executable_previewed {w : Worktop} (hfiled : w.content.Filed)
    (hpromotes : source.target? = some target)
    (haccepts : ∀ n kind document, w.validator.objects n kind document = none) :
    (previewed w.content source target).Executable w target :=
  ⟨hpromotes, admissible_previewed hfiled source target, fun _ _ _ => haccepts _ _ _⟩

/-- Executing a preview succeeds and brings the target in line with the source. -/
theorem execute_preview_converges {d : Desk} (hup : d.store.Up) (hfiled : d.store.content.Filed)
    (hpromotes : source.target? = some target)
    (haccepts : ∀ n kind document, d.validator.objects n kind document = none)
    (excluded : List Space) : ∃ p d₁ report d₂, preview source d = .ok p d₁ ∧
      execute excluded (.ofPreview source p) d₁ = .ok report d₂ ∧
      Converged excluded source target d.store.content p d₂ := by
  have htarget : source ≠ target := by
    rintro rfl
    cases source <;> cases hpromotes
  have hat : At d.worktop d := ⟨rfl, hup⟩
  cases hpreview : preview source d with
  | error e d₁ => exact ((ensures_preview hpromotes).of_error hat hpreview).elim
  | ok p d₁ =>
    obtain ⟨rfl, hat₁⟩ := (ensures_preview hpromotes).of_ok hat hpreview
    have hexecute := ensures_execute (w := d.worktop) hfiled excluded
      (previewed d.worktop.content source target)
    cases hrun : execute excluded
        (previewed d.worktop.content source target) d₁ with
    | error e d₂ =>
      exact absurd ⟨target, Request.executable_previewed hfiled hpromotes haccepts⟩
        (hexecute.of_error hat₁ hrun).1
    | ok report d₂ =>
      obtain ⟨target', hexecutable, -, -, hrefreshed, hup₂⟩ := hexecute.of_ok hat₁ hrun
      obtain rfl : target' = target := Option.some.inj (hexecutable.promotes.symm.trans hpromotes)
      have hcarried := hexecutable.admissible.carriedOut hfiled hrefreshed
      have hfiled₂ := hrefreshed.filed (filed_foldl_applied hfiled target' _)
      have hlists : previewAt d₂.store.content source target' =
          Kind.promotable.map fun kind => (kind, []) :=
        List.map_congr_left fun kind hkind => congrArg (Prod.mk kind)
          (hcarried.rowsAt_eq_nil hfiled hfiled₂ htarget hkind)
      refine ⟨_, d₁, report, d₂, rfl, hrun, ?_, ?_, ?_, ?_, ?_⟩
      · intro kind hpromotable hne
        refine Table.ext_get? fun id => ?_
        rw [hfiled₂.get?_hashesOf, hfiled₂.get?_hashesOf]
        exact hcarried.aligned hfiled htarget kind (mem_itemised_iff.mpr ⟨hpromotable, hne⟩) id
      · intro e he row hrow hoperation
        obtain ⟨kind, hkind, rfl⟩ := List.mem_map.mp he
        rw [kind_of_mem_rowsAt hrow]
        exact hcarried.copied hfiled hfiled₂ hkind hrow hoperation
      · intro a ha
        exact hcarried.elsewhere a (.inl (ha ▸ htarget))
      · cases hagain : preview source d₂ with
        | error e d₃ => exact ((ensures_preview hpromotes).of_error ⟨rfl, hup₂⟩ hagain).elim
        | ok p d₃ =>
          obtain ⟨rfl, -⟩ := (ensures_preview hpromotes).of_ok ⟨rfl, hup₂⟩ hagain
          exact ⟨d₃, congrArg (EStateM.Result.ok · d₃) hlists⟩
      · intro hincluded hfaithful policy policy' hpolicy hpolicy' hhash
        cases hcover : Store.coverPolicy policy d₂.store with
        | error e s => exact ((Store.answers_coverPolicy policy).of_error hup₂ hcover).elim
        | ok coverage s =>
          obtain ⟨rfl, -⟩ := (Store.reads_coverPolicy policy d₂.store.content).of_ok rfl hcover
          exact ⟨_, s, rfl, aggregate_of_aligned hfiled₂ hrefreshed hincluded
            (hcarried.aligned hfiled htarget) hfaithful hpolicy hpolicy' hhash⟩

theorem trial_converges : trialDesk.store.Up ∧ trialDesk.store.content.Filed ∧
    Space.draft.target? = some .test ∧
    (∀ n kind document, trialDesk.validator.objects n kind document = none) ∧
    ∃ p d₁ report d₂, preview .draft trialDesk = .ok p d₁ ∧
      execute [] (.ofPreview .draft p) d₁ = .ok report d₂ ∧
      Converged [] .draft .test trialDesk.store.content p d₂ :=
  ⟨up_trialDesk, filed_trialDesk, rfl, fun _ _ _ => rfl,
    execute_preview_converges up_trialDesk filed_trialDesk rfl (fun _ _ _ => rfl) []⟩

end Promotion

end Promotion

end ContentSpaces
