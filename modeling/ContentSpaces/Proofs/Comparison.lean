import ContentSpaces.Proofs.Draft.Sessions
import ContentSpaces.Proofs.Isolation
import ContentSpaces.Proofs.Promotion.Convergence

/-!
# Spaces compared by aggregate

Equal documents give equal aggregates, whatever space they are in. The default policy of a new space
is the exception: it is given its own digest for an aggregate, until one is computed in the space.
-/

namespace ContentSpaces

namespace Content

variable {c c' : Content} {s t : Space} {r r' : Resource}

theorem SameBodies.aggregate (h : SameBodies c s c' t) (hc : c.Filed) (hc' : c'.Filed)
    {id id' : String} (hr : c.get? ⟨.policy, s, id⟩ = some r)
    (hr' : c'.get? ⟨.policy, t, id'⟩ = some r') (hbody : r'.body = r.body) :
    c'.aggregate r' = c.aggregate r := by
  have haddress := hc _ _ hr
  have haddress' := hc' _ _ hr'
  have hkind : r.kind = .policy := congrArg Address.kind haddress
  have hkind' : r'.kind = .policy := congrArg Address.kind haddress'
  rw [Content.aggregate, Content.aggregate, cover, cover, if_pos hkind, if_pos hkind',
    h.coverPolicy hc hc' (congrArg Address.space haddress) (congrArg Address.space haddress') hbody]

/-- Each policy carries the aggregate that its space gives it now, or in a fresh space, where it is
the default policy, its own digest. -/
structure Aggregated (fresh : List Space) (c : Content) : Prop where
  filed : c.Filed
  intact : c.Intact
  initial : ∀ space ∈ fresh, ∀ id p, c.get? ⟨.policy, space, id⟩ = some p →
    p.document = Store.defaultPolicyDocument ∧ p.aggregate = some p.hash
  current : ∀ space ∉ fresh, ∀ id p, c.get? ⟨.policy, space, id⟩ = some p →
    p.aggregate = some (c.aggregate p)

variable {fresh : List Space} {target : Space}

theorem Aggregated.empty : Aggregated [] .empty where
  filed := .empty
  intact := .empty
  initial _ h := nomatch h
  current _ _ _ _ h := nomatch h

theorem Aggregated.congr {fresh' : List Space} (h : Aggregated fresh c)
    (hsame : ∀ space, space ∈ fresh' ↔ space ∈ fresh) : Aggregated fresh' c where
  filed := h.filed
  intact := h.intact
  initial space hspace := h.initial space ((hsame space).mp hspace)
  current space hspace := h.current space (mt (hsame space).mpr hspace)

/-- Work that is confined to one space has to see to the policies of this space only. -/
theorem Aggregated.confined {fresh' : List Space} (h : Aggregated fresh c)
    (hconfined : c.Confined (·.space = target) c')
    (hfresh : ∀ space, space ≠ target → (space ∈ fresh' ↔ space ∈ fresh))
    (hinitial : target ∈ fresh' → ∀ id p, c'.get? ⟨.policy, target, id⟩ = some p →
      p.document = Store.defaultPolicyDocument ∧ p.aggregate = some p.hash)
    (hcurrent : target ∉ fresh' → ∀ id p, c'.get? ⟨.policy, target, id⟩ = some p →
      p.aggregate = some (c'.aggregate p)) : Aggregated fresh' c' := by
  constructor
  · exact hconfined.filed
  · exact hconfined.intact h.intact
  · intro space hspace id p hp
    by_cases htarget : space = target
    · subst htarget
      exact hinitial hspace id p hp
    · rw [hconfined.outside _ htarget] at hp
      exact h.initial space ((hfresh space htarget).mp hspace) id p hp
  · intro space hspace id p hp
    by_cases htarget : space = target
    · subst htarget
      exact hcurrent hspace id p hp
    · have hstored := hp
      rw [hconfined.outside _ htarget] at hstored
      have hsame : SameBodies c space c' space := fun kind _ id' => by
        rw [hconfined.outside ⟨kind, space, id'⟩ htarget]
      rw [h.current space (mt (hfresh space htarget).mpr hspace) id p hstored,
        hsame.aggregate h.filed hconfined.filed hstored hp rfl]

/-- Work on a space that ends with computing its aggregates makes them current. -/
theorem Aggregated.refreshed (h : Aggregated fresh c)
    (hconfined : c.Confined (·.space = target) c') {mid : Content} {p : Address → Bool}
    (hrefreshed : Refreshed p mid c') (hpolicies : ∀ id, p ⟨.policy, target, id⟩ = true) :
    Aggregated (fresh.filter (· ≠ target)) c' := by
  refine h.confined hconfined (fun space hne => ?_) (fun htarget => ?_) fun _ id p hp => ?_
  · simp [hne]
  · simp at htarget
  · exact hrefreshed.aggregate_eq (hpolicies id) hp

end Content

namespace Store

open Content

variable {c : Content} {fresh : List Space} {space : Space}

theorem aggregated_file_default {r : Resource} (h : Aggregated fresh c)
    (hnone : c.collection .policy space = [])
    (hr : Resource.create .policy space defaultPolicyDocument = .ok r) :
    Aggregated (space :: fresh) (c.file (r.withAggregate r.hash)) := by
  have hintact := Resource.create_intact hr
  obtain ⟨-, hcreated⟩ := Resource.create_eq_ok_iff.mp hr
  have hspace : r.space = space := congrArg Resource.space hcreated
  have hconfined : c.Confined (·.space = space) (c.file (r.withAggregate r.hash)) :=
    (Confined.refl h.filed).file hspace fun _ => hintact.withAggregate _
  refine h.confined hconfined (fun s hne => ?_) (fun _ id p hp => ?_) fun hstale => ?_
  · simp [hne]
  · rw [get?_file] at hp
    split at hp
    · obtain rfl := Option.some.inj hp
      exact ⟨congrArg Resource.document hcreated, rfl⟩
    · have hmem : p ∈ c.collection .policy space := mem_collection_iff.mpr ⟨id, hp⟩
      rw [hnone] at hmem
      cases hmem
  · exact absurd List.mem_cons_self hstale

theorem aggregated_ensurePolicy (h : Aggregated fresh c) (space : Space) :
    Ensures (·.content = c) (ensurePolicy space)
      (fun created s => Aggregated (cond created (space :: fresh) fresh) s.content)
      (fun _ _ => True) := by
  refine (ensures_provided space c).mono (fun _ hs => hs) ?_ fun _ _ _ => trivial
  intro created s hs
  generalize s.content = c' at hs ⊢
  cases hs with
  | kept _ => exact h
  | created hnone hr => exact aggregated_file_default h hnone hr

/-- Spaces that are given a policy become fresh. -/
theorem aggregated_initializeSpaces (fresh : List Space) :
    Ensures (Aggregated fresh ·.content) initializeSpaces
      (fun created s => Aggregated (created ++ fresh) s.content) (fun _ _ => True) := by
  -- The loop collects the spaces in reverse.
  have hamong (spaces done : List Space) : Ensures (Aggregated (done ++ fresh) ·.content)
      (List.filterAuxM ensurePolicy spaces done)
      (fun created s => Aggregated (created ++ fresh) s.content) (fun _ _ => True) := by
    induction spaces generalizing done with
    | nil => exact .pure fun _ h => h
    | cons space spaces ih =>
      refine Ensures.bind (ensures_of_content (P := Aggregated (done ++ fresh)) fun c hc =>
        aggregated_ensurePolicy hc space) fun created => ?_
      cases created with
      | true => exact ih (space :: done)
      | false => exact ih done
  refine (hamong Space.ofUsers []).bind fun created => .pure fun s h => h.congr fun space => ?_
  rw [List.mem_append, List.mem_append, List.mem_reverse]

end Store

namespace Content

variable {c : Content} {s t : Space} {fresh : List Space}

/-- Content that comes about while the store answers every call, and the spaces that still carry the
aggregate they were given with the default policy. -/
inductive Run : List Space → Content → Prop
  | empty : Run [] .empty
  | initialized {fresh created : List Space} {s s' : Store} (h : Run fresh s.content) (hup : s.Up)
      (hrun : Store.initializeSpaces s = .ok created s') : Run (created ++ fresh) s'.content
  | edited {fresh : List Space} {d d' : Desk} {call : Draft.Call} (h : Run fresh d.store.content)
      (hup : d.store.Up) (hrun : call.run d = .ok () d') :
      Run (fresh.filter (· ≠ .draft)) d'.store.content
  | refused {fresh : List Space} {d d' : Desk} {call : Draft.Call} {e : EditError}
      (h : Run fresh d.store.content) (hup : d.store.Up) (hrun : call.run d = .error e d') :
      Run fresh d'.store.content
  | promoted {fresh : List Space} {d d' : Desk} {request : Promotion.Request}
      {report : Promotion.Report} (h : Run fresh d.store.content) (hup : d.store.Up)
      (hrun : Promotion.execute [] request d = .ok report d') :
      Run (fresh.filter (· ≠ report.target)) d'.store.content
  | declined {fresh : List Space} {d d' : Desk} {request : Promotion.Request} {e : EditError}
      (h : Run fresh d.store.content) (hup : d.store.Up)
      (hrun : Promotion.execute [] request d = .error e d') : Run fresh d'.store.content

theorem aggregated_edited {d d' : Desk} {call : Draft.Call} (h : Aggregated fresh d.store.content)
    (hup : d.store.Up) (hrun : call.run d = .ok () d') :
    Aggregated (fresh.filter (· ≠ .draft)) d'.store.content := by
  have hconfined := (Draft.confines_run (p := (·.space = .draft)) (fun _ ha => ha) call).of_ok
    (.refl h.filed) hrun
  obtain ⟨mid, g, -, hrefreshed, -, -⟩ :=
    (Draft.ensures_run (w := d.worktop) h.filed h.intact.storable call).of_ok ⟨rfl, hup⟩ hrun
  exact h.refreshed hconfined.2 hrefreshed fun _ => rfl

theorem aggregated_promoted {d d' : Desk} {request : Promotion.Request} {report : Promotion.Report}
    (h : Aggregated fresh d.store.content) (hup : d.store.Up)
    (hrun : Promotion.execute [] request d = .ok report d') :
    Aggregated (fresh.filter (· ≠ report.target)) d'.store.content := by
  obtain ⟨target, hexecutable, rfl, -, hrefreshed, -⟩ :=
    (Promotion.ensures_execute (w := d.worktop) h.filed [] request).of_ok ⟨rfl, hup⟩ hrun
  have hconfined := (Promotion.confines_execute (p := (·.space = report.target)) [] request
    fun target' htarget' a ha => ?_).of_ok (.refl h.filed) hrun
  · refine h.refreshed hconfined.2 hrefreshed fun _ => ?_
    simp [Promotion.refreshes, Kind.isContainer]
  · exact ha.1.trans (Option.some.inj (htarget'.symm.trans hexecutable.promotes))

/-- Whatever is run, every policy carries the aggregate of its space but in the fresh spaces. -/
theorem Run.aggregated (h : Run fresh c) : Aggregated fresh c := by
  induction h with
  | empty => exact .empty
  | initialized _ _ hrun ih => exact (Store.aggregated_initializeSpaces _).of_ok ih hrun
  | edited _ hup hrun ih => exact aggregated_edited ih hup hrun
  | @refused _ d _ call _ _ hup hrun ih =>
    have hvoid := (Draft.ensures_run (w := d.worktop) ih.filed ih.intact.storable call).of_error
      ⟨rfl, hup⟩ hrun
    exact hvoid.content ▸ ih
  | promoted _ hup hrun ih => exact aggregated_promoted ih hup hrun
  | @declined _ d _ request _ _ hup hrun ih =>
    have hvoid := (Promotion.ensures_execute (w := d.worktop) ih.filed [] request).of_error
      ⟨rfl, hup⟩ hrun
    exact hvoid.2 ▸ ih

section Documents

/-- The spaces hold the same documents, as far as aggregates cover them. -/
def SameDocuments (c : Content) (s t : Space) : Prop :=
  ∀ kind ∈ Kind.policy :: covered, ∀ id, (c.get? ⟨kind, t, id⟩).map Resource.document =
    (c.get? ⟨kind, s, id⟩).map Resource.document

theorem collection_map_document (c : Content) (kind : Kind) (space : Space) :
    (c.collection kind space).map Resource.document =
      ((c.catalog space).filterKeys fun subject => subject.kind == kind).values := by
  simp only [collection, catalog, Table.values, Table.filterKeys, List.filter_map,
    List.filter_filter, List.map_map]
  rfl

theorem Intact.body_eq (hc : c.Intact) {a b : Address} {r r' : Resource} (hr : c.get? a = some r)
    (hr' : c.get? b = some r') (hdocument : r'.document = r.document) : r'.body = r.body := by
  refine Prod.ext hdocument ?_
  show r'.hash = r.hash
  rw [(hc _ _ hr').hash, (hc _ _ hr).hash, hdocument]

theorem SameDocuments.sameBodies (h : c.SameDocuments s t) (hc : c.Intact) :
    SameBodies c s c t := fun kind hkind id =>
  Resource.map_eq_map (h kind (List.mem_cons_of_mem _ hkind) id) fun _ _ hr hr' => hc.body_eq hr hr'

theorem SameDocuments.document_eq (h : c.SameDocuments s t) {p q : Resource}
    (hp : c.policy? s = some p) (hq : c.policy? t = some q) : q.document = p.document := by
  suffices hmapped : (c.policy? t).map Resource.document = (c.policy? s).map Resource.document by
    rw [hp, hq] at hmapped
    exact Option.some.inj hmapped
  rw [policy?, policy?, ← List.head?_map, ← List.head?_map, collection_map_document,
    collection_map_document]
  refine congrArg (fun table => (Table.values table).head?) (Table.ext_get? fun subject => ?_)
  rw [Table.get?_filterKeys, Table.get?_filterKeys, get?_catalog, get?_catalog]
  split
  · rename_i hkind
    rw [beq_iff_eq.mp hkind]
    exact h .policy List.mem_cons_self subject.id
  · rfl

end Documents

section Default

theorem sorted_defaultPolicyDocument :
    Store.defaultPolicyDocument.sorted = Store.defaultPolicyDocument := by
  rw [Store.defaultPolicyDocument, Json.sorted, List.mergeSort_of_pairwise (by decide +kernel)]
  rfl

theorem digest_default : Digest.ofDocument Store.defaultPolicyDocument =
    "aab58e305293b2a1ba88003d8aaf18c458f9fd779e061dc588124aafa3d7589d" := by
  rw [Digest.ofDocument, Json.canonical, sorted_defaultPolicyDocument]
  decide +kernel

theorem aggregate_digest_default :
    Digest.aggregate ["aab58e305293b2a1ba88003d8aaf18c458f9fd779e061dc588124aafa3d7589d"] =
      "07f340a241d64dde60faf382277e82eb79791dde824c3bff83edbca428e204d8" := by
  decide +kernel

/-- The default policy has no integrations, so its aggregate covers its own digest alone. -/
theorem aggregate_of_default {r : Resource} (c : Content) (hkind : r.kind = .policy)
    (hdocument : r.document = Store.defaultPolicyDocument) :
    c.aggregate r = Digest.aggregate [r.hash] := by
  have hnone : r.references .integrations = [] := by
    rw [Resource.references, hdocument]
    rfl
  rw [aggregate, cover, if_pos hkind, coverPolicy, hnone]
  rfl

theorem Aggregated.aggregate_ne (h : Aggregated fresh c) (hs : s ∈ fresh) (ht : t ∉ fresh)
    {id id' : String} {p q : Resource} (hp : c.get? ⟨.policy, s, id⟩ = some p)
    (hq : c.get? ⟨.policy, t, id'⟩ = some q) (hdocument : q.document = p.document) :
    q.aggregate ≠ p.aggregate := by
  obtain ⟨hdefault, hinitial⟩ := h.initial s hs id p hp
  have hkind : q.kind = .policy := congrArg Address.kind (h.filed _ _ hq)
  have hhash (a : Address) (r : Resource) (hr : c.get? a = some r)
      (hdocument : r.document = Store.defaultPolicyDocument) :
      r.hash = "aab58e305293b2a1ba88003d8aaf18c458f9fd779e061dc588124aafa3d7589d" := by
    rw [(h.intact a r hr).hash, hdocument, digest_default]
  rw [hinitial, h.current t ht id' q hq, aggregate_of_default c hkind (hdocument.trans hdefault),
    hhash _ p hp hdefault, hhash _ q hq (hdocument.trans hdefault), aggregate_digest_default]
  decide

end Default

/-- Two spaces with the same documents carry the same aggregate exactly if both are fresh or none
is. -/
theorem Run.aggregate_eq_iff (h : Run fresh c) {p q : Resource} (hp : c.policy? s = some p)
    (hq : c.policy? t = some q) (hsame : c.SameDocuments s t) :
    q.aggregate = p.aggregate ↔ (s ∈ fresh ↔ t ∈ fresh) := by
  have haggregated := h.aggregated
  have hstored := haggregated.filed.get?_of_policy? hp
  have hstored' := haggregated.filed.get?_of_policy? hq
  have hdocument := hsame.document_eq hp hq
  have hbody := haggregated.intact.body_eq hstored hstored' hdocument
  by_cases hs : s ∈ fresh <;> by_cases ht : t ∈ fresh
  · refine iff_of_true ?_ (iff_of_true hs ht)
    rw [(haggregated.initial s hs _ p hstored).2, (haggregated.initial t ht _ q hstored').2]
    exact congrArg some (Prod.mk.inj hbody).2
  · refine iff_of_false (haggregated.aggregate_ne hs ht hstored hstored' hdocument) ?_
    exact fun hiff => ht (hiff.mp hs)
  · refine iff_of_false (haggregated.aggregate_ne ht hs hstored' hstored hdocument.symm).symm ?_
    exact fun hiff => hs (hiff.mpr ht)
  · refine iff_of_true ?_ (iff_of_false hs ht)
    rw [haggregated.current s hs _ p hstored, haggregated.current t ht _ q hstored',
      (hsame.sameBodies haggregated.intact).aggregate haggregated.filed haggregated.filed hstored
        hstored' hbody]

section Idle

variable {c' : Content}

theorem SameDocuments.of_sameBare (h : c.SameDocuments s t) (hbare : SameBare c c') :
    c'.SameDocuments s t := by
  intro kind hkind id
  rw [hbare.map_get? (fun _ => rfl), hbare.map_get? (fun _ => rfl)]
  exact h kind hkind id

theorem SameBare.exists_policy? (hbare : SameBare c c') (hp : (c.policy? s).isSome) :
    ∃ p, c'.policy? s = some p := by
  have hmapped := policy?_map_congr fun id => hbare ⟨.policy, s, id⟩
  rw [← Option.isSome_iff_exists, ← Option.isSome_map (f := Resource.bare), hmapped,
    Option.isSome_map]
  exact hp

/-- A space with default policies only has just one. -/
theorem map_document_of_defaults (hc : c.Filed) (h : Draft.OfDefaults c)
    (hs : (c.policy? s).isSome) (kind : Kind) (id : String) :
    (c.get? ⟨kind, s, id⟩).map Resource.document =
      if kind = .policy ∧ id = Store.defaultPolicyId then some Store.defaultPolicyDocument
      else none := by
  have hat {a : Address} {r : Resource} (hr : c.get? a = some r) :
      a.kind = .policy ∧ a.id = Store.defaultPolicyId := by
    obtain ⟨hkind, hdocument⟩ := h a r hr
    have haddress := hc a r hr
    refine ⟨(congrArg Address.kind haddress).symm.trans hkind, ?_⟩
    exact (congrArg Address.id haddress).symm.trans (congrArg documentId hdocument)
  cases hr : c.get? ⟨kind, s, id⟩ with
  | some r => rw [if_pos (hat hr), Option.map_some, (h _ r hr).2]
  | none =>
    refine (if_neg ?_).symm
    rintro ⟨rfl, rfl⟩
    obtain ⟨p, hp⟩ := Option.isSome_iff_exists.mp hs
    have hstored := hc.get?_of_policy? hp
    have hid : p.id = Store.defaultPolicyId := (hat hstored).2
    rw [hid, hr] at hstored
    cases hstored

theorem sameDocuments_of_defaults (hc : c.Filed) (h : Draft.OfDefaults c)
    (hs : (c.policy? s).isSome) (ht : (c.policy? t).isSome) : c.SameDocuments s t := by
  intro kind _ id
  rw [map_document_of_defaults hc h hs, map_document_of_defaults hc h ht]

theorem execute_empty {d : Desk} (hup : d.store.Up) (hfiled : d.store.content.Filed)
    {source target : Space} (htarget : source.target? = some target) :
    ∃ report d', Promotion.execute [] ⟨source, .empty⟩ d = .ok report d' ∧
      report.target = target ∧ SameBare d.store.content d'.store.content := by
  have hexecutable : Promotion.Request.Executable ⟨source, .empty⟩ d.worktop target := by
    refine ⟨htarget, ⟨nofun, nofun, fun kind _ _ item hitem => ?_⟩, ?_⟩
    · cases kind <;> cases hitem
    · exact d.worktop.validator.accepts_nil
  have hspec := Promotion.ensures_execute (w := d.worktop) hfiled [] ⟨source, .empty⟩
  cases hrun : Promotion.execute [] ⟨source, .empty⟩ d with
  | error e d' => exact absurd ⟨target, hexecutable⟩ (hspec.of_error ⟨rfl, hup⟩ hrun).1
  | ok report d' =>
    obtain ⟨target', hthen, hreport, -, hrefreshed, -⟩ := hspec.of_ok ⟨rfl, hup⟩ hrun
    refine ⟨report, d', rfl, ?_, hrefreshed.sameBare⟩
    exact hreport.trans (Option.some.inj (hthen.promotes.symm.trans htarget))

theorem trial_run : Run Space.ofUsers Draft.trialDesk.store.content :=
  .initialized (s := .ofContent .empty) .empty (fun _ _ => rfl) rfl

theorem trial_policies : ∀ space ∈ Space.ofUsers,
    (Draft.trialDesk.store.content.policy? space).isSome := by decide +kernel

theorem trial_sameDocuments : Draft.trialDesk.store.content.SameDocuments .draft .test :=
  sameDocuments_of_defaults Draft.begun_trialDesk.ready.filed Draft.begun_trialDesk.ofDefaults
    (trial_policies _ (by decide)) (trial_policies _ (by decide))

theorem trial_aggregate_eq_iff : ∃ p q, Run Space.ofUsers Draft.trialDesk.store.content ∧
    Draft.trialDesk.store.content.policy? .draft = some p ∧
    Draft.trialDesk.store.content.policy? .test = some q ∧
    Draft.trialDesk.store.content.SameDocuments .draft .test ∧
    (q.aggregate = p.aggregate ↔ (Space.draft ∈ Space.ofUsers ↔ Space.test ∈ Space.ofUsers)) := by
  obtain ⟨p, hp⟩ := Option.isSome_iff_exists.mp (trial_policies .draft (by decide))
  obtain ⟨q, hq⟩ := Option.isSome_iff_exists.mp (trial_policies .test (by decide))
  exact ⟨p, q, trial_run, hp, hq, trial_sameDocuments,
    trial_run.aggregate_eq_iff hp hq trial_sameDocuments⟩

/-- A promotion of nothing, right after the spaces have been initialised, makes them differ. -/
theorem idle_aggregates_differ : ∃ report d p q,
    Promotion.execute [] ⟨.draft, .empty⟩ Draft.trialDesk = .ok report d ∧
    Run [.draft, .custom] d.store.content ∧
    d.store.content.policy? .draft = some p ∧ d.store.content.policy? .test = some q ∧
    d.store.content.SameDocuments .draft .test ∧ q.aggregate ≠ p.aggregate := by
  have hready := Draft.begun_trialDesk.ready
  obtain ⟨report, d, hrun, htarget, hbare⟩ :=
    execute_empty hready.up hready.filed (rfl : Space.draft.target? = some .test)
  have hpromoted := Run.promoted trial_run hready.up hrun
  rw [htarget] at hpromoted
  obtain ⟨p, hp⟩ := hbare.exists_policy? (trial_policies .draft (by decide))
  obtain ⟨q, hq⟩ := hbare.exists_policy? (trial_policies .test (by decide))
  have hsame := trial_sameDocuments.of_sameBare hbare
  have haggregated := hpromoted.aggregated
  refine ⟨report, d, p, q, hrun, hpromoted, hp, hq, hsame, ?_⟩
  exact haggregated.aggregate_ne (by decide) (by decide) (haggregated.filed.get?_of_policy? hp)
    (haggregated.filed.get?_of_policy? hq) (hsame.document_eq hp hq)

end Idle

end Content

end ContentSpaces
