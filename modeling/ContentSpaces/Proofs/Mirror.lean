import ContentSpaces.Proofs.Registration.Setbacks
import ContentSpaces.Proofs.Synchronisation

/-!
# The registry as a mirror

The tasks of a call bring the registry from what the catalog registers before the call to what it
registers afterwards. So a call mends every subject that it asks about, and no other: what an earlier
call has written without dispatching it stays amiss, and so does what a snapshot has dropped. Of
several tasks about one subject the last that lands must be the last of them.
-/

namespace ContentSpaces

namespace Catalog

variable {space : Space} {cat cat' : Catalog} {s : Subject}

/-- A task that does to the catalog what it does to the registry. -/
theorem registrable_of_get? {task : Task} {subject : Subject} (hsubject : task.subject? = some subject)
    (h : ∀ s, cat'.get? s = if s = subject then task.document? else cat.get? s) :
    cat'.registrable = Registered.takeAll cat.registrable
      (if subject.kind.isRegistrable then some task else none).toList := by
  apply Table.ext_get?
  intro s
  rw [get?_registrable, h s]
  by_cases hkind : subject.kind.isRegistrable
  · rw [if_pos hkind]
    show _ = (Registered.take cat.registrable task).get? s
    rw [Registered.get?_take, hsubject, get?_registrable]
    by_cases hs : s = subject
    · simp [hs, hkind]
    · simp [hs, Ne.symm hs]
  · rw [if_neg hkind]
    show _ = cat.registrable.get? s
    rw [get?_registrable]
    by_cases hs : s = subject
    · simp [hs, hkind]
    · simp [hs]

theorem registrable_insert (cat : Catalog) (space : Space) (kind : Kind) {document : Json}
    {id : String} (hid : document.stringField? "id" = some id) :
    registrable (cat.insert ⟨kind, id⟩ document) =
      Registered.takeAll cat.registrable (upsert? space kind document).toList := by
  have hsubject : (Task.upsert kind space document).subject? = some ⟨kind, id⟩ := by
    simp [Task.subject?, Task.id?, Task.kind, hid]
  exact registrable_of_get? hsubject fun s => Table.get?_insert ..

theorem registrable_erase (cat : Catalog) (kind : Kind) (id : String) :
    registrable (cat.erase ⟨kind, id⟩) =
      Registered.takeAll cat.registrable (Task.delete? kind id).toList := by
  have hsubject : (Task.delete kind id).subject? = some ⟨kind, id⟩ := rfl
  exact registrable_of_get? hsubject fun s => Table.get?_erase ..

/-- The task of a change does to what is registered what the change does to the catalog. -/
theorem registrable_apply {change : Change} {effect : Cycle.Effect}
    (h : cat.apply space change = some (effect, cat')) :
    cat'.registrable = Registered.takeAll cat.registrable effect.tasks := by
  unfold apply at h
  cases hkind : change.kind with
  | create =>
    simp only [hkind] at h
    obtain ⟨payload, -, h⟩ := Option.bind_eq_some_iff.mp h
    cases hknown : payload.kind? with
    | none =>
      rw [hknown] at h
      cases h
      rfl
    | some kind =>
      rw [hknown] at h
      obtain ⟨document, hdocument, h⟩ := Option.bind_eq_some_iff.mp h
      cases h
      exact cat.registrable_insert space kind (stringField_id_of_admit? hdocument)
  | update =>
    simp only [hkind] at h
    obtain ⟨target, -, h⟩ := Option.bind_eq_some_iff.mp h
    obtain ⟨current, -, h⟩ := Option.bind_eq_some_iff.mp h
    obtain ⟨patched, -, h⟩ := Option.bind_eq_some_iff.mp h
    obtain ⟨document, hdocument, h⟩ := Option.bind_eq_some_iff.mp h
    cases h
    exact cat.registrable_insert space target.kind (stringField_id_of_admit? hdocument)
  | delete =>
    simp only [hkind] at h
    cases hfound : cat.locate? change.resource with
    | none =>
      rw [hfound] at h
      cases h
      rfl
    | some kind =>
      rw [hfound] at h
      cases h
      exact cat.registrable_erase kind change.resource

theorem registrable_applyAll {changes : List Change} {effects : List Cycle.Effect}
    (h : cat.applyAll space changes = some (effects, cat')) :
    cat'.registrable =
      Registered.takeAll cat.registrable (effects.flatMap Cycle.Effect.tasks) := by
  induction changes generalizing cat effects with
  | nil =>
    cases h
    rfl
  | cons change changes ih =>
    obtain ⟨⟨effect, mid⟩, hfirst, h⟩ := Option.bind_eq_some_iff.mp h
    obtain ⟨⟨rest, last⟩, hrest, h⟩ := Option.bind_eq_some_iff.mp h
    cases h
    rw [List.flatMap_cons, Registered.takeAll_append, ← registrable_apply hfirst, ih hrest]

end Catalog

namespace Sync

section Registrations

variable {c : Content} {space : Space} {s : Subject} {r : Resource}

theorem subject?_ofResource (hfiled : c.Filed) (hintact : c.Intact)
    (hr : c.get? ⟨s.kind, space, s.id⟩ = some r) : (Task.ofResource r).subject? = some s := by
  have hid : r.document.stringField? "id" = some r.id := (hintact _ _ hr).stringField_id
  obtain ⟨hkind, -, hname⟩ := Address.mk.inj (hfiled _ _ hr)
  simp only [Task.subject?, Task.id?, Task.kind, Task.ofResource, hid, Option.map_some]
  rw [hkind, hname]

theorem mem_registrations_iff {task : Task} : task ∈ registrations c space ↔
    ∃ (s : Subject) (r : Resource), s.kind.isRegistrable ∧
      c.get? ⟨s.kind, space, s.id⟩ = some r ∧ task = Task.ofResource r := by
  have hkinds (kind : Kind) : kind ∈ [Kind.integration, .rule] ↔ kind.isRegistrable := by
    cases kind <;> decide
  simp only [registrations, List.mem_flatMap, List.mem_map, Content.mem_collection_iff, hkinds]
  constructor
  · rintro ⟨kind, hkind, r, ⟨id, hr⟩, rfl⟩
    exact ⟨⟨kind, id⟩, r, hkind, hr, rfl⟩
  · rintro ⟨s, r, hkind, hr, rfl⟩
    exact ⟨s.kind, hkind, r, ⟨s.id, hr⟩, rfl⟩

theorem takeAll_registrations (hfiled : c.Filed) (hintact : c.Intact) (space : Space) :
    Registered.takeAll .empty (registrations c space) = (c.catalog space).registrable := by
  have htask {task : Task} (s : Subject) (hmem : task ∈ registrations c space)
      (hsubject : task.subject? = some s) : s.kind.isRegistrable ∧
        task.document? = (c.get? ⟨s.kind, space, s.id⟩).map Resource.document := by
    obtain ⟨s', r, hkind, hr, rfl⟩ := mem_registrations_iff.mp hmem
    obtain rfl : s' = s :=
      Option.some.inj ((subject?_ofResource hfiled hintact hr).symm.trans hsubject)
    exact ⟨hkind, by rw [hr]; rfl⟩
  apply Table.ext_get?
  intro s
  rw [Catalog.get?_registrable, Content.get?_catalog]
  by_cases habout : Task.About (registrations c space) s
  · obtain ⟨task, hmem, hsubject, hlast⟩ := Registered.exists_get?_takeAll_eq habout
    obtain ⟨hkind, hdocument⟩ := htask s hmem hsubject
    rw [hlast, if_pos hkind, hdocument]
  · rw [Registered.get?_takeAll_of_not_about _ habout, Table.get?_empty]
    split
    · rename_i hkind
      cases hr : c.get? ⟨s.kind, space, s.id⟩ with
      | none => rfl
      | some r =>
        have hmem := mem_registrations_iff.mpr ⟨s, r, hkind, hr, rfl⟩
        exact absurd ⟨_, hmem, subject?_ofResource hfiled hintact hr⟩ habout
    · rfl

end Registrations

variable {cfg : Config} {remote : Remote} {consumer : RemoteConsumer} {w w' : World}
  {a a' : Advance} {offset upper : Nat} {m₀ m m' : Replica} {outcome : Outcome}

/-- What the tasks of a call build on: a snapshot registers everything anew. -/
def Advance.basis (a : Advance) (registrable : Registered) : Registered :=
  if a.snapshot.isSome then .empty else registrable

theorem Started.registrable (hfiled : w.content.Filed) (hintact : w.content.Intact)
    (h : Started cfg remote consumer offset w a w') :
    (w'.content.catalog cfg.space).registrable =
      (a.basis (w.content.catalog cfg.space).registrable).takeAll a.tasks := by
  cases h with
  | resumed _ => rfl
  | loaded _ _ _ h =>
    exact (takeAll_registrations (Content.Edits.filed h.edits hfiled)
      (Content.Edits.intact h.edits hintact) cfg.space).symm

theorem Followed.registrable (hfiled : w.content.Filed)
    (h : Followed cfg remote upper a w a' w') {registered : Registered}
    (hw : (w.content.catalog cfg.space).registrable = (a.basis registered).takeAll a.tasks) :
    (w'.content.catalog cfg.space).registrable = (a'.basis registered).takeAll a'.tasks := by
  cases h with
  | current _ => exact hw
  | updated _ _ h =>
    obtain ⟨effects, happlied, -, htasks⟩ := h.applied
    have hregistrable := Catalog.registrable_applyAll (happlied.catalog hfiled)
    rw [hregistrable, hw, ← Registered.takeAll_append, htasks]
    rfl

/-- The tasks of a call lead from what was registrable before to what is registrable now. -/
theorem Advanced.registrable (hfiled : w.content.Filed) (hintact : w.content.Intact)
    (h : Advanced cfg remote consumer w a w') :
    (w'.content.catalog cfg.space).registrable =
      (a.basis (w.content.catalog cfg.space).registrable).takeAll a.tasks := by
  obtain ⟨-, started, mid, hstarted, hfollowed⟩ := h
  exact hfollowed.registrable (Content.Edits.filed hstarted.edits hfiled)
    (Started.registrable (w := w.read) hfiled hintact hstarted)

theorem Aftercare.registrable (hfiled : w.content.Filed) (h : Aftercare cfg a w w') :
    (w'.content.catalog cfg.space).registrable = (w.content.catalog cfg.space).registrable := by
  apply Table.ext_get?
  intro s
  rw [Catalog.get?_registrable, Catalog.get?_registrable]
  split
  · rename_i hkind
    refine Content.Upkeeps.get?_catalog h.upkeeps hfiled (.inr fun hpolicy => ?_)
    rw [hpolicy] at hkind
    cases hkind
  · rfl

/-- The service accepts every request at once, and there is room and time for it. -/
structure Unhindered (cfg : Config) (g : Registry) : Prop where
  conducts : g.conducts = Registry.accepting
  concurrency : 0 < cfg.limits.concurrency
  time : 0 < cfg.limits.batchTimeout

/-- The service has taken the tasks of the call, in the order in which its schedule lands them. -/
theorem Completed.registered (hg : Unhindered cfg w.registry)
    (h : Completed cfg remote w outcome w') :
    ∃ landed, landed.Perm outcome.advance.tasks ∧
      (w.registry.schedule = Registry.inTurn → landed = outcome.advance.tasks) ∧
      w'.registry.registered = w.registry.registered.takeAll landed := by
  obtain ⟨consumer, mid, settled, hadvanced, haftercare, rfl⟩ := h
  have hregistry := hadvanced.registry
  cases haftercare with
  | none hidle =>
    rw [(hadvanced.idle hidle).2.1]
    exact ⟨[], .refl _, fun _ => rfl, congrArg Registry.registered hregistry⟩
  | done _ _ _ _ _ =>
    rw [← hregistry] at hg ⊢
    obtain ⟨landed, hperm, hall, htook⟩ := took_dispatch hg.conducts hg.concurrency hg.time _
    exact ⟨landed, hperm, hall, htook.registered⟩

theorem Completed.registrable (hfiled : w.content.Filed) (hintact : w.content.Intact)
    (h : Completed cfg remote w outcome w') :
    (w'.content.catalog cfg.space).registrable =
      (outcome.advance.basis (w.content.catalog cfg.space).registrable).takeAll
        outcome.advance.tasks := by
  obtain ⟨consumer, mid, settled, hadvanced, haftercare, rfl⟩ := h
  exact (haftercare.registrable (Content.Edits.filed hadvanced.edits hfiled)).trans
    (hadvanced.registrable hfiled hintact)

theorem Wrote.unhindered (hg : Unhindered cfg w.registry) (h : Wrote cfg w w') :
    Unhindered cfg w'.registry ∧ w'.registry.schedule = w.registry.schedule := by
  obtain hsame | ⟨tasks, hdispatched⟩ := h.registry
  · rw [hsame]
    exact ⟨hg, rfl⟩
  · obtain ⟨landed, -, -, htook⟩ := took_dispatch hg.conducts hg.concurrency hg.time tasks
    rw [hdispatched]
    exact ⟨⟨htook.conducts.trans hg.conducts, hg.concurrency, hg.time⟩, htook.schedule⟩

theorem Calls.unhindered (h : Calls cfg m m') (hfiled : m.store.content.Filed)
    (hg : Unhindered cfg m.registry) :
    Unhindered cfg m'.registry ∧ m'.registry.schedule = m.registry.schedule := by
  induction h with
  | refl => exact ⟨hg, rfl⟩
  | tail hfirst hlast ih =>
    obtain ⟨remote, hcall⟩ := hlast
    obtain ⟨hmid, hschedule⟩ := ih
    obtain ⟨hlater, hsame⟩ := (hcall.wrote (Calls.filed hfirst hfiled)).unhindered hmid
    exact ⟨hlater, hsame.trans hschedule⟩

/-- The registry holds the integrations and rules of the space, each with its stored document, and
nothing else. -/
def Mirrors (space : Space) (m : Replica) : Prop :=
  m.registry.registered = (m.store.content.catalog space).registrable

/-- The registry holds all integrations and rules of the space with their stored documents. -/
def Covers (space : Space) (m : Replica) : Prop :=
  ∀ s document, (m.store.content.catalog space).registrable.get? s = some document →
    m.registry.registered.get? s = some document

/-- A call that returns brings the registry to mirror the space exactly if what none of its tasks is
about was right before (as it is stored, or not registered at all if the call loads a snapshot), and
the order in which its tasks land leaves the same as their own order for all that they are about. The
two orders are one if the first to come is the first to be served. -/
theorem mirrors_iff_of_calls (hblank : Blank m₀) (hg : Unhindered cfg m₀.registry)
    (hcalls : Calls cfg m₀ m) (h : synchronize cfg remote m = .ok outcome m') :
    ∃ landed, landed.Perm outcome.advance.tasks ∧
      (m₀.registry.schedule = Registry.inTurn → landed = outcome.advance.tasks) ∧
      m'.registry.registered = m.registry.registered.takeAll landed ∧
      (Mirrors cfg.space m' ↔ ∀ s,
        (¬ Task.About outcome.advance.tasks s → m.registry.registered.get? s =
          (outcome.advance.basis (m.store.content.catalog cfg.space).registrable).get? s) ∧
        (Task.About outcome.advance.tasks s →
          Registered.left? landed s = Registered.left? outcome.advance.tasks s)) := by
  have hfiled := hcalls.filed hblank.filed
  have hcompleted : Completed cfg remote m.world outcome m'.world :=
    (ensures_synchronize hfiled).of_ok rfl h
  obtain ⟨hunhindered, hschedule⟩ := hcalls.unhindered hblank.filed hg
  obtain ⟨landed, hperm, hall, hregistered⟩ := hcompleted.registered hunhindered
  have hregistrable := hcompleted.registrable hfiled (hcalls.intact hblank.filed hblank.intact)
  have habout (s : Subject) : Task.About landed s ↔ Task.About outcome.advance.tasks s := by
    simp only [Task.About, hperm.mem_iff]
  refine ⟨landed, hperm, fun hturn => hall (hschedule.trans hturn), hregistered, ?_⟩
  rw [← Registered.takeAll_eq_takeAll_iff habout, Mirrors]
  exact iff_of_eq (congrArg₂ Eq hregistered hregistrable)

theorem Completed.covers {m m' : Replica} (hm : Covers cfg.space m)
    (hfiled : m.store.content.Filed) (hintact : m.store.content.Intact)
    (hg : Unhindered cfg m.registry) (hturn : m.registry.schedule = Registry.inTurn)
    (h : Completed cfg remote m.world outcome m'.world) : Covers cfg.space m' := by
  intro s document hs
  obtain ⟨landed, -, hall, hregistered⟩ := h.registered hg
  obtain rfl := hall hturn
  change m'.registry.registered = m.registry.registered.takeAll outcome.advance.tasks at hregistered
  have hregistrable : (m'.store.content.catalog cfg.space).registrable =
      (outcome.advance.basis (m.store.content.catalog cfg.space).registrable).takeAll
        outcome.advance.tasks := h.registrable hfiled hintact
  rw [hregistrable] at hs
  rw [hregistered]
  by_cases habout : Task.About outcome.advance.tasks s
  · rw [← hs]
    exact Registered.get?_takeAll_congr _ _ habout
  · rw [Registered.get?_takeAll_of_not_about _ habout] at hs ⊢
    unfold Advance.basis at hs
    split at hs
    · cases hs
    · exact hm s document hs

/-- Where no failing call has left anything undone and requests are served as they come, nothing is
missing and nothing is stale. Only what a snapshot has dropped may be left over. -/
theorem covers_of_lossless (hblank : Blank m₀) (hg : Unhindered cfg m₀.registry)
    (hturn : m₀.registry.schedule = Registry.inTurn)
    (h : Relation.ReflTransGen (Lossless cfg) m₀ m) : Covers cfg.space m := by
  induction h with
  | refl =>
    intro s document hs
    rw [hblank.content] at hs
    cases hs
  | tail hfirst hlast ih =>
    have hcalls := Lossless.calls hfirst
    have hfiled := hcalls.filed hblank.filed
    obtain ⟨hunhindered, hschedule⟩ := hcalls.unhindered hblank.filed hg
    cases hlast with
    | returned h =>
      exact Completed.covers ih hfiled (hcalls.intact hblank.filed hblank.intact) hunhindered
        (hschedule.trans hturn) ((ensures_synchronize hfiled).of_ok rfl h)
    | failed _ hcontent hregistry =>
      intro s document hs
      rw [hcontent] at hs
      rw [hregistry]
      exact ih s document hs

section Trial

theorem unhindered_trial : Unhindered trialConfig (.empty Registry.accepting) :=
  ⟨rfl, by decide, by decide⟩

theorem blank_trial : Blank (.of .empty .empty) := ⟨rfl, rfl, rfl⟩

/-- Served as they come, the tasks land in their own order, so only what they leave aside counts. -/
theorem lapse_mirrors_iff : ∃ m outcome m', Calls trialConfig (.of .empty .empty) m ∧
    synchronize trialConfig (announcing (.ok [])) m = .ok outcome m' ∧
    m'.registry.registered = m.registry.registered.takeAll outcome.advance.tasks ∧
    (Mirrors .standard m' ↔
      ∀ s, ¬ Task.About outcome.advance.tasks s →
        m.registry.registered.get? s =
          (outcome.advance.basis (m.store.content.catalog .standard).registrable).get? s) := by
  obtain ⟨e, m, outcome, m', hfirst, hsecond, -⟩ := lapse
  have hcalls : Calls trialConfig (.of .empty .empty) m := .single ⟨_, .failed hfirst⟩
  obtain ⟨landed, -, hinTurn, hregistered, hiff⟩ :=
    mirrors_iff_of_calls blank_trial unhindered_trial hcalls hsecond
  obtain rfl := hinTurn rfl
  exact ⟨m, outcome, m', hcalls, hsecond, hregistered,
    hiff.trans (forall_congr' fun s => and_iff_left fun _ => rfl)⟩

theorem lapse_not_mirrors : ∃ m outcome m', Blank (.of .empty .empty) ∧
    Unhindered trialConfig (.empty Registry.accepting) ∧
    Calls trialConfig (.of .empty .empty) m ∧
    synchronize trialConfig (announcing (.ok [])) m = .ok outcome m' ∧
    ¬ Mirrors .standard m' := by
  obtain ⟨e, m, outcome, m', hfirst, hsecond, hstored, hregistered, -⟩ := lapse
  refine ⟨m, outcome, m', blank_trial, unhindered_trial, .single ⟨_, .failed hfirst⟩, hsecond,
    fun hmirrors => ?_⟩
  obtain ⟨r, hr⟩ := Option.isSome_iff_exists.mp hstored
  have hnone : m'.registry.registered.get? ⟨.rule, "r"⟩ = none := by
    rw [Table.get?, List.eq_nil_of_length_eq_zero hregistered]
    rfl
  have hsome : (m'.store.content.catalog .standard).registrable.get? ⟨.rule, "r"⟩ =
      some r.document := by
    refine (Catalog.get?_registrable _ _).trans ((if_pos (by decide)).trans ?_)
    rw [Content.get?_catalog, hr]
    rfl
  rw [hmirrors, hsome] at hnone
  cases hnone

end Trial

end Sync

end ContentSpaces
