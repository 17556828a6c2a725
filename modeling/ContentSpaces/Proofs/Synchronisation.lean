import ContentSpaces.Proofs.Aggregate
import ContentSpaces.Proofs.Cycle
import ContentSpaces.Proofs.Snapshot
import ContentSpaces.Sync

/-!
# Calls of synchronisation

A call goes through three phases, and each of them may fail. For each phase there is a relation
between the world before it and the world after it, and one for its failure.
-/

namespace ContentSpaces.Sync

open Replica

variable {cfg : Config} {remote : Remote} {consumer : RemoteConsumer} {w w' w'' : World}
  {a a' : Advance} {offset upper : Nat}

def registrations (c : Content) (space : Space) : List Task :=
  [Kind.integration, .rule].flatMap fun kind => (c.collection kind space).map Task.ofResource

theorem reads_snapshotTasks (space : Space) :
    Store.Reads (snapshotTasks space) (registrations · space) :=
  (Store.Reads.mapM (fun kind => (Store.reads_search kind space).bind fun _ => .pure _) _).bind
    fun _ => .pure _

/-- The first phase has gone on from the cursor or has loaded a snapshot. -/
inductive Started (cfg : Config) (remote : Remote) (consumer : RemoteConsumer) (offset : Nat)
    (w : World) : Advance → World → Prop
  | resumed (h : (if offset = 0 then consumer.snapshotLink? else none) = none) :
      Started cfg remote consumer offset w ⟨offset, [], none, none⟩ w
  | loaded {url : String} {files : List Snapshot.SourceFile} {report : Snapshot.Report}
      {w' : World} (hoffset : offset = 0) (hurl : consumer.snapshotLink? = some url)
      (hserved : Snapshot.Served remote url files)
      (h : Snapshot.Installed cfg url consumer.lastSnapshotOffset files w w') :
      Started cfg remote consumer offset w
        ⟨consumer.lastSnapshotOffset, registrations w'.content cfg.space, some report, none⟩ w'

/-- A snapshot could not be loaded and the cursor was to be reset, or the snapshot was loaded and
its registrations could not be read. -/
inductive StartFailed (cfg : Config) (remote : Remote) (consumer : RemoteConsumer) (offset : Nat)
    (w : World) : World → Prop
  | reset {w' : World} (h : Snapshot.Failed cfg w w') :
      StartFailed cfg remote consumer offset w
        { w' with cursors := w'.cursors.afterReset cfg.owner }
  | unread {a : Advance} {w' : World} (h : Started cfg remote consumer offset w a w') :
      StartFailed cfg remote consumer offset w w'

theorem not_isBlank_of_snapshotLink? {url : String} (h : consumer.snapshotLink? = some url) :
    Text.isBlankText url = false := by
  have hfilter := (Option.filter_eq_some_iff.mp h).2
  simpa using hfilter

theorem ensures_bootstrap (remote : Remote) {url : String} (hurl : Text.isBlankText url = false)
    (offset : Nat) :
    Ensures (·.world = w) (bootstrap cfg remote url offset)
      (fun _ m => ∃ files, Snapshot.Served remote url files ∧
        Snapshot.Installed cfg url offset files w m.world)
      (fun _ m => ∃ w', Snapshot.Failed cfg w w' ∧
        m.world = { w' with cursors := w'.cursors.afterReset cfg.owner }) := by
  refine Ensures.tryCatch (Snapshot.ensures_bootstrap remote hurl offset) fun e =>
    ensures_of_world fun w' hfailed => ?_
  exact Ensures.bind (ensures_attempt_reset cfg.owner) fun _ => .throw fun _ h => ⟨w', hfailed, h⟩

theorem ensures_start (offset : Nat) :
    Ensures (·.world = w) (start cfg remote consumer offset)
      (fun a m => Started cfg remote consumer offset w a m.world)
      (fun _ m => StartFailed cfg remote consumer offset w m.world) := by
  unfold start
  split
  · rename_i hnone
    exact .pure fun m h => h ▸ .resumed hnone
  · rename_i url hsome
    obtain ⟨hoffset, hurl⟩ : offset = 0 ∧ consumer.snapshotLink? = some url := by
      split at hsome
      · rename_i hoffset
        exact ⟨hoffset, hsome⟩
      · cases hsome
    have hblank := not_isBlank_of_snapshotLink? hurl
    refine ((ensures_bootstrap remote hblank _).mono_error ?_).bind fun report => ?_
    · rintro _ m ⟨w', hfailed, h⟩
      exact h ▸ .reset hfailed
    refine ensures_of_world (P := fun w' => ∃ files, Snapshot.Served remote url files ∧
      Snapshot.Installed cfg url consumer.lastSnapshotOffset files w w') fun w' hw' => ?_
    obtain ⟨files, hserved, hinstalled⟩ := hw'
    refine ((ensures_onStore_of_reads (reads_snapshotTasks cfg.space)).mono_error ?_).bind
      fun tasks => .of_and fun htasks => .pure ?_
    · rintro _ m h
      exact h ▸ .unread (a := ⟨_, _, some report, none⟩)
        (.loaded hoffset hurl hserved hinstalled)
    · intro m h
      rw [htasks, h]
      exact .loaded hoffset hurl hserved hinstalled

inductive Followed (cfg : Config) (remote : Remote) (upper : Nat) (a : Advance) (w : World) :
    Advance → World → Prop
  | current (h : ¬ a.offset < upper) : Followed cfg remote upper a w a w
  | updated {changes : List Change} {report : Cycle.Report} {w' : World} (h : a.offset < upper)
      (hchanges : (remote.changes a.offset upper).changes = .ok changes)
      (hcommitted : Cycle.Committed cfg a.offset upper changes w report w') :
      Followed cfg remote upper a w
        { a with
          offset := report.committed
          tasks := a.tasks ++ report.registrations
          update := some report } w'

theorem ensures_follow (upper : Nat) (a : Advance) :
    Ensures (·.world = w) (follow cfg remote upper a)
      (fun a' m => Followed cfg remote upper a w a' m.world)
      (fun _ m => Cycle.Failed cfg w m.world) := by
  unfold follow
  split
  · rename_i hbelow
    refine (Cycle.ensures_update remote a.offset upper).bind fun report => .pure ?_
    rintro m ⟨changes, hchanges, hcommitted⟩
    exact .updated hbelow hchanges hcommitted
  · rename_i hreached
    exact .pure fun m h => h ▸ .current hreached

/-- The third phase has done the work that a change of content calls for. -/
inductive Aftercare (cfg : Config) (a : Advance) (w : World) : World → Prop
  | none (h : a.hasChanges = false) : Aftercare cfg a w w
  | done {c c' : Content} (h : a.hasChanges = true) (hinitialized : Content.Upkeeps w.content c)
      (hpolicies : ∀ space ∈ Space.ofUsers, c.collection .policy space ≠ [])
      (hrefreshed : Content.Refreshed (fun a => a.kind.isContainer) c c')
      (hupkeeps : Content.Upkeeps c c') :
      Aftercare cfg a w { w with
        content := c'
        registry := (dispatch cfg.limits a.tasks w.registry).2 }

structure AftercareFailed (cfg : Config) (a : Advance) (w w' : World) : Prop where
  content : Content.Upkeeps w.content w'.content
  cursors : w'.cursors = w.cursors
  registry : w'.registry = w.registry ∨
    w'.registry = (dispatch cfg.limits a.tasks w.registry).2

theorem ensures_dispatchAll (tasks : List Task) {E : SyncError → Replica → Prop} :
    Ensures (·.world = w) (dispatchAll cfg tasks)
      (fun _ m => m.world = { w with registry := (dispatch cfg.limits tasks w.registry).2 }) E := by
  intro m hm
  subst hm
  rfl

theorem ensures_initialised : Ensures (·.world = w) (onStore Store.initializeSpaces)
    (fun _ m => ∃ c, (Content.Upkeeps w.content c ∧
      ∀ space ∈ Space.ofUsers, c.collection .policy space ≠ []) ∧ m.world = { w with content := c })
    (fun _ m => ∃ c, Content.Upkeeps w.content c ∧ m.world = { w with content := c }) :=
  ensures_onStore (Q := fun _ c => Content.Upkeeps w.content c ∧
    ∀ space ∈ Space.ofUsers, c.collection .policy space ≠ []) (E := Content.Upkeeps w.content)
    (Store.ensures_initializeSpaces w.content)

theorem ensures_recalculate (hfiled : w.content.Filed) :
    Ensures (·.world = w) (onStore (Store.recalculate Space.all))
      (fun _ m => ∃ c, (Content.Refreshed (fun a => a.kind.isContainer) w.content c ∧
        Content.Upkeeps w.content c) ∧ m.world = { w with content := c })
      (fun _ m => ∃ c, Content.Upkeeps w.content c ∧ m.world = { w with content := c }) :=
  ensures_onStore (Q := fun _ c => Content.Refreshed (fun a => a.kind.isContainer) w.content c ∧
    Content.Upkeeps w.content c) (E := Content.Upkeeps w.content)
    (Store.ensures_recalculate hfiled)

theorem ensures_settle (a : Advance) (hfiled : w.content.Filed) :
    Ensures (·.world = w) (settle cfg a) (fun _ m => Aftercare cfg a w m.world)
      (fun _ m => AftercareFailed cfg a w m.world) := by
  unfold settle
  split
  · rename_i hchanges
    refine (ensures_initialised.mono_error ?_).bind fun initialized =>
      .of_exists fun c => .of_and fun hc => ?_
    · rintro _ m ⟨c, hupkeeps, h⟩
      exact h ▸ ⟨hupkeeps, rfl, .inl rfl⟩
    obtain ⟨hinitialized, hpolicies⟩ := hc
    have hfiled' : c.Filed := Content.Upkeeps.filed hinitialized hfiled
    refine (ensures_dispatchAll a.tasks).bind fun registrations => ?_
    refine ((ensures_recalculate hfiled').mono_error ?_).bind fun recalculated => .pure ?_
    · rintro _ m ⟨c', hupkeeps, h⟩
      exact h ▸ ⟨hinitialized.trans hupkeeps, rfl, .inr rfl⟩
    · rintro m ⟨c', ⟨hrefreshed, hupkeeps⟩, h⟩
      exact h ▸ .done hchanges hinitialized hpolicies hrefreshed hupkeeps
  · rename_i hnone
    exact .pure fun m h => h ▸ .none (Bool.not_eq_true _ ▸ hnone)

theorem Started.edits (h : Started cfg remote consumer offset w a w') :
    Content.Edits cfg.space w.content w'.content := by
  cases h with
  | resumed _ => exact .refl
  | loaded _ _ _ h => exact h.edits

theorem Followed.edits (h : Followed cfg remote upper a w a' w') :
    Content.Edits cfg.space w.content w'.content := by
  cases h with
  | current _ => exact .refl
  | updated _ _ h =>
    obtain ⟨_, happlied, -⟩ := h.applied
    exact happlied.edits

theorem Started.registry (h : Started cfg remote consumer offset w a w') :
    w'.registry = w.registry := by
  cases h with
  | resumed _ => rfl
  | loaded _ _ _ h => exact h.registry

theorem Followed.registry (h : Followed cfg remote upper a w a' w') :
    w'.registry = w.registry := by
  cases h with
  | current _ => rfl
  | updated _ _ h => exact h.registry

structure Advanced (cfg : Config) (remote : Remote) (consumer : RemoteConsumer) (w : World)
    (a : Advance) (w' : World) : Prop where
  answer : remote.consumer = .ok consumer
  phases : ∃ started mid,
    Started cfg remote consumer (w.cursors.current cfg.owner).localOffset w.read started mid ∧
    Followed cfg remote consumer.lastOffset started mid a w'

structure Completed (cfg : Config) (remote : Remote) (w : World) (outcome : Outcome) (w' : World) :
    Prop where
  phases : ∃ consumer mid settled, Advanced cfg remote consumer w outcome.advance mid ∧
    Aftercare cfg outcome.advance mid settled ∧ w' = settled.record cfg.owner consumer.lastOffset

/-- A call has failed, in one of its phases or between them. -/
inductive Aborted (cfg : Config) (remote : Remote) (w : World) : World → Prop
  | early {w' : World} (hcontent : w'.content = w.content)
      (hcursors : w'.cursors.cursors = w.cursors.cursors)
      (houtage : w'.cursors.outage = w.cursors.outage) (hregistry : w'.registry = w.registry) :
      Aborted cfg remote w w'
  | start {consumer : RemoteConsumer} {w' : World} (hconsumer : remote.consumer = .ok consumer)
      (h : StartFailed cfg remote consumer (w.cursors.current cfg.owner).localOffset w.read w') :
      Aborted cfg remote w w'
  | follow {consumer : RemoteConsumer} {started : Advance} {mid w' : World}
      (hconsumer : remote.consumer = .ok consumer)
      (hstarted : Started cfg remote consumer (w.cursors.current cfg.owner).localOffset w.read
        started mid)
      (h : Cycle.Failed cfg mid w') : Aborted cfg remote w w'
  | settle {consumer : RemoteConsumer} {a : Advance} {mid w' : World}
      (hadvanced : Advanced cfg remote consumer w a mid) (h : AftercareFailed cfg a mid w') :
      Aborted cfg remote w w'
  | record {consumer : RemoteConsumer} {a : Advance} {mid settled w' : World}
      (hadvanced : Advanced cfg remote consumer w a mid) (hsettled : Aftercare cfg a mid settled)
      (hcontent : w'.content = settled.content) (hregistry : w'.registry = settled.registry)
      (h : settled.cursors.Refused w'.cursors) : Aborted cfg remote w w'

theorem Advanced.edits (h : Advanced cfg remote consumer w a w') :
    Content.Edits cfg.space w.content w'.content := by
  obtain ⟨-, started, mid, hstarted, hfollowed⟩ := h
  exact hstarted.edits.trans hfollowed.edits

theorem Advanced.registry (h : Advanced cfg remote consumer w a w') :
    w'.registry = w.registry := by
  obtain ⟨-, started, mid, hstarted, hfollowed⟩ := h
  exact hfollowed.registry.trans hstarted.registry

/-- A call that has seen no change has made none, and asks for no registration. -/
theorem Advanced.idle (h : Advanced cfg remote consumer w a w') (hidle : a.hasChanges = false) :
    a.snapshot = none ∧ a.tasks = [] ∧ w'.content = w.content := by
  obtain ⟨-, started, mid, hstarted, hfollowed⟩ := h
  cases hfollowed with
  | current _ =>
    cases hstarted with
    | resumed _ => exact ⟨rfl, rfl, rfl⟩
    | loaded _ _ _ _ => cases hidle
  | updated _ _ hcommitted =>
    cases hstarted with
    | loaded _ _ _ _ => cases hidle
    | resumed _ =>
      obtain ⟨effects, happlied, hcount, htasks⟩ := hcommitted.applied
      have hnone : effects.countP Cycle.Effect.isChanged = 0 := by
        rw [← hcount]
        simpa [Advance.hasChanges, Cycle.Report.hasChanges] using hidle
      refine ⟨rfl, ?_, happlied.idle hnone⟩
      exact htasks.trans (Cycle.flatMap_tasks_eq_nil hnone)

theorem Aftercare.upkeeps (h : Aftercare cfg a w w') :
    Content.Upkeeps w.content w'.content := by
  cases h with
  | none _ => exact .refl
  | done _ hinitialized _ _ hupkeeps => exact hinitialized.trans hupkeeps

theorem ensures_synchronize (hfiled : w.content.Filed) :
    Ensures (·.world = w) (synchronize cfg remote)
      (fun outcome m => Completed cfg remote w outcome m.world)
      (fun _ m => Aborted cfg remote w m.world) := by
  unfold synchronize
  have hread := ensures_onCursors (w := w) (CursorStore.ensures_getOrFresh cfg.owner w.cursors)
  refine (hread.mono_error ?_).bind fun cursor => ?_
  · rintro _ m ⟨s, hrefused, h⟩
    exact h ▸ .early rfl hrefused.cursors hrefused.outage rfl
  refine .of_exists fun s => .of_and fun hs => ?_
  obtain ⟨rfl, rfl⟩ := hs
  refine Ensures.bind (ensures_ask _ _) fun answer => .of_and fun hanswer => ?_
  subst hanswer
  refine Ensures.bind (.ofExcept (Q := fun consumer m =>
    remote.consumer = .ok consumer ∧ m.world = w.read) (fun _ _ hconsumer h => ⟨hconsumer, h⟩)
    fun _ _ _ h => h ▸ .early rfl rfl rfl rfl) fun consumer => .of_and fun hconsumer => ?_
  refine ((ensures_start _).mono_error fun _ _ h => .start hconsumer h).bind fun started =>
    ensures_of_world fun mid hstarted => ?_
  refine ((ensures_follow _ started).mono_error fun _ _ h => .follow hconsumer hstarted h).bind
    fun a => ensures_of_world fun mid' hfollowed => ?_
  have hadvanced : Advanced cfg remote consumer w a mid' := ⟨hconsumer, _, _, hstarted, hfollowed⟩
  have hfiled' : mid'.content.Filed := Content.Edits.filed hadvanced.edits hfiled
  refine ((ensures_settle a hfiled').mono_error fun _ _ h => .settle hadvanced h).bind
    fun aftermath => ensures_of_world fun settled hsettled => ?_
  refine ((ensures_onCursors (CursorStore.ensures_revise _ _ _)).mono_error ?_).bind fun _ =>
    .pure ?_
  · rintro _ m ⟨s, hrefused, h⟩
    exact h ▸ .record hadvanced hsettled rfl rfl hrefused
  · rintro m ⟨s, rfl, h⟩
    exact h ▸ ⟨consumer, mid', settled, hadvanced, hsettled, rfl⟩

inductive Call (cfg : Config) (remote : Remote) (m : Replica) : Replica → Prop
  | returned {outcome : Outcome} {m' : Replica} (h : synchronize cfg remote m = .ok outcome m') :
      Call cfg remote m m'
  | failed {e : SyncError} {m' : Replica} (h : synchronize cfg remote m = .error e m') :
      Call cfg remote m m'

theorem Call.cases {m m' : Replica} (h : Call cfg remote m m') (hfiled : m.store.content.Filed) :
    (∃ outcome, Completed cfg remote m.world outcome m'.world) ∨
      Aborted cfg remote m.world m'.world := by
  cases h with
  | returned h => exact .inl ⟨_, (ensures_synchronize hfiled).of_ok rfl h⟩
  | failed h => exact .inr ((ensures_synchronize hfiled).of_error rfl h)

/-- What a call writes: it edits its own space, then it looks after containers. It sends the
registration service one batch at most. -/
structure Wrote (cfg : Config) (w w' : World) : Prop where
  content : ∃ c, Content.Edits cfg.space w.content c ∧ Content.Upkeeps c w'.content
  registry : w'.registry = w.registry ∨
    ∃ tasks, w'.registry = (dispatch cfg.limits tasks w.registry).2

theorem Wrote.of_edits (hedits : Content.Edits cfg.space w.content w'.content)
    (hregistry : w'.registry = w.registry) : Wrote cfg w w' :=
  ⟨⟨_, hedits, .refl⟩, .inl hregistry⟩

theorem Advanced.wrote (hadvanced : Advanced cfg remote consumer w a w')
    (h : Aftercare cfg a w' w'') : Wrote cfg w w'' := by
  refine ⟨⟨_, hadvanced.edits, h.upkeeps⟩, ?_⟩
  cases h with
  | none _ => exact .inl hadvanced.registry
  | done _ _ _ _ _ => exact .inr ⟨a.tasks, by rw [← hadvanced.registry]⟩

theorem Completed.wrote {outcome : Outcome} (h : Completed cfg remote w outcome w') :
    Wrote cfg w w' := by
  obtain ⟨consumer, mid, settled, hadvanced, haftercare, rfl⟩ := h
  exact ⟨(hadvanced.wrote haftercare).content, (hadvanced.wrote haftercare).registry⟩

theorem StartFailed.wrote (h : StartFailed cfg remote consumer offset w w') : Wrote cfg w w' := by
  cases h with
  | reset h => exact .of_edits h.edits h.registry
  | unread h => exact .of_edits h.edits h.registry

theorem Aborted.wrote (h : Aborted cfg remote w w') : Wrote cfg w w' := by
  cases h with
  | early hcontent _ _ hregistry => exact .of_edits (hcontent ▸ .refl) hregistry
  | start _ h => exact ⟨h.wrote.content, h.wrote.registry⟩
  | follow _ hstarted h =>
    exact .of_edits (hstarted.edits.trans h.edits) (h.registry.trans hstarted.registry)
  | settle hadvanced h =>
    refine ⟨⟨_, hadvanced.edits, h.content⟩, hadvanced.registry ▸ h.registry.imp id fun h => ?_⟩
    exact ⟨_, h⟩
  | record hadvanced haftercare hcontent hregistry _ =>
    have hwrote := hadvanced.wrote haftercare
    exact ⟨hcontent ▸ hwrote.content, hregistry ▸ hwrote.registry⟩

theorem Call.wrote {m m' : Replica} (h : Call cfg remote m m') (hfiled : m.store.content.Filed) :
    Wrote cfg m.world m'.world := by
  obtain ⟨outcome, hcompleted⟩ | haborted := h.cases hfiled
  · exact hcompleted.wrote
  · exact haborted.wrote

abbrev Calls (cfg : Config) : Replica → Replica → Prop :=
  Relation.ReflTransGen fun m m' => ∃ remote, Call cfg remote m m'

theorem Wrote.filed (h : Wrote cfg w w') (hfiled : w.content.Filed) : w'.content.Filed := by
  obtain ⟨c, hedits, hupkeeps⟩ := h.content
  exact Content.Upkeeps.filed hupkeeps (Content.Edits.filed hedits hfiled)

theorem Wrote.intact (h : Wrote cfg w w') (hintact : w.content.Intact) : w'.content.Intact := by
  obtain ⟨c, hedits, hupkeeps⟩ := h.content
  exact Content.Upkeeps.intact hupkeeps (Content.Edits.intact hedits hintact)

theorem Calls.filed {m m' : Replica} (h : Calls cfg m m') (hfiled : m.store.content.Filed) :
    m'.store.content.Filed := by
  induction h with
  | refl => exact hfiled
  | tail _ hlast ih =>
    obtain ⟨remote, hcall⟩ := hlast
    exact (hcall.wrote ih).filed ih

theorem Calls.intact {m m' : Replica} (h : Calls cfg m m') (hfiled : m.store.content.Filed)
    (hintact : m.store.content.Intact) : m'.store.content.Intact := by
  induction h with
  | refl => exact hintact
  | tail hfirst hlast ih =>
    obtain ⟨remote, hcall⟩ := hlast
    exact (hcall.wrote (Calls.filed hfirst hfiled)).intact ih

/-- Nothing is stored or registered, and no cursor is set. -/
structure Blank (m : Replica) : Prop where
  content : m.store.content = .empty
  cursors : m.cursors.cursors = .empty
  registered : m.registry.registered = .empty

/-- A call that leaves nothing undone: it returns, or it fails without having changed the content or
the registry. -/
inductive Lossless (cfg : Config) (m : Replica) : Replica → Prop
  | returned {remote : Remote} {outcome : Outcome} {m' : Replica}
      (h : synchronize cfg remote m = .ok outcome m') : Lossless cfg m m'
  | failed {remote : Remote} {e : SyncError} {m' : Replica}
      (h : synchronize cfg remote m = .error e m')
      (hcontent : m'.store.content = m.store.content) (hregistry : m'.registry = m.registry) :
      Lossless cfg m m'

theorem Blank.filed {m : Replica} (h : Blank m) : m.store.content.Filed := h.content ▸ .empty

theorem Blank.intact {m : Replica} (h : Blank m) : m.store.content.Intact := h.content ▸ .empty

theorem Lossless.call {m m' : Replica} (h : Lossless cfg m m') :
    ∃ remote, Call cfg remote m m' := by
  cases h with
  | returned h => exact ⟨_, .returned h⟩
  | failed h _ _ => exact ⟨_, .failed h⟩

theorem Lossless.calls {m m' : Replica} (h : Relation.ReflTransGen (Lossless cfg) m m') :
    Calls cfg m m' := Relation.ReflTransGen.mono (fun _ _ => Lossless.call) _ _ h

section Trial

def trialConfig : Config := .new "context" "consumer" ""

def trialArchive : ByteArray :=
  let record := Json.object [("payload", .object
    [("type", .string "rule"), ("document", .object [("id", .string "r")])])]
  -- The checksum of the record and its size, twice.
  let sizes : ByteArray := ⟨#[88, 72, 122, 157, 49, 0, 0, 0, 49, 0, 0, 0]⟩
  let name := "a.json".toUTF8
  ⟨#[0x50, 0x4b, 3, 4, 20, 0, 0, 0, 0, 0, 0, 0, 0, 0]⟩ ++ sizes ++ ⟨#[6, 0, 0, 0]⟩ ++ name ++
    record.compact.toUTF8 ++
  ⟨#[0x50, 0x4b, 1, 2, 20, 0, 20, 0, 0, 0, 0, 0, 0, 0, 0, 0]⟩ ++ sizes ++
    ⟨#[6, 0, 0, 0, 0, 0, 0, 0, 0, 0, 0, 0, 0, 0, 0, 0, 0, 0]⟩ ++ name ++
  ⟨#[0x50, 0x4b, 5, 6, 0, 0, 0, 0, 1, 0, 1, 0, 52, 0, 0, 0, 85, 0, 0, 0, 0, 0]⟩

/-- A remote with a snapshot at offset 1 that announces offset 2 and answers every request for
changes alike. -/
def announcing (changes : Except SyncError (List Change)) : Remote where
  consumer := .ok ⟨"consumer", "context", 2, some "u", 1⟩
  changes _ _ := ⟨changes, false⟩
  snapshot _ := .ok ⟨trialArchive, 0⟩

/-- A call that loads a snapshot and fails to fetch the changes after it, and a second one that finds
no such changes: the rule is stored, but it is not registered and no user space has a policy. -/
theorem lapse : ∃ e m outcome m',
    synchronize trialConfig (announcing (.error (.unreachable ""))) (.of .empty .empty) =
        .error e m ∧
      synchronize trialConfig (announcing (.ok [])) m = .ok outcome m' ∧
      (m'.store.content.get? ⟨.rule, .standard, "r"⟩).isSome ∧
      m'.registry.registered.size = 0 ∧ m'.store.content.collection .policy .draft = [] := by
  have hends : (match synchronize trialConfig (announcing (.error (.unreachable "")))
        (.of .empty .empty) with
      | .ok _ _ => false
      | .error _ m =>
        match synchronize trialConfig (announcing (.ok [])) m with
        | .error _ _ => false
        | .ok _ m' => (m'.store.content.get? ⟨.rule, .standard, "r"⟩).isSome &&
          m'.registry.registered.size == 0 &&
          (m'.store.content.collection .policy .draft).isEmpty) = true := by
    decide +kernel
  cases hfirst : synchronize trialConfig (announcing (.error (.unreachable "")))
      (.of .empty .empty) with
  | ok outcome m =>
    rw [hfirst] at hends
    cases hends
  | error e m =>
    cases hsecond : synchronize trialConfig (announcing (.ok [])) m with
    | error e m' =>
      simp only [hfirst, hsecond] at hends
      cases hends
    | ok outcome m' =>
      simp only [hfirst, hsecond, Bool.and_eq_true, beq_iff_eq, List.isEmpty_iff] at hends
      obtain ⟨⟨hstored, hregistered⟩, hpolicies⟩ := hends
      exact ⟨e, m, outcome, m', rfl, hsecond, hstored, hregistered, hpolicies⟩

end Trial

end ContentSpaces.Sync
