import ContentSpaces.Proofs.Restart
import ContentSpaces.Proofs.Tending

/-!
# Calls while all services answer

When the content store and the cursor store answer every call, whether a phase of a call returns is
up to the remote and the directories for scratch files, and what it leaves behind can be said
exactly.
-/

namespace ContentSpaces

namespace Store

variable {space : Space}

theorem answers_createAll (rs : List Resource) : Answers (createAll rs) := by
  induction rs with
  | nil => exact .pure _
  | cons r rs ih => exact Answers.bind (.call _ _) fun _ => ih

theorem answers_clearSpace (space : Space) : Answers (clearSpace space) :=
  (Answers.mapM (fun _ => .call _ _) _).bind fun _ => .pure _

end Store

namespace CursorStore

variable {s : CursorStore} {owner : Consumer}

theorem put_put {cs : Cursors} {x y : Cursor} (h : x.owner = y.owner) :
    (cs.put x).put y = cs.put y := by
  apply Table.ext_get?
  intro consumer
  simp only [Cursors.put, Table.get?_insert, h]
  split <;> rfl

theorem put_eq_self {cs : Cursors} {cursor : Cursor} (h : cs.get? cursor.owner = some cursor) :
    cs.put cursor = cs := by
  apply Table.ext_get?
  intro consumer
  rw [Cursors.put, Table.get?_insert]
  split
  · rename_i hconsumer
    rw [hconsumer, h]
  · rfl

end CursorStore

namespace Replica

variable {α : Type} {m₀ m : Replica}

/-- All services answer, and the engine and the directories are those of another replica. -/
structure Serviced (m₀ m : Replica) : Prop where
  store : m.store.Up
  cursors : m.cursors.Up
  engine : m.engine = m₀.engine
  scratch : m.scratch = m₀.scratch

theorem serviced_onStore {act : StoreM α} (h : Store.Answers act) :
    Ensures (Serviced m₀) (onStore act) (fun _ => Serviced m₀) (fun _ _ => False) := by
  intro m hm
  unfold onStore
  cases hr : act m.store with
  | ok a s => exact ⟨h.of_ok hm.store hr, hm.cursors, hm.engine, hm.scratch⟩
  | error e s => exact h.of_error hm.store hr

theorem onCursors_revise (owner : Consumer) (change : Cursor → Cursor) (hm : m.cursors.Up) :
    onCursors (CursorStore.revise owner change) m =
      .ok () { m with cursors := m.cursors.revised owner change } := by
  rw [onCursors, hm.revise_eq]

theorem serviced_revise (owner : Consumer) (change : Cursor → Cursor) :
    Ensures (Serviced m₀) (onCursors (CursorStore.revise owner change)) (fun _ => Serviced m₀)
      (fun _ _ => False) := by
  intro m hm
  rw [onCursors_revise owner change hm.cursors]
  exact ⟨hm.store, hm.cursors, hm.engine, hm.scratch⟩

end Replica

namespace Snapshot

open Replica

variable {cfg : Config} {remote : Remote} {url : String} {space : Space} {lines : List Line}
  {files : List SourceFile} {offset : Nat} {m₀ m : Replica} {w : World}

def fetched (cfg : Config) (remote : Remote) (url : String) : Except SyncError (List SourceFile) :=
  if cfg.snapshotDeadline = some 0 then .error .timeout
  else
    (remote.snapshot url).bind fun download =>
      unpack download.archive (cfg.snapshotDeadline.any (· ≤ download.took))

theorem fetch_eq (cfg : Config) (remote : Remote) (url : String) (m : Replica) :
    ∃ requests, fetch cfg remote url m =
      match fetched cfg remote url with
      | .ok files => .ok files { m with requests := requests }
      | .error e => .error e { m with requests := requests } := by
  unfold fetch fetched
  split
  · exact ⟨m.requests, rfl⟩
  · refine ⟨m.requests ++ [.snapshot url], ?_⟩
    simp only [bind, EStateM.bind, ask, modify_apply, pure, EStateM.pure]
    cases remote.snapshot url with
    | error e => rfl
    | ok download =>
      cases hfiles : unpack download.archive (cfg.snapshotDeadline.any (· ≤ download.took)) with
      | error e =>
        simp only [ofExcept, Except.bind, pure, EStateM.pure, hfiles]
        rfl
      | ok files => simp only [ofExcept, Except.bind, pure, EStateM.pure, hfiles]

def recorded (space : Space) (files : List SourceFile) : List Resource :=
  ((recordFiles files).flatMap linesOf).filterMap (Line.resource? space)

theorem space_eq_of_mem_recorded {r : Resource} (h : r ∈ recorded space files) :
    r.space = space := space_eq_of_mem h

def Readable (space : Space) (lines : List Line) : Prop := ∃ rs, resources space lines = .ok rs

theorem readable_cons_iff {line : Line} {entry : Entry} (h : readLine space line = .ok entry) :
    Readable space (line :: lines) ↔ Readable space lines := by
  unfold Readable
  rw [resources, h]
  cases entry with
  | blank => rfl
  | skipped => rfl
  | resource r =>
    cases resources space lines <;> simp [Except.map]

theorem not_readable_cons {line : Line} {e : SyncError} (h : readLine space line = .error e) :
    ¬ Readable space (line :: lines) := by
  rintro ⟨rs, hrs⟩
  rw [resources, h] at hrs
  cases hrs

theorem serviced_flush (l : Loading) :
    Ensures (Serviced m₀) l.flush (fun _ => Serviced m₀) (fun _ _ => False) :=
  (serviced_onStore (Store.answers_createAll _)).bind fun _ => .pure fun _ h => h

/-- With a store that answers only a line that cannot be read keeps lines from being loaded. -/
theorem serviced_load {l : Loading} : Ensures (Serviced m₀) (load cfg lines l)
    (fun _ m => Readable cfg.space lines ∧ Serviced m₀ m)
    (fun _ m => ¬ Readable cfg.space lines ∧ Serviced m₀ m) := by
  induction lines generalizing l with
  | nil =>
    have hreadable : Readable cfg.space [] := ⟨[], rfl⟩
    unfold load
    split
    · exact .pure fun _ h => ⟨hreadable, h⟩
    · exact (serviced_flush l).mono (fun _ h => h) (fun _ _ h => ⟨hreadable, h⟩)
        fun _ _ h => h.elim
  | cons line lines ih =>
    unfold load
    refine Ensures.bind (.ofExcept (Q := fun entry m =>
      readLine cfg.space line = .ok entry ∧ Serviced m₀ m) (fun _ _ hentry h => ⟨hentry, h⟩)
      fun _ _ herror h => ⟨not_readable_cons herror, h⟩) fun entry => .of_and fun hentry => ?_
    rw [readable_cons_iff hentry]
    cases entry with
    | blank => exact ih
    | skipped => exact ih
    | resource r =>
      dsimp only
      split
      · exact ((serviced_flush _).mono_error fun _ _ h => h.elim).bind fun _ => ih
      · exact ih

structure Replaceable (cfg : Config) (files : List SourceFile) : Prop where
  room : cfg.batchSize < Config.batchLimit
  readable : Readable cfg.space (files.flatMap linesOf)

theorem serviced_replaceContent (files : List SourceFile) :
    Ensures (Serviced m₀) (replaceContent cfg files)
      (fun _ m => Replaceable cfg files ∧ Serviced m₀ m)
      (fun _ _ => ¬ Replaceable cfg files) := by
  have hclear : Ensures (Serviced m₀) (onStore (Store.clearSpace cfg.space))
      (fun _ => Serviced m₀) (fun _ _ => False) := serviced_onStore (Store.answers_clearSpace _)
  unfold replaceContent
  refine (hclear.mono_error fun _ _ h => h.elim).bind fun _ => ?_
  refine Ensures.tryCatch (R := fun _ m => ¬ Replaceable cfg files ∧ Serviced m₀ m) ?_ fun e =>
    .of_and fun hnot => ?_
  · dsimp only
    split
    · rename_i hlimit
      exact .throw_bind fun _ h => ⟨fun hreplaceable => absurd hreplaceable.room (by omega), h⟩
    · rename_i hroom
      refine serviced_load.mono (fun _ h => h) (fun _ _ h => ⟨⟨by omega, h.1⟩, h.2⟩) fun _ _ h =>
        ⟨fun hreplaceable => h.1 hreplaceable.readable, h.2⟩
  · exact ((ensures_attempt (hclear.mono_error fun _ _ h => h.elim)).bind fun _ =>
      .throw fun _ _ => hnot)

theorem serviced_fetch : Ensures (Serviced m₀) (fetch cfg remote url)
    (fun files m => fetched cfg remote url = .ok files ∧ Serviced m₀ m)
    (fun _ _ => ∀ files, fetched cfg remote url ≠ .ok files) := by
  intro m hm
  obtain ⟨requests, hfetch⟩ := fetch_eq cfg remote url m
  rw [hfetch]
  cases h : fetched cfg remote url with
  | ok files => exact ⟨rfl, hm.store, hm.cursors, hm.engine, hm.scratch⟩
  | error e => exact fun _ => nofun

structure Loadable (cfg : Config) (remote : Remote) (url : String) (scratch : String → Bool)
    (files : List SourceFile) : Prop where
  directory : cfg.workDirectory.all scratch = true
  served : fetched cfg remote url = .ok files
  replaceable : Replaceable cfg (recordFiles files)

/-- On a replica whose services answer, a snapshot loads unless something is wrong with it. -/
theorem serviced_bootstrap (hurl : Text.isBlankText url = false) (offset : Nat) :
    Ensures (Serviced m₀) (bootstrap cfg remote url offset)
      (fun _ m => (∃ files, Loadable cfg remote url m₀.scratch files) ∧ Serviced m₀ m)
      (fun _ _ => ∀ files, ¬ Loadable cfg remote url m₀.scratch files) := by
  unfold bootstrap
  rw [if_neg (by simp [hurl])]
  refine Ensures.bind (R := fun now m => Serviced m₀ now ∧ Serviced m₀ m)
    (fun _ hm => ⟨hm, hm⟩) fun now => .of_and fun hnow => ?_
  rw [hnow.scratch]
  dsimp only
  split
  · rename_i hdirectory
    refine .throw_bind fun _ _ files h => ?_
    simp [h.directory] at hdirectory
  · rename_i hdirectory
    refine (serviced_fetch.mono_error fun _ _ hnone files h => hnone files h.served).bind
      fun files => .of_and fun hfiles => ?_
    have hunique {files' : List SourceFile} (h : Loadable cfg remote url m₀.scratch files') :
        files' = files := Except.ok.inj (h.served.symm.trans hfiles)
    refine ((serviced_replaceContent _).mono_error fun _ _ hnot files' h => hnot ?_).bind fun l =>
      .of_and fun hreplaceable => ?_
    · exact hunique h ▸ h.replaceable
    refine ((serviced_revise _ _).mono_error fun _ _ h => h.elim).bind fun _ => .pure fun m hm => ?_
    exact ⟨⟨files, by simpa using hdirectory, hfiles, hreplaceable⟩, hm⟩

theorem bootstrap_recorded {report : Report} {m' : Replica} (hurl : Text.isBlankText url = false)
    (h : bootstrap cfg remote url offset m = .ok report m') :
    ∃ files, fetched cfg remote url = .ok files ∧
      m'.store.content = m.store.content.replaced cfg.space (recorded cfg.space files) ∧
      m'.cursors.cursors = m.cursors.cursors.put { m.cursors.current cfg.owner with
        localOffset := offset
        remoteOffset := offset
        snapshotLink := url } := by
  obtain ⟨files, mid, hfetch, hinstall⟩ := exists_install_of_bootstrap hurl h
  obtain ⟨requests, hfetched⟩ := fetch_eq cfg remote url m
  rw [hfetch] at hfetched
  cases hserved : fetched cfg remote url with
  | error e =>
    rw [hserved] at hfetched
    cases hfetched
  | ok files' =>
    rw [hserved] at hfetched
    cases hfetched
    obtain ⟨c, l, hloaded, -, hworld⟩ := (ensures_install_exact url offset files).of_ok rfl hinstall
    have hcontent : m'.store.content = c := congrArg World.content hworld
    exact ⟨files, rfl, hcontent.trans hloaded.content,
      congrArg (fun w => w.cursors.cursors) hworld⟩

end Snapshot

namespace Cycle

open Replica

variable {cfg : Config} {remote : Remote} {lower upper : Nat} {changes : List Change}
  {cancelled : Bool} {m m' : Replica} {report : Report}

/-- What a cycle that returns has done, on services that answer. -/
theorem exists_of_update (hstore : m.store.Up) (hcursors : m.cursors.Up)
    (hbatch : remote.changes lower upper = ⟨.ok changes, cancelled⟩)
    (h : update cfg remote lower upper m = .ok report m') :
    Orderly lower upper changes ∧ report.committed = lastOffset lower changes ∧ m'.store.Up ∧
      m'.store.content = (batchCourse cfg.space cancelled changes m.store.content).state ∧
      m'.cursors = (m.cursors.revised cfg.owner fun c =>
        { c with localOffset := lastOffset lower changes }) ∧
      m'.engine.phase = .committed ∧ m'.scratch = m.scratch := by
  have hstart : m.engine.phase.canStart = true := by
    cases hphase : m.engine.phase.canStart with
    | true => rfl
    | false =>
      unfold update at h
      simp only [bind, EStateM.bind, get_apply, hphase] at h
      cases h
  have horderly : Orderly lower upper changes := by
    apply Classical.byContradiction
    intro hnot
    obtain ⟨p, herror⟩ := update_of_not_orderly cfg hstart hbatch hnot
    cases herror.symm.trans h
  obtain ⟨s, hs, hcontent, hcourse⟩ := storeCourse_of_up cfg.space cancelled (inOrder changes) hstore
  have hupdate := update_of_orderly cfg hstart hcursors hbatch horderly
  rw [hcourse] at hupdate
  cases hfailure : (course (Content.apply cfg.space) cancelled (inOrder changes)
      m.store.content).failure with
  | some e =>
    rw [Course.ending_of_some ((Course.failure_withState _ s).trans hfailure)] at hupdate
    cases hupdate.symm.trans h
  | none =>
    rw [Course.ending_of_none ((Course.failure_withState _ s).trans hfailure)] at hupdate
    cases hupdate.symm.trans h
    exact ⟨horderly, rfl, hs, hcontent, rfl, rfl, rfl⟩

/-- A cycle without changes writes back the cursor and nothing else. -/
theorem update_of_nil (cfg : Config) (hstart : m.engine.phase.canStart = true)
    (hcursors : m.cursors.Up) (hbatch : remote.changes lower upper = ⟨.ok [], cancelled⟩) :
    ∃ m', update cfg remote lower upper m = .ok ⟨lower, upper, lower, 0, 0, []⟩ m' ∧
      m'.store = m.store ∧
      m'.cursors = m.cursors.revised cfg.owner fun c => { c with localOffset := lower } := by
  have horderly : Orderly lower upper [] := ⟨nofun, List.nodup_nil⟩
  have hsorted : inOrder [] = [] := List.mergeSort_nil
  have hlast : lastOffset lower [] = lower := by rw [lastOffset, hsorted]; rfl
  have hupdate := update_of_orderly cfg hstart hcursors hbatch horderly
  rw [hlast, hsorted] at hupdate
  exact ⟨_, hupdate, rfl, rfl⟩

end Cycle

namespace Sync

open Replica

variable {cfg : Config} {remote : Remote} {consumer : RemoteConsumer} {log : List Change}
  {offset upper : Nat} {m₀ m m' : Replica} {a a' : Advance}

section Start

theorem offered_eq_some {url : String}
    (h : (if offset = 0 then consumer.snapshotLink? else none) = some url) :
    offset = 0 ∧ consumer.snapshotLink? = some url := by
  split at h
  · rename_i hoffset
    exact ⟨hoffset, h⟩
  · cases h

theorem bootstrap_eq_ok {url : String} {report : Snapshot.Report}
    (h : bootstrap cfg remote url offset m = .ok report m') :
    Snapshot.bootstrap cfg remote url offset m = .ok report m' := by
  cases hr : Snapshot.bootstrap cfg remote url offset m with
  | ok report' mid =>
    rw [← h]
    simp only [bootstrap, tryCatch, tryCatchThe, MonadExceptOf.tryCatch, EStateM.tryCatch, hr]
  | error e mid =>
    simp only [bootstrap, tryCatch, tryCatchThe, MonadExceptOf.tryCatch, EStateM.tryCatch, hr, bind,
      EStateM.bind, EStateM.Backtrackable.restore, EStateM.dummyRestore, Cycle.attempt_reset] at h
    cases h

inductive Begun (cfg : Config) (remote : Remote) (consumer : RemoteConsumer) (offset : Nat)
    (m : Replica) : Advance → Replica → Prop
  | resumed (h : (if offset = 0 then consumer.snapshotLink? else none) = none) :
      Begun cfg remote consumer offset m ⟨offset, [], none, none⟩ m
  | loaded {url : String} {files : List Snapshot.SourceFile} {tasks : List Task}
      {report : Snapshot.Report} {m' : Replica} (hoffset : offset = 0)
      (hurl : consumer.snapshotLink? = some url)
      (hfiles : Snapshot.fetched cfg remote url = .ok files)
      (hcontent : m'.store.content =
        m.store.content.replaced cfg.space (Snapshot.recorded cfg.space files))
      (hcursors : m'.cursors.cursors = m.cursors.cursors.put { m.cursors.current cfg.owner with
        localOffset := consumer.lastSnapshotOffset
        remoteOffset := consumer.lastSnapshotOffset
        snapshotLink := url }) :
      Begun cfg remote consumer offset m
        ⟨consumer.lastSnapshotOffset, tasks, some report, none⟩ m'

theorem begun_of_start (h : start cfg remote consumer offset m = .ok a m') :
    Begun cfg remote consumer offset m a m' := by
  unfold start at h
  cases hlink : if offset = 0 then consumer.snapshotLink? else none with
  | none =>
    rw [hlink] at h
    cases h
    exact .resumed hlink
  | some url =>
    rw [hlink] at h
    obtain ⟨hoffset, hurl⟩ := offered_eq_some hlink
    obtain ⟨report, mid, hbootstrap, h⟩ := bind_eq_ok_iff.mp h
    obtain ⟨tasks, read, htasks, h⟩ := bind_eq_ok_iff.mp h
    cases h
    obtain ⟨files, hfiles, hcontent, hcursors⟩ :=
      Snapshot.bootstrap_recorded (not_isBlank_of_snapshotLink? hurl) (bootstrap_eq_ok hbootstrap)
    have hworld : m'.world = mid.world :=
      ((ensures_onStore_of_reads (reads_snapshotTasks cfg.space)).of_ok rfl htasks).2
    exact .loaded hoffset hurl hfiles ((congrArg World.content hworld).trans hcontent)
      ((congrArg (fun w => w.cursors.cursors) hworld).trans hcursors)

theorem answers_snapshotTasks (space : Space) : Store.Answers (snapshotTasks space) :=
  (Store.Answers.mapM (fun _ => Store.Answers.bind (.call _ _) fun _ => .pure _) _).bind
    fun _ => .pure _

/-- Whether a call gets past its start is up to the remote and the directories. -/
theorem serviced_start : Ensures (Serviced m₀) (start cfg remote consumer offset)
    (fun _ m => (∀ url, offset = 0 → consumer.snapshotLink? = some url →
      ∃ files, Snapshot.Loadable cfg remote url m₀.scratch files) ∧ Serviced m₀ m)
    (fun _ _ => offset = 0 ∧ ∃ url, consumer.snapshotLink? = some url ∧
      ∀ files, ¬ Snapshot.Loadable cfg remote url m₀.scratch files) := by
  unfold start
  split
  · rename_i hnone
    refine .pure fun m hm => ⟨fun url hoffset hurl => ?_, hm⟩
    rw [if_pos hoffset, hurl] at hnone
    cases hnone
  · rename_i url hsome
    obtain ⟨hoffset, hurl⟩ := offered_eq_some hsome
    have hbootstrap : Ensures (Serviced m₀) (bootstrap cfg remote url consumer.lastSnapshotOffset)
        (fun _ m => (∃ files, Snapshot.Loadable cfg remote url m₀.scratch files) ∧ Serviced m₀ m)
        (fun _ _ => ∀ files, ¬ Snapshot.Loadable cfg remote url m₀.scratch files) := by
      refine Ensures.tryCatch (Snapshot.serviced_bootstrap (not_isBlank_of_snapshotLink? hurl) _)
        fun e => ?_
      exact Ensures.bind (R := fun _ _ => ∀ files,
        ¬ Snapshot.Loadable cfg remote url m₀.scratch files)
        (ensures_attempt (.intro (fun _ _ _ h _ => h) fun _ _ _ h _ => h)) fun _ => .throw fun _ h => h
    refine (hbootstrap.mono_error fun _ _ hnot => ⟨hoffset, url, hurl, hnot⟩).bind fun report =>
      .of_and fun hloadable => ?_
    refine ((serviced_onStore (answers_snapshotTasks _)).mono_error fun _ _ h => h.elim).bind
      fun tasks => .pure fun m hm => ⟨fun url' _ hurl' => ?_, hm⟩
    cases hurl.symm.trans hurl'
    exact hloadable

end Start

section Settle

/-- What the work after a change makes of the content. -/
theorem ensures_settle_tends {w : World} (a : Advance) (hfiled : w.content.Filed) :
    Ensures (·.world = w) (settle cfg a)
      (fun _ m => m.cursors = w.cursors ∧
        if a.hasChanges then w.content.Tends m.store.content else m.store.content = w.content)
      (fun _ _ => True) := by
  unfold settle
  split
  · refine ((ensures_onStore (Q := fun _ c => c = w.content.initialized) (E := fun _ => True)
      (Store.ensures_initialized w.content)).mono_error fun _ _ _ => trivial).bind fun _ =>
        .of_exists fun c => .of_and fun hc => ?_
    subst hc
    refine (ensures_dispatchAll a.tasks).bind fun _ => ?_
    refine ((ensures_recalculate (hfiled.initialized)).mono_error fun _ _ _ =>
      trivial).bind fun _ => .pure ?_
    rintro m ⟨c, ⟨hrefreshed, -⟩, hm⟩
    have hcontent : m.store.content = c := congrArg World.content hm
    exact ⟨congrArg World.cursors hm, hcontent ▸ hrefreshed⟩
  · exact .pure fun m hm => ⟨congrArg World.cursors hm, congrArg World.content hm⟩

theorem serviced_settle (a : Advance) :
    Ensures (Serviced m₀) (settle cfg a) (fun _ => Serviced m₀) (fun _ _ => False) := by
  unfold settle
  split
  · refine (serviced_onStore Store.answers_initializeSpaces).bind fun _ => ?_
    refine Ensures.bind (R := fun _ => Serviced m₀) (fun m hm => ?_) fun _ => ?_
    · exact ⟨hm.store, hm.cursors, hm.engine, hm.scratch⟩
    · exact (serviced_onStore (Store.answers_recalculate _)).bind fun _ => .pure fun _ h => h
  · exact .pure fun _ h => h

end Settle

section Follow

/-- What following has come to, on services that answer: nothing was left to follow, or a cycle has
applied the changes up to the last one. -/
inductive Covered (cfg : Config) (log : List Change) (upper : Nat) (a : Advance) (m : Replica) :
    Advance → Replica → Prop
  | current (h : ¬ a.offset < upper) : Covered cfg log upper a m a m
  | updated {changes : List Change} {report : Cycle.Report} {m' : Replica} (h : a.offset < upper)
      (hchanges : changes.Perm (Feed.Log.range log a.offset upper))
      (hbounds : Cycle.Orderly a.offset upper changes)
      (hcommitted : report.committed = Cycle.lastOffset a.offset changes)
      (hcontent : m'.store.content =
        (Cycle.batchCourse cfg.space false changes m.store.content).state)
      (hcursors : m'.cursors = m.cursors.revised cfg.owner fun c =>
        { c with localOffset := report.committed })
      (hup : m'.store.Up) (hphase : m'.engine.phase = .committed)
      (hscratch : m'.scratch = m.scratch) :
      Covered cfg log upper a m
        { a with
          offset := report.committed
          tasks := a.tasks ++ report.registrations
          update := some report } m'

theorem covered_of_follow (hstore : m.store.Up) (hcursors : m.cursors.Up)
    (hremote : Cycle.Supplies remote log) (h : follow cfg remote upper a m = .ok a' m') :
    Covered cfg log upper a m a' m' := by
  unfold follow at h
  split at h
  · rename_i hbelow
    obtain ⟨report, mid, hupdate, h⟩ := bind_eq_ok_iff.mp h
    cases h
    obtain ⟨changes, hbatch, hperm⟩ := hremote a.offset upper
    obtain ⟨horderly, hcommitted, hup, hcontent, hrevised, hphase, hscratch⟩ :=
      Cycle.exists_of_update hstore hcursors hbatch hupdate
    exact .updated hbelow hperm horderly hcommitted hcontent (hcommitted ▸ hrevised) hup hphase
      hscratch
  · rename_i hreached
    cases h
    exact .current hreached

end Follow

section Phases

def called (m : Replica) : Replica :=
  { asked m with requests := m.requests ++ [.consumer] }

theorem onCursors_getOrFresh (owner : Consumer) (hm : m.cursors.Up) :
    onCursors (CursorStore.getOrFresh owner) m = .ok (m.cursors.current owner) (asked m) := by
  rw [onCursors, getOrFresh_of_up hm]
  rfl

/-- The phases of a call that returns. -/
theorem synchronize_eq_ok_iff {outcome : Outcome} (hcursors : m.cursors.Up) :
    synchronize cfg remote m = .ok outcome m' ↔
      ∃ consumer started m₁ a m₂ aftermath m₃, remote.consumer = .ok consumer ∧
        start cfg remote consumer (m.cursors.current cfg.owner).localOffset (called m) =
          .ok started m₁ ∧
        follow cfg remote consumer.lastOffset started m₁ = .ok a m₂ ∧
        settle cfg a m₂ = .ok aftermath m₃ ∧
        onCursors (CursorStore.revise cfg.owner fun c =>
          { c with remoteOffset := consumer.lastOffset }) m₃ = .ok () m' ∧
        outcome = ⟨a, aftermath, consumer.lastOffset⟩ := by
  have hread := onCursors_getOrFresh cfg.owner hcursors
  have hask (answer : Except SyncError RemoteConsumer) :
      ask .consumer answer (asked m) = .ok answer (called m) := rfl
  unfold synchronize
  constructor
  · intro h
    obtain ⟨cursor, read, hcursor, h⟩ := bind_eq_ok_iff.mp h
    cases hread.symm.trans hcursor
    obtain ⟨answer, asking, hasked, h⟩ := bind_eq_ok_iff.mp h
    cases (hask remote.consumer).symm.trans hasked
    obtain ⟨consumer, answered, hconsumer, h⟩ := bind_eq_ok_iff.mp h
    obtain ⟨started, m₁, hstarted, h⟩ := bind_eq_ok_iff.mp h
    obtain ⟨a, m₂, hfollowed, h⟩ := bind_eq_ok_iff.mp h
    obtain ⟨aftermath, m₃, hsettled, h⟩ := bind_eq_ok_iff.mp h
    obtain ⟨_, recorded, hrecorded, h⟩ := bind_eq_ok_iff.mp h
    cases h
    cases hanswer : remote.consumer with
    | error e =>
      rw [hanswer] at hconsumer
      cases hconsumer
    | ok consumer' =>
      rw [hanswer] at hconsumer
      cases hconsumer
      exact ⟨consumer, started, m₁, a, m₂, aftermath, m₃, rfl, hstarted, hfollowed, hsettled,
        hrecorded, rfl⟩
  · rintro ⟨consumer, started, m₁, a, m₂, aftermath, m₃, hconsumer, hstarted, hfollowed, hsettled,
      hrecorded, rfl⟩
    refine bind_eq_ok_iff.mpr ⟨_, _, hread, bind_eq_ok_iff.mpr ⟨_, _, hask _, ?_⟩⟩
    rw [hconsumer]
    exact bind_eq_ok_iff.mpr ⟨_, _, rfl, bind_eq_ok_iff.mpr ⟨_, _, hstarted, bind_eq_ok_iff.mpr
      ⟨_, _, hfollowed, bind_eq_ok_iff.mpr ⟨_, _, hsettled, bind_eq_ok_iff.mpr
        ⟨_, _, hrecorded, rfl⟩⟩⟩⟩⟩

end Phases

end Sync

end ContentSpaces
